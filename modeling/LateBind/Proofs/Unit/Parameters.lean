import LateBind.Linking.Registry
import LateBind.Proofs.Lexical.Places

/-!
# Parameter slots

The slots of a function are passed in one row: first the parameters that a caller passes, then those
that hold captured names. The row says nothing of where the second part begins; that is counted from
the end, with the number of captured names. However the two kinds of parameters are added, the row
splits where it should, and what a caller may pass does not depend on what is captured.
-/

namespace LateBind

/-! ## 1. One row of slots -/

/-- The slots of a function in one row, the last `captured` of which hold captured names. -/
structure SlotRow where
  slots : List Name := []
  captured : Nat := 0
deriving DecidableEq

namespace SlotRow

/-- Where the captured names begin. It is counted anew each time, which fails if more names were
captured than there are slots. -/
def userArity? (r : SlotRow) : Option Nat :=
  if r.captured ≤ r.slots.length then some (r.slots.length - r.captured) else none

def userParams? (r : SlotRow) : Option (List Name) := r.userArity?.map fun n => r.slots.take n

def syntheticParams? (r : SlotRow) : Option (List Name) := r.userArity?.map fun n => r.slots.drop n

/-- Puts more user parameters in, before the captured names. -/
def addUser? (r : SlotRow) (names : List Name) : Option SlotRow :=
  r.userArity?.map fun n => { r with slots := r.slots.take n ++ names ++ r.slots.drop n }

def addCaptured (r : SlotRow) (name : Name) : SlotRow :=
  { slots := r.slots ++ [name], captured := r.captured + 1 }

/-- What an edit does to the row. Most leave it as it is. -/
def edit? (r : SlotRow) : Edit → Option SlotRow
  | .parameters names => r.addUser? names
  | .syntheticParameter name => some (r.addCaptured name)
  | .varargs _ | .synthetic _ | .target _ | .body _ => some r

/-- The row that holds `user` and then `captured`. -/
def ofParts (user captured : List Name) : SlotRow := ⟨user ++ captured, captured.length⟩

section Parts

variable (user captured : List Name)

theorem captured_le_ofParts :
    (ofParts user captured).captured ≤ (ofParts user captured).slots.length := by
  rw [ofParts, List.length_append]
  exact Nat.le_add_left _ _

-- Counting from the end finds the place where the parts meet.
theorem userArity?_ofParts : (ofParts user captured).userArity? = some user.length := by
  rw [userArity?, if_pos (captured_le_ofParts user captured)]
  rw [ofParts, List.length_append, Nat.add_sub_cancel]

theorem userParams?_ofParts : (ofParts user captured).userParams? = some user := by
  rw [userParams?, userArity?_ofParts, Option.map_some]
  exact congrArg some List.take_left

theorem syntheticParams?_ofParts : (ofParts user captured).syntheticParams? = some captured := by
  rw [syntheticParams?, userArity?_ofParts, Option.map_some]
  exact congrArg some List.drop_left

theorem addUser?_ofParts (names : List Name) :
    (ofParts user captured).addUser? names = some (ofParts (user ++ names) captured) := by
  rw [addUser?, userArity?_ofParts, Option.map_some]
  simp only [ofParts, List.take_left, List.drop_left]

theorem addCaptured_ofParts (name : Name) :
    (ofParts user captured).addCaptured name = ofParts user (captured ++ [name]) := by
  simp only [addCaptured, ofParts, List.append_assoc, List.length_append, List.length_singleton]

end Parts

end SlotRow

/-! ## 2. The edits of a function -/

namespace Edit

/-- The user parameters that an edit adds. -/
def userNames : Edit → List Name
  | .parameters names => names
  | _ => []

/-- The captured name that an edit adds a slot for. -/
def capturedName? : Edit → Option Name
  | .syntheticParameter name => some name
  | _ => none

end Edit

namespace Function

/-- The slots of a function in one row. -/
def slotRow (f : Function) : SlotRow := .ofParts f.userParams f.syntheticParams

variable (f : Function)

theorem edit?_slotRow (e : Edit) : f.slotRow.edit? e = some (f.edit e).slotRow := by
  cases e with
  | parameters names => exact SlotRow.addUser?_ofParts _ _ names
  | syntheticParameter name => exact congrArg some (SlotRow.addCaptured_ofParts _ _ name)
  | varargs | synthetic | target | body => rfl

theorem foldlM_slotRow (es : List Edit) :
    es.foldlM SlotRow.edit? f.slotRow = some (es.foldl edit f).slotRow := by
  induction es generalizing f with
  | nil => rfl
  | cons e rest ih =>
    rw [List.foldlM_cons, edit?_slotRow, List.foldl_cons]
    exact ih (f.edit e)

theorem userParams_edit (e : Edit) : (f.edit e).userParams = f.userParams ++ e.userNames := by
  cases e with
  | parameters names => rfl
  | syntheticParameter | varargs | synthetic | target | body => exact (List.append_nil _).symm

theorem userParams_edits (es : List Edit) :
    (es.foldl edit f).userParams = f.userParams ++ es.flatMap Edit.userNames := by
  induction es generalizing f with
  | nil => exact (List.append_nil _).symm
  | cons e rest ih =>
    rw [List.foldl_cons, ih, userParams_edit, List.append_assoc, List.flatMap_cons]

theorem syntheticParams_edit (e : Edit) :
    (f.edit e).syntheticParams = f.syntheticParams ++ e.capturedName?.toList := by
  cases e with
  | syntheticParameter name => rfl
  | parameters | varargs | synthetic | target | body => exact (List.append_nil _).symm

theorem syntheticParams_edits (es : List Edit) :
    (es.foldl edit f).syntheticParams = f.syntheticParams ++ es.filterMap Edit.capturedName? := by
  induction es generalizing f with
  | nil => exact (List.append_nil _).symm
  | cons e rest ih =>
    rw [List.foldl_cons, ih, syntheticParams_edit, List.append_assoc]
    cases he : e.capturedName? with
    | some name => rw [List.filterMap_cons_some he]; rfl
    | none => rw [List.filterMap_cons_none he]; rfl

/-! ## 3. What callers see -/

/-- The function without the slots for captured names. -/
def withoutCaptured : Function := { f with syntheticParams := [] }

theorem accepts_withoutCaptured (args : Nat) : f.withoutCaptured.accepts args = f.accepts args :=
  rfl

theorem ofFunction_withoutCaptured (unit : Name) (id : FunctionId) :
    Entry.ofFunction unit id f.withoutCaptured = Entry.ofFunction unit id f := rfl

-- An edit adds a captured name, which goes, or does without such names what it does with them.
theorem withoutCaptured_edit (e : Edit) :
    (f.edit e).withoutCaptured =
      if e.capturedName?.isSome then f.withoutCaptured else f.withoutCaptured.edit e := by
  cases e <;> rfl

theorem withoutCaptured_edits (es : List Edit) :
    (es.foldl edit f).withoutCaptured =
      (es.filter (·.capturedName?.isNone)).foldl edit f.withoutCaptured := by
  induction es generalizing f with
  | nil => rfl
  | cons e rest ih =>
    rw [List.foldl_cons, ih, withoutCaptured_edit, List.filter_cons]
    cases e.capturedName? <;> rfl

-- Publishing adds captured names one by one.
theorem withCaptured_eq_edits (added : List Name) :
    f.withCaptured added = (added.map Edit.syntheticParameter).foldl edit f := by
  induction added generalizing f with
  | nil => exact f.withCaptured_nil
  | cons name rest ih =>
    rw [List.map_cons, List.foldl_cons, ← ih]
    simp only [withCaptured, edit, List.append_assoc, List.singleton_append]

theorem withoutCaptured_withCaptured (added : List Name) :
    (f.withCaptured added).withoutCaptured = f.withoutCaptured := rfl

end Function

/-! ## 4. Every function -/

/-- What the slots of a function are after the edits `es`. -/
structure Function.SlotsAfter (f : Function) (es : List Edit) : Prop where
  user : f.userParams = es.flatMap Edit.userNames
  captured : f.syntheticParams = es.filterMap Edit.capturedName?
  /-- All of them, in the order in which they are passed. -/
  all : f.params = es.flatMap Edit.userNames ++ es.filterMap Edit.capturedName?
  arity : f.arity =
    (es.flatMap Edit.userNames).length + (es.filterMap Edit.capturedName?).length
  /-- Only what the user wrote decides about the number of arguments. -/
  accepts : ∀ args,
    f.accepts args = signatureAccepts (es.flatMap Edit.userNames).length f.varargs args

/-- The row `r` splits as the slots of `f` do. -/
structure SlotRow.SplitsAs (r : SlotRow) (f : Function) : Prop where
  slots : r.slots = f.params
  captured : r.captured = f.syntheticParams.length
  captured_le : r.captured ≤ r.slots.length
  userArity : r.userArity? = some f.userArity
  userParams : r.userParams? = some f.userParams
  syntheticParams : r.syntheticParams? = some f.syntheticParams

/-- Calls see the same of `f` and `g`: which arguments they take, and what is registered of them. -/
structure Function.SameForCalls (f g : Function) : Prop where
  accepts : ∀ args, f.accepts args = g.accepts args
  entry : ∀ unit id, Entry.ofFunction unit id f = Entry.ofFunction unit id g
  entryAccepts : ∀ unit id args, (Entry.ofFunction unit id f).accepts args = g.accepts args

theorem Function.slotRow_splitsAs (f : Function) : f.slotRow.SplitsAs f where
  slots := rfl
  captured := rfl
  captured_le := SlotRow.captured_le_ofParts _ _
  userArity := SlotRow.userArity?_ofParts _ _
  userParams := SlotRow.userParams?_ofParts _ _
  syntheticParams := SlotRow.syntheticParams?_ofParts _ _

theorem Function.SameForCalls.of_withoutCaptured {f g : Function}
    (h : f.withoutCaptured = g.withoutCaptured) : f.SameForCalls g := by
  have hentry : ∀ unit id, Entry.ofFunction unit id f = Entry.ofFunction unit id g := by
    intro unit id
    rw [← f.ofFunction_withoutCaptured, h, g.ofFunction_withoutCaptured]
  have haccepts : ∀ args, f.accepts args = g.accepts args := by
    intro args
    rw [← f.accepts_withoutCaptured, h, g.accepts_withoutCaptured]
  exact ⟨haccepts, hentry, fun unit id args => haccepts args⟩

/-- **Captures come last and do not count.** However parameters and captured names are added to a
declared function, in whatever order and number,

* the user parameters are all those given, then come all the captured names, each in the order of
  the edits, and only the number of user parameters and the varargs flag decide about a call;
* keeping them in one row with the number of captured names never counts below zero and splits the
  row where they meet;
* without the edits that add captured names, calls see the same of the function, and so they do with
  the captured names that publishing adds, which is one more row of edits.
-/
theorem slots_split (name : Name) (visibility : Visibility) (kind : FunctionKind) (span : Span)
    (es : List Edit) :
    let declared : Function := { name, visibility, kind, span }
    let f := es.foldl Function.edit declared
    f.SlotsAfter es ∧
    (∃ r, es.foldlM SlotRow.edit? {} = some r ∧ r.SplitsAs f) ∧
    f.SameForCalls ((es.filter (·.capturedName?.isNone)).foldl Function.edit declared) ∧
    ∀ added,
      f.withCaptured added =
        (es ++ added.map Edit.syntheticParameter).foldl Function.edit declared ∧
      (f.withCaptured added).SameForCalls f := by
  intro declared f
  have huser : f.userParams = es.flatMap Edit.userNames := declared.userParams_edits es
  have hcaptured : f.syntheticParams = es.filterMap Edit.capturedName? :=
    declared.syntheticParams_edits es
  have hall : f.params = es.flatMap Edit.userNames ++ es.filterMap Edit.capturedName? := by
    rw [Function.params, huser, hcaptured]
  refine ⟨⟨huser, hcaptured, hall, ?_, fun args => ?_⟩, ?_, ?_, fun added => ?_⟩
  · rw [Function.arity, hall, List.length_append]
  · rw [Function.accepts, Function.userArity, huser]
  · exact ⟨f.slotRow, declared.foldlM_slotRow es, f.slotRow_splitsAs⟩
  · refine .of_withoutCaptured ?_
    -- What is left has no captured names that could go.
    rw [declared.withoutCaptured_edits, Function.withoutCaptured_edits, List.filter_filter]
    simp only [Bool.and_self]
  · rw [List.foldl_append]
    exact ⟨f.withCaptured_eq_edits added,
      .of_withoutCaptured (f.withoutCaptured_withCaptured added)⟩

-- A parameter that comes after a captured name is put in before it.
example : [.syntheticParameter ⟨7⟩, .parameters [⟨1⟩], .syntheticParameter ⟨8⟩,
      .parameters [⟨2⟩, ⟨3⟩]].foldlM SlotRow.edit? {} =
    some ⟨[⟨1⟩, ⟨2⟩, ⟨3⟩, ⟨7⟩, ⟨8⟩], 2⟩ := rfl

end LateBind
