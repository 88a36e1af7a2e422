import LateBind.Syntax.Function

/-!
Lexical scope. A scope lists what each open block has bound so far, innermost block first. The
parameters of a function are a block of their own around its body.
-/
namespace LateBind

/-- How a slot came to be. -/
inductive SlotOrigin where
  | parameter
  /-- A synthetic parameter, which holds a captured binding. -/
  | captured
  | statement
deriving DecidableEq, Repr

def SlotOrigin.text : SlotOrigin → String
  | parameter => "Parameter"
  | captured => "Captured"
  | statement => "Let"

/-- A place in a function's frame, one for each binding. -/
structure Slot where
  name : Name
  kind : BindingKind
  origin : SlotOrigin
  span : Span
deriving DecidableEq, Repr

structure Scope where
  innermost : List Slot
  /-- The blocks around it, from the inside out. -/
  enclosing : List (List Slot)
deriving Repr

/-- The slot a block has for a name. -/
def slotNamed? (block : List Slot) (n : Name) : Option Slot := block.find? (·.name == n)

namespace Scope

/-- One open block with nothing bound. -/
def empty : Scope := ⟨[], []⟩

/-- Opens a block. -/
def enter (σ : Scope) : Scope := ⟨[], σ.innermost :: σ.enclosing⟩

/-- The slot that `n` stands for: that of the nearest block that has bound it. -/
def find? (σ : Scope) (n : Name) : Option Slot :=
  (σ.innermost :: σ.enclosing).findSome? (slotNamed? · n)

def binds (σ : Scope) (n : Name) : Bool := (σ.find? n).isSome

/-- The binding that one of the same name in the innermost block would repeat. -/
def repeated? (σ : Scope) (n : Name) : Option Slot := slotNamed? σ.innermost n

/-- Binds a slot in the innermost block. A repeated name keeps its first slot. -/
def bind (σ : Scope) (s : Slot) : Scope :=
  match σ.repeated? s.name with
  | some _ => σ
  | none => { σ with innermost := σ.innermost ++ [s] }

/-- A block that was just opened hides nothing. -/
theorem find?_enter (σ : Scope) (n : Name) : σ.enter.find? n = σ.find? n := by
  simp [find?, enter, slotNamed?, List.findSome?_cons]

/-- A binding changes what its own name stands for, unless the block has bound that name before. -/
theorem find?_bind (σ : Scope) (s : Slot) (n : Name) :
    (σ.bind s).find? n =
      if n = s.name then some ((σ.repeated? s.name).getD s) else σ.find? n := by
  cases h : σ.repeated? s.name with
  | some first =>
      have h' := h
      unfold repeated? at h'
      by_cases hn : n = s.name <;> simp [bind, h, find?, h', hn]
  | none =>
      have h' := h
      unfold repeated? at h'
      by_cases hn : n = s.name
      · subst hn
        rw [slotNamed?] at h'
        simp [bind, h, find?, slotNamed?, List.find?_append, h']
      · simp [bind, h, find?, slotNamed?, List.findSome?_cons, List.find?_append, hn, Ne.symm hn]

end Scope

/-- The slots of a function's parameters. User parameters can be assigned to, captured bindings
cannot. -/
def Function.paramSlots (f : Function) : List Slot :=
  f.userParams.map (fun n => ⟨n, .assignable, .parameter, f.span⟩) ++
    f.syntheticParams.map fun n => ⟨n, .constant, .captured, f.span⟩

/-- The scope that a function's body is opened in. -/
def Function.paramScope (f : Function) : Scope := f.paramSlots.foldl Scope.bind .empty

end LateBind
