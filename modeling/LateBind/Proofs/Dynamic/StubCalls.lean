import LateBind.Proofs.Dynamic.History
import LateBind.Proofs.Linking.Receivers

/-!
# Calls through a stub

What a stub may be called with is checked when it is linked. As long as its token is valid the
property it is bound to is one that passed the check, so a call with as many arguments as the stub
was linked for finds nothing wrong with their number.
-/

namespace LateBind

/-! ## 1. A target that was linked -/

/-- What calling property `name` of object `o`, which is `x`, with `args` enters: a program and the
heap it starts with, for each thing that a link can say. -/
inductive Enters (code : Routines) (h : Heap) (o : ObjectId) (x : Object) (name : String)
    (args : List Value) : Target → Program → Heap → Prop where
  /-- The property is a function, and its body runs on the arguments as they are. -/
  | method {f} : x.properties.get? name = some (.function f) →
      Enters code h o x name args (.method f) (code f.routine args) h
  /-- The property is what the call answers with. -/
  | constant {v} : x.properties.get? name = some v →
      Enters code h o x name args (.constant v) (.done (.ok v)) h
  /-- The second argument is bound to the name and the call answers with the receiver. -/
  | bound {v k y} : args = [.object o, v] → h.define o name v = some (.ok (), k) →
      k.object? o = some y → y.properties.get? name = some v →
      Enters code h o x name args (.define name) (.done (.ok (.object o))) k
  /-- The object is frozen and refuses to be bound anew. -/
  | frozen {v} : args = [.object o, v] → x.frozen = true →
      Enters code h o x name args (.define name) (.done (.error (.frozen name))) h
  /-- There is no such property. -/
  | missing : x.properties.get? name = none →
      Enters code h o x name args (.missing name) (.done (.error (.propertyMissing name args))) h

theorem exists_of_receiver? {args : List Value} {o : ObjectId} (hr : receiver? args = some o) :
    ∃ rest, args = .object o :: rest := by
  cases args with
  | nil => cases hr
  | cons v rest =>
    cases v with
    | object p =>
      cases hr
      exact ⟨rest, rfl⟩
    | _ => cases hr

section Enter

variable {code : Routines} {h : Heap} {o : ObjectId} {x : Object} {name : String} {shape : Shape}
  {args : List Value} {t : Target}

-- A setter has one receiver and one value to work with.
theorem exists_enters_define (ho : h.object? o = some x) (hlen : args.length = 2)
    (hr : receiver? args = some o) :
    ∃ p k, (Target.define name).enter code h args = some (p, k) ∧
      Enters code h o x name args (.define name) p k := by
  obtain ⟨rest, rfl⟩ := exists_of_receiver? hr
  obtain ⟨v, rfl⟩ := List.length_eq_one_iff.1 (Nat.succ.inj hlen)
  have hdefine : h.define o name v = some (if x.frozen then (.error (.frozen name), h)
      else (.ok (), h.commit o (x.define name v))) := by
    rw [Heap.define, ho]
    rfl
  cases hx : x.frozen with
  | true =>
    rw [hx, if_pos rfl] at hdefine
    exact ⟨_, _, by rw [Target.enter, hdefine]; rfl, .frozen rfl hx⟩
  | false =>
    rw [hx, if_neg Bool.false_ne_true] at hdefine
    have hobject : (h.commit o (x.define name v)).object? o = some (x.define name v).1 := by
      rw [Heap.object?_commit ho, if_pos rfl]
    have hbound : (x.define name v).1.properties.get? name = some v := by
      rw [Object.define, Table.get?_insert, if_pos rfl]
    exact ⟨_, _, by rw [Target.enter, hdefine]; rfl, .bound rfl hdefine hobject hbound⟩

/-- What the check at link time lets through can be called with that many arguments. -/
theorem exists_enters_of_target (ho : h.object? o = some x) (ht : x.target name shape = .ok t)
    (hlen : args.length = shape.arity) (hr : receiver? args = some o) :
    ∃ p k, t.enter code h args = some (p, k) ∧ Enters code h o x name args t p k := by
  unfold Object.target at ht
  split at ht
  next f hf =>
    split at ht
    · cases ht
    next hfault =>
      cases ht
      have haccepts : f.accepts args.length = true :=
        hlen ▸ (Callable.methodFault?_eq_none_iff.1 hfault).2.2
      exact ⟨_, _, by rw [Target.enter, Callable.body, if_pos haccepts], .method hf⟩
  next v hnot hv =>
    split at ht
    · cases ht
      exact ⟨_, _, rfl, .constant hv⟩
    · split at ht
      next harity =>
        cases ht
        exact exists_enters_define ho (hlen.trans harity) hr
      · cases ht
  next hnone =>
    cases ht
    split
    next harity => exact exists_enters_define ho (hlen.trans harity) hr
    next => exact ⟨_, _, rfl, .missing hnone⟩

end Enter

/-! ## 2. A handle keeps its stub -/

namespace Heap

/-- From `h` to `k` handles on stubs were given out, and some were dropped. -/
structure KeepsStubs (h k : Heap) : Prop where
  length_le : h.stubs.length ≤ k.stubs.length
  kept : ∀ i < h.stubs.length, k.stubs[i]? = h.stubs[i]? ∨ k.stubs[i]? = some none

namespace KeepsStubs

variable {h j k : Heap}

theorem of_eq (hstubs : k.stubs = h.stubs) : h.KeepsStubs k where
  length_le := Nat.le_of_eq (congrArg List.length hstubs.symm)
  kept i _ := .inl (congrArg (·[i]?) hstubs)

theorem of_append {new : List (Option Stub)} (hstubs : k.stubs = h.stubs ++ new) :
    h.KeepsStubs k where
  length_le := by rw [hstubs, List.length_append]; exact Nat.le_add_right _ _
  kept i hi := .inl (by rw [hstubs, List.getElem?_append_left hi])

theorem of_drop {s : StubId} (hstubs : k.stubs = h.stubs.set s.index none) : h.KeepsStubs k where
  length_le := Nat.le_of_eq (by rw [hstubs, List.length_set])
  kept i hi := by
    rw [hstubs, List.getElem?_set]
    by_cases hs : s.index = i
    · exact .inr (by rw [if_pos hs, if_pos (hs ▸ hi)])
    · exact .inl (if_neg hs)

theorem trans (h₁ : h.KeepsStubs j) (h₂ : j.KeepsStubs k) : h.KeepsStubs k where
  length_le := Nat.le_trans h₁.length_le h₂.length_le
  kept i hi := by
    rcases h₂.kept i (Nat.lt_of_lt_of_le hi h₁.length_le) with heq | hdropped
    · rw [heq]
      exact h₁.kept i hi
    · exact .inr hdropped

theorem stub?_eq (hk : h.KeepsStubs k) {s : StubId} {x y : Stub} (hx : h.stub? s = some x)
    (hy : k.stub? s = some y) : y = x := by
  have hx : h.stubs[s.index]? = some (some x) := Option.join_eq_some_iff.1 hx
  have hy : k.stubs[s.index]? = some (some y) := Option.join_eq_some_iff.1 hy
  rcases hk.kept s.index (List.getElem?_eq_some_iff.1 hx).1 with heq | hdropped
  · rw [hx, hy] at heq
    exact Option.some.inj (Option.some.inj heq)
  · rw [hy] at hdropped
    cases hdropped

end KeepsStubs

theorem Changes.stubs {h k : Heap} {ds : List Deed} (hc : h.Changes ds k) : k.stubs = h.stubs := by
  cases hc <;> rfl

theorem stubs_link {h k : Heap} {stack : List Frame} {o : ObjectId} {name : String} {shape : Shape}
    {l : Link} (hp : h.link stack o name shape = some (.ok (l, k))) : k.stubs = h.stubs := by
  obtain ⟨y, t, -, -, -, rfl⟩ := exists_of_link hp
  rfl

theorem stubs_referenceSite {h k : Heap} {r : ReferenceId} {name : String} {arity : Nat}
    {s : SiteId} (hp : h.referenceSite r name arity = some (s, k)) : k.stubs = h.stubs := by
  obtain ⟨current, -, hp⟩ := Option.map_eq_some_iff.1 hp
  dsimp only at hp
  split at hp <;> cases hp <;> rfl

end Heap

theorem Operation.keepsStubs_perform {a : Operation} {h k : Heap} {stack : List Frame} {r : a.Reply}
    (hp : a.perform h stack = some (r, k)) : h.KeepsStubs k := by
  cases a with
  | create | createSite name shape | createReference =>
    cases hp
    exact .of_eq rfl
  | copy o | freeze o | properties o | isFrozen o =>
    obtain ⟨x, -, hx⟩ := Option.map_eq_some_iff.1 hp
    cases hx
    exact .of_eq rfl
  | define o name v => exact .of_eq (Heap.changes_define hp).stubs
  | undefine o name => exact .of_eq (Heap.changes_undefine hp).stubs
  | mixin o source => exact .of_eq (Heap.changes_mixin hp).stubs
  | link o name shape fallback =>
    obtain ⟨e, he, hx⟩ := Option.map_eq_some_iff.1 hp
    cases e with
    | error e =>
      cases hx
      exact .of_eq rfl
    | ok p =>
      cases hx
      exact .of_append (congrArg (· ++ _) (Heap.stubs_link he))
  | cloneStub s =>
    obtain ⟨x, -, hx⟩ := Option.map_eq_some_iff.1 hp
    cases hx
    exact .of_append rfl
  | dropStub s =>
    cases hp
    exact .of_drop rfl
  | cloneSite s | dropSite s =>
    simp only [Operation.perform] at hp
    split at hp <;> cases hp <;> exact .of_eq rfl

theorem Dispatched.stubs {code : Routines} {h : Heap} {s : SiteId} {args : List Value}
    {stack : List Frame} {d : Config} {ds : List Deed} (hd : Dispatched code h s args stack d ds) :
    d.heap.stubs = h.stubs := by
  cases hd with
  | guarded _ _ _ hk => exact (Target.changes_enter hk).stubs
  | refused => rfl
  | relinked _ _ hl hj =>
    have hlink := Heap.stubs_link hl
    exact (Target.changes_enter hj).stubs.trans hlink

theorem Invocation.stubs_enter {i : Invocation} {code : Routines} {h : Heap} {stack : List Frame}
    {d : Config} (hd : i.enter code h stack = some d) : d.heap.stubs = h.stubs := by
  cases i with
  | function f args =>
    cases hd
    rfl
  | stub s args =>
    obtain ⟨x, -, hd⟩ := Option.bind_eq_some_iff.1 hd
    split at hd
    · obtain ⟨⟨p, k⟩, hk, hd⟩ := Option.bind_eq_some_iff.1 hd
      cases hd
      exact (Target.changes_enter hk).stubs
    · cases hd
      rfl
  | site s args =>
    obtain ⟨⟨t, live⟩, -, hd⟩ := Option.bind_eq_some_iff.1 hd
    cases live with
    | true => exact (dispatched_of_dispatch hd).stubs
    | false =>
      obtain ⟨y, -, hd⟩ := Option.bind_eq_some_iff.1 hd
      cases hd
      rfl
  | reference r callee args =>
    cases callee with
    | boundMethod o name =>
      obtain ⟨⟨s, k⟩, hk, hd⟩ := Option.bind_eq_some_iff.1 hd
      exact (dispatched_of_dispatch hd).stubs.trans (Heap.stubs_referenceSite hk)
    | _ =>
      cases hd
      rfl

theorem Frame.stubs_finish (f : Frame) (outcome : Outcome) (h : Heap) (stack : List Frame) :
    (f.finish outcome h stack).heap.stubs = h.stubs := by
  cases f with
  | resume next => rfl
  | stub s => rfl
  | site s read linked =>
    simp only [finish]
    split <;> rfl

theorem keepsStubs_step {code : Routines} {c d : Config} (hd : step code c = some d) :
    c.heap.KeepsStubs d.heap := by
  obtain ⟨h, p, stack⟩ := c
  cases p with
  | done outcome =>
    cases stack with
    | nil => cases hd
    | cons f stack =>
      cases hd
      exact .of_eq (f.stubs_finish outcome h stack)
  | operate a next =>
    obtain ⟨⟨r, k⟩, hk, hd⟩ := Option.map_eq_some_iff.1 hd
    cases hd
    exact Operation.keepsStubs_perform hk
  | invoke i next => exact .of_eq (Invocation.stubs_enter hd)

theorem keepsStubs_advance {code : Routines} {n : Nat} {c d : Config}
    (hd : advance code n c = some d) : c.heap.KeepsStubs d.heap :=
  advance_induct (P := fun e => c.heap.KeepsStubs e.heap)
    (fun hk he => hk.trans (keepsStubs_step he)) (.of_eq rfl) hd

/-! ## 3. Linking and calling -/

/-- Binding a new stub to a property either fails, and then changes nothing, or gives out a handle
on a stub for that property. -/
theorem Operation.link_cases {h : Heap} {stack : List Frame} {o : ObjectId} {x : Object}
    (hs : h.Sound stack) (ho : h.object? o = some x) (name : String) (shape : Shape)
    (fallback : RoutineId) :
    (∃ e, (Operation.link o name shape fallback).perform h stack = some (.error e, h) ∧
      x.target name shape = .error e) ∨
    ∃ l k, (Operation.link o name shape fallback).perform h stack =
        some (.ok ⟨h.stubs.length⟩, k) ∧
      k.stub? ⟨h.stubs.length⟩ = some ⟨l, fallback⟩ ∧ k.isValid l.token = true ∧
      l.owner = o ∧ l.name = name ∧ l.shape = shape := by
  rw [Operation.perform, Heap.link_eq, ho, Option.map_some]
  cases ht : x.target name shape with
  | error e => exact .inl ⟨e, rfl, rfl⟩
  | ok t =>
    have hstub : ((h.grant stack o x name).stubs ++
        [some ⟨⟨⟨h.issued⟩, o, name, shape, t⟩, fallback⟩])[h.stubs.length]? =
          some (some ⟨⟨⟨h.issued⟩, o, name, shape, t⟩, fallback⟩) := List.getElem?_concat_length
    have hvalid : (h.grant stack o x name).isValid ⟨h.issued⟩ = true := hs.isValid_fresh
    exact .inr ⟨_, _, rfl, congrArg Option.join hstub, hvalid, rfl, rfl, rfl⟩

/-- Only a property that is there can be at fault. -/
theorem Object.target_eq_error {x : Object} {name : String} {shape : Shape} {e : LinkError}
    (ht : x.target name shape = .error e) :
    e.property = name ∧ ∃ v, x.properties.get? name = some v := by
  unfold target at ht
  split at ht
  next f hf =>
    split at ht
    · cases ht
      exact ⟨rfl, _, hf⟩
    · cases ht
  next v hnot hv =>
    split at ht
    · cases ht
    · split at ht
      · cases ht
      · cases ht
        exact ⟨rfl, _, hv⟩
  next => cases ht

/-- A stub that is there and whose token is valid enters what its target says, if it is called on
its owner with as many arguments as it was linked for. -/
theorem Heap.Sound.exists_enters_stub {code : Routines} {h : Heap} {stack : List Frame}
    {s : StubId} {x : Stub} (hs : h.Sound stack) (hx : h.stub? s = some x)
    (hv : h.isValid x.link.token = true) {args : List Value}
    (hlen : args.length = x.link.shape.arity) (hr : receiver? args = some x.link.owner)
    (stack' : List Frame) :
    ∃ y p k, h.object? x.link.owner = some y ∧
      (Invocation.stub s args).enter code h stack' = some ⟨k, p, .stub x :: stack'⟩ ∧
      Enters code h x.link.owner y x.link.name args x.link.target p k := by
  have hmem : x.link ∈ h.links stack :=
    mem_links.2 (.inl ⟨x, List.mem_of_getElem? (Option.join_eq_some_iff.1 hx), rfl⟩)
  obtain ⟨y, hy, -, ht⟩ := (hs.honoured _ hmem).current hv
  obtain ⟨p, k, henter, he⟩ : ∃ p k, x.link.target.enter code h args = some (p, k) ∧
      Enters code h x.link.owner y x.link.name args x.link.target p k :=
    exists_enters_of_target hy ht hlen hr
  have hguards : h.guards x.link args = true := by
    rw [guards, hv, hr, Bool.true_and, beq_self_eq_true]
  refine ⟨y, p, k, hy, ?_, he⟩
  rw [Invocation.enter, hx]
  simp only [Option.bind_eq_bind, Option.bind_some, hguards, if_true, henter]
  rfl

/-- **What is checked at link time holds at call time.** Binding a stub to property `name` of an
object fails only over a property that is there, and then changes nothing. If it succeeds, the new
handle stays on the stub it was given out for until it is dropped, whatever is run. And wherever
that stub is kept, while its token is valid a call on the object with as many arguments as the stub
was linked for goes through: it is not refused over the number of arguments. -/
theorem linked_stub_fits {code : Routines} {c : Config} (hc : Reachable code c) {o : ObjectId}
    {x : Object} (ho : c.heap.object? o = some x) (name : String) (shape : Shape)
    (fallback : RoutineId) :
    (∃ e, (Operation.link o name shape fallback).perform c.heap c.stack =
        some (.error e, c.heap) ∧
      e.property = name ∧ ∃ v, x.properties.get? name = some v) ∨
    ∃ l h, (Operation.link o name shape fallback).perform c.heap c.stack =
        some (.ok ⟨c.heap.stubs.length⟩, h) ∧
      h.stub? ⟨c.heap.stubs.length⟩ = some ⟨l, fallback⟩ ∧ h.isValid l.token = true ∧
      ∀ (p : Program) (n : Nat) (d : Config), advance code n ⟨h, p, c.stack⟩ = some d →
        (∀ stub, d.heap.stub? ⟨c.heap.stubs.length⟩ = some stub → stub = ⟨l, fallback⟩) ∧
        ∀ s args stack, d.heap.stub? s = some ⟨l, fallback⟩ → d.heap.isValid l.token = true →
          args.length = shape.arity → receiver? args = some o →
          ∃ y q k, d.heap.object? o = some y ∧
            (Invocation.stub s args).enter code d.heap stack =
              some ⟨k, q, .stub ⟨l, fallback⟩ :: stack⟩ ∧
            Enters code d.heap o y name args l.target q k := by
  rcases Operation.link_cases hc.sound ho name shape fallback with
    ⟨e, hp, ht⟩ | ⟨l, h, hp, hstub, hvalid, rfl, rfl, rfl⟩
  · exact .inl ⟨e, hp, Object.target_eq_error ht⟩
  · refine .inr ⟨l, h, hp, hstub, hvalid, fun p n d hd => ?_⟩
    have hlinked : h.Sound c.stack := Operation.sound_perform hc.sound hp
    have hsound : d.heap.Sound d.stack := sound_advance (c := ⟨h, p, c.stack⟩) hlinked hd
    exact ⟨fun stub hd' => (keepsStubs_advance hd).stub?_eq hstub hd',
      fun s args stack hs hv hlen hr => hsound.exists_enters_stub hs hv hlen hr stack⟩

namespace MoreThanDeclared

/-- A method with a receiver and a parameter that takes the trailing arguments. -/
def method : Callable := ⟨"m", 2, true, ⟨0⟩⟩

def program : Program :=
  .operate .create fun o => .operate (.define o "m" (.function method)) fun _ => .done (.ok .null)

def routines : Routines := fun _ args => .done (.ok (.int (Int64.ofNat args.length)))

/-- The object with its method. -/
def made : Config := (advance routines 2 ⟨{}, program, []⟩).getD ⟨{}, program, []⟩

/-- The heap once a stub is linked for a receiver and three arguments. -/
def linked : Heap :=
  ((Operation.link ⟨0⟩ "m" ⟨4, true⟩ ⟨1⟩).perform made.heap []).elim {} (·.2)

/-- Another property is bound. -/
def bindOther : Program := .operate (.define ⟨0⟩ "x" .null) fun _ => .done (.ok .null)

/-- What there is after that. -/
def later : Config := (advance routines 1 ⟨linked, bindOther, []⟩).getD made

def args : List Value := [.object ⟨0⟩, .int 1, .int 2, .int 3]

end MoreThanDeclared

open MoreThanDeclared in
-- The stub runs the method on all four.
theorem linked_stub_fits_trailing :
    Reachable routines made ∧
      (∃ x, made.heap.object? ⟨0⟩ = some x ∧ x.properties.get? "m" = some (.function method)) ∧
      ∃ x, (Invocation.stub ⟨0⟩ args).enter routines later.heap [] =
        some ⟨later.heap, routines ⟨0⟩ args, [.stub x]⟩ := by
  have hc : Reachable routines made := (Reachable.start program).advance (n := 2) (d := made) rfl
  have ho : made.heap.object? ⟨0⟩ = some ((made.heap.object? ⟨0⟩).getD .empty) := rfl
  refine ⟨hc, ⟨_, ho, rfl⟩, ?_⟩
  rcases linked_stub_fits hc ho "m" ⟨4, true⟩ ⟨1⟩ with ⟨e, hp, -⟩ | ⟨l, h, hp, hstub, -, hlater⟩
  · cases hp
  · obtain rfl : linked = h := congrArg (·.elim {} (·.2)) hp
    cases hstub
    obtain ⟨y, q, k, -, henter, he⟩ :=
      (hlater bindOther 1 later rfl).2 ⟨0⟩ args [] rfl (by decide) rfl rfl
    cases he with
    | method => exact ⟨_, henter⟩

end LateBind
