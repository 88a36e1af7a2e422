import LateBind.Proofs.Dynamic.History

/-!
# A frozen object stays as it is

Whatever way a change takes to an object, a direct one, a source mixed in, a setter held by a stub
or remembered by a site, it comes to the same test before it touches a property or a token. So once
an object is frozen its properties never change, no link to it goes out of date, and whoever tries
to change it is told.
-/

namespace LateBind

/-! ## 1. What no step changes -/

namespace Uncached

/-- Object `o` is frozen with the properties `p`. -/
def State.FrozenAs (s : State) (o : ObjectId) (p : Table Value) : Prop :=
  s.object? o = some ⟨p, true⟩

namespace State.FrozenAs

variable {code : Routines} {s t : State} {o q : ObjectId} {p : Table Value} {x : Object}
  {name : String}

theorem ne_of_not_frozen (h : s.FrozenAs o p) (hx : s.object? q = some x)
    (hnot : ¬x.frozen = true) : q ≠ o := by
  rintro rfl
  rw [h] at hx
  cases hx
  exact hnot rfl

theorem create (h : s.FrozenAs o p) (x : Object) : (s.create x).2.FrozenAs o p :=
  (List.getElem?_append_left (List.getElem?_eq_some_iff.1 h).1).trans h

theorem change (h : s.FrozenAs o p) (hne : q ≠ o) (x : Object) (names : List String) :
    (s.change q x names).FrozenAs o p := by
  have hindex : q.index ≠ o.index := fun e => hne (by cases q; cases o; exact congrArg _ e)
  exact (List.getElem?_set_ne hindex).trans h

theorem define {v : Value} {r : Except CallError Unit} (h : s.FrozenAs o p)
    (hp : s.define q name v = some (r, t)) : t.FrozenAs o p := by
  obtain ⟨x, hx, he⟩ := Option.map_eq_some_iff.1 hp
  split at he
  · cases he
    exact h
  next hnot =>
    cases he
    exact h.change (h.ne_of_not_frozen hx hnot) _ _

theorem undefine {r : Except CallError Unit} (h : s.FrozenAs o p)
    (hp : s.undefine q name = some (r, t)) : t.FrozenAs o p := by
  obtain ⟨x, hx, he⟩ := Option.map_eq_some_iff.1 hp
  split at he
  · cases he
    exact h
  next hnot =>
    split at he
    · cases he
      exact h.change (h.ne_of_not_frozen hx hnot) _ _
    · cases he
      exact h

theorem mixin {source : ObjectId} {r : Except CallError Unit} (h : s.FrozenAs o p)
    (hp : s.mixin q source = some (r, t)) : t.FrozenAs o p := by
  obtain ⟨y, -, hp⟩ := Option.bind_eq_some_iff.1 hp
  obtain ⟨x, hx, hp⟩ := Option.bind_eq_some_iff.1 hp
  split at hp
  · cases hp
    exact h
  · split at hp
    · cases hp
      exact h
    next hnot =>
      cases hp
      exact h.change (h.ne_of_not_frozen hx hnot) _ _

-- Freezing anew changes nothing.
theorem freeze (h : s.FrozenAs o p) (hx : s.object? q = some x) :
    (s.change q { x with frozen := true } []).FrozenAs o p := by
  by_cases hq : q = o
  · subst hq
    rw [h] at hx
    cases hx
    rwa [change_self h]
  · exact h.change hq _ _

theorem perform {a : Operation} {r : a.Reply} (h : s.FrozenAs o p)
    (hp : Uncached.perform a s = some (r, t)) : t.FrozenAs o p := by
  cases a with
  | create =>
    cases hp
    exact h.create _
  | copy q =>
    obtain ⟨x, -, hx⟩ := Option.map_eq_some_iff.1 hp
    cases hx
    exact h.create _
  | define q name v => exact h.define hp
  | undefine q name => exact h.undefine hp
  | freeze q =>
    obtain ⟨x, hx, he⟩ := Option.map_eq_some_iff.1 hp
    cases he
    exact h.freeze hx
  | mixin q source => exact h.mixin hp
  | link q name shape fallback =>
    obtain ⟨x, -, he⟩ := Option.map_eq_some_iff.1 hp
    split at he <;> cases he <;> exact h
  | properties q | isFrozen q | cloneStub i =>
    obtain ⟨x, -, he⟩ := Option.map_eq_some_iff.1 hp
    cases he
    exact h
  | cloneSite i | dropSite i =>
    simp only [Uncached.perform] at hp
    split at hp <;> cases hp <;> exact h
  | dropStub i | createSite name shape | createReference =>
    cases hp
    exact h

theorem enterTarget {u : Target} {args : List Value} {r : Program} (h : s.FrozenAs o p)
    (hp : Uncached.enterTarget u code s args = some (r, t)) : t.FrozenAs o p := by
  cases u with
  | method f | constant v | missing name =>
    cases hp
    exact h
  | define name =>
    simp only [Uncached.enterTarget] at hp
    split at hp
    · obtain ⟨⟨u, t'⟩, hd, he⟩ := Option.map_eq_some_iff.1 hp
      cases he
      exact h.define hd
    · cases hp
      exact h

theorem dispatch {shape : Shape} {args : List Value} {r : Program} (h : s.FrozenAs o p)
    (hp : Uncached.dispatch code s name shape args = some (r, t)) : t.FrozenAs o p := by
  unfold Uncached.dispatch at hp
  split at hp
  · cases hp
    exact h
  · obtain ⟨x, -, hp⟩ := Option.bind_eq_some_iff.1 hp
    split at hp
    · cases hp
      exact h
    · exact h.enterTarget hp

theorem called {stack : List Frame} {entered : Option (Program × State)} {d : Config}
    (hentered : ∀ r t, entered = some (r, t) → t.FrozenAs o p)
    (hd : Uncached.called stack entered = some d) : d.state.FrozenAs o p := by
  obtain ⟨⟨r, t⟩, hr, he⟩ := Option.map_eq_some_iff.1 hd
  cases he
  exact hentered r t hr

theorem enter {i : Invocation} {stack : List Frame} {d : Config} (h : s.FrozenAs o p)
    (hd : Uncached.enter i code s stack = some d) : d.state.FrozenAs o p := by
  cases i with
  | function f args =>
    cases hd
    exact h
  | stub i args =>
    obtain ⟨x, -, hd⟩ := Option.bind_eq_some_iff.1 hd
    split at hd
    · exact called (fun r t => h.enterTarget) hd
    · cases hd
      exact h
  | site i args =>
    obtain ⟨x, -, hd⟩ := Option.bind_eq_some_iff.1 hd
    split at hd
    · exact called (fun r t => h.dispatch) hd
    · cases hd
      exact h
  | reference r callee args =>
    cases callee with
    | boundMethod q name =>
      simp only [Uncached.enter] at hd
      split at hd
      · exact called (fun r t => h.dispatch) hd
      · cases hd
    | _ =>
      cases hd
      exact h

end State.FrozenAs

theorem frozenAs_step {code : Routines} {c d : Config} {o : ObjectId} {p : Table Value}
    (h : c.state.FrozenAs o p) (hd : step code c = some d) : d.state.FrozenAs o p := by
  obtain ⟨s, r, stack⟩ := c
  cases r with
  | done outcome =>
    rcases stack with _ | ⟨_ | _, stack⟩ <;> cases hd <;> exact h
  | operate a next =>
    obtain ⟨⟨r, t⟩, ht, hd⟩ := Option.map_eq_some_iff.1 hd
    cases hd
    exact h.perform ht
  | invoke i next => exact h.enter hd

end Uncached

/-- Object `o` is frozen with the properties `p`. -/
def Heap.FrozenAs (h : Heap) (o : ObjectId) (p : Table Value) : Prop :=
  ∃ x, h.object? o = some x ∧ x.frozen = true ∧ x.properties = p

theorem Heap.frozenAs_view {h : Heap} {o : ObjectId} {p : Table Value} :
    h.view.FrozenAs o p ↔ h.FrozenAs o p := by
  rw [Uncached.State.FrozenAs, object?_view, Option.map_eq_some_iff]
  refine exists_congr fun x => and_congr_right fun _ => ?_
  rw [Object.view, Uncached.Object.mk.injEq, and_comm]

theorem frozenAs_step {code : Routines} {c d : Config} {o : ObjectId} {p : Table Value}
    (hs : c.heap.Sound c.stack) (h : c.heap.FrozenAs o p) (hd : step code c = some d) :
    d.heap.FrozenAs o p := by
  have hview : Uncached.step code c.view = some d.view := by rw [step_view hs, hd, Option.map_some]
  exact Heap.frozenAs_view.1 (Uncached.frozenAs_step (c := c.view) (Heap.frozenAs_view.2 h) hview)

/-! ## 2. Refusals -/

namespace Heap.FrozenAs

variable {h k : Heap} {o q : ObjectId} {p : Table Value} {name n : String}

theorem congr (hf : h.FrozenAs o p) (hobjects : k.objects = h.objects) : k.FrozenAs o p := by
  obtain ⟨x, hx, hrest⟩ := hf
  exact ⟨x, by rw [object?, hobjects]; exact hx, hrest⟩

theorem define_eq (hf : h.FrozenAs o p) (name : String) (v : Value) :
    h.define o name v = some (.error (.frozen name), h) := by
  obtain ⟨x, hx, hfrozen, -⟩ := hf
  rw [Heap.define, hx, Option.map_some, if_pos hfrozen]

theorem undefine_eq (hf : h.FrozenAs o p) (name : String) :
    h.undefine o name = some (.error (.frozen name), h) := by
  obtain ⟨x, hx, hfrozen, -⟩ := hf
  rw [Heap.undefine, hx, Option.map_some, if_pos hfrozen]

theorem mixin_eq (hf : h.FrozenAs o p) {source : ObjectId} {y : Object}
    (hy : h.object? source = some y) :
    h.mixin o source = some (match y.properties.keys with
      | [] => .ok ()
      | first :: _ => .error (.frozen first), h) := by
  obtain ⟨x, hx, hfrozen, -⟩ := hf
  simp only [Heap.mixin, hy, hx, hfrozen, Option.bind_eq_bind, Option.bind_some, if_true,
    Table.keys]
  cases y.properties.entries <;> rfl

/-! ## 3. Deeds -/

theorem not_mem_defineDeeds (hf : h.FrozenAs o p) (v : Value) :
    .changed o n ∉ h.defineDeeds q name v := by
  intro hm
  unfold defineDeeds at hm
  split at hm
  next hd =>
    cases List.mem_singleton.1 hm
    rw [hf.define_eq] at hd
    cases hd
  next => cases hm

theorem not_mem_undefineDeeds (hf : h.FrozenAs o p) : .changed o n ∉ h.undefineDeeds q name := by
  intro hm
  unfold undefineDeeds at hm
  split at hm
  next hd _ =>
    split at hm
    · cases List.mem_singleton.1 hm
      rw [hf.undefine_eq] at hd
      cases hd
    · cases hm
  next => cases hm

-- A source without properties leaves nothing to be done.
theorem not_mem_mixinDeeds (hf : h.FrozenAs o p) {source : ObjectId} :
    .changed o n ∉ h.mixinDeeds q source := by
  intro hm
  unfold mixinDeeds at hm
  split at hm
  next hp hy =>
    obtain ⟨m, hkey, he⟩ := List.mem_map.1 hm
    cases he
    rw [hf.mixin_eq hy] at hp
    split at hp
    next hempty =>
      rw [hempty] at hkey
      cases hkey
    next => cases hp
  next => cases hm

-- Giving out a token leaves an object frozen.
theorem link {stack : List Frame} {shape : Shape} {l : Link} (hf : h.FrozenAs o p)
    (hl : h.link stack q name shape = some (.ok (l, k))) : k.FrozenAs o p := by
  obtain ⟨x, t, hx, -, rfl, rfl⟩ := exists_of_link hl
  obtain ⟨y, hy, hrest⟩ := hf
  by_cases ho : o = q
  · subst ho
    rw [hx] at hy
    cases hy
    exact ⟨_, (object?_grant hx o).trans (if_pos rfl), hrest⟩
  · exact ⟨y, (object?_grant hx o).trans ((if_neg ho).trans hy), hrest⟩

end Heap.FrozenAs

section Deeds

variable {h k : Heap} {o : ObjectId} {p : Table Value} {name n : String} {args : List Value}
  {stack : List Frame}

theorem Operation.not_mem_deeds {a : Operation} (hf : h.FrozenAs o p) :
    .changed o n ∉ a.deeds h stack := by
  cases a with
  | define q name v => exact hf.not_mem_defineDeeds v
  | undefine q name => exact hf.not_mem_undefineDeeds
  | mixin q source => exact hf.not_mem_mixinDeeds
  | link q name shape fallback =>
    simp only [deeds]
    split
    · intro hm
      cases List.mem_singleton.1 hm
    · exact List.not_mem_nil
  | _ => exact List.not_mem_nil

theorem Target.not_mem_deeds {t : Target} (hf : h.FrozenAs o p) :
    .changed o n ∉ t.deeds h args := by
  unfold deeds
  split
  · exact hf.not_mem_defineDeeds _
  · exact List.not_mem_nil

theorem not_mem_relinkDeeds {x : Site} (hf : h.FrozenAs o p) :
    .changed o n ∉ relinkDeeds h x args stack := by
  unfold relinkDeeds
  split
  · exact List.not_mem_nil
  · split
    next hl =>
      intro hm
      rcases List.mem_cons.1 hm with hm | hm
      · cases hm
      · exact Target.not_mem_deeds (hf.link hl) hm
    · exact List.not_mem_nil

theorem not_mem_dispatchDeeds {s : SiteId} (hf : h.FrozenAs o p) :
    .changed o n ∉ dispatchDeeds h s args stack := by
  unfold dispatchDeeds
  split
  · exact List.not_mem_nil
  · split
    · exact Target.not_mem_deeds hf
    · exact not_mem_relinkDeeds hf

theorem Invocation.not_mem_deeds {i : Invocation} (hf : h.FrozenAs o p) :
    .changed o n ∉ i.deeds h stack := by
  unfold deeds
  split
  · exact List.not_mem_nil
  · split
    · split
      · exact Target.not_mem_deeds hf
      · exact List.not_mem_nil
    · exact List.not_mem_nil
  · split
    · exact not_mem_dispatchDeeds hf
    · exact List.not_mem_nil
  · split
    next hp => exact not_mem_dispatchDeeds (hf.congr (Heap.kept_referenceSite hp).1)
    · exact List.not_mem_nil
  · exact List.not_mem_nil

theorem Config.not_mem_deeds {c : Config} (hf : c.heap.FrozenAs o p) : .changed o n ∉ c.deeds := by
  unfold deeds
  split
  · exact List.not_mem_nil
  · exact Operation.not_mem_deeds hf
  · exact Invocation.not_mem_deeds hf

end Deeds

/-! ## 4. Setters -/

-- Where there is no function to call, a site that passes a receiver and a value sets.
theorem Object.target_eq_define {x : Object} {name : String} {shape : Shape}
    (hname : ∀ f, x.properties.get? name ≠ some (.function f)) (harity : shape.arity = 2) :
    x.target name shape = .ok (.define name) := by
  unfold target
  cases hv : x.properties.get? name with
  | none => simp [harity]
  | some v =>
    cases v with
    | function f => exact absurd hv (hname f)
    | _ => simp [harity]

theorem Uncached.State.FrozenAs.answer_eq {code : Routines} {s : State} {o : ObjectId}
    {p : Table Value} {name : String} {shape : Shape} (hf : s.FrozenAs o p)
    (hname : ∀ f, p.get? name ≠ some (.function f)) (harity : shape.arity = 2) (v : Value)
    (fuel : Nat) :
    Uncached.answer code fuel s name shape [.object o, v] = some (.error (.frozen name), s) := by
  have hobject : s.object? o = some ⟨p, true⟩ := hf
  have htarget : (⟨p, true⟩ : Object).target name shape = .ok (.define name) :=
    LateBind.Object.target_eq_define hname harity
  have hreceiver : receiver? [.object o, v] = some o := rfl
  have hdispatch : Uncached.dispatch code s name shape [.object o, v] =
      some (.done (.error (.frozen name)), s) := by
    simp only [Uncached.dispatch, hreceiver, hobject, htarget, Uncached.enterTarget, State.define,
      Option.bind_eq_bind, Option.bind_some, Option.map_some, if_true]
    rfl
  rw [answer, hdispatch, Option.bind_some]
  exact runTo_of_outcome rfl

theorem runTo_of_outcome {code : Routines} {depth fuel : Nat} {c : Config} {r : Outcome × Heap}
    (hc : c.outcome? depth = some r) : runTo code depth fuel c = some r := by
  cases fuel with
  | zero => exact hc
  | succ fuel => rw [runTo, hc, Option.some_or]

section Setters

variable {code : Routines} {h : Heap} {o : ObjectId} {p : Table Value} {v : Value} {name : String}
  {stack : List Frame} {fuel : Nat}

theorem Heap.FrozenAs.answer_stub {s : StubId} {x : Stub} (hf : h.FrozenAs o p)
    (hx : h.stub? s = some x) (htarget : x.link.target = .define name)
    (hg : h.guards x.link [.object o, v] = true) :
    (Invocation.stub s [.object o, v]).answer code (fuel + 1) h stack =
      some (.error (.frozen name), h) := by
  have henter : (Invocation.stub s [.object o, v]).enter code h stack =
      some ⟨h, .done (.error (.frozen name)), .stub x :: stack⟩ := by
    simp only [Invocation.enter, hx, hg, htarget, Target.enter, hf.define_eq, if_true,
      Option.bind_eq_bind, Option.bind_some, Option.map_some]
    rfl
  have hgoing : (⟨h, .done (.error (.frozen name)), .stub x :: stack⟩ : Config).outcome?
      stack.length = none := if_neg (Nat.succ_ne_self _)
  rw [Invocation.answer, henter, Option.bind_some, runTo, hgoing, Option.none_or]
  exact runTo_of_outcome (if_pos rfl)

end Setters

/-! ## 5. Runs -/

theorem frozenAs_advance {code : Routines} {n : Nat} {c d : Config} {o : ObjectId}
    {p : Table Value} (hs : c.heap.Sound c.stack) (hf : c.heap.FrozenAs o p)
    (hd : advance code n c = some d) : d.heap.FrozenAs o p :=
  (advance_induct (P := fun c => c.heap.Sound c.stack ∧ c.heap.FrozenAs o p)
    (fun h he => ⟨sound_step h.1 he, frozenAs_step h.1 h.2 he⟩) ⟨hs, hf⟩ hd).2

theorem not_mem_deedsOver {code : Routines} {n : Nat} {c : Config} {o : ObjectId}
    {p : Table Value} {name : String} (hs : c.heap.Sound c.stack) (hf : c.heap.FrozenAs o p) :
    .changed o name ∉ deedsOver code n c := by
  induction n generalizing c with
  | zero => exact List.not_mem_nil
  | succ n ih =>
    rw [deedsOver, List.mem_append, not_or]
    refine ⟨Config.not_mem_deeds hf, ?_⟩
    cases hd : step code c with
    | none => exact List.not_mem_nil
    | some d => exact ih (sound_step hs hd) (frozenAs_step hs hf hd)

/-- What the next step answers to whoever tries to change object `o`, which is frozen with the
properties `p`. -/
structure Config.Refuses (code : Routines) (c : Config) (o : ObjectId) (p : Table Value) :
    Prop where
  define : ∀ name v next, c.program = .operate (.define o name v) next →
    step code c = some { c with program := next (.error (.frozen name)) }
  undefine : ∀ name next, c.program = .operate (.undefine o name) next →
    step code c = some { c with program := next (.error (.frozen name)) }
  /-- From a source without properties there is nothing to refuse, and nothing is done. -/
  mixin : ∀ source y next, c.program = .operate (.mixin o source) next →
    c.heap.object? source = some y →
    step code c = some { c with
      program := next (match y.properties.keys with
        | [] => .ok ()
        | first :: _ => .error (.frozen first)) }
  /-- A stub may hold a setter from before. -/
  stub : ∀ i x name v next fuel, c.program = .invoke (.stub i [.object o, v]) next →
    c.heap.stub? i = some x → x.link.target = .define name →
    c.heap.guards x.link [.object o, v] = true →
    (Invocation.stub i [.object o, v]).answer code (fuel + 1) c.heap (.resume next :: c.stack) =
      some (.error (.frozen name), c.heap)
  /-- A site sets by the link that it remembers or by a new one. Binding it anew is not seen. -/
  site : ∀ i s x v next fuel, c.program = .invoke (.site i [.object o, v]) next →
    c.heap.handles[i.index]? = some ⟨s, true⟩ → c.heap.site? s = some x → x.shape.arity = 2 →
    (∀ f, p.get? x.name ≠ some (.function f)) →
    ((Invocation.site i [.object o, v]).answer code (fuel + 1) c.heap
        (.resume next :: c.stack)).map Heap.viewAnswer =
      some (.error (.frozen x.name), c.heap.view)
  /-- So does a bound method that is called with one argument. -/
  reference : ∀ r name v next fuel,
    c.program = .invoke (.reference r (.boundMethod o name) [v]) next →
    r.index < c.heap.references.length → (∀ f, p.get? name ≠ some (.function f)) →
    ((Invocation.reference r (.boundMethod o name) [v]).answer code (fuel + 1) c.heap
        (.resume next :: c.stack)).map Heap.viewAnswer =
      some (.error (.frozen name), c.heap.view)

theorem Config.refuses {code : Routines} {c : Config} {o : ObjectId} {p : Table Value}
    (hs : c.heap.Sound c.stack) (hf : c.heap.FrozenAs o p) : c.Refuses code o p := by
  obtain ⟨h, program, stack⟩ := c
  have hview : h.view.FrozenAs o p := Heap.frozenAs_view.2 hf
  refine ⟨?_, ?_, ?_, ?_, ?_, ?_⟩
  · rintro name v next rfl
    simp only [step, Operation.perform, hf.define_eq, Option.map_some]
  · rintro name next rfl
    simp only [step, Operation.perform, hf.undefine_eq, Option.map_some]
  · rintro source y next rfl hy
    simp only [step, Operation.perform, hf.mixin_eq hy, Option.map_some]
  · rintro i x name v next fuel - hx htarget hg
    exact hf.answer_stub hx htarget hg
  · rintro i s x v next fuel - hi hx harity hname
    have hhandle : h.viewHandle ⟨s, true⟩ = ⟨x.name, x.shape, true⟩ := Heap.viewHandle_eq hx
    have hcall : Uncached.enter (.site i [.object o, v]) code h.view
          ((.resume next :: stack).map (·.view)) =
        Uncached.called ((.resume next :: stack).map (·.view))
          (Uncached.dispatch code h.view x.name x.shape [.object o, v]) := by
      simp only [Uncached.enter, Heap.getElem?_handles_view, hi, Option.map_some,
        Option.bind_eq_bind, Option.bind_some, hhandle, if_true]
    rw [Invocation.answer_view (hs.resume next) hcall fuel, hview.answer_eq hname harity]
  · rintro r name v next fuel - hr hname
    rw [Invocation.answer_boundMethod (hs.resume next) hr, hview.answer_eq hname rfl]

/-- **Freezing is for good.** Take a run to a configuration in which an object is frozen, and any
later one. The object is frozen still and has the properties that it had, and nothing that was done
in between changed one of them. Every link to it that is there and was valid when it was frozen, or
was made since, is valid. Whoever tries to change it next, in whatever way, is answered that it is
frozen, and nothing else happens. -/
theorem frozen_for_good {code : Routines} {n : Nat} {c d : Config} {o : ObjectId} {x : Object}
    (hc : Reachable code c) (hx : c.heap.object? o = some x) (hfrozen : x.frozen = true)
    (hd : advance code n c = some d) :
    (∃ y, d.heap.object? o = some y ∧ y.frozen = true ∧ y.properties = x.properties) ∧
    (∀ name, .changed o name ∉ deedsOver code n c) ∧
    (∀ l ∈ d.heap.links d.stack, l.owner = o →
      c.heap.isValid l.token = true ∨ .linked l ∈ deedsOver code n c →
      d.heap.isValid l.token = true) ∧
    d.Refuses code o x.properties := by
  have hs := hc.sound
  have hf : c.heap.FrozenAs o x.properties := ⟨x, hx, hfrozen, rfl⟩
  have hlater : d.heap.FrozenAs o x.properties := frozenAs_advance hs hf hd
  have hnone : ∀ name, .changed o name ∉ deedsOver code n c := fun name =>
    not_mem_deedsOver hs hf
  have hbecomes := becomes_advance hs hd
  refine ⟨hlater, hnone, ?_, Config.refuses (hc.advance hd).sound hlater⟩
  rintro l hl rfl hbefore
  by_cases hmade : .linked l ∈ deedsOver code n c
  · obtain ⟨before, after, hdeeds⟩ := List.append_of_mem hmade
    refine (hbecomes.made l hl before after hdeeds).2 fun hm => hnone l.name ?_
    rw [hdeeds]
    exact List.mem_append_right _ (List.mem_cons_of_mem _ hm)
  · have hold : l ∈ c.heap.links c.stack := (hbecomes.links l hl).resolve_right hmade
    exact (hbecomes.kept l hold hl).2 ⟨hbefore.resolve_right hmade, hnone l.name⟩

namespace SetterKept

/-- A setter is linked and a site sets the property once, before the object is frozen. Then the site
is called again, and the stub. -/
def program : Program :=
  .operate .create fun o => .operate (.createSite "x" { arity := 2 }) fun s =>
  .invoke (.site s [.object o, .int 1]) fun _ =>
  .operate (.link o "x" { arity := 2 } ⟨0⟩) fun _ => .operate (.freeze o) fun _ =>
  .invoke (.site s [.object o, .int 2]) fun _ => .invoke (.stub ⟨0⟩ [.object o, .int 3]) .done

def routines : Routines := fun _ _ => .done (.ok .null)

/-- The configuration `n` steps on. -/
def after (n : Nat) : Config := (advance routines n ⟨{}, program, []⟩).getD ⟨{}, program, []⟩

/-- What the stub holds. -/
def setter : Link := ⟨⟨1⟩, ⟨0⟩, "x", { arity := 2 }, .define "x"⟩

end SetterKept

open SetterKept in
-- The value from before is kept, and the setter holds good, though it is of no use any more.
theorem frozen_for_good_setter :
    (∃ y, (after 10).heap.object? ⟨0⟩ = some y ∧ y.frozen = true ∧
      y.properties.get? "x" = some (.int 1)) ∧
    (after 10).heap.isValid setter.token = true ∧
    ((Invocation.site ⟨0⟩ [.object ⟨0⟩, .int 2]).answer routines 1 (after 7).heap
        [.resume fun _ => .invoke (.stub ⟨0⟩ [.object ⟨0⟩, .int 3]) .done]).map Heap.viewAnswer =
      some (.error (.frozen "x"), (after 7).heap.view) ∧
    (Invocation.stub ⟨0⟩ [.object ⟨0⟩, .int 3]).answer routines 1 (after 10).heap [.resume .done] =
      some (.error (.frozen "x"), (after 10).heap) := by
  have hfrozen : Reachable routines (after 7) :=
    (Reachable.start program).advance (n := 7) (d := after 7) rfl
  have hx : (after 7).heap.object? ⟨0⟩ = some ((after 7).heap.objects.headD .empty) := rfl
  obtain ⟨-, -, -, hfirst⟩ := frozen_for_good (n := 0) (d := after 7) hfrozen hx rfl rfl
  obtain ⟨⟨y, hy, hyf, hyp⟩, -, hlinks, hlast⟩ :=
    frozen_for_good (n := 3) (d := after 10) hfrozen hx rfl rfl
  have hl : setter ∈ (after 10).heap.links (after 10).stack :=
    Heap.mem_links.2 (.inl ⟨⟨setter, ⟨0⟩⟩, by decide, rfl⟩)
  refine ⟨⟨y, hy, hyf, by rw [hyp]; rfl⟩, hlinks setter hl rfl (.inl (by decide)), ?_, ?_⟩
  · exact hfirst.site ⟨0⟩ ⟨0⟩ _ (.int 2) _ 0 rfl rfl rfl rfl fun f hf => nomatch hf
  · exact hlast.stub ⟨0⟩ _ "x" (.int 3) _ 0 rfl rfl rfl (by decide)

end LateBind
