import LateBind.Proofs.Dynamic.Writes

/-!
# Which names an object tracks

An object keeps an entry for every name that was ever bound or linked on it. The entries say nothing
of how they came about, but a run does: a name is tracked exactly if some step of it gave cause to.
-/

namespace LateBind

/-! ## 1. Causes -/

/-- The next step gives cause to track name `n` on object `o`. -/
inductive Config.Starts (c : Config) (o : ObjectId) (n : String) : Prop where
  /-- The object is made by copying one that has the property. -/
  | copied {p next x} : c.program = .operate (.copy p) next → c.heap.object? p = some x →
      x.properties.contains n = true → o = ⟨c.heap.objects.length⟩ → c.Starts o n
  /-- The property is bound: directly, with a source mixed in, or through a setter. -/
  | bound : (∀ p m next, c.program ≠ .operate (.undefine p m) next) → .changed o n ∈ c.deeds →
      c.Starts o n
  /-- A link to the property is made, by a stub or by a site. -/
  | linked {l} : l.owner = o → l.name = n → .linked l ∈ c.deeds → c.Starts o n

/-- The configurations that a run from the empty heap comes through, with those passed before. -/
inductive Trail (code : Routines) : Config → List Config → Prop where
  | start (p : Program) : Trail code ⟨{}, p, []⟩ []
  | step {c d : Config} {cs : List Config} : Trail code c cs → step code c = some d →
      Trail code d (cs ++ [c])

/-- Object `o` is there and tracks name `n`. -/
def Heap.Tracks (h : Heap) (o : ObjectId) (n : String) : Prop :=
  ∃ x, h.object? o = some x ∧ x.tracks n = true

/-- What is a property is tracked. -/
def Heap.Covered (h : Heap) : Prop :=
  ∀ o x n, h.object? o = some x → x.properties.contains n = true → x.tracks n = true

/-! ## 2. Objects that are added -/

-- A copy tracks the properties that it has.
theorem Object.tracks_copy (x : Object) (n : String) :
    x.copy.tracks n = x.properties.contains n := by
  simp only [tracks, copy, Table.contains, Table.get?_map, Option.isSome_map]

theorem Config.created?_copy {c : Config} {p : ObjectId} {next : ObjectId → Program} {x : Object}
    (hp : c.program = .operate (.copy p) next) (hx : c.heap.object? p = some x) :
    c.created? = some x.copy := by
  simp only [created?, hp, Operation.created?, hx, Option.map_some]

theorem Config.tracks_created {c : Config} {x : Object} (hx : c.created? = some x) (n : String) :
    x.tracks n = x.properties.contains n := by
  obtain ⟨h, p, stack⟩ := c
  cases p with
  | operate a next =>
    cases a with
    | create =>
      cases hx
      rfl
    | copy o =>
      obtain ⟨y, -, rfl⟩ := Option.map_eq_some_iff.1 hx
      exact y.tracks_copy n
    | _ => cases hx
  | _ => cases hx

theorem Heap.object?_new (h : Heap) : h.object? ⟨h.objects.length⟩ = none :=
  List.getElem?_eq_none (Nat.le_refl _)

/-! ## 3. Steps -/

section Step

variable {code : Routines} {c d : Config} {o : ObjectId} {n : String}

-- Only what is there is removed.
theorem Heap.contains_of_undefineDeeds {h : Heap} {p : ObjectId} {m : String}
    (hm : .changed o n ∈ h.undefineDeeds p m) :
    ∃ x, h.object? o = some x ∧ x.properties.contains n = true := by
  unfold undefineDeeds at hm
  split at hm
  next x _ hx =>
    split at hm
    next hcontains =>
      cases List.mem_singleton.1 hm
      exact ⟨x, hx, hcontains⟩
    next => exact absurd hm List.not_mem_nil
  next => exact absurd hm List.not_mem_nil

theorem covered_step (hc : c.heap.Covered) (hd : step code c = some d) : d.heap.Covered := by
  intro o y n hy hcontains
  rcases writes_step hd with ⟨x, hx, -, hheap⟩ | ⟨-, hw⟩
  · rw [hheap, Heap.object?_create] at hy
    split at hy
    · cases hy
      rwa [Config.tracks_created hx]
    · exact hc o y n hy hcontains
  · obtain ⟨x, hx, hevolves⟩ := hw.exists_before hy
    refine (hevolves.tracked n).2 ?_
    by_cases hm : .changed o n ∈ c.deeds
    · exact .inr (List.mem_map.2 ⟨_, hm, rfl⟩)
    · rw [Table.contains, hevolves.kept n hm] at hcontains
      exact .inl (hc o x n hx hcontains)

-- A step that adds an object gives cause to track the properties of that one and no others.
theorem Config.starts_of_created {x : Object} (hx : c.created? = some x) (hdeeds : c.deeds = []) :
    c.Starts o n ↔ o = ⟨c.heap.objects.length⟩ ∧ x.properties.contains n = true := by
  constructor
  · rintro (⟨hp, hy, hcontains, ho⟩ | ⟨-, hm⟩ | ⟨-, -, hm⟩)
    · cases (created?_copy hp hy).symm.trans hx
      exact ⟨ho, hcontains⟩
    · exact absurd (hdeeds ▸ hm) List.not_mem_nil
    · exact absurd (hdeeds ▸ hm) List.not_mem_nil
  · rintro ⟨ho, hcontains⟩
    obtain ⟨h, p, stack⟩ := c
    cases p with
    | operate a next =>
      cases a with
      | create =>
        cases hx
        cases hcontains
      | copy p =>
        obtain ⟨y, hy, rfl⟩ := Option.map_eq_some_iff.1 hx
        exact .copied rfl hy hcontains ho
      | _ => cases hx
    | _ => cases hx

-- Any other step gives cause where it does something, unless it removes what is there.
theorem Config.starts_of_deeds (hc : c.heap.Covered) (hnone : c.created? = none) :
    c.heap.Tracks o n ∨ (o, n) ∈ c.deeds.map Deed.property ↔ c.heap.Tracks o n ∨ c.Starts o n := by
  constructor
  · rintro (ht | hm)
    · exact .inl ht
    · obtain ⟨e, he, hproperty⟩ := List.mem_map.1 hm
      cases e with
      | linked l =>
        cases hproperty
        exact .inr (.linked rfl rfl he)
      | changed p m =>
        cases hproperty
        by_cases hundefine : ∃ p m next, c.program = .operate (.undefine p m) next
        · obtain ⟨p, m, next, hp⟩ := hundefine
          rw [deeds, hp] at he
          obtain ⟨x, hx, hcontains⟩ := Heap.contains_of_undefineDeeds he
          exact .inl ⟨x, hx, hc o x n hx hcontains⟩
        · exact .inr (.bound (fun p m next hp => hundefine ⟨p, m, next, hp⟩) he)
  · rintro (ht | hs)
    · exact .inl ht
    · rcases hs with ⟨hp, hy, -, -⟩ | ⟨-, hm⟩ | ⟨rfl, rfl, hm⟩
      · cases (created?_copy hp hy).symm.trans hnone
      · exact .inr (List.mem_map.2 ⟨_, hm, rfl⟩)
      · exact .inr (List.mem_map.2 ⟨_, hm, rfl⟩)

/-- A step keeps what is tracked, and adds what it gives cause for. -/
theorem tracks_step (hc : c.heap.Covered) (hd : step code c = some d) :
    d.heap.Tracks o n ↔ c.heap.Tracks o n ∨ c.Starts o n := by
  rcases writes_step hd with ⟨x, hx, hdeeds, hheap⟩ | ⟨hnone, hw⟩
  · rw [Config.starts_of_created hx hdeeds, Heap.Tracks, hheap]
    by_cases ho : o = ⟨c.heap.objects.length⟩
    · simp [Heap.Tracks, Heap.object?_create, ho, Heap.object?_new, Config.tracks_created hx]
    · simp [Heap.Tracks, Heap.object?_create, ho]
  · rw [← Config.starts_of_deeds hc hnone]
    constructor
    · rintro ⟨y, hy, ht⟩
      obtain ⟨x, hx, hevolves⟩ := hw.exists_before hy
      exact ((hevolves.tracked n).1 ht).imp_left fun ht => ⟨x, hx, ht⟩
    · intro h
      obtain ⟨x, hx⟩ : ∃ x, c.heap.object? o = some x := by
        rcases h with ⟨x, hx, -⟩ | hm
        · exact ⟨x, hx⟩
        · obtain ⟨e, he, hproperty⟩ := List.mem_map.1 hm
          obtain ⟨x, hx⟩ := hw.exists_of_mem he
          rw [hproperty] at hx
          exact ⟨x, hx⟩
      obtain ⟨y, hy, hevolves⟩ := hw.exists_after hx
      refine ⟨y, hy, (hevolves.tracked n).2 (h.imp_left ?_)⟩
      rintro ⟨z, hz, ht⟩
      cases hx.symm.trans hz
      exact ht

end Step

/-- The operation is answered with an error. -/
inductive Operation.Refused (h : Heap) (stack : List Frame) : Operation → Prop where
  | define {o name v e k} : h.define o name v = some (.error e, k) →
      Refused h stack (.define o name v)
  | undefine {o name e k} : h.undefine o name = some (.error e, k) →
      Refused h stack (.undefine o name)
  | mixin {o source e k} : h.mixin o source = some (.error e, k) → Refused h stack (.mixin o source)
  | link {o name shape fallback e} : h.link stack o name shape = some (.error e) →
      Refused h stack (.link o name shape fallback)

theorem Operation.Refused.deeds_eq {a : Operation} {h : Heap} {stack : List Frame}
    (hr : a.Refused h stack) : a.deeds h stack = [] := by
  cases hr with
  | define hp => simp only [deeds, Heap.defineDeeds, hp]
  | undefine hp => simp only [deeds, Heap.undefineDeeds, hp]
  | mixin hp => simp only [deeds, Heap.mixinDeeds, hp]
  | link hp => simp only [deeds, hp]

-- Neither what fails nor a removal gives cause to track anything.
theorem Config.not_starts {c : Config} {o : ObjectId} {n : String} {a : Operation}
    {next : a.Reply → Program} (hp : c.program = .operate a next)
    (ha : a.Refused c.heap c.stack ∨ ∃ p m, a = .undefine p m) : ¬c.Starts o n := by
  have hdeeds : c.deeds = a.deeds c.heap c.stack := by rw [deeds, hp]
  rintro (⟨hcopy, -, -, -⟩ | ⟨hundefine, hm⟩ | ⟨-, -, hm⟩)
  · cases hp.symm.trans hcopy
    rcases ha with ha | ⟨p, m, ha⟩ <;> cases ha
  · rcases ha with ha | ⟨p, m, rfl⟩
    · rw [hdeeds, ha.deeds_eq] at hm
      exact absurd hm List.not_mem_nil
    · exact hundefine p m next hp
  · rw [hdeeds] at hm
    rcases ha with ha | ⟨p, m, rfl⟩
    · rw [ha.deeds_eq] at hm
      exact absurd hm List.not_mem_nil
    · obtain ⟨_, _, _, _, _, he, -⟩ := linked_mem_operationDeeds.1 hm
      cases he

/-! ## 4. Runs -/

theorem Trail.covered {code : Routines} {c : Config} {cs : List Config} (ht : Trail code c cs) :
    c.heap.Covered := by
  induction ht with
  | start p => exact fun o x n hx => absurd hx (by simp [Heap.object?])
  | step _ hd ih => exact covered_step ih hd

theorem Trail.tracks_iff {code : Routines} {c : Config} {cs : List Config} (ht : Trail code c cs)
    {o : ObjectId} {n : String} : c.heap.Tracks o n ↔ ∃ b ∈ cs, b.Starts o n := by
  induction ht with
  | start p => simp [Heap.Tracks, Heap.object?]
  | step ht hd ih => simp [tracks_step ht.covered hd, ih, or_and_right, exists_or]

/-- **A name is tracked exactly if it was ever bound or linked.** At every point of a run an object
tracks those names for which some earlier step gave cause. In particular

* every property that an object has is tracked;
* the next step keeps what is tracked, and adds only what it gives cause for itself;
* a removal, and whatever is refused, gives no cause;
* a copy tracks the properties of its source and none of the other names that the source tracks.
-/
theorem tracked_iff_started {code : Routines} {c : Config} {cs : List Config}
    (ht : Trail code c cs) :
    (∀ o x n, c.heap.object? o = some x → (x.tracks n = true ↔ ∃ b ∈ cs, b.Starts o n)) ∧
    c.heap.Covered ∧
    (∀ d o n, step code c = some d →
      (d.heap.Tracks o n ↔ c.heap.Tracks o n ∨ c.Starts o n)) ∧
    (∀ a next o n, c.program = .operate a next →
      a.Refused c.heap c.stack ∨ (∃ p m, a = .undefine p m) → ¬c.Starts o n) ∧
    ∀ p next x d n, c.program = .operate (.copy p) next → c.heap.object? p = some x →
      step code c = some d →
      (d.heap.Tracks ⟨c.heap.objects.length⟩ n ↔ x.properties.contains n = true) := by
  refine ⟨fun o x n hx => ?_, ht.covered, fun d o n hd => tracks_step ht.covered hd,
    fun a next o n hp ha => Config.not_starts hp ha, fun p next x d n hp hx hd => ?_⟩
  · rw [← ht.tracks_iff]
    simp [Heap.Tracks, hx]
  · have hcreated := Config.created?_copy hp hx
    have hdeeds : c.deeds = [] := by
      rw [Config.deeds, hp]
      rfl
    rw [tracks_step ht.covered hd, Config.starts_of_created hcreated hdeeds]
    simp [Heap.Tracks, Heap.object?_new, Object.copy]

namespace RemovedAndLinked

/-- An object gets a property, a name that it does not have is linked, and the object is copied. Then
the property is removed. -/
def program : Program :=
  .operate .create fun o => .operate (.define o "x" (.int 1)) fun _ =>
  .operate (.link o "y" { arity := 1 } ⟨0⟩) fun _ => .operate (.copy o) fun _ =>
  .operate (.undefine o "x") fun _ => .done (.ok .null)

def routines : Routines := fun _ _ => .done (.ok .null)

/-- The configuration `n` steps on. -/
def after (n : Nat) : Config := (advance routines n ⟨{}, program, []⟩).getD ⟨{}, program, []⟩

end RemovedAndLinked

open RemovedAndLinked in
-- The object tracks both names in the end. Its copy does not track the one that was linked only.
theorem tracked_iff_started_copied :
    ((after 5).heap.Tracks ⟨0⟩ "x" ∧ (after 5).heap.Tracks ⟨0⟩ "y") ∧
      (after 4).heap.Tracks ⟨1⟩ "x" ∧ ¬(after 4).heap.Tracks ⟨1⟩ "y" := by
  have hcopying : Trail routines (after 3) [after 0, after 1, after 2] :=
    (((Trail.start program).step (d := after 1) rfl).step (d := after 2) rfl).step rfl
  have hlast : Trail routines (after 5) [after 0, after 1, after 2, after 3, after 4] :=
    (hcopying.step (d := after 4) rfl).step rfl
  obtain ⟨o, ho⟩ : ∃ o, (after 5).heap.object? ⟨0⟩ = some o := ⟨_, rfl⟩
  obtain ⟨s, hs⟩ : ∃ s, (after 3).heap.object? ⟨0⟩ = some s := ⟨_, rfl⟩
  have hbound : (after 1).Starts ⟨0⟩ "x" := .bound (fun _ _ _ h => nomatch h) (by decide)
  have hlinked : (after 2).Starts ⟨0⟩ "y" :=
    .linked (l := ⟨⟨0⟩, ⟨0⟩, "y", { arity := 1 }, .missing "y"⟩) rfl rfl (List.mem_singleton_self _)
  obtain ⟨htracked, -⟩ := tracked_iff_started hlast
  obtain ⟨-, -, -, -, hcopy⟩ := tracked_iff_started hcopying
  have hcopied := fun n => hcopy ⟨0⟩ _ s (after 4) n rfl hs rfl
  cases hs
  exact ⟨⟨⟨o, ho, (htracked ⟨0⟩ o "x" ho).2 ⟨after 1, by simp, hbound⟩⟩,
    ⟨o, ho, (htracked ⟨0⟩ o "y" ho).2 ⟨after 2, by simp, hlinked⟩⟩⟩,
    (hcopied "x").2 (by decide), fun h => absurd ((hcopied "y").1 h) (by decide)⟩

end LateBind
