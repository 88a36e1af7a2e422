import LateBind.Proofs.Dynamic.History

/-!
# What is written to objects

Whatever a step does, it comes to the objects and their tokens in one of three ways: it changes
properties of one object, it gives out a token for a property, or it adds an object. So what every
object and every token keeps along a run has to be shown for these only.
-/

namespace LateBind

/-! ## 1. Ways of writing -/

namespace Heap

/-- From `h` to `k` the deeds `ds` were done, and nothing else was written to an object or a token.
Objects may have been frozen, but none was added. -/
inductive Writes : Heap → List Deed → Heap → Prop where
  | quiet {h k} : k.objects = h.objects → k.issued = h.issued → k.revoked = h.revoked →
      Writes h [] k
  | change {h ds k} : h.Changes ds k → Writes h ds k
  | grant {h stack l x} : h.object? l.owner = some x → l.token = ⟨h.issued⟩ →
      Writes h [.linked l] (h.grant stack l.owner x l.name)
  | trans {h ds j ds' k} : Writes h ds j → Writes j ds' k → Writes h (ds ++ ds') k

end Heap

/-! ## 2. What becomes of an object -/

/-- No link to property `name` of `o` is among the deeds `ds`. -/
def Unlinked (o : ObjectId) (name : String) (ds : List Deed) : Prop :=
  ∀ l, .linked l ∈ ds → ¬(l.owner = o ∧ l.name = name)

theorem Unlinked.left {o : ObjectId} {name : String} {ds ds' : List Deed}
    (h : Unlinked o name (ds ++ ds')) : Unlinked o name ds :=
  fun l hl => h l (List.mem_append_left _ hl)

theorem Unlinked.right {o : ObjectId} {name : String} {ds ds' : List Deed}
    (h : Unlinked o name (ds ++ ds')) : Unlinked o name ds' :=
  fun l hl => h l (List.mem_append_right _ hl)

/-- The property that a deed is about. -/
def Deed.property : Deed → ObjectId × String
  | .linked l => (l.owner, l.name)
  | .changed o name => (o, name)

/-- Object `o`, which was `x`, is `y` once the deeds `ds` are done. -/
structure Object.Evolves (x : Object) (o : ObjectId) (ds : List Deed) (y : Object) : Prop where
  kept : ∀ n, .changed o n ∉ ds → y.properties.get? n = x.properties.get? n
  /-- Whatever is done to a name, it is tracked from then on. -/
  tracked : ∀ n, y.tracks n = true ↔ x.tracks n = true ∨ (o, n) ∈ ds.map Deed.property
  /-- Only a link brings a token. -/
  bare : ∀ n, Unlinked o n ds → x.issued n = [] → y.issued n = []
  /-- A change takes away all there are. -/
  emptied : ∀ n before after, ds = before ++ .changed o n :: after → Unlinked o n after →
    y.issued n = []

namespace Object.Evolves

variable {o : ObjectId} {ds ds' : List Deed} {x y z : Object}

-- Nothing is done to the object.
theorem same (hds : ∀ n, (o, n) ∉ ds.map Deed.property) : x.Evolves o ds x where
  kept _ _ := rfl
  tracked n := by simp [hds n]
  bare _ _ h := h
  emptied n before after e _ := absurd (by simp [e, Deed.property]) (hds n)

theorem trans (h : x.Evolves o ds y) (h' : y.Evolves o ds' z) : x.Evolves o (ds ++ ds') z where
  kept n hn := by
    rw [List.mem_append, not_or] at hn
    rw [h'.kept n hn.2, h.kept n hn.1]
  tracked n := by rw [h'.tracked, h.tracked, List.map_append, List.mem_append, or_assoc]
  bare n hn hx := h'.bare n hn.right (h.bare n hn.left hx)
  emptied n before after e hn := by
    obtain ⟨rest, rfl, rfl⟩ | ⟨rest, rfl, rfl⟩ := exists_of_append_eq_append_cons e
    · -- The rest of the first part and the second part bring no token.
      exact h'.bare n hn.right (h.emptied n before rest rfl hn.left)
    · exact h'.emptied n rest after rfl hn

theorem rebinds {names : List String} {change : Object × List TokenId}
    (hc : x.Rebinds names change) : x.Evolves o (names.map (.changed o)) change.1 where
  kept n hn := hc.kept n fun hmem => hn (List.mem_map_of_mem hmem)
  tracked n := by simp [hc.tracked, Deed.property]
  bare n _ hx := by
    rw [hc.issued, hx]
    exact ite_self []
  emptied n before after e _ := by
    have hmem : Deed.changed o n ∈ names.map (.changed o) := e ▸ by simp
    rw [hc.issued, if_pos (by simpa using hmem)]

theorem issue {l : Link} {carried : TokenId → Bool} (ho : l.owner = o) :
    x.Evolves o [.linked l] (x.issue l.name carried l.token) where
  kept _ _ := rfl
  tracked n := by
    subst ho
    simp [tracks, Object.issue, Table.contains_insert, Deed.property]
  bare n hn hx := by
    rw [issued_issue, if_neg, hx]
    exact fun e => hn l (List.mem_singleton_self _) ⟨ho, e.symm⟩
  emptied n before after e _ := by
    have hmem : Deed.changed o n ∈ [Deed.linked l] := e ▸ by simp
    cases List.mem_singleton.1 hmem

end Object.Evolves

namespace Heap

variable {h k : Heap} {ds : List Deed} {o : ObjectId}

theorem Changes.evolves (hc : h.Changes ds k) (o : ObjectId) :
    Option.Rel (fun x y => x.Evolves o ds y) (h.object? o) (k.object? o) := by
  cases hc with
  | none =>
    cases h.object? o with
    | none => exact .none
    | some x => exact .some (.same fun _ => List.not_mem_nil)
  | commit ho hx =>
    rw [object?_commit ho]
    split
    next e =>
      subst e
      rw [ho]
      exact .some (.rebinds hx)
    next hne =>
      cases h.object? o with
      | none => exact .none
      | some y =>
        refine .some (.same fun n hn => ?_)
        simp only [List.map_map, List.mem_map, Function.comp_apply, Deed.property, Prod.mk.injEq]
          at hn
        obtain ⟨_, -, rfl, -⟩ := hn
        exact hne rfl

/-- What becomes of each object follows from the deeds. -/
theorem Writes.evolves (hw : h.Writes ds k) (o : ObjectId) :
    Option.Rel (fun x y => x.Evolves o ds y) (h.object? o) (k.object? o) := by
  induction hw with
  | @quiet h k hobjects =>
    rw [object?, object?, hobjects]
    cases h.objects[o.index]? with
    | none => exact .none
    | some x => exact .some (.same fun _ => List.not_mem_nil)
  | change hc => exact hc.evolves o
  | @grant h stack l x ho htoken =>
    rw [object?_grant ho, ← htoken]
    split
    next e =>
      rw [e, ho]
      exact .some (.issue rfl)
    next hne =>
      cases h.object? o with
      | none => exact .none
      | some y =>
        refine .some (.same fun n hn => ?_)
        have hproperty : (o, n) = (l.owner, l.name) := List.mem_singleton.1 hn
        exact hne (Prod.mk.inj hproperty).1
  | @trans h ds j ds' k _ _ ih ih' =>
    generalize h.object? o = x, j.object? o = y, k.object? o = z at ih ih'
    cases ih with
    | none =>
      cases ih'
      exact .none
    | some hxy =>
      cases ih' with
      | some hyz => exact .some (hxy.trans hyz)

theorem Writes.exists_after (hw : h.Writes ds k) {x : Object} (hx : h.object? o = some x) :
    ∃ y, k.object? o = some y ∧ x.Evolves o ds y := by
  have hrel := hw.evolves o
  rw [hx] at hrel
  generalize k.object? o = y? at hrel ⊢
  cases hrel with
  | some h => exact ⟨_, rfl, h⟩

theorem Writes.exists_before (hw : h.Writes ds k) {y : Object} (hy : k.object? o = some y) :
    ∃ x, h.object? o = some x ∧ x.Evolves o ds y := by
  have hrel := hw.evolves o
  rw [hy] at hrel
  generalize h.object? o = x? at hrel ⊢
  cases hrel with
  | some h => exact ⟨_, rfl, h⟩

-- What something was done to is there.
theorem Writes.exists_of_mem (hw : h.Writes ds k) {e : Deed} (hm : e ∈ ds) :
    ∃ x, h.object? e.property.1 = some x := by
  induction hw with
  | quiet => exact absurd hm List.not_mem_nil
  | change hc =>
    cases hc with
    | none => exact absurd hm List.not_mem_nil
    | commit ho =>
      obtain ⟨_, -, rfl⟩ := List.mem_map.1 hm
      exact ⟨_, ho⟩
  | grant ho =>
    cases List.mem_singleton.1 hm
    exact ⟨_, ho⟩
  | trans hw _ ih ih' =>
    rcases List.mem_append.1 hm with hm | hm
    · exact ih hm
    · obtain ⟨y, hy⟩ := ih' hm
      obtain ⟨x, hx, -⟩ := hw.exists_before hy
      exact ⟨x, hx⟩

end Heap

/-! ## 3. Steps -/

/-- The object that an operation adds. -/
def Operation.created? (a : Operation) (h : Heap) : Option Object :=
  match a with
  | .create => some .empty
  | .copy o => (h.object? o).map (·.copy)
  | _ => none

def Config.created? (c : Config) : Option Object :=
  match c.program with
  | .operate a _ => a.created? c.heap
  | _ => none

namespace Heap

variable {h k : Heap} {stack : List Frame}

theorem writes_link {o : ObjectId} {name : String} {shape : Shape} {l : Link}
    (hp : h.link stack o name shape = some (.ok (l, k))) : h.Writes [.linked l] k := by
  obtain ⟨x, t, ho, -, rfl, rfl⟩ := exists_of_link hp
  exact .grant ho rfl

theorem writes_referenceSite {r : ReferenceId} {name : String} {arity : Nat} {s : SiteId}
    (hp : h.referenceSite r name arity = some (s, k)) : h.Writes [] k := by
  obtain ⟨hobjects, hissued, hrevoked, -⟩ := kept_referenceSite hp
  exact .quiet hobjects hissued hrevoked

end Heap

-- An operation that adds an object does nothing else.
theorem Operation.writes_perform {a : Operation} {h k : Heap} {stack : List Frame} {r : a.Reply}
    (hp : a.perform h stack = some (r, k)) :
    (∃ x, a.created? h = some x ∧ a.deeds h stack = [] ∧ k = (h.create x).2) ∨
      a.created? h = none ∧ h.Writes (a.deeds h stack) k := by
  cases a with
  | create =>
    cases hp
    exact .inl ⟨_, rfl, rfl, rfl⟩
  | copy o =>
    obtain ⟨x, ho, hx⟩ := Option.map_eq_some_iff.1 hp
    cases hx
    exact .inl ⟨x.copy, congrArg (Option.map _) ho, rfl, rfl⟩
  | define o name v => exact .inr ⟨rfl, .change (Heap.changes_define hp)⟩
  | undefine o name => exact .inr ⟨rfl, .change (Heap.changes_undefine hp)⟩
  | mixin o source => exact .inr ⟨rfl, .change (Heap.changes_mixin hp)⟩
  | freeze o =>
    obtain ⟨x, ho, hx⟩ := Option.map_eq_some_iff.1 hp
    cases hx
    exact .inr ⟨rfl, .change (.commit ho (x.rebinds_nil true))⟩
  | properties o | isFrozen o | cloneStub o =>
    obtain ⟨x, -, hx⟩ := Option.map_eq_some_iff.1 hp
    cases hx
    exact .inr ⟨rfl, .quiet rfl rfl rfl⟩
  | link o name shape fallback =>
    obtain ⟨e, he, hx⟩ := Option.map_eq_some_iff.1 hp
    refine .inr ⟨rfl, ?_⟩
    simp only [deeds, he]
    cases e with
    | error e =>
      cases hx
      exact .quiet rfl rfl rfl
    | ok p =>
      cases hx
      exact (Heap.writes_link he).trans (.quiet rfl rfl rfl)
  | dropStub s | createSite name shape | createReference =>
    cases hp
    exact .inr ⟨rfl, .quiet rfl rfl rfl⟩
  | cloneSite s | dropSite s =>
    refine .inr ⟨rfl, ?_⟩
    simp only [Operation.perform] at hp
    split at hp <;> cases hp <;> exact .quiet rfl rfl rfl

section Dispatch

variable {code : Routines} {h : Heap} {s : SiteId} {args : List Value} {stack : List Frame}
  {d : Config} {ds : List Deed}

theorem Dispatched.writes (hd : Dispatched code h s args stack d ds) : h.Writes ds d.heap := by
  cases hd with
  | guarded _ _ _ hk => exact .change (Target.changes_enter hk)
  | refused => exact .quiet rfl rfl rfl
  | @relinked x o l k p j _ _ hl hj =>
    have hcount : k.Writes [] (k.setSite s { x with relinks := x.relinks + 1 }) :=
      .quiet rfl rfl rfl
    have htarget := Heap.Writes.change (Target.changes_enter hj)
    have hobjects : (k.setSite s { x with relinks := x.relinks + 1 }).objects = k.objects := rfl
    rw [Target.deeds_congr hobjects] at htarget
    exact (Heap.writes_link hl).trans (hcount.trans htarget)

theorem Invocation.writes_enter {i : Invocation} (hd : i.enter code h stack = some d) :
    h.Writes (i.deeds h stack) d.heap := by
  cases i with
  | function f args =>
    cases hd
    exact .quiet rfl rfl rfl
  | stub s args =>
    obtain ⟨x, hx, hd⟩ := Option.bind_eq_some_iff.1 hd
    simp only [deeds, hx]
    split at hd
    next hg =>
      obtain ⟨⟨p, k⟩, hk, hd⟩ := Option.bind_eq_some_iff.1 hd
      cases hd
      rw [if_pos hg]
      exact .change (Target.changes_enter hk)
    next hg =>
      cases hd
      rw [if_neg hg]
      exact .quiet rfl rfl rfl
  | site s args =>
    obtain ⟨⟨t, live⟩, hx, hd⟩ := Option.bind_eq_some_iff.1 hd
    simp only [deeds, hx]
    cases live with
    | true => exact (dispatched_of_dispatch hd).writes
    | false =>
      obtain ⟨y, -, hd⟩ := Option.bind_eq_some_iff.1 hd
      cases hd
      exact .quiet rfl rfl rfl
  | reference r callee args =>
    cases callee with
    | boundMethod o name =>
      obtain ⟨⟨s, k⟩, hk, hd⟩ := Option.bind_eq_some_iff.1 hd
      simp only [deeds, hk]
      exact (Heap.writes_referenceSite hk).trans (dispatched_of_dispatch hd).writes
    | _ =>
      cases hd
      exact .quiet rfl rfl rfl

end Dispatch

theorem Frame.writes_finish {f : Frame} {outcome : Outcome} {h : Heap} {stack : List Frame} :
    h.Writes [] (f.finish outcome h stack).heap := by
  cases f with
  | resume next | stub s => exact .quiet rfl rfl rfl
  | site s read linked =>
    simp only [Frame.finish]
    split <;> exact .quiet rfl rfl rfl

/-- A step adds an object or does its deeds. -/
theorem writes_step {code : Routines} {c d : Config} (hd : step code c = some d) :
    (∃ x, c.created? = some x ∧ c.deeds = [] ∧ d.heap = (c.heap.create x).2) ∨
      c.created? = none ∧ c.heap.Writes c.deeds d.heap := by
  obtain ⟨h, p, stack⟩ := c
  cases p with
  | done outcome =>
    cases stack with
    | nil => cases hd
    | cons f stack =>
      cases hd
      exact .inr ⟨rfl, Frame.writes_finish⟩
  | operate a next =>
    obtain ⟨⟨r, k⟩, hk, hd⟩ := Option.map_eq_some_iff.1 hd
    cases hd
    exact Operation.writes_perform hk
  | invoke i next => exact .inr ⟨rfl, Invocation.writes_enter hd⟩

end LateBind
