import LateBind.Proofs.Dynamic.Links

/-!
# Deeds

The deeds of a step are the links it makes and the changes it makes to properties, in order. A
change is one of the properties of a single object, whichever way it came about.
-/

namespace LateBind

/-! ## 1. Deeds -/

inductive Deed where
  /-- A call site was bound, and `l` came of it. -/
  | linked (l : Link)
  /-- A property was bound, bound anew or removed. -/
  | changed (o : ObjectId) (name : String)
deriving DecidableEq, Repr

namespace Heap

/-- Binding a property changes it, to an equal value too, unless the object refuses. -/
def defineDeeds (h : Heap) (o : ObjectId) (name : String) (v : Value) : List Deed :=
  match h.define o name v with
  | some (.ok _, _) => [.changed o name]
  | _ => []

/-- Removing a property changes it if it was there. -/
def undefineDeeds (h : Heap) (o : ObjectId) (name : String) : List Deed :=
  match h.undefine o name, h.object? o with
  | some (.ok _, _), some x => if x.properties.contains name then [.changed o name] else []
  | _, _ => []

/-- Mixing in changes every property that the source has at that moment. -/
def mixinDeeds (h : Heap) (o source : ObjectId) : List Deed :=
  match h.mixin o source, h.object? source with
  | some (.ok _, _), some y => y.properties.keys.map (.changed o)
  | _, _ => []

end Heap

def Operation.deeds (a : Operation) (h : Heap) (stack : List Frame) : List Deed :=
  match a with
  | .define o name v => h.defineDeeds o name v
  | .undefine o name => h.undefineDeeds o name
  | .mixin o source => h.mixinDeeds o source
  | .link o name shape _ =>
      match h.link stack o name shape with
      | some (.ok (l, _)) => [.linked l]
      | _ => []
  | _ => []

/-- Only a setter changes anything by itself. -/
def Target.deeds (t : Target) (h : Heap) (args : List Value) : List Deed :=
  match t, args with
  | .define name, [.object o, v] => h.defineDeeds o name v
  | _, _ => []

/-- The link is made first, so a setter that it leads to comes after. -/
def relinkDeeds (h : Heap) (x : Site) (args : List Value) (stack : List Frame) : List Deed :=
  match receiver? args with
  | none => []
  | some o =>
      match h.link stack o x.name x.shape with
      | some (.ok (l, k)) => .linked l :: l.target.deeds k args
      | _ => []

def dispatchDeeds (h : Heap) (s : SiteId) (args : List Value) (stack : List Frame) : List Deed :=
  match h.site? s with
  | none => []
  | some x =>
      match x.cached.filter fun l => h.guards l args with
      | some l => l.target.deeds h args
      | none => relinkDeeds h x args (.site s x.cached none :: stack)

/-- What is done on entry. What the code that is called does comes later. -/
def Invocation.deeds (i : Invocation) (h : Heap) (stack : List Frame) : List Deed :=
  match i with
  | .function .. => []
  | .stub s args =>
      match h.stub? s with
      | some x => if h.guards x.link args then x.link.target.deeds h args else []
      | none => []
  | .site s args =>
      match h.handles[s.index]? with
      | some ⟨t, true⟩ => dispatchDeeds h t args stack
      | _ => []
  | .reference r (.boundMethod o name) args =>
      match h.referenceSite r name (args.length + 1) with
      | some (s, k) => dispatchDeeds k s (.object o :: args) stack
      | none => []
  | .reference .. => []

/-- The deeds of the next step. -/
def Config.deeds (c : Config) : List Deed :=
  match c.program with
  | .done _ => []
  | .operate a _ => a.deeds c.heap c.stack
  | .invoke i next => i.deeds c.heap (.resume next :: c.stack)

/-! ## 2. Where links are made -/

theorem linked_not_mem_targetDeeds {t : Target} {h : Heap} {args : List Value} {l : Link} :
    .linked l ∉ t.deeds h args := by
  unfold Target.deeds Heap.defineDeeds
  split
  · split <;> simp
  · exact List.not_mem_nil

-- A call through a site makes a link where it finds no use for the one that the site remembers.
theorem linked_mem_dispatchDeeds {h : Heap} {s : SiteId} {args : List Value} {stack : List Frame}
    {l : Link} :
    .linked l ∈ dispatchDeeds h s args stack ↔
      ∃ x o k, h.site? s = some x ∧ (x.cached.filter fun m => h.guards m args) = none ∧
        receiver? args = some o ∧
        h.link (.site s x.cached none :: stack) o x.name x.shape = some (.ok (l, k)) := by
  constructor
  · intro hm
    unfold dispatchDeeds at hm
    split at hm
    · exact absurd hm List.not_mem_nil
    next x hx =>
      split at hm
      · exact absurd hm linked_not_mem_targetDeeds
      next hnone =>
        unfold relinkDeeds at hm
        split at hm
        · exact absurd hm List.not_mem_nil
        next o ho =>
          split at hm
          next m k hl =>
            rcases List.mem_cons.1 hm with e | hm
            · cases e
              exact ⟨x, o, k, hx, hnone, ho, hl⟩
            · exact absurd hm linked_not_mem_targetDeeds
          · exact absurd hm List.not_mem_nil
  · rintro ⟨x, o, k, hx, hnone, ho, hl⟩
    simp only [dispatchDeeds, hx, hnone, relinkDeeds, ho, hl]
    exact List.mem_cons_self

theorem linked_mem_operationDeeds {a : Operation} {h : Heap} {stack : List Frame} {l : Link} :
    .linked l ∈ a.deeds h stack ↔ ∃ o name shape fallback k, a = .link o name shape fallback ∧
      h.link stack o name shape = some (.ok (l, k)) := by
  constructor
  · intro hm
    cases a with
    | link o name shape fallback =>
      simp only [Operation.deeds] at hm
      split at hm
      next m k hl =>
        cases List.mem_singleton.1 hm
        exact ⟨o, name, shape, fallback, k, rfl, hl⟩
      · exact absurd hm List.not_mem_nil
    | define o name v =>
      simp only [Operation.deeds, Heap.defineDeeds] at hm
      split at hm <;> simp at hm
    | undefine o name =>
      simp only [Operation.deeds, Heap.undefineDeeds] at hm
      split at hm
      · split at hm <;> simp at hm
      · simp at hm
    | mixin o source =>
      simp only [Operation.deeds, Heap.mixinDeeds] at hm
      split at hm <;> simp at hm
    | _ => exact absurd hm List.not_mem_nil
  · rintro ⟨o, name, shape, fallback, k, rfl, hl⟩
    simp only [Operation.deeds, hl]
    exact List.mem_singleton_self _

/-! ## 3. Changes of properties -/

namespace Heap

/-- From `h` to `k` the properties of one object were changed that `ds` says, and nothing else; or
nothing at all. -/
inductive Changes (h : Heap) : List Deed → Heap → Prop where
  | none : h.Changes [] h
  | commit {o x names change} : h.object? o = some x → x.Rebinds names change →
      h.Changes (names.map (.changed o)) (h.commit o change)

variable {h k : Heap} {o : ObjectId} {name : String} {r : Except CallError Unit}

theorem changes_define {v : Value} (hp : h.define o name v = some (r, k)) :
    h.Changes (h.defineDeeds o name v) k := by
  unfold defineDeeds
  rw [hp]
  unfold Heap.define at hp
  obtain ⟨x, ho, hx⟩ := Option.map_eq_some_iff.1 hp
  split at hx
  · cases hx
    exact .none
  · cases hx
    exact .commit ho (x.rebinds_define name v)

theorem changes_undefine (hp : h.undefine o name = some (r, k)) :
    h.Changes (h.undefineDeeds o name) k := by
  unfold undefineDeeds
  rw [hp]
  unfold Heap.undefine at hp
  obtain ⟨x, ho, hx⟩ := Option.map_eq_some_iff.1 hp
  split at hx
  · cases hx
    exact .none
  · cases hx
    have hc := Changes.commit ho (x.rebinds_undefine name)
    simp only [ho]
    split at hc
    next hn =>
      rw [if_pos hn]
      exact hc
    next hn =>
      rw [if_neg hn]
      exact hc

theorem changes_mixin {source : ObjectId} (hp : h.mixin o source = some (r, k)) :
    h.Changes (h.mixinDeeds o source) k := by
  unfold mixinDeeds
  rw [hp]
  unfold Heap.mixin at hp
  obtain ⟨y, hy, hp⟩ := Option.bind_eq_some_iff.1 hp
  obtain ⟨x, hx, hp⟩ := Option.bind_eq_some_iff.1 hp
  split at hp
  next hempty =>
    cases hp
    have hkeys : y.properties.keys = [] := by rw [Table.keys, hempty]; rfl
    simp only [hy, hkeys]
    exact .none
  · split at hp
    · cases hp
      exact .none
    · cases hp
      simp only [hy]
      exact .commit hx (x.rebinds_mixin y.properties)

end Heap

/-! ## 4. What a link leads to -/

-- Of all that a link can lead to only a setter changes anything by itself.
theorem Target.changes_enter {t : Target} {code : Routines} {h k : Heap} {args : List Value}
    {p : Program} (he : t.enter code h args = some (p, k)) : h.Changes (t.deeds h args) k := by
  cases t with
  | method f | constant v | missing name =>
    cases he
    exact .none
  | define name =>
    simp only [enter] at he
    split at he
    · obtain ⟨⟨r, j⟩, hd, hj⟩ := Option.map_eq_some_iff.1 he
      cases hj
      exact Heap.changes_define hd
    next hargs =>
      cases he
      have hnone : (Target.define name).deeds h args = [] := by
        unfold deeds
        split
        · exact absurd rfl (hargs _ _)
        · rfl
      rw [hnone]
      exact .none

-- And a setter that is refused changes nothing either.
theorem Target.enter_cases {t : Target} {code : Routines} {h k : Heap} {args : List Value}
    {p : Program} (he : t.enter code h args = some (p, k)) :
    k = h ∨ ∃ n o, t = .define n ∧ receiver? args = some o ∧ .changed o n ∈ t.deeds h args := by
  cases t with
  | method f | constant v | missing name =>
    cases he
    exact .inl rfl
  | define n =>
    simp only [enter] at he
    split at he
    next o v =>
      obtain ⟨⟨r, j⟩, hd, hj⟩ := Option.map_eq_some_iff.1 he
      cases hj
      have hdeeds : (Target.define n).deeds h [.object o, v] = h.defineDeeds o n v := rfl
      rw [hdeeds]
      unfold Heap.defineDeeds
      rw [hd]
      cases r with
      | error e =>
        obtain ⟨x, -, hx⟩ := Option.map_eq_some_iff.1 hd
        split at hx <;> cases hx
        exact .inl rfl
      | ok u => exact .inr ⟨n, o, rfl, rfl, List.mem_singleton_self _⟩
    · cases he
      exact .inl rfl

-- Whether a property may be bound depends on the objects only.
theorem Heap.defineDeeds_congr {h k : Heap} (hobjects : k.objects = h.objects) (o : ObjectId)
    (name : String) (v : Value) : k.defineDeeds o name v = h.defineDeeds o name v := by
  unfold defineDeeds Heap.define
  rw [object?, object?, hobjects]
  cases h.objects[o.index]? with
  | none => rfl
  | some x => cases hx : x.frozen <;> simp [hx]

theorem Target.deeds_congr {h k : Heap} (hobjects : k.objects = h.objects) (t : Target)
    (args : List Value) : t.deeds k args = t.deeds h args := by
  unfold deeds
  split
  · exact Heap.defineDeeds_congr hobjects _ _ _
  · rfl

/-! ## 5. What a call through a site enters -/

/-- A call with `args` through a site, which is `x`, fails before anything is called. -/
inductive Site.Refuses (x : Site) (h : Heap) (args : List Value) : CallError → Prop where
  | notAnObject : receiver? args = none →
      x.Refuses h args (.notAnObject x.name (receiverType args))
  | link {o y e} : receiver? args = some o → h.object? o = some y →
      y.target x.name x.shape = .error e → x.Refuses h args (.link e)

/-- What a call through site `s` enters, and its deeds. -/
inductive Dispatched (code : Routines) (h : Heap) (s : SiteId) (args : List Value)
    (stack : List Frame) : Config → List Deed → Prop where
  /-- It does what the link says that the site remembers. -/
  | guarded {x l p k} : h.site? s = some x → x.cached = some l → h.guards l args = true →
      l.target.enter code h args = some (p, k) →
      Dispatched code h s args stack ⟨k, p, .site s (some l) none :: stack⟩ (l.target.deeds h args)
  | refused {x err} : h.site? s = some x → x.Refuses h args err →
      Dispatched code h s args stack ⟨h, .done (.error err), .site s x.cached none :: stack⟩ []
  /-- It does what a new link says, which the site takes up when the call is over. -/
  | relinked {x o l k p j} : h.site? s = some x → receiver? args = some o →
      h.link (.site s x.cached none :: stack) o x.name x.shape = some (.ok (l, k)) →
      l.target.enter code (k.setSite s { x with relinks := x.relinks + 1 }) args = some (p, j) →
      Dispatched code h s args stack ⟨j, p, .site s x.cached (some l) :: stack⟩
        (.linked l :: l.target.deeds k args)

theorem dispatched_of_dispatch {code : Routines} {h : Heap} {s : SiteId} {args : List Value}
    {stack : List Frame} {d : Config} (hd : dispatch code h s args stack = some d) :
    Dispatched code h s args stack d (dispatchDeeds h s args stack) := by
  unfold dispatch at hd
  obtain ⟨x, hx, hd⟩ := Option.bind_eq_some_iff.1 hd
  unfold dispatchDeeds
  simp only [hx]
  cases hl : x.cached.filter fun l => h.guards l args with
  | some l =>
    rw [hl] at hd
    obtain ⟨⟨p, k⟩, hk, hd⟩ := Option.bind_eq_some_iff.1 hd
    cases hd
    obtain ⟨hcached, hguards⟩ := Option.filter_eq_some_iff.1 hl
    exact .guarded hx hcached hguards hk
  | none =>
    rw [hl] at hd
    dsimp only at hd
    unfold relink at hd
    unfold relinkDeeds
    cases hr : receiver? args with
    | none =>
      simp only [hr] at hd
      cases hd
      exact .refused hx (.notAnObject hr)
    | some o =>
      simp only [hr] at hd
      obtain ⟨e, he, hd⟩ := Option.bind_eq_some_iff.1 hd
      simp only [he]
      split at hd
      next e =>
        cases hd
        rw [h.link_eq] at he
        obtain ⟨y, hy, ht⟩ := Option.map_eq_some_iff.1 he
        refine .refused hx (.link hr hy ?_)
        cases htarget : y.target x.name x.shape with
        | error e' =>
          rw [htarget] at ht
          cases ht
          rfl
        | ok t =>
          rw [htarget] at ht
          cases ht
      next l k =>
        obtain ⟨⟨p, j⟩, hj, hd⟩ := Option.bind_eq_some_iff.1 hd
        cases hd
        exact .relinked hx hr he hj

end LateBind
