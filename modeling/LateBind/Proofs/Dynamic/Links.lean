import LateBind.Dynamic.Machine

/-!
# Links: what the machine owes to those that are still there

A link says what a call site should do, and its token says whether that is still so. While a link
is in a stub, in the memory of a site or in use by a call, the object that gave it out knows its
token, no other property does, and as long as the token is valid the link says what binding the
site anew would say. Every step keeps this.
-/

namespace LateBind

/-! ## 1. Which links are still there -/

/-- The links that a call in progress holds. -/
def Frame.links : Frame → List Link
  | .resume _ => []
  | .stub s => [s.link]
  | .site _ read linked => read.toList ++ linked.toList

/-- The site that a call in progress goes through. -/
def Frame.site? : Frame → Option SiteId
  | .site s .. => some s
  | _ => none

namespace Heap

theorem mem_liveSites {h : Heap} {stack : List Frame} {s : SiteId} :
    s ∈ h.liveSites stack ↔
      (∃ x ∈ h.handles, x.live = true ∧ x.site = s) ∨ some s ∈ h.references ∨
        ∃ f ∈ stack, f.site? = some s := by
  simp only [liveSites, List.mem_append, List.mem_map, List.mem_filter, List.mem_filterMap, id,
    exists_eq_right, or_assoc, and_assoc]
  refine or_congr Iff.rfl (or_congr Iff.rfl (exists_congr fun f => and_congr_right fun _ => ?_))
  cases f <;> rfl

theorem mem_links {h : Heap} {stack : List Frame} {l : Link} :
    l ∈ h.links stack ↔
      (∃ x, some x ∈ h.stubs ∧ x.link = l) ∨
        (∃ s ∈ h.liveSites stack, ∃ x, h.site? s = some x ∧ x.cached = some l) ∨
          ∃ f ∈ stack, l ∈ f.links := by
  unfold links
  rw [List.mem_append, List.mem_append, or_assoc]
  simp only [List.mem_filterMap, List.mem_flatMap, Option.map_eq_some_iff,
    Option.bind_eq_some_iff]
  refine or_congr ⟨?_, ?_⟩ (or_congr Iff.rfl (exists_congr fun f => and_congr_right fun _ => ?_))
  · rintro ⟨-, hm, x, rfl, hx⟩
    exact ⟨x, hm, hx⟩
  · rintro ⟨x, hm, hx⟩
    exact ⟨some x, hm, x, rfl, hx⟩
  · cases f <;> rfl

-- No link appears where calls end and handles or references go.
theorem links_mono {h k : Heap} {stack stack' : List Frame} {l : Link} (hl : l ∈ k.links stack')
    (hstubs : k.stubs = h.stubs) (hsites : k.sites = h.sites)
    (hlive : ∀ s ∈ k.liveSites stack', s ∈ h.liveSites stack) (hstack : ∀ f ∈ stack', f ∈ stack) :
    l ∈ h.links stack := by
  rcases mem_links.1 hl with ⟨x, hx, hxl⟩ | ⟨s, hs, x, hx, hxl⟩ | ⟨f, hf, hfl⟩
  · exact mem_links.2 (.inl ⟨x, hstubs ▸ hx, hxl⟩)
  · refine mem_links.2 (.inr (.inl ⟨s, hlive s hs, x, ?_, hxl⟩))
    rw [site?, ← hsites]
    exact hx
  · exact mem_links.2 (.inr (.inr ⟨f, hstack f hf, hfl⟩))

end Heap

/-! ## 2. Changes to one object -/

namespace Object

theorem issued_insert (x : Object) (name n : String) (ts : List TokenId) (p : Table Value)
    (b : Bool) :
    (⟨p, x.tokens.insert name ts, b⟩ : Object).issued n = if n = name then ts else x.issued n := by
  simp only [issued, Table.get?_insert]
  split <;> rfl

/-- `change` binds or removes the properties `names` of `x` and revokes the tokens out for them,
and these names are tracked from then on. What other names are bound to, and the tokens out for
those, stay as they are. -/
structure Rebinds (x : Object) (names : List String) (change : Object × List TokenId) : Prop where
  kept : ∀ n, n ∉ names → change.1.properties.get? n = x.properties.get? n
  issued : ∀ n, change.1.issued n = if n ∈ names then [] else x.issued n
  revoked : ∀ t, t ∈ change.2 ↔ ∃ n ∈ names, t ∈ x.issued n
  tracked : ∀ n, change.1.tracks n = true ↔ x.tracks n = true ∨ n ∈ names

-- A change to no property.
theorem rebinds_nil (x : Object) (b : Bool) : x.Rebinds [] ({ x with frozen := b }, []) where
  kept _ _ := rfl
  issued n := by simp only [List.not_mem_nil, if_false]; rfl
  revoked t := by simp
  tracked n := by simp only [List.not_mem_nil, or_false]; rfl

theorem rebinds_define (x : Object) (name : String) (v : Value) :
    x.Rebinds [name] (x.define name v) where
  kept n hn := by
    rw [List.mem_singleton] at hn
    simp only [define, Table.get?_insert, if_neg hn]
  issued n := by
    rw [define, issued_insert]
    simp only [List.mem_singleton]
  revoked t := by simp [define]
  tracked n := by
    rw [List.mem_singleton]
    exact Table.contains_insert

theorem rebinds_undefine (x : Object) (name : String) :
    x.Rebinds (if x.properties.contains name then [name] else []) (x.undefine name) := by
  unfold undefine
  split
  · refine ⟨fun n hn => ?_, fun n => ?_, fun t => ?_, fun n => ?_⟩
    · rw [List.mem_singleton] at hn
      simp only [Table.get?_erase, if_neg hn]
    · rw [issued_insert]
      simp only [List.mem_singleton]
    · simp
    · rw [List.mem_singleton]
      exact Table.contains_insert
  · exact rebinds_nil x x.frozen

theorem get?_foldl_insert {α β : Type} (entries : List (String × α)) (f : α → β) (t : Table β)
    (n : String) (hn : n ∉ entries.map (·.1)) :
    (entries.foldl (fun t e => t.insert e.1 (f e.2)) t).get? n = t.get? n := by
  induction entries generalizing t with
  | nil => rfl
  | cons e rest ih =>
    rw [List.map_cons, List.mem_cons, not_or] at hn
    rw [List.foldl_cons, ih _ hn.2, Table.get?_insert, if_neg hn.1]

theorem issued_foldl_insert (names : List String) (x : Object) (p : Table Value) (b : Bool)
    (n : String) :
    (⟨p, names.foldl (fun t n => t.insert n []) x.tokens, b⟩ : Object).issued n =
      if n ∈ names then [] else x.issued n := by
  induction names generalizing x with
  | nil => simp only [List.not_mem_nil, if_false]; rfl
  | cons m rest ih =>
    have hm : (⟨x.properties, x.tokens.insert m [], x.frozen⟩ : Object).issued n =
        if n = m then [] else x.issued n := issued_insert x m n [] _ _
    rw [List.foldl_cons, ih ⟨x.properties, x.tokens.insert m [], x.frozen⟩, hm]
    by_cases h : n = m <;> simp [h]

theorem contains_foldl_insert {names : List String} {t : Table (List TokenId)} {n : String} :
    (names.foldl (fun t n => t.insert n []) t).contains n = true ↔
      t.contains n = true ∨ n ∈ names := by
  induction names generalizing t with
  | nil => simp
  | cons m rest ih => rw [List.foldl_cons, ih, Table.contains_insert, or_assoc, List.mem_cons]

theorem rebinds_mixin (x : Object) (incoming : Table Value) :
    x.Rebinds incoming.keys (x.mixin incoming) where
  kept n hn := get?_foldl_insert incoming.entries id x.properties n hn
  issued n := issued_foldl_insert incoming.keys x _ _ n
  revoked t := by simp [mixin]
  tracked n := contains_foldl_insert

theorem target_congr {x y : Object} {name : String}
    (h : x.properties.get? name = y.properties.get? name) (shape : Shape) :
    x.target name shape = y.target name shape := by
  unfold target
  rw [h]

theorem issued_issue (x : Object) (name n : String) (carried : TokenId → Bool) (fresh : TokenId) :
    (x.issue name carried fresh).issued n =
      if n = name then (x.issued name).filter carried ++ [fresh] else x.issued n :=
  issued_insert x name n _ _ _

theorem issued_copy (x : Object) (n : String) : x.copy.issued n = [] := by
  simp only [issued, copy, Table.get?_map]
  cases x.properties.get? n <;> rfl

end Object

/-! ## 3. What a heap owes a link -/

/-- The heap stands by link `l`: no property counts its token among its own but the one that `l`
is bound to, and while the token is valid that property counts it and still serves `l` so. -/
structure Heap.Honours (h : Heap) (l : Link) : Prop where
  issued : l.token.index < h.issued
  owned : ∀ o x n, h.object? o = some x → l.token ∈ x.issued n → o = l.owner ∧ n = l.name
  current : h.isValid l.token = true →
    ∃ x, h.object? l.owner = some x ∧ l.token ∈ x.issued l.name ∧
      x.target l.name l.shape = .ok l.target

namespace Heap

-- Only objects and tokens matter.
theorem Honours.congr {h k : Heap} {l : Link} (hl : h.Honours l) (hobjects : k.objects = h.objects)
    (hissued : k.issued = h.issued) (hrevoked : k.revoked = h.revoked) : k.Honours l where
  issued := hissued ▸ hl.issued
  owned o x n hx := hl.owned o x n (by rw [object?, ← hobjects]; exact hx)
  current hv := by
    obtain ⟨x, hx, hrest⟩ := hl.current (by rw [isValid, ← hissued, ← hrevoked]; exact hv)
    exact ⟨x, by rw [object?, hobjects]; exact hx, hrest⟩

section Commit

variable {h : Heap} {l : Link} {o : ObjectId} {x : Object} {names : List String}
  {change : Object × List TokenId}

theorem object?_commit (ho : h.object? o = some x) (p : ObjectId) :
    (h.commit o change).object? p = if p = o then some change.1 else h.object? p := by
  have ho' : (h.revoke change.2).object? o = some x := ho
  rw [commit, object?_setObject, ho']
  rfl

-- The tokens out for what was changed are gone, and the others are where they were.
theorem issued_commit (ho : h.object? o = some x) (hc : x.Rebinds names change) {p : ObjectId}
    {y : Object} (hy : (h.commit o change).object? p = some y) :
    ∃ z, h.object? p = some z ∧
      ∀ n, y.issued n = if p = o ∧ n ∈ names then [] else z.issued n := by
  rw [object?_commit ho] at hy
  split at hy
  next e =>
    cases hy
    exact ⟨x, e ▸ ho, fun n => by simp only [hc.issued, e, true_and]⟩
  next e => exact ⟨y, hy, fun n => by rw [if_neg fun hn => e hn.1]⟩

theorem mem_issued_commit (ho : h.object? o = some x) (hc : x.Rebinds names change) {p : ObjectId}
    {y : Object} {n : String} {t : TokenId} (hy : (h.commit o change).object? p = some y)
    (ht : t ∈ y.issued n) :
    ∃ z, h.object? p = some z ∧ t ∈ z.issued n ∧ ¬(p = o ∧ n ∈ names) := by
  obtain ⟨z, hz, hissued⟩ := issued_commit ho hc hy
  rw [hissued] at ht
  split at ht
  · exact absurd ht List.not_mem_nil
  next hn => exact ⟨z, hz, ht, hn⟩

-- A change revokes the valid tokens of the names it rebinds and no others.
theorem isValid_commit (hl : h.Honours l) (ho : h.object? o = some x)
    (hc : x.Rebinds names change) :
    (h.commit o change).isValid l.token = true ↔
      h.isValid l.token = true ∧ ¬(l.owner = o ∧ l.name ∈ names) := by
  show (h.revoke change.2).isValid l.token = true ↔ _
  rw [isValid_revoke, Bool.and_eq_true]
  refine and_congr_right fun hv => ?_
  -- A valid token is out for the property its link is bound to and for no other.
  have hmem : l.token ∈ change.2 ↔ l.owner = o ∧ l.name ∈ names := by
    rw [hc.revoked]
    constructor
    · rintro ⟨n, hn, ht⟩
      obtain ⟨rfl, rfl⟩ := hl.owned o x n ho ht
      exact ⟨rfl, hn⟩
    · rintro ⟨rfl, hn⟩
      obtain ⟨y, hy, ht, -⟩ := hl.current hv
      obtain rfl : x = y := Option.some.inj (ho.symm.trans hy)
      exact ⟨l.name, hn, ht⟩
  rw [← hmem]
  simp

theorem Honours.commit (hl : h.Honours l) (ho : h.object? o = some x)
    (hc : x.Rebinds names change) : (h.commit o change).Honours l where
  issued := hl.issued
  owned p y n hy ht := by
    obtain ⟨z, hz, ht, -⟩ := mem_issued_commit ho hc hy ht
    exact hl.owned p z n hz ht
  current hv := by
    obtain ⟨hv, hn⟩ := (isValid_commit hl ho hc).1 hv
    obtain ⟨y, hy, ht, htarget⟩ := hl.current hv
    rw [object?_commit ho]
    by_cases hp : l.owner = o
    · have hname : l.name ∉ names := fun hmem => hn ⟨hp, hmem⟩
      obtain rfl : x = y := Option.some.inj (ho.symm.trans (hp ▸ hy))
      refine ⟨change.1, if_pos hp, ?_, ?_⟩
      · rw [hc.issued, if_neg hname]
        exact ht
      · rw [Object.target_congr (hc.kept l.name hname)]
        exact htarget
    · exact ⟨y, (if_neg hp).trans hy, ht, htarget⟩

end Commit

theorem object?_create (h : Heap) (x : Object) (o : ObjectId) :
    (h.create x).2.object? o = if o = ⟨h.objects.length⟩ then some x else h.object? o := by
  show (h.objects ++ [x])[o.index]? = _
  split
  next e =>
    rw [e]
    exact List.getElem?_concat_length
  next e =>
    have hne : o.index ≠ h.objects.length := fun i => e (by cases o; exact congrArg _ i)
    rcases Nat.lt_or_gt_of_ne hne with hlt | hgt
    · exact List.getElem?_append_left hlt
    · have hnone : h.object? o = none := List.getElem?_eq_none (Nat.le_of_lt hgt)
      rw [hnone]
      refine List.getElem?_eq_none ?_
      rw [List.length_append]
      exact hgt

-- A new object has no token out.
theorem mem_issued_create {h : Heap} {x : Object} (hx : ∀ n, x.issued n = []) {p : ObjectId}
    {y : Object} {n : String} {t : TokenId} (hy : (h.create x).2.object? p = some y)
    (ht : t ∈ y.issued n) : h.object? p = some y := by
  rw [object?_create] at hy
  split at hy
  · cases hy
    rw [hx] at ht
    exact absurd ht List.not_mem_nil
  · exact hy

theorem Honours.create {h : Heap} {l : Link} (hl : h.Honours l) (x : Object)
    (hx : ∀ n, x.issued n = []) : (h.create x).2.Honours l where
  issued := hl.issued
  owned p y n hy ht := hl.owned p y n (mem_issued_create hx hy ht) ht
  current hv := by
    obtain ⟨y, hy, hrest⟩ := hl.current hv
    exact ⟨y, List.getElem?_append_left (List.getElem?_eq_some_iff.1 hy).1 |>.trans hy, hrest⟩

/-! ## 4. Giving out a token -/

/-- The heap once object `o`, which is `x`, has given out the next token for `name`. -/
def grant (h : Heap) (stack : List Frame) (o : ObjectId) (x : Object) (name : String) : Heap :=
  { h with issued := h.issued + 1 }.setObject o
    (x.issue name (h.carried stack).contains ⟨h.issued⟩)

theorem link_eq (h : Heap) (stack : List Frame) (o : ObjectId) (name : String) (shape : Shape) :
    h.link stack o name shape = (h.object? o).map fun x =>
      (x.target name shape).map fun t =>
        (⟨⟨h.issued⟩, o, name, shape, t⟩, h.grant stack o x name) := by
  unfold link
  congr 1
  funext x
  cases x.target name shape <;> rfl

-- What binding a site comes to where it succeeds.
theorem exists_of_link {h k : Heap} {stack : List Frame} {o : ObjectId} {name : String}
    {shape : Shape} {l : Link} (hp : h.link stack o name shape = some (.ok (l, k))) :
    ∃ x t, h.object? o = some x ∧ x.target name shape = .ok t ∧
      l = ⟨⟨h.issued⟩, o, name, shape, t⟩ ∧ k = h.grant stack o x name := by
  rw [link_eq] at hp
  obtain ⟨x, ho, hx⟩ := Option.map_eq_some_iff.1 hp
  cases ht : x.target name shape with
  | error e =>
    rw [ht] at hx
    cases hx
  | ok t =>
    rw [ht] at hx
    cases hx
    exact ⟨x, t, ho, ht, rfl, rfl⟩

section Grant

variable {h : Heap} {stack : List Frame} {l : Link} {o : ObjectId} {x : Object} {name : String}

theorem object?_grant (ho : h.object? o = some x) (p : ObjectId) :
    (h.grant stack o x name).object? p =
      if p = o then some (x.issue name (h.carried stack).contains ⟨h.issued⟩) else h.object? p := by
  have ho' : ({ h with issued := h.issued + 1 } : Heap).object? o = some x := ho
  rw [grant, object?_setObject, ho']
  rfl

-- One token is out that was not before. No other comes to be held, but some may be forgotten.
theorem issued_grant (ho : h.object? o = some x) {p : ObjectId} {y : Object}
    (hy : (h.grant stack o x name).object? p = some y) :
    ∃ z, h.object? p = some z ∧ ∀ n, y.issued n = if p = o ∧ n = name then
      (z.issued n).filter (h.carried stack).contains ++ [⟨h.issued⟩] else z.issued n := by
  rw [object?_grant ho] at hy
  split at hy
  next e =>
    cases hy
    refine ⟨x, e ▸ ho, fun n => ?_⟩
    rw [Object.issued_issue]
    by_cases hn : n = name <;> simp [e, hn]
  next e => exact ⟨y, hy, fun n => by rw [if_neg fun hn => e hn.1]⟩

theorem mem_issued_grant (ho : h.object? o = some x) {p : ObjectId} {y : Object} {n : String}
    {t : TokenId} (hy : (h.grant stack o x name).object? p = some y) (ht : t ∈ y.issued n) :
    (∃ z, h.object? p = some z ∧ t ∈ z.issued n) ∨ t = ⟨h.issued⟩ ∧ p = o ∧ n = name := by
  obtain ⟨z, hz, hissued⟩ := issued_grant ho hy
  rw [hissued] at ht
  split at ht
  next hn =>
    rcases List.mem_append.1 ht with ht | ht
    · exact .inl ⟨z, hz, (List.mem_filter.1 ht).1⟩
    · exact .inr ⟨List.mem_singleton.1 ht, hn⟩
  next => exact .inl ⟨z, hz, ht⟩

theorem isValid_grant {t : TokenId} (ht : t.index < h.issued) :
    (h.grant stack o x name).isValid t = h.isValid t := by
  show (decide (t.index < h.issued + 1) && _) = (decide (t.index < h.issued) && _)
  rw [decide_eq_true ht, decide_eq_true (Nat.lt_succ_of_lt ht)]
  rfl

theorem isValid_grant_self (hrevoked : ∀ t ∈ h.revoked, t.index < h.issued) :
    (h.grant stack o x name).isValid ⟨h.issued⟩ = true := by
  have hnew : (⟨h.issued⟩ : TokenId) ∉ h.revoked := fun hm => Nat.lt_irrefl _ (hrevoked _ hm)
  show (decide (h.issued < h.issued + 1) && !h.revoked.contains ⟨h.issued⟩) = true
  simp [hnew]

-- A token that a link still carries is never forgotten by its object.
theorem Honours.grant (hl : h.Honours l) (hmem : l ∈ h.links stack) (ho : h.object? o = some x) :
    (h.grant stack o x name).Honours l where
  issued := Nat.lt_succ_of_lt hl.issued
  owned p y n hy ht := by
    rcases mem_issued_grant ho hy ht with ⟨z, hz, ht⟩ | ⟨hfresh, -⟩
    · exact hl.owned p z n hz ht
    · exact absurd hl.issued (by rw [hfresh]; exact Nat.lt_irrefl _)
  current hv := by
    rw [isValid_grant hl.issued] at hv
    obtain ⟨y, hy, ht, htarget⟩ := hl.current hv
    rw [object?_grant ho]
    by_cases hp : l.owner = o
    · obtain rfl : x = y := Option.some.inj (ho.symm.trans (hp ▸ hy))
      refine ⟨_, if_pos hp, ?_, htarget⟩
      rw [Object.issued_issue]
      split
      next hn =>
        -- Only tokens that no link carries are forgotten, and `l` is still there.
        rw [hn] at ht
        exact List.mem_append_left _
          (List.mem_filter.2 ⟨ht, contains_carried_iff.2 ⟨l, hmem, rfl⟩⟩)
      next => exact ht
    · exact ⟨y, (if_neg hp).trans hy, ht, htarget⟩

end Grant

end Heap

/-! ## 5. Sound heaps -/

/-- Site `s` remembers `l`, or will once a call in progress is over. -/
def Heap.Remembers (h : Heap) (stack : List Frame) (s : SiteId) (l : Link) : Prop :=
  (∃ x, h.site? s = some x ∧ x.cached = some l) ∨ ∃ read, Frame.site s read (some l) ∈ stack

/-- What holds between any two steps while the calls on `stack` are in progress. -/
structure Heap.Sound (h : Heap) (stack : List Frame) : Prop where
  honoured : ∀ l ∈ h.links stack, h.Honours l
  /-- No token is out or revoked that was not issued. -/
  issued_lt : ∀ o x n, h.object? o = some x → ∀ t ∈ x.issued n, t.index < h.issued
  revoked_lt : ∀ t ∈ h.revoked, t.index < h.issued
  /-- A handle has a site. -/
  handles : ∀ x ∈ h.handles, ∃ y, h.site? x.site = some y
  /-- A reference calls with a fixed number of arguments. -/
  references : ∀ s, some s ∈ h.references → ∃ y, h.site? s = some y ∧ y.shape.varargs = false
  /-- A site is only ever bound to its own name, for its own shape. -/
  remembered : ∀ s l, h.Remembers stack s l →
    ∃ x, h.site? s = some x ∧ l.name = x.name ∧ l.shape = x.shape

namespace Heap

theorem sound_empty : ({} : Heap).Sound [] where
  honoured l hl := absurd hl List.not_mem_nil
  issued_lt o x n ho := absurd ho (by simp [object?])
  revoked_lt t ht := absurd ht List.not_mem_nil
  handles x hx := absurd hx List.not_mem_nil
  references s hs := absurd hs List.not_mem_nil
  remembered s l hr := by simp [Remembers, site?] at hr

-- Stubs, sites and calls may come and go as long as every link there is then is honoured.
theorem Sound.rearrange {h k : Heap} {stack stack' : List Frame} (hs : h.Sound stack)
    (hobjects : k.objects = h.objects) (hissued : k.issued = h.issued)
    (hrevoked : k.revoked = h.revoked) (hlinks : ∀ l ∈ k.links stack', h.Honours l)
    (hhandles : ∀ x ∈ k.handles, ∃ y, k.site? x.site = some y)
    (hreferences : ∀ s, some s ∈ k.references →
      ∃ y, k.site? s = some y ∧ y.shape.varargs = false)
    (hremembered : ∀ s l, k.Remembers stack' s l →
      ∃ x, k.site? s = some x ∧ l.name = x.name ∧ l.shape = x.shape) : k.Sound stack' where
  honoured l hl := (hlinks l hl).congr hobjects hissued hrevoked
  issued_lt o x n hx := hissued ▸ hs.issued_lt o x n (by rw [object?, ← hobjects]; exact hx)
  revoked_lt := hissued ▸ hrevoked ▸ hs.revoked_lt
  handles := hhandles
  references := hreferences
  remembered := hremembered

section Changes

variable {h : Heap} {stack : List Frame} {o : ObjectId} {x : Object} {names : List String}
  {change : Object × List TokenId}

theorem Sound.commit (hs : h.Sound stack) (ho : h.object? o = some x)
    (hc : x.Rebinds names change) : (h.commit o change).Sound stack where
  honoured l hl := (hs.honoured l hl).commit ho hc
  issued_lt p y n hy t ht := by
    obtain ⟨z, hz, ht, -⟩ := mem_issued_commit ho hc hy ht
    exact hs.issued_lt p z n hz t ht
  revoked_lt t ht := by
    rcases List.mem_append.1 ht with ht | ht
    · obtain ⟨n, -, ht⟩ := (hc.revoked t).1 ht
      exact hs.issued_lt o x n ho t ht
    · exact hs.revoked_lt t ht
  handles := hs.handles
  references := hs.references
  remembered := hs.remembered

theorem Sound.create (hs : h.Sound stack) (hx : ∀ n, x.issued n = []) :
    (h.create x).2.Sound stack where
  honoured l hl := (hs.honoured l hl).create x hx
  issued_lt p y n hy t ht := hs.issued_lt p y n (mem_issued_create hx hy ht) t ht
  revoked_lt := hs.revoked_lt
  handles := hs.handles
  references := hs.references
  remembered := hs.remembered

theorem Sound.grant {name : String} (hs : h.Sound stack) (ho : h.object? o = some x) :
    (h.grant stack o x name).Sound stack where
  honoured l hl := (hs.honoured l hl).grant hl ho
  issued_lt p y n hy t ht := by
    rcases mem_issued_grant ho hy ht with ⟨z, hz, ht⟩ | ⟨rfl, -⟩
    · exact Nat.lt_succ_of_lt (hs.issued_lt p z n hz t ht)
    · exact Nat.lt_succ_self _
  revoked_lt t ht := Nat.lt_succ_of_lt (hs.revoked_lt t ht)
  handles := hs.handles
  references := hs.references
  remembered := hs.remembered

theorem Sound.isValid_fresh {name : String} (hs : h.Sound stack) :
    (h.grant stack o x name).isValid ⟨h.issued⟩ = true :=
  isValid_grant_self hs.revoked_lt

-- A new link is honoured as the older ones are.
theorem Sound.honours_fresh {name : String} {shape : Shape} {t : Target} (hs : h.Sound stack)
    (ho : h.object? o = some x) (ht : x.target name shape = .ok t) :
    (h.grant stack o x name).Honours ⟨⟨h.issued⟩, o, name, shape, t⟩ where
  issued := Nat.lt_succ_self _
  owned p y n hy hm := by
    rcases mem_issued_grant ho hy hm with ⟨z, hz, hm⟩ | ⟨-, hproperty⟩
    · exact absurd (hs.issued_lt p z n hz _ hm) (Nat.lt_irrefl _)
    · exact hproperty
  current _ := by
    refine ⟨_, (object?_grant ho o).trans (if_pos rfl), ?_, ht⟩
    rw [Object.issued_issue, if_pos rfl]
    exact List.mem_append_right _ List.mem_cons_self

end Changes

end Heap

end LateBind
