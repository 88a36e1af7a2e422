import LateBind.Proofs.Dynamic.Deeds

/-!
# Every step keeps the heap sound

One lemma for each kind of step: an operation, the entry into a call, the return from one. Along a
run from the empty heap they give that every configuration is sound.
-/

namespace LateBind

/-! ## 1. Operations -/

namespace Heap

variable {h k : Heap} {stack : List Frame}

theorem Changes.sound {ds : List Deed} (hc : h.Changes ds k) (hs : h.Sound stack) :
    k.Sound stack := by
  cases hc with
  | none => exact hs
  | commit ho hc => exact hs.commit ho hc

-- Binding a site gives out a token, and nothing else changes.
theorem Sound.link {o : ObjectId} {name : String} {shape : Shape} {l : Link} (hs : h.Sound stack)
    (hp : h.link stack o name shape = some (.ok (l, k))) :
    k.Sound stack ∧ k.Honours l ∧ l.name = name ∧ l.shape = shape ∧
      ∃ x, k = h.grant stack o x name := by
  obtain ⟨x, t, ho, ht, rfl, rfl⟩ := exists_of_link hp
  exact ⟨hs.grant ho, hs.honours_fresh ho ht, rfl, rfl, x, rfl⟩

theorem mem_links_withStubs {stubs : List (Option Stub)} {l : Link}
    (hl : l ∈ ({ h with stubs } : Heap).links stack) :
    (∃ x, some x ∈ stubs ∧ x.link = l) ∨ l ∈ h.links stack :=
  (mem_links.1 hl).imp_right fun hl => mem_links.2 (.inr hl)

theorem links_withStubs {stubs : List (Option Stub)} {l : Link}
    (hstubs : ∀ x, some x ∈ stubs → some x ∈ h.stubs)
    (hl : l ∈ ({ h with stubs } : Heap).links stack) : l ∈ h.links stack := by
  rcases mem_links_withStubs hl with ⟨x, hx, rfl⟩ | hl
  · exact mem_links.2 (.inl ⟨x, hstubs x hx, rfl⟩)
  · exact hl

theorem mem_stubs_clone {s : StubId} {x y : Stub} (hx : h.stub? s = some x)
    (hy : some y ∈ h.stubs ++ [some x]) : some y ∈ h.stubs := by
  rcases List.mem_append.1 hy with hy | hy
  · exact hy
  · cases List.mem_singleton.1 hy
    exact List.mem_of_getElem? (Option.join_eq_some_iff.1 hx)

theorem mem_stubs_drop {i : Nat} {y : Stub} (hy : some y ∈ h.stubs.set i none) :
    some y ∈ h.stubs :=
  (List.mem_or_eq_of_mem_set hy).resolve_right (by simp)

-- Dropping links and adding stubs that are honoured keeps the rest.
theorem Sound.withStubs {stubs : List (Option Stub)} (hs : h.Sound stack)
    (hstubs : ∀ x, some x ∈ stubs → some x ∈ h.stubs ∨ h.Honours x.link) :
    ({ h with stubs } : Heap).Sound stack := by
  refine hs.rearrange rfl rfl rfl (fun l hl => ?_) hs.handles hs.references hs.remembered
  rcases mem_links_withStubs hl with ⟨x, hx, rfl⟩ | hl
  · rcases hstubs x hx with hx | hx
    · exact hs.honoured _ (mem_links.2 (.inl ⟨x, hx, rfl⟩))
    · exact hx
  · exact hs.honoured l hl

-- A change of handles that makes no site live which was not.
theorem links_withHandles {handles : List Handle} {l : Link}
    (hhandles : ∀ x ∈ handles, ∃ y ∈ h.handles, y.site = x.site ∧ (x.live = true → y.live = true))
    (hl : l ∈ ({ h with handles } : Heap).links stack) : l ∈ h.links stack := by
  refine links_mono hl rfl rfl (fun s hlive => ?_) fun _ hf => hf
  rcases mem_liveSites.1 hlive with ⟨x, hx, hxl, rfl⟩ | hlive
  · obtain ⟨y, hy, hys, hyl⟩ := hhandles x hx
    exact mem_liveSites.2 (.inl ⟨y, hy, hyl hxl, hys⟩)
  · exact mem_liveSites.2 (.inr hlive)

theorem handles_clone {i : Nat} {s : SiteId} (hs : h.handles[i]? = some ⟨s, true⟩) :
    ∀ x ∈ h.handles ++ [{ site := s }],
      ∃ y ∈ h.handles, y.site = x.site ∧ (x.live = true → y.live = true) := by
  intro x hx
  rcases List.mem_append.1 hx with hx | hx
  · exact ⟨x, hx, rfl, id⟩
  · cases List.mem_singleton.1 hx
    exact ⟨_, List.mem_of_getElem? hs, rfl, id⟩

theorem handles_drop {i : Nat} {s : SiteId} (hs : h.handles[i]? = some ⟨s, true⟩) :
    ∀ x ∈ h.handles.set i ⟨s, false⟩,
      ∃ y ∈ h.handles, y.site = x.site ∧ (x.live = true → y.live = true) := by
  intro x hx
  rcases List.mem_or_eq_of_mem_set hx with hx | rfl
  · exact ⟨x, hx, rfl, id⟩
  · exact ⟨_, List.mem_of_getElem? hs, rfl, fun _ => rfl⟩

theorem Sound.withHandles {handles : List Handle} (hs : h.Sound stack)
    (hhandles : ∀ x ∈ handles, ∃ y ∈ h.handles, y.site = x.site ∧ (x.live = true → y.live = true)) :
    ({ h with handles } : Heap).Sound stack := by
  refine hs.rearrange rfl rfl rfl (fun l hl => hs.honoured l (links_withHandles hhandles hl))
    (fun x hx => ?_) hs.references hs.remembered
  obtain ⟨y, hy, hys, -⟩ := hhandles x hx
  exact hys ▸ hs.handles y hy

-- A new reference has no site yet.
theorem mem_references_new {s : SiteId} (hs : some s ∈ h.references ++ [none]) :
    some s ∈ h.references :=
  (List.mem_append.1 hs).resolve_right (by simp)

theorem links_newReference {l : Link}
    (hl : l ∈ ({ h with references := h.references ++ [none] } : Heap).links stack) :
    l ∈ h.links stack := by
  refine links_mono hl rfl rfl (fun s hlive => mem_liveSites.2 ?_) fun _ hf => hf
  exact (mem_liveSites.1 hlive).imp_right fun hr => hr.imp_left mem_references_new

-- A site that was there is still found, with what it was, once another is made.
theorem site?_createSite {name : String} {shape : Shape} {s : SiteId} {x : Site}
    (hx : h.site? s = some x) : (h.createSite name shape).2.site? s = some x :=
  (List.getElem?_append_left (List.getElem?_eq_some_iff.1 hx).1).trans hx

theorem site?_createSite_self (name : String) (shape : Shape) :
    (h.createSite name shape).2.site? (h.createSite name shape).1 = some { name, shape } :=
  List.getElem?_concat_length

-- A new site remembers nothing.
theorem cached_createSite {name : String} {shape : Shape} {s : SiteId} {x : Site} {l : Link}
    (hx : (h.createSite name shape).2.site? s = some x) (hl : x.cached = some l) :
    h.site? s = some x := by
  change (h.sites ++ [({ name, shape } : Site)])[s.index]? = some x at hx
  rw [List.getElem?_append] at hx
  split at hx
  · exact hx
  · obtain rfl := List.mem_singleton.1 (List.mem_of_getElem? hx)
    cases hl

-- So a new site brings no link, whatever handle or reference it is given.
theorem links_createSite {name : String} {shape : Shape} {handles : List Handle}
    {references : List (Option SiteId)} {l : Link}
    (hhandles : ∀ x ∈ handles, x ∈ h.handles ∨ x.site = ⟨h.sites.length⟩)
    (hreferences : ∀ s, some s ∈ references → some s ∈ h.references ∨ s = ⟨h.sites.length⟩)
    (hl : l ∈ ({ (h.createSite name shape).2 with handles, references } : Heap).links stack) :
    l ∈ h.links stack := by
  rcases mem_links.1 hl with hl | ⟨s, hlive, x, hx, hxl⟩ | hl
  · exact mem_links.2 (.inl hl)
  · have hold : h.site? s = some x := cached_createSite hx hxl
    have hne : s ≠ ⟨h.sites.length⟩ := fun e =>
      Nat.lt_irrefl _ (e ▸ (List.getElem?_eq_some_iff.1 hold).1)
    refine mem_links.2 (.inr (.inl ⟨s, mem_liveSites.2 ?_, x, hold, hxl⟩))
    rcases mem_liveSites.1 hlive with ⟨y, hy, hyl, rfl⟩ | hsr | hf
    · exact .inl ⟨y, (hhandles y hy).resolve_right hne, hyl, rfl⟩
    · exact .inr (.inl ((hreferences s hsr).resolve_right hne))
    · exact .inr (.inr hf)
  · exact mem_links.2 (.inr (.inr hl))

theorem handles_new {s : SiteId} : ∀ x ∈ h.handles ++ [{ site := s }], x ∈ h.handles ∨ x.site = s :=
  fun _ hx => (List.mem_append.1 hx).imp_right fun hx =>
    congrArg Handle.site (List.mem_singleton.1 hx)

-- A new site may be given a handle, or a reference if it takes no variable arguments.
theorem Sound.createSite {name : String} {shape : Shape} {handles : List Handle}
    {references : List (Option SiteId)} (hs : h.Sound stack)
    (hhandles : ∀ x ∈ handles, x ∈ h.handles ∨ x.site = ⟨h.sites.length⟩)
    (hreferences : ∀ s, some s ∈ references →
      some s ∈ h.references ∨ s = ⟨h.sites.length⟩ ∧ shape.varargs = false) :
    ({ (h.createSite name shape).2 with handles, references } : Heap).Sound stack := by
  have hself := site?_createSite_self (h := h) name shape
  refine hs.rearrange rfl rfl rfl (fun l hl => hs.honoured l ?_) (fun x hx => ?_)
    (fun s hsr => ?_) fun s l hr => ?_
  · exact links_createSite hhandles (fun s hsr => (hreferences s hsr).imp_right And.left) hl
  · rcases hhandles x hx with hx | hx
    · obtain ⟨y, hy⟩ := hs.handles x hx
      exact ⟨y, site?_createSite hy⟩
    · exact ⟨_, (congrArg _ hx).trans hself⟩
  · rcases hreferences s hsr with hsr | ⟨rfl, hv⟩
    · obtain ⟨y, hy, hv⟩ := hs.references s hsr
      exact ⟨y, site?_createSite hy, hv⟩
    · exact ⟨_, hself, hv⟩
  · have hold : h.Remembers stack s l :=
      hr.imp_left fun ⟨x, hx, hxl⟩ => ⟨x, cached_createSite hx hxl, hxl⟩
    obtain ⟨y, hy, hyl⟩ := hs.remembered s l hold
    exact ⟨y, site?_createSite hy, hyl⟩

end Heap

theorem Operation.sound_perform {a : Operation} {h k : Heap} {stack : List Frame} {r : a.Reply}
    (hs : h.Sound stack) (hp : a.perform h stack = some (r, k)) : k.Sound stack := by
  cases a with
  | create =>
    cases hp
    exact hs.create fun _ => rfl
  | copy o =>
    obtain ⟨x, -, hx⟩ := Option.map_eq_some_iff.1 hp
    cases hx
    exact hs.create x.issued_copy
  | define o name v => exact (Heap.changes_define hp).sound hs
  | undefine o name => exact (Heap.changes_undefine hp).sound hs
  | freeze o =>
    obtain ⟨x, ho, hx⟩ := Option.map_eq_some_iff.1 hp
    cases hx
    exact hs.commit ho (x.rebinds_nil true)
  | mixin o source => exact (Heap.changes_mixin hp).sound hs
  | properties o | isFrozen o =>
    obtain ⟨x, -, hx⟩ := Option.map_eq_some_iff.1 hp
    cases hx
    exact hs
  | link o name shape fallback =>
    obtain ⟨e, he, hx⟩ := Option.map_eq_some_iff.1 hp
    cases e with
    | error e =>
      cases hx
      exact hs
    | ok p =>
      cases hx
      obtain ⟨hk, hl, -⟩ := hs.link he
      refine hk.withStubs fun x hx => ?_
      rcases List.mem_append.1 hx with hx | hx
      · exact .inl hx
      · cases List.mem_singleton.1 hx
        exact .inr hl
  | cloneStub s =>
    obtain ⟨x, hx, hp⟩ := Option.map_eq_some_iff.1 hp
    cases hp
    exact hs.withStubs fun y hy => .inl (Heap.mem_stubs_clone hx hy)
  | dropStub s =>
    cases hp
    exact hs.withStubs fun y hy => .inl (Heap.mem_stubs_drop hy)
  | createSite name shape =>
    cases hp
    exact hs.createSite Heap.handles_new fun s hsr => .inl hsr
  | cloneSite s =>
    simp only [Operation.perform] at hp
    split at hp
    next site hsite =>
      cases hp
      exact hs.withHandles (Heap.handles_clone hsite)
    · cases hp
  | dropSite s =>
    simp only [Operation.perform] at hp
    split at hp
    next site hsite =>
      cases hp
      exact hs.withHandles (Heap.handles_drop hsite)
    · cases hp
      exact hs
  | createReference =>
    cases hp
    exact hs.rearrange rfl rfl rfl (fun l hl => hs.honoured l (Heap.links_newReference hl))
      hs.handles (fun s hsr => hs.references s (Heap.mem_references_new hsr)) hs.remembered

/-! ## 2. Entering and leaving calls -/

namespace Heap

variable {h k : Heap} {stack : List Frame}

-- A call that begins through a live site, or through none, brings the links it holds.
theorem mem_links_push {f : Frame} {l : Link}
    (hsite : ∀ s, f.site? = some s → s ∈ h.liveSites stack) (hl : l ∈ h.links (f :: stack)) :
    l ∈ f.links ∨ l ∈ h.links stack := by
  rcases mem_links.1 hl with hl | ⟨s, hlive, hl⟩ | ⟨g, hg, hgl⟩
  · exact .inr (mem_links.2 (.inl hl))
  · have hlive : s ∈ h.liveSites stack := by
      rcases mem_liveSites.1 hlive with hx | hr | ⟨g, hg, hgs⟩
      · exact mem_liveSites.2 (.inl hx)
      · exact mem_liveSites.2 (.inr (.inl hr))
      · rcases List.mem_cons.1 hg with rfl | hg
        · exact hsite s hgs
        · exact mem_liveSites.2 (.inr (.inr ⟨g, hg, hgs⟩))
    exact .inr (mem_links.2 (.inr (.inl ⟨s, hlive, hl⟩)))
  · rcases List.mem_cons.1 hg with rfl | hg
    · exact .inl hgl
    · exact .inr (mem_links.2 (.inr (.inr ⟨g, hg, hgl⟩)))

theorem links_pop {f : Frame} {l : Link} (hl : l ∈ h.links stack) : l ∈ h.links (f :: stack) := by
  refine links_mono hl rfl rfl (fun s hlive => mem_liveSites.2 ?_) fun g hg =>
    List.mem_cons_of_mem f hg
  exact (mem_liveSites.1 hlive).imp_right fun hr => hr.imp_right fun ⟨g, hg, hgs⟩ =>
    ⟨g, List.mem_cons_of_mem f hg, hgs⟩

-- A call that begins holds links that are honoured. If it goes through a site, that is a live one,
-- and the call holds no new link but for it.
theorem Sound.push {f : Frame} (hs : h.Sound stack) (hlinks : ∀ l ∈ f.links, h.Honours l)
    (hsite : ∀ s, f.site? = some s → s ∈ h.liveSites stack)
    (hlinked : ∀ s read l, f = .site s read (some l) →
      ∃ x, h.site? s = some x ∧ l.name = x.name ∧ l.shape = x.shape) : h.Sound (f :: stack) := by
  refine hs.rearrange rfl rfl rfl (fun l hl => ?_) hs.handles hs.references fun s l hr => ?_
  · exact (mem_links_push hsite hl).elim (hlinks l) (hs.honoured l)
  · rcases hr with hr | ⟨read, hr⟩
    · exact hs.remembered s l (.inl hr)
    · rcases List.mem_cons.1 hr with e | hr
      · exact hlinked s read l e.symm
      · exact hs.remembered s l (.inr ⟨read, hr⟩)

-- The rest of a calling program holds no link.
theorem Sound.resume (hs : h.Sound stack) (next : Outcome → Program) :
    h.Sound (.resume next :: stack) :=
  hs.push (fun l hl => absurd hl List.not_mem_nil) (fun t ht => by cases ht) (by simp)

theorem Sound.pop {f : Frame} (hs : h.Sound (f :: stack)) : h.Sound stack :=
  hs.rearrange rfl rfl rfl (fun l hl => hs.honoured l (links_pop hl)) hs.handles hs.references
    fun s l hr => hs.remembered s l <| hr.imp_right fun ⟨read, hr⟩ =>
      ⟨read, List.mem_cons_of_mem _ hr⟩

theorem site?_setSite (s t : SiteId) (x : Site) :
    (h.setSite s x).site? t = if t = s then (h.site? s).map fun _ => x else h.site? t := by
  unfold site? setSite
  rw [List.getElem?_set]
  by_cases e : t = s
  · subst e
    by_cases hlt : t.index < h.sites.length <;> simp [hlt]
  · have : s.index ≠ t.index := fun i => e (by cases s; cases t; simp_all)
    simp [e, this]

-- Every site is still there, with its name and shape, once one is bound anew.
theorem exists_site?_setSite {s t : SiteId} {x y : Site} (hx : h.site? s = some x)
    (hy : h.site? t = some y) (cached : Option Link) (relinks : Nat) :
    ∃ z, (h.setSite s { x with cached, relinks }).site? t = some z ∧ z.name = y.name ∧
      z.shape = y.shape := by
  rw [site?_setSite, hx]
  split
  next e =>
    subst e
    obtain rfl : x = y := Option.some.inj (hx.symm.trans hy)
    exact ⟨_, rfl, rfl, rfl⟩
  next => exact ⟨y, hy, rfl, rfl⟩

theorem mem_links_setSite {s : SiteId} {x : Site} {cached : Option Link} {relinks : Nat} {l : Link}
    (hx : h.site? s = some x)
    (hl : l ∈ (h.setSite s { x with cached, relinks }).links stack) :
    cached = some l ∨ l ∈ h.links stack := by
  rcases mem_links.1 hl with hl | ⟨t, hlive, y, hy, hyl⟩ | hl
  · exact .inr (mem_links.2 (.inl hl))
  · rw [site?_setSite, hx] at hy
    split at hy
    · cases hy
      exact .inl hyl
    · exact .inr (mem_links.2 (.inr (.inl ⟨t, hlive, y, hy, hyl⟩)))
  · exact .inr (mem_links.2 (.inr (.inr hl)))

-- A site may forget its link, remember another one that is honoured, and count its links.
theorem Sound.setSite {s : SiteId} {x : Site} {cached : Option Link} {relinks : Nat}
    (hs : h.Sound stack) (hx : h.site? s = some x)
    (hlinks : ∀ l, cached = some l → h.Honours l ∧ l.name = x.name ∧ l.shape = x.shape) :
    (h.setSite s { x with cached, relinks }).Sound stack := by
  refine hs.rearrange rfl rfl rfl (fun l hl => ?_) (fun y hy => ?_) (fun t ht => ?_)
    fun t l hr => ?_
  · exact (mem_links_setSite hx hl).elim (fun e => (hlinks l e).1) (hs.honoured l)
  · obtain ⟨z, hz⟩ := hs.handles y hy
    obtain ⟨w, hw, -⟩ := exists_site?_setSite hx hz cached relinks
    exact ⟨w, hw⟩
  · obtain ⟨z, hz, hv⟩ := hs.references t ht
    obtain ⟨w, hw, -, hshape⟩ := exists_site?_setSite hx hz cached relinks
    exact ⟨w, hw, hshape ▸ hv⟩
  -- Only `s` may have come to remember another link.
  · have hold : (t = s ∧ l.name = x.name ∧ l.shape = x.shape) ∨ h.Remembers stack t l := by
      rcases hr with ⟨y, hy, hyl⟩ | hr
      · rw [site?_setSite, hx] at hy
        split at hy
        next e =>
          cases hy
          exact .inl ⟨e, (hlinks l hyl).2⟩
        next => exact .inr (.inl ⟨y, hy, hyl⟩)
      · exact .inr (.inr hr)
    rcases hold with ⟨rfl, hname, hshape⟩ | hold
    · obtain ⟨w, hw, hwn, hws⟩ := exists_site?_setSite hx hx cached relinks
      exact ⟨w, hw, hname.trans hwn.symm, hshape.trans hws.symm⟩
    · obtain ⟨z, hz, hname, hshape⟩ := hs.remembered t l hold
      obtain ⟨w, hw, hwn, hws⟩ := exists_site?_setSite hx hz cached relinks
      exact ⟨w, hw, hname.trans hwn.symm, hshape.trans hws.symm⟩

-- The link a live site remembers is honoured.
theorem Sound.honours_cached {s : SiteId} {x : Site} {l : Link} (hs : h.Sound stack)
    (hlive : s ∈ h.liveSites stack) (hx : h.site? s = some x) (hl : x.cached = some l) :
    h.Honours l :=
  hs.honoured l (mem_links.2 (.inr (.inl ⟨s, hlive, x, hx, hl⟩)))

end Heap

section Dispatch

variable {code : Routines} {h : Heap} {s : SiteId} {o : ObjectId} {args : List Value}
  {stack : List Frame} {d : Config} {ds : List Deed}

-- A call that finds no use for the link of its site holds on to it.
theorem Heap.Sound.unlinked {x : Site} (hs : h.Sound stack) (hlive : s ∈ h.liveSites stack)
    (hx : h.site? s = some x) : h.Sound (.site s x.cached none :: stack) := by
  refine hs.push (fun l hl => ?_) (fun t ht => Option.some.inj ht ▸ hlive) (by simp)
  exact hs.honours_cached hlive hx (by simpa [Frame.links] using hl)

-- The call holds the new link before the target runs, so that the target may revoke it.
theorem Heap.Sound.relinked {x : Site} {l : Link} {k : Heap} (hs : h.Sound stack)
    (hlive : s ∈ h.liveSites stack) (hx : h.site? s = some x)
    (hl : h.link (.site s x.cached none :: stack) o x.name x.shape = some (.ok (l, k))) :
    (k.setSite s { x with relinks := x.relinks + 1 }).Sound
      (.site s x.cached (some l) :: stack) := by
  obtain ⟨hk, hnew, hname, hshape, y, rfl⟩ := (hs.unlinked hlive hx).link hl
  -- The call still holds what the site remembered, so the new token leaves that honoured.
  have hread : ∀ m, x.cached = some m →
      (h.grant (.site s x.cached none :: stack) o y x.name).Honours m := by
    refine fun m hm => hk.honoured m (Heap.mem_links.2 (.inr (.inr ⟨_, List.mem_cons_self, ?_⟩)))
    exact List.mem_append_left _ (Option.mem_toList.2 hm)
  have hcall : (h.grant (.site s x.cached none :: stack) o y x.name).Sound
      (.site s x.cached (some l) :: stack) := by
    refine hk.pop.push (fun m hm => ?_) (fun t ht => Option.some.inj ht ▸ hlive) ?_
    · rcases List.mem_append.1 hm with hm | hm
      · exact hread m (Option.mem_toList.1 hm)
      · exact (Option.some.inj (Option.mem_toList.1 hm)) ▸ hnew
    · intro t read m e
      cases e
      exact ⟨x, hx, hname, hshape⟩
  refine hcall.setSite hx fun m hm => ⟨hread m hm, ?_⟩
  obtain ⟨z, hz, hm⟩ := hs.remembered s m (.inl ⟨x, hx, hm⟩)
  obtain rfl : x = z := Option.some.inj (hx.symm.trans hz)
  exact hm

theorem Dispatched.sound (hd : Dispatched code h s args stack d ds) (hs : h.Sound stack)
    (hlive : s ∈ h.liveSites stack) : d.heap.Sound d.stack := by
  cases hd with
  | guarded hx hl _ hk =>
    have hpush := hs.unlinked hlive hx
    rw [hl] at hpush
    exact (Target.changes_enter hk).sound hpush
  | refused hx _ => exact hs.unlinked hlive hx
  | relinked hx _ hl hj => exact (Target.changes_enter hj).sound (hs.relinked hlive hx hl)

end Dispatch

-- A reference goes through a live site of the method's name that passes `arity` arguments.
theorem Heap.Sound.referenceSite {h k : Heap} {stack : List Frame} {r : ReferenceId}
    {name : String} {arity : Nat} {s : SiteId} (hs : h.Sound stack)
    (hp : h.referenceSite r name arity = some (s, k)) :
    k.Sound stack ∧ s ∈ k.liveSites stack ∧
      ∃ x, k.site? s = some x ∧ x.name = name ∧ x.shape = { arity } := by
  unfold Heap.referenceSite at hp
  obtain ⟨current, hr, hp⟩ := Option.map_eq_some_iff.1 hp
  cases husable : current.filter fun s => (h.site? s).any fun x =>
      x.name == name && x.shape.arity == arity with
  | some t =>
    simp only [husable] at hp
    cases hp
    obtain ⟨rfl, hany⟩ := Option.filter_eq_some_iff.1 husable
    have hmem : some s ∈ h.references := List.mem_of_getElem? hr
    obtain ⟨x, hx, hv⟩ := hs.references s hmem
    rw [hx, Option.any_some, Bool.and_eq_true, beq_iff_eq, beq_iff_eq] at hany
    refine ⟨hs, Heap.mem_liveSites.2 (.inr (.inl hmem)), x, hx, hany.1, ?_⟩
    rw [← hany.2, ← hv]
  | none =>
    simp only [husable] at hp
    cases hp
    refine ⟨hs.createSite (fun x hx => .inl hx) fun t ht => ?_, ?_, _,
      Heap.site?_createSite_self name { arity }, rfl, rfl⟩
    · exact (List.mem_or_eq_of_mem_set ht).imp_right fun e => ⟨Option.some.inj e, rfl⟩
    · have hlt : r.index < h.references.length := (List.getElem?_eq_some_iff.1 hr).1
      exact Heap.mem_liveSites.2 (.inr (.inl (List.mem_set hlt _)))

-- It may take up a new site. Objects and tokens stay as they are, and so do the sites there were.
theorem Heap.kept_referenceSite {h k : Heap} {r : ReferenceId} {name : String} {arity : Nat}
    {s : SiteId} (hp : h.referenceSite r name arity = some (s, k)) :
    k.objects = h.objects ∧ k.issued = h.issued ∧ k.revoked = h.revoked ∧ h.sites <+: k.sites := by
  obtain ⟨current, -, hp⟩ := Option.map_eq_some_iff.1 hp
  dsimp only at hp
  split at hp <;> cases hp
  · exact ⟨rfl, rfl, rfl, List.prefix_rfl⟩
  · exact ⟨rfl, rfl, rfl, List.prefix_append _ _⟩

theorem Invocation.sound_enter {i : Invocation} {code : Routines} {h : Heap} {stack : List Frame}
    {d : Config} (hs : h.Sound stack) (hd : i.enter code h stack = some d) :
    d.heap.Sound d.stack := by
  cases i with
  | function f args =>
    cases hd
    exact hs
  | stub s args =>
    obtain ⟨x, hx, hd⟩ := Option.bind_eq_some_iff.1 hd
    have hmem : some x ∈ h.stubs := List.mem_of_getElem? (Option.join_eq_some_iff.1 hx)
    have hpush : h.Sound (.stub x :: stack) := by
      refine hs.push (fun l hl => ?_) (fun t ht => by cases ht) (by simp)
      rw [List.mem_singleton.1 hl]
      exact hs.honoured _ (Heap.mem_links.2 (.inl ⟨x, hmem, rfl⟩))
    split at hd
    · obtain ⟨⟨p, k⟩, hk, hd⟩ := Option.bind_eq_some_iff.1 hd
      cases hd
      exact (Target.changes_enter hk).sound hpush
    · cases hd
      exact hpush
  | site s args =>
    obtain ⟨x, hx, hd⟩ := Option.bind_eq_some_iff.1 hd
    split at hd
    next hlive =>
      have hmem : x.site ∈ h.liveSites stack :=
        Heap.mem_liveSites.2 (.inl ⟨x, List.mem_of_getElem? hx, hlive, rfl⟩)
      exact (dispatched_of_dispatch hd).sound hs hmem
    · obtain ⟨y, -, hd⟩ := Option.bind_eq_some_iff.1 hd
      cases hd
      exact hs
  | reference r callee args =>
    simp only [Invocation.enter] at hd
    split at hd
    · cases hd
      exact hs
    · obtain ⟨⟨s, k⟩, hk, hd⟩ := Option.bind_eq_some_iff.1 hd
      obtain ⟨hk, hlive, -⟩ := hs.referenceSite hk
      exact (dispatched_of_dispatch hd).sound hk hlive
    · cases hd
      exact hs

theorem Frame.sound_finish {f : Frame} {outcome : Outcome} {h : Heap} {stack : List Frame}
    (hs : h.Sound (f :: stack)) :
    (f.finish outcome h stack).heap.Sound (f.finish outcome h stack).stack := by
  cases f with
  | resume next => exact hs.pop
  | stub s => exact hs.pop
  | site s read linked =>
    simp only [Frame.finish]
    split
    next l x hx =>
      refine hs.pop.setSite hx fun m hm => ⟨?_, ?_⟩
      · refine hs.honoured m (Heap.mem_links.2 (.inr (.inr ⟨_, List.mem_cons_self, ?_⟩)))
        exact List.mem_append_right _ (Option.mem_toList.2 hm)
      · cases hm
        obtain ⟨y, hy, hl⟩ := hs.remembered s l (.inr ⟨read, List.mem_cons_self⟩)
        obtain rfl : x = y := Option.some.inj (hx.symm.trans hy)
        exact hl
    · exact hs.pop

/-! ## 3. Runs -/

theorem sound_step {code : Routines} {c d : Config} (hs : c.heap.Sound c.stack)
    (hd : step code c = some d) : d.heap.Sound d.stack := by
  obtain ⟨h, p, stack⟩ := c
  cases p with
  | done outcome =>
    cases stack with
    | nil => cases hd
    | cons f stack =>
      cases hd
      exact Frame.sound_finish hs
  | operate a next =>
    obtain ⟨⟨r, k⟩, hk, hd⟩ := Option.map_eq_some_iff.1 hd
    cases hd
    exact Operation.sound_perform hs hk
  | invoke i next => exact Invocation.sound_enter (hs.resume next) hd

/-- Every configuration of a run from the empty heap is sound. -/
theorem Reachable.sound {code : Routines} {c : Config} (hc : Reachable code c) :
    c.heap.Sound c.stack := by
  induction hc with
  | start p => exact Heap.sound_empty
  | step _ hd ih => exact sound_step ih hd

end LateBind
