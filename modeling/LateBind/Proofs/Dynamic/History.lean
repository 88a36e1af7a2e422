import LateBind.Proofs.Dynamic.Validity

/-!
# What ends the validity of a link

The deeds of a run are those of its steps, in order. A link is valid for as long as its making is
followed by no change of the property it is bound to.
-/

namespace LateBind

/-! ## 1. Histories -/

/-- The configurations that a run from the empty heap comes through, with the deeds up to there. -/
inductive History (code : Routines) : Config → List Deed → Prop where
  | start (p : Program) : History code ⟨{}, p, []⟩ []
  | step {c d : Config} {ds : List Deed} : History code c ds → step code c = some d →
      History code d (ds ++ c.deeds)

theorem History.reachable {code : Routines} {c : Config} {ds : List Deed}
    (hh : History code c ds) : Reachable code c := by
  induction hh with
  | start p => exact .start p
  | step _ hd ih => exact ih.step hd

theorem Reachable.history {code : Routines} {c : Config} (hc : Reachable code c) :
    ∃ ds, History code c ds := by
  induction hc with
  | start p => exact ⟨[], .start p⟩
  | step _ hd ih =>
    obtain ⟨ds, hds⟩ := ih
    exact ⟨_, hds.step hd⟩

/-! ## 2. What deeds do to links -/

-- What is found in a list of two parts is found in one of them.
theorem exists_of_append_eq_append_cons {α : Type} {ds ds' before after : List α} {d : α}
    (h : ds ++ ds' = before ++ d :: after) :
    (∃ rest, ds = before ++ d :: rest ∧ after = rest ++ ds') ∨
      ∃ rest, before = ds ++ rest ∧ ds' = rest ++ d :: after := by
  rcases List.append_eq_append_iff.1 h with ⟨rest, hbefore, hrest⟩ | ⟨rest, hds, hrest⟩
  · exact .inr ⟨rest, hbefore, hrest⟩
  · cases rest with
    | nil => exact .inr ⟨[], by rw [hds, List.append_nil, List.append_nil], hrest.symm⟩
    | cons e rest =>
      obtain ⟨rfl, rfl⟩ := List.cons.inj hrest
      exact .inl ⟨rest, hds, rfl⟩

namespace Heap

/-- Between `h` and `k` the deeds `ds` were done: what links there are then, and which of them are
valid, is as `ds` says. -/
structure Becomes (h : Heap) (stack : List Frame) (ds : List Deed) (k : Heap)
    (stack' : List Frame) : Prop where
  issued_le : h.issued ≤ k.issued
  links : ∀ l ∈ k.links stack', l ∈ h.links stack ∨ .linked l ∈ ds
  fresh : ∀ l, .linked l ∈ ds → h.issued ≤ l.token.index ∧ l.token.index < k.issued
  /-- A link that was there before. -/
  kept : ∀ l ∈ h.links stack, l ∈ k.links stack' →
    (k.isValid l.token = true ↔ h.isValid l.token = true ∧ .changed l.owner l.name ∉ ds)
  /-- A link that was made in between. -/
  made : ∀ l ∈ k.links stack', ∀ before after, ds = before ++ .linked l :: after →
    (k.isValid l.token = true ↔ .changed l.owner l.name ∉ after)

variable {h j k : Heap} {stack stack' stack'' : List Frame} {ds ds' : List Deed}

theorem isValid_congr (hissued : k.issued = h.issued) (hrevoked : k.revoked = h.revoked)
    (t : TokenId) : k.isValid t = h.isValid t := by
  rw [isValid, isValid, hissued, hrevoked]

-- Where nothing is done, links can only go.
theorem Becomes.quiet (hissued : k.issued = h.issued) (hrevoked : k.revoked = h.revoked)
    (hlinks : ∀ l ∈ k.links stack', l ∈ h.links stack) : h.Becomes stack [] k stack' where
  issued_le := Nat.le_of_eq hissued.symm
  links l hl := .inl (hlinks l hl)
  fresh l hl := absurd hl List.not_mem_nil
  kept l _ _ := by
    rw [isValid_congr hissued hrevoked]
    simp
  made l _ before after e := by simp at e

-- A link that was there in between is there before what came last, if it is there after.
theorem Becomes.links_of_lt (hb : j.Becomes stack' ds' k stack'') {l : Link}
    (hlt : l.token.index < j.issued) (hl : l ∈ k.links stack'') : l ∈ j.links stack' := by
  refine (hb.links l hl).resolve_right fun hm => ?_
  exact Nat.lt_irrefl _ (Nat.lt_of_lt_of_le hlt (hb.fresh l hm).1)

theorem Becomes.trans (hs : h.Sound stack) (h₁ : h.Becomes stack ds j stack')
    (h₂ : j.Becomes stack' ds' k stack'') : h.Becomes stack (ds ++ ds') k stack'' where
  issued_le := Nat.le_trans h₁.issued_le h₂.issued_le
  links l hl := by
    rw [List.mem_append]
    rcases h₂.links l hl with hl | hl
    · exact (h₁.links l hl).imp_right .inl
    · exact .inr (.inr hl)
  fresh l hl := by
    rcases List.mem_append.1 hl with hl | hl
    · exact (h₁.fresh l hl).imp_right fun hlt => Nat.lt_of_lt_of_le hlt h₂.issued_le
    · exact (h₂.fresh l hl).imp_left (Nat.le_trans h₁.issued_le)
  kept l hl hk := by
    have hlt : l.token.index < j.issued :=
      Nat.lt_of_lt_of_le (hs.honoured l hl).issued h₁.issued_le
    have hj : l ∈ j.links stack' := h₂.links_of_lt hlt hk
    rw [h₂.kept l hj hk, h₁.kept l hl hj, List.mem_append, not_or, and_assoc]
  made l hk before after e := by
    -- The link was made in the first part or in the second.
    obtain ⟨rest, rfl, rfl⟩ | ⟨rest, rfl, rfl⟩ := exists_of_append_eq_append_cons e
    · have hmem : Deed.linked l ∈ before ++ .linked l :: rest := by simp
      have hj : l ∈ j.links stack' := h₂.links_of_lt (h₁.fresh l hmem).2 hk
      rw [h₂.kept l hj hk, h₁.made l hj before rest rfl, List.mem_append, not_or]
    · exact h₂.made l hk rest after rfl

-- A change of properties.
theorem Becomes.commit {o : ObjectId} {x : Object} {names : List String}
    {change : Object × List TokenId} (hs : h.Sound stack) (ho : h.object? o = some x)
    (hc : x.Rebinds names change) :
    h.Becomes stack (names.map (.changed o)) (h.commit o change) stack where
  issued_le := Nat.le_refl _
  links l hl := .inl hl
  fresh l hl := by simp at hl
  kept l hl _ := by
    rw [isValid_commit (hs.honoured l hl) ho hc]
    simp only [List.mem_map, Deed.changed.injEq, not_exists, not_and]
    refine and_congr_right fun _ => ⟨fun hn n hn' e hname => ?_, fun hn e hname => ?_⟩
    · exact hn e.symm (hname ▸ hn')
    · exact hn l.name hname e.symm rfl
  made l _ before after e := by
    have hmem : Deed.linked l ∈ names.map (.changed o) := e ▸ by simp
    simp at hmem

theorem Changes.becomes (hc : h.Changes ds k) (hs : h.Sound stack) : h.Becomes stack ds k stack := by
  cases hc with
  | none => exact .quiet rfl rfl fun _ hl => hl
  | commit ho hx => exact .commit hs ho hx

-- A new link, wherever it is kept.
theorem Becomes.link {o : ObjectId} {name : String} {shape : Shape} {l : Link}
    (hs : h.Sound stack) (hp : h.link stack o name shape = some (.ok (l, j)))
    (hissued : k.issued = j.issued) (hrevoked : k.revoked = j.revoked)
    (hlinks : ∀ m ∈ k.links stack', m = l ∨ m ∈ h.links stack) :
    h.Becomes stack [.linked l] k stack' := by
  obtain ⟨x, t, ho, ht, rfl, rfl⟩ := exists_of_link hp
  refine ⟨?_, fun m hm => ?_, fun m hm => ?_, fun m hm _ => ?_, fun m _ before after e => ?_⟩
  · rw [hissued]
    exact Nat.le_succ _
  · rcases hlinks m hm with rfl | hm
    · exact .inr (List.mem_singleton_self _)
    · exact .inl hm
  · cases List.mem_singleton.1 hm
    exact ⟨Nat.le_refl _, hissued ▸ Nat.lt_succ_self _⟩
  · rw [isValid_congr hissued hrevoked, isValid_grant (hs.honoured m hm).issued]
    simp
  · rcases List.append_eq_singleton_iff.1 e.symm with ⟨-, e⟩ | ⟨-, e⟩
    · cases e
      rw [isValid_congr hissued hrevoked, hs.isValid_fresh]
      simp
    · cases e

end Heap

theorem Operation.becomes_perform {a : Operation} {h k : Heap} {stack : List Frame} {r : a.Reply}
    (hs : h.Sound stack) (hp : a.perform h stack = some (r, k)) :
    h.Becomes stack (a.deeds h stack) k stack := by
  cases a with
  | create =>
    cases hp
    exact .quiet rfl rfl fun _ hl => hl
  | copy o | freeze o | properties o | isFrozen o =>
    obtain ⟨x, -, hx⟩ := Option.map_eq_some_iff.1 hp
    cases hx
    exact .quiet rfl rfl fun _ hl => hl
  | define o name v => exact (Heap.changes_define hp).becomes hs
  | undefine o name => exact (Heap.changes_undefine hp).becomes hs
  | mixin o source => exact (Heap.changes_mixin hp).becomes hs
  | link o name shape fallback =>
    obtain ⟨e, he, hx⟩ := Option.map_eq_some_iff.1 hp
    simp only [deeds, he]
    cases e with
    | error e =>
      cases hx
      exact .quiet rfl rfl fun _ hl => hl
    | ok p =>
      obtain ⟨l, j⟩ := p
      cases hx
      refine .link hs he rfl rfl fun m hm => ?_
      obtain ⟨-, -, -, -, x, rfl⟩ := hs.link he
      rcases Heap.mem_links_withStubs hm with ⟨y, hy, rfl⟩ | hm
      · rcases List.mem_append.1 hy with hy | hy
        · exact .inr (Heap.mem_links.2 (.inl ⟨y, hy, rfl⟩))
        · cases List.mem_singleton.1 hy
          exact .inl rfl
      · exact .inr hm
  | cloneStub s =>
    obtain ⟨x, hx, hp⟩ := Option.map_eq_some_iff.1 hp
    cases hp
    exact .quiet rfl rfl fun l hl => Heap.links_withStubs (fun y => Heap.mem_stubs_clone hx) hl
  | dropStub s =>
    cases hp
    exact .quiet rfl rfl fun l hl => Heap.links_withStubs (fun y => Heap.mem_stubs_drop) hl
  | createSite name shape =>
    cases hp
    exact .quiet rfl rfl fun l hl => Heap.links_createSite Heap.handles_new (fun s => .inl) hl
  | cloneSite s =>
    simp only [Operation.perform] at hp
    split at hp
    next site hsite =>
      cases hp
      exact .quiet rfl rfl fun l hl => Heap.links_withHandles (Heap.handles_clone hsite) hl
    · cases hp
  | dropSite s =>
    simp only [Operation.perform] at hp
    split at hp
    next site hsite =>
      cases hp
      exact .quiet rfl rfl fun l hl => Heap.links_withHandles (Heap.handles_drop hsite) hl
    · cases hp
      exact .quiet rfl rfl fun _ hl => hl
  | createReference =>
    cases hp
    exact .quiet rfl rfl fun l hl => Heap.links_newReference hl

/-! ## 3. Calls -/

section Dispatch

variable {code : Routines} {h : Heap} {s : SiteId} {args : List Value} {stack : List Frame}
  {d : Config} {ds : List Deed}

-- A call begins without a deed. It may hold links that were there already.
theorem Heap.becomes_push {f : Frame} (hsite : ∀ s, f.site? = some s → s ∈ h.liveSites stack)
    (hlinks : ∀ l ∈ f.links, l ∈ h.links stack) : h.Becomes stack [] h (f :: stack) :=
  .quiet rfl rfl fun l hl => (mem_links_push hsite hl).elim (hlinks l) id

theorem Heap.becomes_unlinked {x : Site} (hlive : s ∈ h.liveSites stack) (hx : h.site? s = some x) :
    h.Becomes stack [] h (.site s x.cached none :: stack) := by
  refine becomes_push (fun t ht => Option.some.inj ht ▸ hlive) fun l hl => ?_
  have hcached : x.cached = some l := by simpa [Frame.links] using hl
  exact mem_links.2 (.inr (.inl ⟨s, hlive, x, hx, hcached⟩))

-- From the site's link being read to the new one being held, one link is made.
theorem Heap.Sound.becomes_relinked {x : Site} {o : ObjectId} {l : Link} {k : Heap}
    (hs : h.Sound stack) (hlive : s ∈ h.liveSites stack) (hx : h.site? s = some x)
    (hl : h.link (.site s x.cached none :: stack) o x.name x.shape = some (.ok (l, k))) :
    h.Becomes (.site s x.cached none :: stack) [.linked l]
      (k.setSite s { x with relinks := x.relinks + 1 }) (.site s x.cached (some l) :: stack) := by
  have hunlinked := hs.unlinked hlive hx
  refine .link hunlinked hl rfl rfl fun m hm => ?_
  obtain ⟨-, -, -, -, y, rfl⟩ := hunlinked.link hl
  have hread : x.cached = some m → m ∈ h.links (.site s x.cached none :: stack) := fun e =>
    mem_links.2 (.inr (.inr ⟨_, List.mem_cons_self, List.mem_append_left _ (Option.mem_toList.2 e)⟩))
  rcases mem_links_setSite hx hm with e | hm
  · exact .inr (hread e)
  · rcases mem_links_push (fun t ht => Option.some.inj ht ▸ hlive) hm with hm | hm
    · rcases List.mem_append.1 hm with hm | hm
      · exact .inr (hread (Option.mem_toList.1 hm))
      · exact .inl (Option.some.inj (Option.mem_toList.1 hm)).symm
    · exact .inr (links_pop hm)

theorem Dispatched.becomes (hd : Dispatched code h s args stack d ds) (hs : h.Sound stack)
    (hlive : s ∈ h.liveSites stack) : h.Becomes stack ds d.heap d.stack := by
  cases hd with
  | guarded hx hl _ hk =>
    have hpush := hs.unlinked hlive hx
    have hread := Heap.becomes_unlinked hlive hx
    rw [hl] at hpush hread
    exact hread.trans hs ((Target.changes_enter hk).becomes hpush)
  | refused hx _ => exact Heap.becomes_unlinked hlive hx
  | @relinked x o l k p j hx _ hl hj =>
    have hread := Heap.becomes_unlinked hlive hx
    have hcall := (Target.changes_enter hj).becomes (hs.relinked hlive hx hl)
    have hobjects : (k.setSite s { x with relinks := x.relinks + 1 }).objects = k.objects := rfl
    rw [Target.deeds_congr hobjects] at hcall
    exact (hread.trans hs (hs.becomes_relinked hlive hx hl)).trans hs hcall

end Dispatch

-- A reference may take up a new site, which brings no link.
theorem Heap.becomes_referenceSite {h k : Heap} {stack : List Frame} {r : ReferenceId}
    {name : String} {arity : Nat} {s : SiteId} (hp : h.referenceSite r name arity = some (s, k)) :
    h.Becomes stack [] k stack := by
  unfold Heap.referenceSite at hp
  obtain ⟨current, -, hp⟩ := Option.map_eq_some_iff.1 hp
  dsimp only at hp
  split at hp
  · cases hp
    exact .quiet rfl rfl fun _ hl => hl
  · cases hp
    refine .quiet rfl rfl fun l hl => links_createSite (fun x => .inl) (fun t ht => ?_) hl
    exact (List.mem_or_eq_of_mem_set ht).imp_right Option.some.inj

theorem Invocation.becomes_enter {i : Invocation} {code : Routines} {h : Heap} {stack : List Frame}
    {d : Config} (hs : h.Sound stack) (hd : i.enter code h stack = some d) :
    h.Becomes stack (i.deeds h stack) d.heap d.stack := by
  cases i with
  | function f args =>
    cases hd
    exact .quiet rfl rfl fun _ hl => hl
  | stub s args =>
    obtain ⟨x, hx, hd⟩ := Option.bind_eq_some_iff.1 hd
    have hmem : x.link ∈ h.links stack :=
      Heap.mem_links.2 (.inl ⟨x, List.mem_of_getElem? (Option.join_eq_some_iff.1 hx), rfl⟩)
    have hpush : h.Becomes stack [] h (.stub x :: stack) :=
      Heap.becomes_push (fun t ht => by cases ht) fun l hl => List.mem_singleton.1 hl ▸ hmem
    simp only [deeds, hx]
    split at hd
    next hg =>
      obtain ⟨⟨p, k⟩, hk, hd⟩ := Option.bind_eq_some_iff.1 hd
      cases hd
      have hsound : h.Sound (.stub x :: stack) :=
        hs.push (fun l hl => hs.honoured l (List.mem_singleton.1 hl ▸ hmem)) (fun t ht => by cases ht)
          (by simp)
      rw [if_pos hg]
      exact hpush.trans hs ((Target.changes_enter hk).becomes hsound)
    next hg =>
      cases hd
      rw [if_neg hg]
      exact hpush
  | site s args =>
    obtain ⟨⟨t, live⟩, hx, hd⟩ := Option.bind_eq_some_iff.1 hd
    simp only [deeds, hx]
    cases live with
    | true =>
      have hmem : t ∈ h.liveSites stack :=
        Heap.mem_liveSites.2 (.inl ⟨_, List.mem_of_getElem? hx, rfl, rfl⟩)
      exact (dispatched_of_dispatch hd).becomes hs hmem
    | false =>
      obtain ⟨y, -, hd⟩ := Option.bind_eq_some_iff.1 hd
      cases hd
      exact .quiet rfl rfl fun _ hl => hl
  | reference r callee args =>
    cases callee with
    | boundMethod o name =>
      obtain ⟨⟨s, k⟩, hk, hd⟩ := Option.bind_eq_some_iff.1 hd
      obtain ⟨hsound, hlive, -⟩ := hs.referenceSite hk
      simp only [deeds, hk]
      exact (Heap.becomes_referenceSite hk).trans hs ((dispatched_of_dispatch hd).becomes hsound hlive)
    | _ =>
      cases hd
      exact .quiet rfl rfl fun _ hl => hl

-- A site that comes to remember a link takes it from the call that is over.
theorem Frame.becomes_finish {f : Frame} {outcome : Outcome} {h : Heap} {stack : List Frame} :
    h.Becomes (f :: stack) [] (f.finish outcome h stack).heap (f.finish outcome h stack).stack := by
  cases f with
  | resume next => exact .quiet rfl rfl fun _ => Heap.links_pop
  | stub s => exact .quiet rfl rfl fun _ => Heap.links_pop
  | site s read linked =>
    simp only [Frame.finish]
    split
    next l x hx =>
      refine .quiet rfl rfl fun m hm => ?_
      rcases Heap.mem_links_setSite hx hm with e | hm
      · refine Heap.mem_links.2 (.inr (.inr ⟨_, List.mem_cons_self, ?_⟩))
        exact List.mem_append_right _ (Option.mem_toList.2 e)
      · exact Heap.links_pop hm
    · exact .quiet rfl rfl fun _ => Heap.links_pop

/-! ## 4. Runs -/

theorem becomes_step {code : Routines} {c d : Config} (hs : c.heap.Sound c.stack)
    (hd : step code c = some d) : c.heap.Becomes c.stack c.deeds d.heap d.stack := by
  obtain ⟨h, p, stack⟩ := c
  cases p with
  | done outcome =>
    cases stack with
    | nil => cases hd
    | cons f stack =>
      cases hd
      exact Frame.becomes_finish
  | operate a next =>
    obtain ⟨⟨r, k⟩, hk, hd⟩ := Option.map_eq_some_iff.1 hd
    cases hd
    exact Operation.becomes_perform hs hk
  | invoke i next =>
    have hpush : h.Becomes stack [] h (.resume next :: stack) :=
      Heap.becomes_push (fun t ht => by cases ht) fun l hl => absurd hl List.not_mem_nil
    exact hpush.trans hs (Invocation.becomes_enter (hs.resume next) hd)

theorem History.becomes {code : Routines} {c : Config} {ds : List Deed} (hh : History code c ds) :
    ({} : Heap).Becomes [] ds c.heap c.stack := by
  induction hh with
  | start p => exact .quiet rfl rfl fun _ hl => hl
  | step hh hd ih => exact ih.trans Heap.sound_empty (becomes_step hh.reachable.sound hd)

/-- **Only a change to its own property ends the validity of a link.** A link that is there was
made at some point of the run, and its token is valid if and only if since then its property has
not been changed: not bound on its owner, through a setter or to an equal value either, not mixed
in from a source that had it, and not removed while it was there. -/
theorem valid_iff_unchanged {code : Routines} {c : Config} {ds : List Deed}
    (hh : History code c ds) {l : Link} (hl : l ∈ c.heap.links c.stack) :
    .linked l ∈ ds ∧ ∀ before after, ds = before ++ .linked l :: after →
      (c.heap.isValid l.token = true ↔ .changed l.owner l.name ∉ after) :=
  ⟨(hh.becomes.links l hl).resolve_left List.not_mem_nil, hh.becomes.made l hl⟩

/-- The deeds of the next `n` steps. -/
def deedsOver (code : Routines) : Nat → Config → List Deed
  | 0, _ => []
  | n + 1, c => c.deeds ++ ((step code c).map (deedsOver code n)).getD []

theorem History.advance {code : Routines} {n : Nat} {c d : Config} {ds : List Deed}
    (hh : History code c ds) (hd : advance code n c = some d) :
    History code d (ds ++ deedsOver code n c) := by
  induction n generalizing c ds with
  | zero =>
    cases hd
    rw [deedsOver, List.append_nil]
    exact hh
  | succ n ih =>
    obtain ⟨e, he, hd⟩ := Option.bind_eq_some_iff.1 hd
    rw [deedsOver, he, Option.map_some, Option.getD_some, ← List.append_assoc]
    exact ih (hh.step he) hd

theorem becomes_advance {code : Routines} {n : Nat} {c d : Config} (hs : c.heap.Sound c.stack)
    (hd : advance code n c = some d) :
    c.heap.Becomes c.stack (deedsOver code n c) d.heap d.stack := by
  induction n generalizing c with
  | zero =>
    cases hd
    exact .quiet rfl rfl fun _ hl => hl
  | succ n ih =>
    obtain ⟨e, he, hd⟩ := Option.bind_eq_some_iff.1 hd
    rw [deedsOver, he, Option.map_some, Option.getD_some]
    exact (becomes_step hs he).trans hs (ih (sound_step hs he) hd)

namespace SetToEqual

/-- Two properties are linked. One is then set to the value it has, and the object is frozen before
the other is bound anew. -/
def program : Program :=
  .operate .create fun o => .operate (.define o "x" (.int 1)) fun _ =>
  .operate (.define o "y" (.int 2)) fun _ => .operate (.link o "x" { arity := 1 } ⟨0⟩) fun _ =>
  .operate (.link o "y" { arity := 1 } ⟨0⟩) fun _ =>
  .operate (.createSite "x" { arity := 2 }) fun s =>
  .invoke (.site s [.object o, .int 1]) fun _ => .operate (.freeze o) fun _ =>
  .operate (.define o "y" (.int 3)) fun _ => .done (.ok .null)

def routines : Routines := fun _ _ => .done (.ok .null)

def first : Config := ⟨{}, program, []⟩

/-- The configuration at the end. -/
def last : Config := (advance routines 11 first).getD first

def getX : Link := ⟨⟨0⟩, ⟨0⟩, "x", { arity := 1 }, .constant (.int 1)⟩

def getY : Link := ⟨⟨1⟩, ⟨0⟩, "y", { arity := 1 }, .constant (.int 2)⟩

def setX : Link := ⟨⟨2⟩, ⟨0⟩, "x", { arity := 2 }, .define "x"⟩

end SetToEqual

open SetToEqual in
-- The setter ends the validity of the links to its property, the one it runs through included.
theorem valid_iff_unchanged_setter :
    History routines last
        [.changed ⟨0⟩ "x", .changed ⟨0⟩ "y", .linked getX, .linked getY, .linked setX,
          .changed ⟨0⟩ "x"] ∧
      ¬last.heap.isValid getX.token = true ∧ last.heap.isValid getY.token = true ∧
      ¬last.heap.isValid setX.token = true := by
  have hh : History routines last (deedsOver routines 11 first) :=
    (History.start program).advance (n := 11) (d := last) rfl
  have hstub : ∀ l, some ⟨l, ⟨0⟩⟩ ∈ last.heap.stubs → l ∈ last.heap.links last.stack := fun l hl =>
    Heap.mem_links.2 (.inl ⟨_, hl, rfl⟩)
  have hsite : setX ∈ last.heap.links last.stack :=
    Heap.mem_links.2 (.inr (.inl ⟨⟨0⟩, by decide, ⟨"x", { arity := 2 }, some setX, 1⟩, rfl, rfl⟩))
  obtain ⟨-, hx⟩ := valid_iff_unchanged hh (hstub getX (by decide))
  obtain ⟨-, hy⟩ := valid_iff_unchanged hh (hstub getY (by decide))
  obtain ⟨-, hs⟩ := valid_iff_unchanged hh hsite
  refine ⟨hh, fun hv => ?_, (hy [.changed ⟨0⟩ "x", .changed ⟨0⟩ "y", .linked getX] _ rfl).2 (by decide),
    fun hv => ?_⟩
  · exact (hx [.changed ⟨0⟩ "x", .changed ⟨0⟩ "y"] _ rfl).1 hv (by decide)
  · exact (hs [.changed ⟨0⟩ "x", .changed ⟨0⟩ "y", .linked getX, .linked getY] _ rfl).1 hv (by decide)

end LateBind
