import LateBind.Proofs.Dynamic.Tokens

/-!
# What a step does to a call site

A site comes to three things: it is bound anew by a call that finds no use for its link, it takes up
the new link when that call is over, and otherwise it stays as it is. The calls in progress say which
links it has yet to take up.
-/

namespace LateBind

/-! ## 1. Sites stay -/

namespace Heap

variable {h k : Heap} {s : SiteId} {x : Site}

-- Sites are only ever added.
theorem site?_of_prefix (hsites : h.sites <+: k.sites) (hx : h.site? s = some x) :
    k.site? s = some x := by
  obtain ⟨new, hnew⟩ := hsites
  obtain ⟨hlt, -⟩ := List.getElem?_eq_some_iff.1 hx
  rw [site?, ← hnew, List.getElem?_append_left hlt]
  exact hx

theorem Changes.sites {ds : List Deed} (hc : h.Changes ds k) : k.sites = h.sites := by
  cases hc <;> rfl

theorem sites_link {stack : List Frame} {o : ObjectId} {name : String} {shape : Shape} {l : Link}
    (hp : h.link stack o name shape = some (.ok (l, k))) : k.sites = h.sites := by
  obtain ⟨y, t, -, -, -, rfl⟩ := exists_of_link hp
  rfl

end Heap

theorem Target.sites_enter {t : Target} {code : Routines} {h k : Heap} {args : List Value}
    {p : Program} (he : t.enter code h args = some (p, k)) : k.sites = h.sites :=
  (changes_enter he).sites

theorem Operation.sites_perform {a : Operation} {h k : Heap} {stack : List Frame} {r : a.Reply}
    (hp : a.perform h stack = some (r, k)) : h.sites <+: k.sites := by
  cases a with
  | create | dropStub s | createReference =>
    cases hp
    exact List.prefix_rfl
  | copy o | freeze o | properties o | isFrozen o | cloneStub s =>
    obtain ⟨x, -, hx⟩ := Option.map_eq_some_iff.1 hp
    cases hx
    exact List.prefix_rfl
  | define o name v =>
    exact (Heap.changes_define hp).sites ▸ List.prefix_rfl
  | undefine o name =>
    exact (Heap.changes_undefine hp).sites ▸ List.prefix_rfl
  | mixin o source =>
    exact (Heap.changes_mixin hp).sites ▸ List.prefix_rfl
  | link o name shape fallback =>
    obtain ⟨e, he, hx⟩ := Option.map_eq_some_iff.1 hp
    cases e with
    | error e =>
      cases hx
      exact List.prefix_rfl
    | ok p =>
      cases hx
      exact Heap.sites_link he ▸ List.prefix_rfl
  | createSite name shape =>
    cases hp
    exact List.prefix_append _ _
  | cloneSite s | dropSite s =>
    simp only [Operation.perform] at hp
    split at hp <;> cases hp <;> exact List.prefix_rfl

/-! ## 2. Calls through a site -/

namespace Config

/-- The site that the next step calls through, and the arguments it passes. -/
def call? (c : Config) : Option (SiteId × List Value) :=
  match c.program with
  | .invoke (.site i args) _ =>
      match c.heap.handles[i.index]? with
      | some ⟨s, true⟩ => some (s, args)
      | _ => none
  | .invoke (.reference r (.boundMethod o name) args) _ =>
      (c.heap.referenceSite r name (args.length + 1)).map fun p => (p.1, .object o :: args)
  | _ => none

variable {c d : Config} {h : Heap} {s : SiteId} {args : List Value} {stack : List Frame}

theorem call?_eq_some_iff : c.call? = some (s, args) ↔ ∃ h stack, c.Dispatches h s args stack := by
  constructor
  · intro hcall
    unfold call? at hcall
    split at hcall
    next i args' next hp =>
      split at hcall
      next t hhandle =>
        cases hcall
        exact ⟨_, _, .site hp hhandle⟩
      next => cases hcall
    next r o name args' next hp =>
      obtain ⟨⟨t, k⟩, hk, ht⟩ := Option.map_eq_some_iff.1 hcall
      cases ht
      exact ⟨_, _, .reference hp hk⟩
    next => cases hcall
  · rintro ⟨h, stack, hd⟩
    cases hd with
    | site hp hhandle => simp only [call?, hp, hhandle]
    | reference hp hk => simp only [call?, hp, hk, Option.map_some]

theorem Dispatches.call?_eq (hd : c.Dispatches h s args stack) : c.call? = some (s, args) :=
  call?_eq_some_iff.2 ⟨h, stack, hd⟩

theorem Dispatches.stack_eq (hd : c.Dispatches h s args stack) :
    ∃ next, stack = .resume next :: c.stack := by
  cases hd <;> exact ⟨_, rfl⟩

theorem Dispatches.sites (hd : c.Dispatches h s args stack) : c.heap.sites <+: h.sites := by
  cases hd with
  | site => exact List.prefix_rfl
  | reference _ hk => exact (Heap.kept_referenceSite hk).2.2.2

end Config

/-! ## 3. Links made through a site -/

def Deed.isLink : Deed → Bool
  | .linked _ => true
  | .changed .. => false

/-- How many links the next step makes through site `s`. -/
def Config.relinks (c : Config) (s : SiteId) : Nat :=
  if c.call?.any (·.1 = s) then c.deeds.countP (·.isLink) else 0

theorem Target.countP_isLink_deeds (t : Target) (h : Heap) (args : List Value) :
    (t.deeds h args).countP (·.isLink) = 0 := by
  refine List.countP_eq_zero.2 fun e he hlink => ?_
  cases e with
  | linked l => exact linked_not_mem_targetDeeds he
  | changed o name => cases hlink

theorem countP_isLink_dispatchDeeds (h : Heap) (s : SiteId) (args : List Value)
    (stack : List Frame) : (dispatchDeeds h s args stack).countP (·.isLink) ≤ 1 := by
  unfold dispatchDeeds
  split
  · exact Nat.zero_le 1
  · split
    · rw [Target.countP_isLink_deeds]
      exact Nat.zero_le 1
    · unfold relinkDeeds
      split
      · exact Nat.zero_le 1
      · split
        · exact Nat.le_of_eq (by rw [List.countP_cons_of_pos rfl, Target.countP_isLink_deeds])
        · exact Nat.zero_le 1

namespace Config

variable {c d : Config} {h : Heap} {s t : SiteId} {args : List Value} {stack : List Frame} {x : Site}

theorem relinks_of_call?_ne (hcall : ∀ args, c.call? ≠ some (s, args)) : c.relinks s = 0 := by
  refine if_neg fun hany => ?_
  obtain ⟨⟨t, args⟩, hc, ht⟩ := (Option.any_eq_true _ _).1 hany
  obtain rfl : t = s := of_decide_eq_true ht
  exact hcall args hc

theorem Dispatches.relinks_ne (hd : c.Dispatches h t args stack) (hne : t ≠ s) :
    c.relinks s = 0 := by
  refine relinks_of_call?_ne fun args' hcall => hne ?_
  rw [hd.call?_eq] at hcall
  exact congrArg Prod.fst (Option.some.inj hcall)

theorem Dispatches.relinks_eq (hd : c.Dispatches h s args stack) :
    c.relinks s = (dispatchDeeds h s args stack).countP (·.isLink) := by
  rw [relinks, hd.call?_eq, hd.deeds_eq]
  simp

-- No step makes more than one link through a site.
theorem relinks_le_one (c : Config) (s : SiteId) : c.relinks s ≤ 1 := by
  rw [relinks]
  split
  next hany =>
    obtain ⟨⟨t, args⟩, hcall, -⟩ := (Option.any_eq_true _ _).1 hany
    obtain ⟨h, stack, hd⟩ := call?_eq_some_iff.1 hcall
    rw [hd.deeds_eq]
    exact countP_isLink_dispatchDeeds h t args stack
  next => exact Nat.zero_le 1

theorem Dispatches.relinks_of_linked {l : Link} (hd : c.Dispatches h s args stack)
    (hl : .linked l ∈ c.deeds) : c.relinks s = 1 := by
  apply Nat.le_antisymm (c.relinks_le_one s)
  rw [hd.relinks_eq, ← hd.deeds_eq]
  exact List.countP_pos_iff.2 ⟨_, hl, rfl⟩

theorem relinks_of_deeds (hdeeds : ∀ l, .linked l ∉ c.deeds) : c.relinks s = 0 := by
  have hnone : c.deeds.countP (·.isLink) = 0 := by
    refine List.countP_eq_zero.2 fun e he hlink => ?_
    cases e with
    | linked l => exact hdeeds l he
    | changed o name => cases hlink
  rw [relinks, hnone, ite_self]

end Config

/-! ## 4. Steps -/

/-- The link that site `s` takes up when the call is over. -/
def Frame.pending? (s : SiteId) : Frame → Option Link
  | .site t _ linked => if t = s then linked else none
  | _ => none

theorem Frame.pending?_self (s : SiteId) (read linked : Option Link) :
    (Frame.site s read linked).pending? s = linked := if_pos rfl

theorem Frame.pending?_ne {s t : SiteId} (hts : t ≠ s) (read linked : Option Link) :
    (Frame.site t read linked).pending? s = none := if_neg hts

theorem Frame.pending?_unlinked (s t : SiteId) (read : Option Link) :
    (Frame.site t read none).pending? s = none := ite_self none

/-- The links that site `s` has yet to take up, the next one first. -/
def pendingLinks (s : SiteId) (stack : List Frame) : List Link := stack.filterMap (·.pending? s)

theorem pendingLinks_cons_none {s : SiteId} {f : Frame} (hf : f.pending? s = none)
    (stack : List Frame) : pendingLinks s (f :: stack) = pendingLinks s stack :=
  List.filterMap_cons_none hf

theorem pendingLinks_cons_some {s : SiteId} {f : Frame} {l : Link} (hf : f.pending? s = some l)
    (stack : List Frame) : pendingLinks s (f :: stack) = l :: pendingLinks s stack :=
  List.filterMap_cons_some hf

namespace Config

/-- How a step from `c` to `d` leaves site `s`, which is `x`. -/
inductive Leaves (c : Config) (s : SiteId) (x : Site) (d : Config) : Prop where
  /-- The site is as it was and has the same links to take up. -/
  | kept : c.relinks s = 0 → d.heap.site? s = some x →
      pendingLinks s d.stack = pendingLinks s c.stack → c.Leaves s x d
  /-- It is bound to the receiver of a call, and will take up the link when the call is over. -/
  | bound {args o l} : c.relinks s = 1 → c.call? = some (s, args) → receiver? args = some o →
      l.owner = o → l.name = x.name → .linked l ∈ c.deeds →
      d.heap.site? s = some { x with relinks := x.relinks + 1 } →
      pendingLinks s d.stack = l :: pendingLinks s c.stack → c.Leaves s x d
  /-- It takes up the link of a call that is over. -/
  | returned {l} : c.relinks s = 0 → d.heap.site? s = some { x with cached := some l } →
      pendingLinks s c.stack = l :: pendingLinks s d.stack → c.Leaves s x d

variable {c d : Config} {h : Heap} {s t : SiteId} {args : List Value} {stack : List Frame} {x : Site}

-- A call that makes no link for the site leaves it as it is.
theorem Leaves.entered {f : Frame} {next : Outcome → Program} (hrelinks : c.relinks s = 0)
    (hx : d.heap.site? s = some x) (hstack : d.stack = f :: .resume next :: c.stack)
    (hf : f.pending? s = none) : c.Leaves s x d := by
  refine .kept hrelinks hx ?_
  rw [hstack, pendingLinks_cons_none hf, pendingLinks_cons_none rfl]

theorem Dispatches.dispatched {code : Routines} (hcall : c.Dispatches h t args stack)
    (hd : step code c = some d) : Dispatched code h t args stack d c.deeds := by
  rw [hcall.step_eq] at hd
  rw [hcall.deeds_eq]
  exact dispatched_of_dispatch hd

theorem Dispatches.leaves {code : Routines} (hcall : c.Dispatches h t args stack)
    (hx : c.heap.site? s = some x) (hd : step code c = some d) : c.Leaves s x d := by
  obtain ⟨next, rfl⟩ := hcall.stack_eq
  have hhx : h.site? s = some x := Heap.site?_of_prefix hcall.sites hx
  have hdone := hcall.dispatched hd
  generalize hdeeds : c.deeds = ds at hdone
  cases hdone with
  | guarded _ _ _ hk =>
    refine .entered (relinks_of_deeds fun m hm => ?_) ?_ rfl (Frame.pending?_unlinked s t _)
    · rw [hdeeds] at hm
      exact linked_not_mem_targetDeeds hm
    · rw [Heap.site?, Target.sites_enter hk]
      exact hhx
  | refused =>
    refine .entered (relinks_of_deeds fun m hm => ?_) hhx rfl (Frame.pending?_unlinked s t _)
    rw [hdeeds] at hm
    cases hm
  | @relinked y o l k p j hy hr he hj =>
    have hsites : j.site? s = (k.setSite t { y with relinks := y.relinks + 1 }).site? s := by
      rw [Heap.site?, Target.sites_enter hj]
      rfl
    have hk : k.site? s = some x := by
      rw [Heap.site?, Heap.sites_link he]
      exact hhx
    by_cases hts : t = s
    · subst hts
      cases hy.symm.trans hhx
      have hmade : .linked l ∈ c.deeds := hdeeds ▸ List.mem_cons_self
      obtain ⟨z, target, -, -, rfl, -⟩ := Heap.exists_of_link he
      refine .bound (hcall.relinks_of_linked hmade) hcall.call?_eq hr rfl rfl hmade ?_ ?_
      · rw [hsites, Heap.site?_setSite, if_pos rfl, hk]
        rfl
      · rw [pendingLinks_cons_some (Frame.pending?_self _ _ _), pendingLinks_cons_none rfl]
    · refine .entered (hcall.relinks_ne hts) ?_ rfl (Frame.pending?_ne hts _ _)
      rw [hsites, Heap.site?_setSite, if_neg (Ne.symm hts)]
      exact hk

end Config

theorem Frame.leaves_finish {f : Frame} {outcome : Outcome} {h : Heap} {stack : List Frame}
    {s : SiteId} {x : Site} (hx : h.site? s = some x) :
    Config.Leaves ⟨h, .done outcome, f :: stack⟩ s x (f.finish outcome h stack) := by
  have hnone : (⟨h, .done outcome, f :: stack⟩ : Config).relinks s = 0 :=
    Config.relinks_of_deeds fun _ => List.not_mem_nil
  cases f with
  | resume next | stub y => exact .kept hnone hx (pendingLinks_cons_none rfl stack).symm
  | site t read linked =>
    by_cases hts : t = s
    · subst hts
      cases linked with
      | none => exact .kept hnone hx (pendingLinks_cons_none (Frame.pending?_self _ _ _) stack).symm
      | some l =>
        simp only [Frame.finish, hx]
        refine .returned hnone ?_ (pendingLinks_cons_some (Frame.pending?_self _ _ _) stack)
        rw [Heap.site?_setSite, if_pos rfl, hx]
        rfl
    · have hpending := (pendingLinks_cons_none (Frame.pending?_ne hts read linked) stack).symm
      simp only [Frame.finish]
      split
      next l y hy =>
        refine .kept hnone ?_ hpending
        rw [Heap.site?_setSite, if_neg (Ne.symm hts)]
        exact hx
      next => exact .kept hnone hx hpending

theorem Invocation.leaves_enter {code : Routines} {i : Invocation} {h : Heap}
    {next : Outcome → Program} {stack : List Frame} {d : Config} {s : SiteId} {x : Site}
    (hx : h.site? s = some x) (hd : step code ⟨h, .invoke i next, stack⟩ = some d) :
    Config.Leaves ⟨h, .invoke i next, stack⟩ s x d := by
  cases i with
  | function f args =>
    cases hd
    exact .kept rfl hx (pendingLinks_cons_none rfl stack)
  | stub i args =>
    obtain ⟨y, -, hd⟩ := Option.bind_eq_some_iff.1 hd
    split at hd
    · obtain ⟨⟨p, k⟩, hk, hd⟩ := Option.bind_eq_some_iff.1 hd
      cases hd
      refine .entered rfl ?_ rfl rfl
      rw [Heap.site?, Target.sites_enter hk]
      exact hx
    · cases hd
      exact .entered rfl hx rfl rfl
  | site i args =>
    obtain ⟨⟨t, live⟩, hhandle, hd'⟩ := Option.bind_eq_some_iff.1 hd
    cases live with
    | true => exact Config.Dispatches.leaves (.site rfl hhandle) hx hd
    | false =>
      obtain ⟨y, -, hd⟩ := Option.bind_eq_some_iff.1 hd'
      cases hd
      refine .kept ?_ hx (pendingLinks_cons_none rfl stack)
      simp [Config.relinks, Config.call?, hhandle]
  | reference r callee args =>
    cases callee with
    | boundMethod o name =>
      obtain ⟨⟨t, k⟩, hk, -⟩ := Option.bind_eq_some_iff.1 hd
      exact Config.Dispatches.leaves (.reference rfl hk) hx hd
    | _ =>
      cases hd
      exact .kept rfl hx (pendingLinks_cons_none rfl stack)

/-- What a step does to a site. -/
theorem leaves_step {code : Routines} {c d : Config} {s : SiteId} {x : Site}
    (hx : c.heap.site? s = some x) (hd : step code c = some d) : c.Leaves s x d := by
  obtain ⟨h, p, stack⟩ := c
  cases p with
  | done outcome =>
    cases stack with
    | nil => cases hd
    | cons f stack =>
      cases hd
      exact Frame.leaves_finish hx
  | operate a next =>
    obtain ⟨⟨r, k⟩, hk, hd⟩ := Option.map_eq_some_iff.1 hd
    cases hd
    exact .kept rfl (Heap.site?_of_prefix (Operation.sites_perform hk) hx) rfl
  | invoke i next => exact Invocation.leaves_enter hx hd

end LateBind
