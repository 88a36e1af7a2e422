import LateBind.Proofs.Dynamic.Sites

/-!
# When a call site binds anew

A site counts the links it makes. Each call through it makes one at most, and none while the link that
it remembers holds good for the call. So on one receiver whose property stays as it is, a site makes
one link and then no more, whatever else goes on.
-/

namespace LateBind

/-! ## 1. The count -/

/-- How many links the next `n` steps make through site `s`. -/
def relinksOver (code : Routines) (s : SiteId) : Nat → Config → Nat
  | 0, _ => 0
  | n + 1, c => c.relinks s + ((step code c).map (relinksOver code s n)).getD 0

variable {code : Routines} {c d : Config} {s : SiteId} {x : Site} {n : Nat}

theorem relinksOver_succ (hd : step code c = some d) :
    relinksOver code s (n + 1) c = c.relinks s + relinksOver code s n d := by
  rw [relinksOver, hd, Option.map_some, Option.getD_some]

-- A site counts its links and stays otherwise what it is but for the one that it remembers.
theorem Config.Leaves.exists_site (hl : c.Leaves s x d) :
    ∃ y, d.heap.site? s = some y ∧ y.name = x.name ∧ y.relinks = x.relinks + c.relinks s := by
  rcases hl with ⟨hzero, hx, -⟩ | ⟨hone, -, -, -, -, -, hx, -⟩ | ⟨hzero, hx, -⟩
  · exact ⟨_, hx, rfl, by rw [hzero]; rfl⟩
  · exact ⟨_, hx, rfl, by rw [hone]⟩
  · exact ⟨_, hx, rfl, by rw [hzero]; rfl⟩

theorem relinks_advance (hx : c.heap.site? s = some x) (hd : advance code n c = some d) :
    ∃ y, d.heap.site? s = some y ∧ y.relinks = x.relinks + relinksOver code s n c := by
  induction n generalizing c x with
  | zero =>
    cases hd
    exact ⟨x, hx, rfl⟩
  | succ n ih =>
    obtain ⟨e, he, hd⟩ := Option.bind_eq_some_iff.1 hd
    obtain ⟨y, hy, -, hyr⟩ := (leaves_step hx he).exists_site
    obtain ⟨z, hz, hzr⟩ := ih hy hd
    refine ⟨z, hz, ?_⟩
    rw [hzr, hyr, relinksOver_succ he, Nat.add_assoc]

/-! ## 2. Calls that make no link -/

namespace Config

variable {h : Heap} {args : List Value} {stack : List Frame} {l : Link} {err : CallError}

theorem Dispatches.objects_eq (hd : c.Dispatches h s args stack) : h.objects = c.heap.objects := by
  cases hd with
  | site => rfl
  | reference _ hk => exact (Heap.kept_referenceSite hk).1

theorem Dispatches.guards_eq (hd : c.Dispatches h s args stack) (l : Link) :
    h.guards l args = c.heap.guards l args := by
  cases hd with
  | site => rfl
  | reference _ hk =>
    obtain ⟨-, hissued, hrevoked, -⟩ := Heap.kept_referenceSite hk
    rw [Heap.guards, Heap.guards, Heap.isValid_congr hissued hrevoked]

/-- No link is made where the one that the site remembers holds good. -/
theorem Dispatches.relinks_of_guards (hcall : c.Dispatches h s args stack)
    (hx : c.heap.site? s = some x) (hl : x.cached = some l) (hg : c.heap.guards l args = true) :
    c.relinks s = 0 := by
  refine relinks_of_deeds fun m hm => ?_
  rw [hcall.deeds_eq, linked_mem_dispatchDeeds] at hm
  obtain ⟨y, o, k, hy, hnone, -⟩ := hm
  cases (Heap.site?_of_prefix hcall.sites hx).symm.trans hy
  rw [← hcall.guards_eq] at hg
  rw [hl, Option.filter_some, if_pos hg] at hnone
  cases hnone

-- A link that holds good for the call says that its property can be linked, so there is no such link.
theorem Dispatches.unguarded (hcall : c.Dispatches h s args stack) (hs : c.heap.Sound c.stack)
    (hx : h.site? s = some x) (hrefuses : x.Refuses h args err) :
    (x.cached.filter fun l => h.guards l args) = none := by
  obtain ⟨hsound, hlive⟩ := hcall.sound hs
  apply Option.eq_none_iff_forall_ne_some.2
  intro l hl
  obtain ⟨hcached, hguards⟩ := Option.filter_eq_some_iff.1 hl
  rw [Heap.guards, Bool.and_eq_true, beq_iff_eq] at hguards
  obtain ⟨hvalid, howner⟩ := hguards
  cases hrefuses with
  | notAnObject hnone =>
    rw [hnone] at howner
    cases howner
  | @link o y e ho hy he =>
    cases ho.symm.trans howner
    obtain ⟨z, hz, -, htarget⟩ := (hsound.honours_cached hlive hx hcached).current hvalid
    obtain ⟨w, hw, hname, hshape⟩ := hsound.remembered s l (.inl ⟨x, hx, hcached⟩)
    cases hx.symm.trans hw
    cases hy.symm.trans hz
    rw [hname, hshape, he] at htarget
    cases htarget

theorem Dispatches.dispatch_eq (hcall : c.Dispatches h s args stack) (hs : c.heap.Sound c.stack)
    (hx : h.site? s = some x) (hrefuses : x.Refuses h args err) (code : Routines) :
    dispatch code h s args stack = some ⟨h, .done (.error err), .site s x.cached none :: stack⟩ := by
  have hnone := hcall.unguarded hs hx hrefuses
  simp only [dispatch, hx, hnone, Option.bind_eq_bind, Option.bind_some]
  unfold relink
  cases hrefuses with
  | notAnObject hr => simp only [hr]
  | link hr hy he =>
    simp only [hr, h.link_eq, hy, Option.map_some, he, Except.map, Option.bind_eq_bind,
      Option.bind_some]
    rfl

/-- A call that is refused makes no link, and returns with its error to a site that is as it was. -/
theorem Dispatches.refused (hcall : c.Dispatches h s args stack) (hs : c.heap.Sound c.stack)
    (hx : c.heap.site? s = some x) (hrefuses : x.Refuses c.heap args err) (code : Routines) :
    c.relinks s = 0 ∧ ∃ d next, advance code 2 c = some d ∧ d.program = .done (.error err) ∧
      d.stack = .resume next :: c.stack ∧ d.heap.site? s = some x := by
  have hhx : h.site? s = some x := Heap.site?_of_prefix hcall.sites hx
  have hobject : ∀ o, h.object? o = c.heap.object? o := fun o => by
    rw [Heap.object?, Heap.object?, hcall.objects_eq]
  have hr : x.Refuses h args err := by
    cases hrefuses with
    | notAnObject hnone => exact .notAnObject hnone
    | link ho hy he => exact .link ho (hobject _ ▸ hy) he
  refine ⟨relinks_of_deeds fun l hl => ?_, ?_⟩
  · -- The link would be one that is refused.
    rw [hcall.deeds_eq, linked_mem_dispatchDeeds] at hl
    obtain ⟨z, o, k, hz, -, ho, hk⟩ := hl
    cases hhx.symm.trans hz
    obtain ⟨w, t, hw, ht, -⟩ := Heap.exists_of_link hk
    cases hr with
    | notAnObject hnone =>
      rw [hnone] at ho
      cases ho
    | link ho' hy he =>
      cases ho.symm.trans ho'
      cases hy.symm.trans hw
      rw [he] at ht
      cases ht
  · obtain ⟨next, rfl⟩ := hcall.stack_eq
    refine ⟨⟨h, .done (.error err), .resume next :: c.stack⟩, next, ?_, rfl, rfl, hhx⟩
    rw [advance, hcall.step_eq, hcall.dispatch_eq hs hhx hr]
    rfl

/-! ## 3. Settled sites -/

-- Looking for the site of a call brings no link.
theorem Dispatches.mem_links (hcall : c.Dispatches h s args stack) (hl : l ∈ h.links stack) :
    l ∈ c.heap.links c.stack := by
  have hpush : ∀ next, l ∈ c.heap.links (.resume next :: c.stack) → l ∈ c.heap.links c.stack :=
    fun next hl => (Heap.mem_links_push (fun t ht => by cases ht) hl).resolve_left List.not_mem_nil
  cases hcall with
  | site => exact hpush _ hl
  | reference _ hk =>
    exact hpush _ (((Heap.becomes_referenceSite hk).links l hl).resolve_right List.not_mem_nil)

/-- If the next step calls site `s`, it calls it on `o` or on no object at all, and not from within
another call through it. -/
def Alone (c : Config) (s : SiteId) (o : ObjectId) : Prop :=
  ∀ call ∈ c.call?, call.1 = s →
    (∀ p ∈ receiver? call.2, p = o) ∧ ∀ f ∈ c.stack, f.site? ≠ some s

instance (c : Config) (s : SiteId) (o : ObjectId) : Decidable (c.Alone s o) :=
  inferInstanceAs (Decidable (∀ call ∈ c.call?, call.1 = s →
    (∀ p ∈ receiver? call.2, p = o) ∧ ∀ f ∈ c.stack, f.site? ≠ some s))

/-- Site `s` remembers `l` or will once a call is over, and no other link. If `l` is still there it is
valid. -/
structure Settled (c : Config) (s : SiteId) (l : Link) : Prop where
  issued : l.token.index < c.heap.issued
  valid : l ∈ c.heap.links c.stack → c.heap.isValid l.token = true
  pending : ∀ m ∈ pendingLinks s c.stack, m = l
  taken : pendingLinks s c.stack = [] → ∃ x, c.heap.site? s = some x ∧ x.cached = some l

end Config

theorem pendingLinks_eq_nil {stack : List Frame} (hstack : ∀ f ∈ stack, f.site? ≠ some s) :
    pendingLinks s stack = [] := by
  refine List.filterMap_eq_nil_iff.2 fun f hf => ?_
  cases f with
  | resume next | stub y => rfl
  | site t read linked => exact Frame.pending?_ne (fun e => hstack _ hf (congrArg some e)) read linked

variable {l : Link} {o : ObjectId}

/-- A settled site that is called on the owner of its link has it, and it holds good. -/
theorem Config.Settled.relinks_eq (hset : c.Settled s l) (hs : c.heap.Sound c.stack)
    (hx : c.heap.site? s = some x) (halone : c.Alone s l.owner) : c.relinks s = 0 := by
  by_cases hcall : ∃ args, c.call? = some (s, args)
  · obtain ⟨args, hcall⟩ := hcall
    obtain ⟨h, stack, hd⟩ := call?_eq_some_iff.1 hcall
    obtain ⟨-, hlive⟩ := hd.sound hs
    obtain ⟨y, hy, hcached⟩ := hset.taken (pendingLinks_eq_nil (halone _ hcall rfl).2)
    cases hx.symm.trans hy
    have hl : l ∈ c.heap.links c.stack := hd.mem_links <|
      Heap.mem_links.2 (.inr (.inl ⟨s, hlive, x, Heap.site?_of_prefix hd.sites hx, hcached⟩))
    refine relinks_of_deeds fun m hm => ?_
    -- A link is only made on an object, and then the object is the owner.
    have hm' := hm
    rw [hd.deeds_eq, linked_mem_dispatchDeeds] at hm'
    obtain ⟨-, p, -, -, -, hp, -⟩ := hm'
    have hguards : c.heap.guards l args = true := by
      rw [Heap.guards, hset.valid hl, hp, (halone _ hcall rfl).1 p hp]
      simp
    have hone := hd.relinks_of_linked hm
    rw [hd.relinks_of_guards hx hcached hguards] at hone
    cases hone
  · exact relinks_of_call?_ne fun args h => hcall ⟨args, h⟩

theorem Config.Settled.step (hset : c.Settled s l) (hs : c.heap.Sound c.stack)
    (hx : c.heap.site? s = some x) (hrelinks : c.relinks s = 0)
    (hkept : .changed l.owner l.name ∉ c.deeds) (hd : step code c = some d) : d.Settled s l := by
  have hbecomes := becomes_step hs hd
  have hissued : l.token.index < d.heap.issued := Nat.lt_of_lt_of_le hset.issued hbecomes.issued_le
  have hvalid : l ∈ d.heap.links d.stack → d.heap.isValid l.token = true := by
    intro hl
    have hold : l ∈ c.heap.links c.stack := hbecomes.links_of_lt hset.issued hl
    exact (hbecomes.kept l hold hl).2 ⟨hset.valid hold, hkept⟩
  rcases leaves_step hx hd with ⟨-, hx', hpending⟩ | ⟨hone, -⟩ | ⟨-, hx', hpending⟩
  · refine ⟨hissued, hvalid, ?_, fun hnil => ?_⟩
    · rw [hpending]
      exact hset.pending
    · rw [hpending] at hnil
      obtain ⟨y, hy, hcached⟩ := hset.taken hnil
      cases hx.symm.trans hy
      exact ⟨x, hx', hcached⟩
  · rw [hrelinks] at hone
    cases hone
  · -- What it takes up is the link that it was to take up.
    have hall := hset.pending
    rw [hpending, List.forall_mem_cons] at hall
    exact ⟨hissued, hvalid, hall.2, fun _ => ⟨_, hx', congrArg some hall.1⟩⟩

/-- A site that is bound anew, and whose property does not change in the same step, is settled. -/
theorem Config.exists_settled (hs : c.heap.Sound c.stack) (hx : c.heap.site? s = some x)
    (halone : c.Alone s o) (hkept : .changed o x.name ∉ c.deeds) (hd : LateBind.step code c = some d)
    (hrelinks : c.relinks s ≠ 0) : ∃ l, l.owner = o ∧ l.name = x.name ∧ d.Settled s l := by
  have hbecomes := becomes_step hs hd
  rcases leaves_step hx hd with ⟨hzero, -⟩ |
    ⟨-, hcall, hreceiver, howner, hname, hmade, -, hpending⟩ | ⟨hzero, -⟩
  · exact absurd hzero hrelinks
  · rename_i args p l
    obtain rfl : p = o := (halone _ hcall rfl).1 p hreceiver
    rw [pendingLinks_eq_nil (halone _ hcall rfl).2] at hpending
    refine ⟨l, howner, hname, (hbecomes.fresh l hmade).2, fun hl => ?_, ?_, fun hnil => ?_⟩
    · obtain ⟨before, after, hdeeds⟩ := List.append_of_mem hmade
      refine (hbecomes.made l hl before after hdeeds).2 fun hm => hkept ?_
      rw [hdeeds, ← howner, ← hname]
      exact List.mem_append_right _ (List.mem_cons_of_mem _ hm)
    · rw [hpending]
      exact fun m hm => List.mem_singleton.1 hm
    · rw [hpending] at hnil
      cases hnil
  · exact absurd hzero hrelinks

/-! ## 4. Stretches of a run -/

/-- `P` holds before each of the next `n` steps. -/
def Throughout (code : Routines) (n : Nat) (c : Config) (P : Config → Prop) : Prop :=
  ∀ k < n, ∀ e ∈ advance code k c, P e

instance (code : Routines) (n : Nat) (c : Config) (P : Config → Prop) [DecidablePred P] :
    Decidable (Throughout code n c P) :=
  inferInstanceAs (Decidable (∀ k < n, ∀ e ∈ advance code k c, P e))

theorem Throughout.head {P : Config → Prop} (h : Throughout code (n + 1) c P) : P c :=
  h 0 (Nat.succ_pos n) c rfl

theorem Throughout.tail {P : Config → Prop} (h : Throughout code (n + 1) c P)
    (hd : step code c = some d) : Throughout code n d P := by
  intro k hk e he
  apply h (k + 1) (by omega) e
  rw [Option.mem_def, advance, hd]
  exact he

theorem not_mem_deedsOver_succ {e : Deed} (hd : step code c = some d) :
    e ∉ deedsOver code (n + 1) c ↔ e ∉ c.deeds ∧ e ∉ deedsOver code n d := by
  rw [deedsOver, hd, Option.map_some, Option.getD_some, List.mem_append, not_or]

-- A settled site makes no link any more.
theorem Config.Settled.relinksOver_eq (hset : c.Settled s l) (hs : c.heap.Sound c.stack)
    (hx : c.heap.site? s = some x) (halone : Throughout code n c (·.Alone s l.owner))
    (hkept : .changed l.owner l.name ∉ deedsOver code n c) : relinksOver code s n c = 0 := by
  induction n generalizing c x with
  | zero => rfl
  | succ n ih =>
    have hzero := hset.relinks_eq hs hx halone.head
    cases hd : LateBind.step code c with
    | none =>
      rw [relinksOver, hd, hzero]
      rfl
    | some d =>
      rw [not_mem_deedsOver_succ hd] at hkept
      obtain ⟨y, hy, -⟩ := (leaves_step hx hd).exists_site
      have hlater := hset.step hs hx hzero hkept.1 hd
      rw [relinksOver_succ hd, hzero, ih hlater (sound_step hs hd) hy (halone.tail hd) hkept.2]

/-- On one receiver whose property does not change a site makes one link at most. -/
theorem relinksOver_le_one (hs : c.heap.Sound c.stack) (hx : c.heap.site? s = some x)
    (halone : Throughout code n c (·.Alone s o)) (hkept : .changed o x.name ∉ deedsOver code n c) :
    relinksOver code s n c ≤ 1 := by
  induction n generalizing c x with
  | zero => exact Nat.zero_le 1
  | succ n ih =>
    have hone := c.relinks_le_one s
    cases hd : step code c with
    | none =>
      rw [relinksOver, hd]
      exact hone
    | some d =>
      rw [not_mem_deedsOver_succ hd] at hkept
      obtain ⟨y, hy, hname, -⟩ := (leaves_step hx hd).exists_site
      have hsound := sound_step hs hd
      rw [relinksOver_succ hd]
      by_cases hzero : c.relinks s = 0
      · have hrest := ih hsound hy (halone.tail hd) (hname ▸ hkept.2)
        omega
      · -- From the first link on the site is settled.
        obtain ⟨l, rfl, hl, hset⟩ := Config.exists_settled hs hx halone.head hkept.1 hd hzero
        have hrest := hset.relinksOver_eq hsound hy (halone.tail hd) (hl ▸ hkept.2)
        omega

/-- **A call site binds anew only when it has to.** Take any site at any point of a run.

* The next step makes one link at most through it, and the site counts just these.
* A call for which the link that it remembers holds good makes none.
* A call that is not made on an object, or that cannot be linked, fails with that error, makes no link
  and leaves the site as it was.
* Over any stretch in which it is called on no object but one, and never from within its own calls,
  and the property of its name on that object is not changed, it makes one link at most.
-/
theorem relinks_only_when_needed (hc : Reachable code c) (hx : c.heap.site? s = some x) :
    c.relinks s ≤ 1 ∧
    (∀ n d, advance code n c = some d →
      ∃ y, d.heap.site? s = some y ∧ y.relinks = x.relinks + relinksOver code s n c) ∧
    (∀ args l, c.call? = some (s, args) → x.cached = some l → c.heap.guards l args = true →
      c.relinks s = 0) ∧
    (∀ args err, c.call? = some (s, args) → x.Refuses c.heap args err →
      c.relinks s = 0 ∧ ∃ d next, advance code 2 c = some d ∧ d.program = .done (.error err) ∧
        d.stack = .resume next :: c.stack ∧ d.heap.site? s = some x) ∧
    (∀ n o d, Throughout code n c (·.Alone s o) → .changed o x.name ∉ deedsOver code n c →
      advance code n c = some d → ∃ y, d.heap.site? s = some y ∧ y.relinks ≤ x.relinks + 1) := by
  have hs := hc.sound
  refine ⟨c.relinks_le_one s, fun n d hd => relinks_advance hx hd, fun args l hcall hl hg => ?_,
    fun args err hcall hr => ?_, fun n o d halone hkept hd => ?_⟩
  · obtain ⟨h, stack, hd⟩ := Config.call?_eq_some_iff.1 hcall
    exact hd.relinks_of_guards hx hl hg
  · obtain ⟨h, stack, hd⟩ := Config.call?_eq_some_iff.1 hcall
    exact hd.refused hs hx hr code
  · obtain ⟨y, hy, hyr⟩ := relinks_advance hx hd
    have hle := relinksOver_le_one hs hx halone hkept
    exact ⟨y, hy, by omega⟩

namespace CalledTwice

/-- A method of an object is called twice through one site. In between another property changes and
the object is frozen. -/
def program : Program :=
  .operate .create fun o => .operate (.define o "m" (.function ⟨"m", 1, false, ⟨0⟩⟩)) fun _ =>
  .operate (.createSite "m" { arity := 1 }) fun s => .invoke (.site s [.object o]) fun _ =>
  .operate (.define o "x" (.int 1)) fun _ => .operate (.freeze o) fun _ =>
  .invoke (.site s [.object o]) .done

def routines : Routines := fun _ _ => .done (.ok .null)

/-- The configuration `n` steps on. -/
def after (n : Nat) : Config := (advance routines n ⟨{}, program, []⟩).getD ⟨{}, program, []⟩

end CalledTwice

open CalledTwice in
-- The first of the two calls binds the site.
theorem relinks_only_when_needed_twice :
    relinksOver routines ⟨0⟩ 1 (after 3) = 1 ∧
    ∃ y, (after 11).heap.site? ⟨0⟩ = some y ∧ y.relinks ≤ 0 + 1 := by
  have hc : Reachable routines (after 3) :=
    (Reachable.start program).advance (n := 3) (d := after 3) rfl
  have hkept : .changed ⟨0⟩ "m" ∉ deedsOver routines 8 (after 3) := by decide
  have halone : Throughout routines 8 (after 3) (·.Alone ⟨0⟩ ⟨0⟩) := by decide
  obtain ⟨-, -, -, -, hstretch⟩ := relinks_only_when_needed (s := ⟨0⟩)
    (x := ⟨"m", { arity := 1 }, none, 0⟩) hc rfl
  exact ⟨rfl, hstretch 8 ⟨0⟩ (after 11) halone hkept rfl⟩

namespace FailedInside

/-- Calling `m` calls `x`, which takes more arguments than it is given. -/
def routines : Routines
  | ⟨1⟩, args => .invoke (.site ⟨1⟩ args) .done
  | _, _ => .done (.ok .null)

def program : Program :=
  .operate .create fun o => .operate (.define o "x" (.function ⟨"x", 2, false, ⟨0⟩⟩)) fun _ =>
  .operate (.define o "m" (.function ⟨"m", 1, false, ⟨1⟩⟩)) fun _ =>
  .operate (.createSite "m" { arity := 1 }) fun s =>
  .operate (.createSite "x" { arity := 1 }) fun _ => .invoke (.site s [.object o]) .done

/-- The configuration before the site is called. -/
def calling : Config := (advance routines 5 ⟨{}, program, []⟩).getD ⟨{}, program, []⟩

end FailedInside

open FailedInside in
/-- A call whose method fails to link something itself ends in that error and has made a link. -/
theorem relinks_though_failed :
    Reachable routines calling ∧ calling.call? = some (⟨0⟩, [.object ⟨0⟩]) ∧
    calling.heap.site? ⟨0⟩ = some ⟨"m", { arity := 1 }, none, 0⟩ ∧
    ((Invocation.site ⟨0⟩ [.object ⟨0⟩]).answer routines 5 calling.heap [.resume .done]).map
        (fun p => (p.1, (p.2.site? ⟨0⟩).map (·.relinks))) =
      some (.error (.link ⟨"x", .arity 1 2⟩), some 1) := by
  refine ⟨?_, by decide, rfl, rfl⟩
  exact (Reachable.start program).advance (n := 5) (d := calling) rfl

end LateBind
