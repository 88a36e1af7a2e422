import LateBind.Proofs.Dynamic.Writes
import Mathlib.Data.List.Dedup

/-!
# Tokens are neither lost nor hoarded

An object keeps the tokens it has given out for a name until the name is changed, or until it gives
out another one and finds that nothing carries them any more. So it knows every valid token that a
link carries, and each time it has just given one out it knows no others.
-/

namespace LateBind

namespace Heap

/-! ## 1. The tokens that objects hold -/

/-- The tokens that objects hold are valid, and no token is held twice. -/
structure Accounted (h : Heap) : Prop where
  distinct : ∀ o x n, h.object? o = some x → (x.issued n).Nodup
  valid : ∀ o x n, h.object? o = some x → ∀ t ∈ x.issued n, h.isValid t = true
  /-- Nor do two properties hold the same token. -/
  apart : ∀ t o x n p y m, h.object? o = some x → t ∈ x.issued n → h.object? p = some y →
    t ∈ y.issued m → o = p ∧ n = m
  /-- No token is revoked before it is issued. -/
  revoked_lt : ∀ t ∈ h.revoked, t.index < h.issued

theorem accounted_empty : ({} : Heap).Accounted where
  distinct o x n ho := absurd ho (by simp [object?])
  valid o x n ho := absurd ho (by simp [object?])
  apart t o x n p y m ho := absurd ho (by simp [object?])
  revoked_lt t ht := absurd ht List.not_mem_nil

namespace Accounted

variable {h k : Heap} {stack : List Frame} {o : ObjectId} {x : Object} {ds : List Deed}

theorem index_lt (ha : h.Accounted) (ho : h.object? o = some x) {n : String} {t : TokenId}
    (ht : t ∈ x.issued n) : t.index < h.issued := by
  have hv := ha.valid o x n ho t ht
  rw [isValid, Bool.and_eq_true] at hv
  exact of_decide_eq_true hv.1

theorem congr (ha : h.Accounted) (hobjects : k.objects = h.objects) (hissued : k.issued = h.issued)
    (hrevoked : k.revoked = h.revoked) : k.Accounted := by
  have hobject : ∀ o, k.object? o = h.object? o := fun o => by rw [object?, object?, hobjects]
  refine ⟨?_, ?_, ?_, ?_⟩
  · simpa only [hobject] using ha.distinct
  · simpa only [hobject, isValid_congr hissued hrevoked] using ha.valid
  · simpa only [hobject] using ha.apart
  · rw [hissued, hrevoked]
    exact ha.revoked_lt

theorem create (ha : h.Accounted) (hx : ∀ n, x.issued n = []) : (h.create x).2.Accounted := by
  refine ⟨fun p y n hy => ?_, fun p y n hy t ht => ha.valid p y n (mem_issued_create hx hy ht) t ht,
    fun t p y n q z m hy ht hz ht' => ha.apart t p y n q z m (mem_issued_create hx hy ht) ht
      (mem_issued_create hx hz ht') ht', ha.revoked_lt⟩
  rw [object?_create] at hy
  split at hy
  · cases hy
    rw [hx]
    exact List.nodup_nil
  · exact ha.distinct p y n hy

-- What is revoked is held for the names that are changed, and is no longer held then.
theorem changes (ha : h.Accounted) (hc : h.Changes ds k) : k.Accounted := by
  cases hc with
  | none => exact ha
  | @commit o x names change ho hc =>
    refine ⟨fun p y n hy => ?_, fun p y n hy t ht => ?_, fun t p y n q z m hy ht hz ht' => ?_,
      fun t ht => ?_⟩
    · obtain ⟨z, hz, hissued⟩ := issued_commit ho hc hy
      rw [hissued]
      split
      · exact List.nodup_nil
      · exact ha.distinct p z n hz
    · obtain ⟨z, hz, ht, hn⟩ := mem_issued_commit ho hc hy ht
      have hkept : t ∉ change.2 := fun hm => by
        obtain ⟨m, hm, ht'⟩ := (hc.revoked t).1 hm
        obtain ⟨rfl, rfl⟩ := ha.apart t p z n o x m hz ht ho ht'
        exact hn ⟨rfl, hm⟩
      show (h.revoke change.2).isValid t = true
      rw [isValid_revoke, ha.valid p z n hz t ht]
      simp [hkept]
    · obtain ⟨y, hy, ht, -⟩ := mem_issued_commit ho hc hy ht
      obtain ⟨z, hz, ht', -⟩ := mem_issued_commit ho hc hz ht'
      exact ha.apart t p y n q z m hy ht hz ht'
    · rcases List.mem_append.1 ht with ht | ht
      · obtain ⟨n, -, ht⟩ := (hc.revoked t).1 ht
        exact ha.index_lt ho ht
      · exact ha.revoked_lt t ht

-- A token that is given out has not been held before.
theorem grant {name : String} (ha : h.Accounted) (ho : h.object? o = some x) :
    (h.grant stack o x name).Accounted := by
  have hnew : ∀ p y n, h.object? p = some y → (⟨h.issued⟩ : TokenId) ∉ y.issued n :=
    fun p y n hy ht => Nat.lt_irrefl _ (ha.index_lt hy ht)
  refine ⟨fun p y n hy => ?_, fun p y n hy t ht => ?_, fun t p y n q z m hy ht hz ht' => ?_,
    fun t ht => Nat.lt_succ_of_lt (ha.revoked_lt t ht)⟩
  · obtain ⟨z, hz, hissued⟩ := issued_grant ho hy
    rw [hissued]
    have hz' := ha.distinct p z n hz
    split
    · refine List.nodup_append.2 ⟨hz'.filter _, List.nodup_singleton _, fun t ht t' ht' e => ?_⟩
      cases List.mem_singleton.1 ht'
      exact hnew p z n hz (e ▸ (List.mem_filter.1 ht).1)
    · exact hz'
  · rcases mem_issued_grant ho hy ht with ⟨z, hz, ht⟩ | ⟨rfl, -⟩
    · rw [isValid_grant (ha.index_lt hz ht)]
      exact ha.valid p z n hz t ht
    · exact isValid_grant_self ha.revoked_lt
  · rcases mem_issued_grant ho hy ht with ⟨y, hy, ht⟩ | ⟨rfl, hp⟩
    · rcases mem_issued_grant ho hz ht' with ⟨z, hz, ht'⟩ | ⟨rfl, -⟩
      · exact ha.apart t p y n q z m hy ht hz ht'
      · exact absurd ht (hnew p y n hy)
    · rcases mem_issued_grant ho hz ht' with ⟨z, hz, ht'⟩ | ⟨-, hq⟩
      · exact absurd ht' (hnew q z m hz)
      · exact ⟨hp.1.trans hq.1.symm, hp.2.trans hq.2.symm⟩

theorem isValid_link {name : String} {shape : Shape} {l : Link} (ha : h.Accounted)
    (hp : h.link stack o name shape = some (.ok (l, k))) : k.isValid l.token = true := by
  obtain ⟨x, t, -, -, rfl, rfl⟩ := exists_of_link hp
  exact isValid_grant_self ha.revoked_lt

theorem writes (ha : h.Accounted) (hw : h.Writes ds k) : k.Accounted := by
  induction hw with
  | quiet hobjects hissued hrevoked => exact ha.congr hobjects hissued hrevoked
  | change hc => exact ha.changes hc
  | grant ho => exact ha.grant ho
  | trans _ _ ih ih' => exact ih' (ih ha)

end Accounted

end Heap

-- An object that is added holds no token.
theorem Config.issued_created {c : Config} {x : Object} (hx : c.created? = some x) (n : String) :
    x.issued n = [] := by
  obtain ⟨h, p, stack⟩ := c
  cases p with
  | operate a next =>
    cases a with
    | create =>
      cases hx
      rfl
    | copy o =>
      obtain ⟨y, -, rfl⟩ := Option.map_eq_some_iff.1 hx
      exact y.issued_copy n
    | _ => cases hx
  | _ => cases hx

theorem Reachable.accounted {code : Routines} {c : Config} (hc : Reachable code c) :
    c.heap.Accounted := by
  induction hc with
  | start p => exact Heap.accounted_empty
  | step _ hd ih =>
    rcases writes_step hd with ⟨x, hx, -, hheap⟩ | ⟨-, hw⟩
    · rw [hheap]
      exact ih.create (Config.issued_created hx)
    · exact ih.writes hw

/-! ## 2. Tokens of objects and tokens of links -/

namespace Heap

/-- The tokens of the valid links to property `name` of `o` that are still there, each once. -/
def carriedFor (h : Heap) (stack : List Frame) (o : ObjectId) (name : String) : List TokenId :=
  (((h.links stack).filter fun l => l.owner = o ∧ l.name = name ∧ h.isValid l.token = true).map
    (·.token)).dedup

/-- The objects hold what the links need, and no token that is of no use. -/
structure Tallies (h : Heap) (stack : List Frame) : Prop where
  distinct : ∀ o x n, h.object? o = some x → (x.issued n).Nodup
  valid : ∀ o x n, h.object? o = some x → ∀ t ∈ x.issued n, h.isValid t = true
  /-- The token of a valid link is held by the object it is a link to, for the name it is for. -/
  held : ∀ l ∈ h.links stack, h.isValid l.token = true →
    ∃ x, h.object? l.owner = some x ∧ l.token ∈ x.issued l.name

variable {h k : Heap} {stack stack' : List Frame} {o : ObjectId} {x : Object} {name : String}

theorem mem_carriedFor {t : TokenId} :
    t ∈ h.carriedFor stack o name ↔
      ∃ l ∈ h.links stack, (l.owner = o ∧ l.name = name ∧ h.isValid l.token = true) ∧
        l.token = t := by
  simp [carriedFor, and_assoc]

theorem Sound.tallies (hs : h.Sound stack) (ha : h.Accounted) : h.Tallies stack where
  distinct := ha.distinct
  valid := ha.valid
  held l hl hv := by
    obtain ⟨x, hx, ht, -⟩ := (hs.honoured l hl).current hv
    exact ⟨x, hx, ht⟩

-- Where every token that is held for a name is carried, these are the tokens of the valid links.
theorem Sound.perm_carriedFor (hs : h.Sound stack) (ha : h.Accounted) (ho : h.object? o = some x)
    (hcarried : ∀ t ∈ x.issued name, ∃ l ∈ h.links stack, l.token = t) :
    (x.issued name).Perm (h.carriedFor stack o name) := by
  have hnodup : (h.carriedFor stack o name).Nodup := List.nodup_dedup _
  refine (List.perm_ext_iff_of_nodup (ha.distinct o x name ho) hnodup).2 fun t => ?_
  rw [mem_carriedFor]
  constructor
  · intro ht
    obtain ⟨l, hl, rfl⟩ := hcarried t ht
    obtain ⟨rfl, rfl⟩ := (hs.honoured l hl).owned o x name ho ht
    exact ⟨l, hl, ⟨rfl, rfl, ha.valid l.owner x l.name ho l.token ht⟩, rfl⟩
  · rintro ⟨l, hl, ⟨rfl, rfl, hv⟩, rfl⟩
    obtain ⟨y, hy, ht⟩ := (hs.tallies ha).held l hl hv
    cases ho.symm.trans hy
    exact ht

-- An object that has just given out a token for a name holds for it what is carried, and the new one.
theorem carried_grant {l : Link} (ho : h.object? o = some x)
    (hobjects : k.objects = (h.grant stack o x name).objects) (hnew : l ∈ k.links stack')
    (htoken : l.token = ⟨h.issued⟩) (hold : ∀ m ∈ h.links stack, m ∈ k.links stack') :
    ∃ y, k.object? o = some y ∧ ∀ t ∈ y.issued name, ∃ m ∈ k.links stack', m.token = t := by
  refine ⟨_, by rw [object?, hobjects]; exact (object?_grant ho o).trans (if_pos rfl), ?_⟩
  intro t ht
  rw [Object.issued_issue, if_pos rfl] at ht
  rcases List.mem_append.1 ht with ht | ht
  · obtain ⟨m, hm, rfl⟩ := contains_carried_iff.1 (List.mem_filter.1 ht).2
    exact ⟨m, hold m hm, rfl⟩
  · rw [List.mem_singleton.1 ht]
    exact ⟨l, hnew, htoken⟩

-- A site that is linked anew still remembers its link until the call is over.
theorem links_relinked {s : SiteId} {y : Site} {l m : Link} (hy : h.site? s = some y)
    (relinks : Nat) (hm : m ∈ h.links (.site s y.cached none :: stack)) :
    m ∈ (h.setSite s { y with relinks }).links (.site s y.cached (some l) :: stack) := by
  rcases mem_links.1 hm with hm | ⟨t, hlive, z, hz, hzm⟩ | ⟨f, hf, hfm⟩
  · exact mem_links.2 (.inl hm)
  · have hlive : t ∈ (h.setSite s { y with relinks }).liveSites
        (.site s y.cached (some l) :: stack) := hlive
    refine mem_links.2 (.inr (.inl ⟨t, hlive, ?_⟩))
    rw [site?_setSite, hy]
    split
    next e =>
      subst e
      cases hy.symm.trans hz
      exact ⟨_, rfl, hzm⟩
    next => exact ⟨z, hz, hzm⟩
  · refine mem_links.2 (.inr (.inr ?_))
    rcases List.mem_cons.1 hf with rfl | hf
    · have hread : m ∈ y.cached.toList := by simpa [Frame.links] using hfm
      exact ⟨_, List.mem_cons_self, List.mem_append_left _ hread⟩
    · exact ⟨f, List.mem_cons_of_mem _ hf, hfm⟩

end Heap

/-! ## 3. The moment a link is made -/

/-- The next step calls through site `s` with `args`, the heap being `h` then. -/
inductive Config.Dispatches (c : Config) : Heap → SiteId → List Value → List Frame → Prop where
  | site {i args next s} : c.program = .invoke (.site i args) next →
      c.heap.handles[i.index]? = some ⟨s, true⟩ →
      c.Dispatches c.heap s args (.resume next :: c.stack)
  | reference {r o name args next s k} :
      c.program = .invoke (.reference r (.boundMethod o name) args) next →
      c.heap.referenceSite r name (args.length + 1) = some (s, k) →
      c.Dispatches k s (.object o :: args) (.resume next :: c.stack)

/-- The next step makes the link `l`. With that done and nothing else, `k` is the heap and `stack`
the calls in progress: a stub holds the link, or the call that goes through a site. -/
inductive Config.Makes (c : Config) (l : Link) : Heap → List Frame → Prop where
  | stub {o name shape fallback next k} : c.program = .operate (.link o name shape fallback) next →
      c.heap.link c.stack o name shape = some (.ok (l, k)) →
      c.Makes l { k with stubs := k.stubs ++ [some ⟨l, fallback⟩] } c.stack
  | site {h s x args o stack k} : c.Dispatches h s args stack → h.site? s = some x →
      (x.cached.filter fun m => h.guards m args) = none → receiver? args = some o →
      h.link (.site s x.cached none :: stack) o x.name x.shape = some (.ok (l, k)) →
      c.Makes l (k.setSite s { x with relinks := x.relinks + 1 })
        (.site s x.cached (some l) :: stack)

namespace Config

variable {c d : Config} {l : Link} {h k : Heap} {s : SiteId} {args : List Value}
  {stack : List Frame}

theorem Dispatches.sound (hd : c.Dispatches h s args stack) (hs : c.heap.Sound c.stack) :
    h.Sound stack ∧ s ∈ h.liveSites stack := by
  cases hd with
  | site _ hhandle =>
    exact ⟨hs.resume _,
      Heap.mem_liveSites.2 (.inl ⟨_, List.mem_of_getElem? hhandle, rfl, rfl⟩)⟩
  | reference _ hk =>
    obtain ⟨hsound, hlive, -⟩ := (hs.resume _).referenceSite hk
    exact ⟨hsound, hlive⟩

theorem Dispatches.accounted (hd : c.Dispatches h s args stack) (ha : c.heap.Accounted) :
    h.Accounted := by
  cases hd with
  | site => exact ha
  | reference _ hk => exact ha.writes (Heap.writes_referenceSite hk)

theorem Dispatches.step_eq (hd : c.Dispatches h s args stack) (code : Routines) :
    step code c = dispatch code h s args stack := by
  cases hd with
  | site hp hhandle =>
    simp only [step, hp, Invocation.enter, hhandle, Option.bind_eq_bind, Option.bind_some, if_true]
  | reference hp hk =>
    simp only [step, hp, Invocation.enter, hk, Option.bind_eq_bind, Option.bind_some]

theorem Dispatches.deeds_eq (hd : c.Dispatches h s args stack) :
    c.deeds = dispatchDeeds h s args stack := by
  cases hd with
  | site hp hhandle => simp only [deeds, hp, Invocation.deeds, hhandle]
  | reference hp hk => simp only [deeds, hp, Invocation.deeds, hk]

namespace Makes

theorem sound (hm : c.Makes l k stack) (hs : c.heap.Sound c.stack) : k.Sound stack := by
  cases hm with
  | @stub o name shape fallback next k _ hl =>
    have hperform : (Operation.link o name shape fallback).perform c.heap c.stack =
        some (.ok ⟨k.stubs.length⟩, { k with stubs := k.stubs ++ [some ⟨l, fallback⟩] }) := by
      rw [Operation.perform, hl]
      rfl
    exact Operation.sound_perform hs hperform
  | site hd hx _ _ hl =>
    obtain ⟨hsound, hlive⟩ := hd.sound hs
    exact hsound.relinked hlive hx hl

theorem accounted (hm : c.Makes l k stack) (ha : c.heap.Accounted) : k.Accounted := by
  cases hm with
  | stub _ hl => exact (ha.writes (Heap.writes_link hl)).congr rfl rfl rfl
  | site hd _ _ _ hl => exact ((hd.accounted ha).writes (Heap.writes_link hl)).congr rfl rfl rfl

theorem mem_links (hm : c.Makes l k stack) : l ∈ k.links stack := by
  cases hm with
  | stub =>
    exact Heap.mem_links.2 (.inl ⟨_, List.mem_append_right _ (List.mem_singleton_self _), rfl⟩)
  | site =>
    refine Heap.mem_links.2 (.inr (.inr ⟨_, List.mem_cons_self, ?_⟩))
    exact List.mem_append_right _ (List.mem_singleton_self _)

theorem isValid (hm : c.Makes l k stack) (ha : c.heap.Accounted) : k.isValid l.token = true := by
  cases hm with
  | stub _ hl =>
    have hv := ha.isValid_link hl
    exact hv
  | site hd _ _ _ hl =>
    have hv := (hd.accounted ha).isValid_link hl
    exact hv

theorem carried (hm : c.Makes l k stack) :
    ∃ y, k.object? l.owner = some y ∧
      ∀ t ∈ y.issued l.name, ∃ m ∈ k.links stack, m.token = t := by
  have hnew := hm.mem_links
  cases hm with
  | stub _ hl =>
    obtain ⟨x, t, ho, -, rfl, rfl⟩ := Heap.exists_of_link hl
    refine Heap.carried_grant ho rfl hnew rfl fun m hm => ?_
    rcases Heap.mem_links.1 hm with ⟨y, hy, hym⟩ | hm
    · exact Heap.mem_links.2 (.inl ⟨y, List.mem_append_left _ hy, hym⟩)
    · exact Heap.mem_links.2 (.inr hm)
  | site _ hx _ _ hl =>
    obtain ⟨x, t, ho, -, rfl, rfl⟩ := Heap.exists_of_link hl
    exact Heap.carried_grant ho rfl hnew rfl fun m hm =>
      Heap.links_relinked (h := Heap.grant ..) hx _ hm

end Makes

end Config

theorem Object.name_of_target {x : Object} {name n : String} {shape : Shape}
    (ht : x.target name shape = .ok (.define n)) : n = name :=
  (serves_of_target ht).1

namespace Config

variable {c d : Config} {l : Link} {k : Heap} {stack : List Frame}

/-- The links that the next step makes are those among its deeds. -/
theorem linked_mem_deeds : .linked l ∈ c.deeds ↔ ∃ k stack, c.Makes l k stack := by
  constructor
  · intro hm
    obtain ⟨h, p, stack⟩ := c
    cases p with
    | done outcome => exact absurd hm List.not_mem_nil
    | operate a next =>
      obtain ⟨o, name, shape, fallback, k, rfl, hl⟩ := linked_mem_operationDeeds.1 hm
      exact ⟨_, _, .stub rfl hl⟩
    | invoke i next =>
      cases i with
      | function f args => exact absurd hm List.not_mem_nil
      | stub s args =>
        simp only [deeds, Invocation.deeds] at hm
        split at hm
        · split at hm
          · exact absurd hm linked_not_mem_targetDeeds
          · exact absurd hm List.not_mem_nil
        · exact absurd hm List.not_mem_nil
      | site i args =>
        simp only [deeds, Invocation.deeds] at hm
        split at hm
        next s hhandle =>
          obtain ⟨x, o, k, hx, hnone, ho, hl⟩ := linked_mem_dispatchDeeds.1 hm
          exact ⟨_, _, .site (.site rfl hhandle) hx hnone ho hl⟩
        · exact absurd hm List.not_mem_nil
      | reference r callee args =>
        cases callee with
        | boundMethod o name =>
          simp only [deeds, Invocation.deeds] at hm
          split at hm
          next s j hj =>
            obtain ⟨x, o, k, hx, hnone, ho, hl⟩ := linked_mem_dispatchDeeds.1 hm
            exact ⟨_, _, .site (.reference rfl hj) hx hnone ho hl⟩
          · exact absurd hm List.not_mem_nil
        | _ => exact absurd hm List.not_mem_nil
  · rintro ⟨k, stack, hm⟩
    cases hm with
    | stub hp hl =>
      simp only [deeds, hp]
      exact linked_mem_operationDeeds.2 ⟨_, _, _, _, _, rfl, hl⟩
    | site hd hx hnone ho hl =>
      rw [hd.deeds_eq]
      exact linked_mem_dispatchDeeds.2 ⟨_, _, _, hx, hnone, ho, hl⟩

/-- The step goes on from there. It is over then, but for a setter that a site came to. -/
theorem Makes.step {code : Routines} (hm : c.Makes l k stack) (hd : step code c = some d) :
    d.stack = stack ∧ (d.heap = k ∨ .changed l.owner l.name ∈ c.deeds) := by
  cases hm with
  | stub hp hl =>
    simp only [LateBind.step, hp, Operation.perform, hl, Option.map_some] at hd
    cases hd
    exact ⟨rfl, .inl rfl⟩
  | @site h s x args o stack k hdispatch hx hnone hr hl =>
    rw [hdispatch.step_eq, dispatch] at hd
    simp only [hx, hnone, relink, hr, hl, Option.bind_eq_bind, Option.bind_some] at hd
    obtain ⟨⟨p, j⟩, hj, hd⟩ := Option.bind_eq_some_iff.1 hd
    cases hd
    refine ⟨rfl, (Target.enter_cases hj).imp_right ?_⟩
    rintro ⟨n, o', ht, ho, hm⟩
    have hobjects : (k.setSite s { x with relinks := x.relinks + 1 }).objects = k.objects := rfl
    rw [Target.deeds_congr hobjects] at hm
    have hdeeds : c.deeds = .linked l :: l.target.deeds k args := by
      rw [hdispatch.deeds_eq]
      simp only [dispatchDeeds, hx, hnone, relinkDeeds, hr, hl]
    obtain ⟨y, t, -, htarget, rfl, rfl⟩ := Heap.exists_of_link hl
    obtain rfl : n = x.name := Object.name_of_target (htarget.trans (congrArg _ ht))
    obtain rfl : o' = o := Option.some.inj (ho.symm.trans hr)
    rw [hdeeds]
    exact List.mem_cons_of_mem _ hm

end Config

/-! ## 4. Runs -/

/-- What a property has lost it has lost for all its links, until there is a new one. -/
theorem History.bare {code : Routines} {c : Config} {ds : List Deed} (hh : History code c ds)
    {o : ObjectId} {n : String} {before after : List Deed}
    (hds : ds = before ++ .changed o n :: after) (hafter : Unlinked o n after) :
    ∃ x, c.heap.object? o = some x ∧ x.issued n = [] := by
  induction hh generalizing before after with
  | start p => simp at hds
  | @step c d ds hh hd ih =>
    rcases writes_step hd with ⟨x, hx, hnone, hheap⟩ | ⟨-, hw⟩
    · rw [hnone, List.append_nil] at hds
      obtain ⟨y, hy, hempty⟩ := ih hds hafter
      rw [hheap, Heap.object?_create]
      split
      · exact ⟨x, rfl, Config.issued_created hx n⟩
      · exact ⟨y, hy, hempty⟩
    · -- The change was made before the last step, or by it.
      obtain ⟨rest, hbefore, rfl⟩ | ⟨rest, -, hdeeds⟩ := exists_of_append_eq_append_cons hds
      · obtain ⟨x, hx, hempty⟩ := ih hbefore hafter.left
        obtain ⟨y, hy, hevolves⟩ := hw.exists_after hx
        exact ⟨y, hy, hevolves.bare n hafter.right hempty⟩
      · have hmem : Deed.changed o n ∈ c.deeds := hdeeds ▸ by simp
        obtain ⟨x, hx⟩ := hw.exists_of_mem hmem
        obtain ⟨y, hy, hevolves⟩ := hw.exists_after hx
        exact ⟨y, hy, hevolves.emptied n rest after hdeeds hafter⟩

/-- **Tokens are neither lost nor hoarded.** At every point of a run

* the tokens that objects hold are valid and distinct, and the token of every valid link that is
  still there, in a stub, in the memory of a site or in a call in progress, is held for its property;
* when the next step makes a link, the object holds for the name as many tokens as the valid links
  to it then carry, the new one included. The step is over then, unless it goes on to a setter;
* an object holds no token for a name that was changed, until it is linked again.
-/
theorem tokens_tally {code : Routines} {c : Config} {ds : List Deed} (hh : History code c ds) :
    c.heap.Tallies c.stack ∧
    (∀ l, .linked l ∈ c.deeds ↔ ∃ k stack, c.Makes l k stack) ∧
    (∀ l k stack, c.Makes l k stack →
      k.Tallies stack ∧ l ∈ k.links stack ∧ k.isValid l.token = true ∧
      (∃ x, k.object? l.owner = some x ∧
        (x.issued l.name).length = (k.carriedFor stack l.owner l.name).length) ∧
      ∀ d, step code c = some d →
        d.stack = stack ∧ (d.heap = k ∨ .changed l.owner l.name ∈ c.deeds)) ∧
    ∀ o n before after, ds = before ++ .changed o n :: after → Unlinked o n after →
      ∃ x, c.heap.object? o = some x ∧ x.issued n = [] := by
  have hs := hh.reachable.sound
  have ha := hh.reachable.accounted
  refine ⟨hs.tallies ha, fun l => Config.linked_mem_deeds, fun l k stack hm => ?_,
    fun o n before after hds hafter => hh.bare hds hafter⟩
  have hs' := hm.sound hs
  have ha' := hm.accounted ha
  obtain ⟨x, hx, hcarried⟩ := hm.carried
  exact ⟨hs'.tallies ha', hm.mem_links, hm.isValid ha,
    ⟨x, hx, (hs'.perm_carriedFor ha' hx hcarried).length_eq⟩, fun d hd => hm.step hd⟩

namespace StubsDropped

/-- A property is linked by a stub that is cloned, by one that is dropped and by a site. Then it is
linked once more, and changed. -/
def program : Program :=
  .operate .create fun o => .operate (.define o "x" (.int 1)) fun _ =>
  .operate (.link o "x" { arity := 1 } ⟨0⟩) fun _ => .operate (.cloneStub ⟨0⟩) fun _ =>
  .operate (.link o "x" { arity := 1 } ⟨0⟩) fun _ => .operate (.dropStub ⟨2⟩) fun _ =>
  .operate (.createSite "x" { arity := 1 }) fun s => .invoke (.site s [.object o]) fun _ =>
  .operate (.link o "x" { arity := 1 } ⟨0⟩) fun _ =>
  .operate (.define o "x" (.int 2)) fun _ => .done (.ok .null)

def routines : Routines := fun _ _ => .done (.ok .null)

def first : Config := ⟨{}, program, []⟩

/-- The configuration `n` steps on. -/
def after (n : Nat) : Config := (advance routines n first).getD first

/-- The last link that is made. -/
def last : Link := ⟨⟨3⟩, ⟨0⟩, "x", { arity := 1 }, .constant (.int 1)⟩

end StubsDropped

open StubsDropped in
-- The stub and its clone, the site and the new stub need three tokens. After the change none is held.
theorem tokens_tally_dropped :
    (after 10).deeds = [.linked last] ∧
      (∃ x, (after 11).heap.object? ⟨0⟩ = some x ∧ (x.issued "x").length = 3) ∧
      ∃ x, (after 12).heap.object? ⟨0⟩ = some x ∧ x.issued "x" = [] := by
  have hlink : History routines (after 10) (deedsOver routines 10 first) :=
    (History.start program).advance (n := 10) (d := after 10) rfl
  have hchange : History routines (after 12) (deedsOver routines 12 first) :=
    (History.start program).advance (n := 12) (d := after 12) rfl
  have hdeeds : (after 10).deeds = [.linked last] := rfl
  have hnext : step routines (after 10) = some (after 11) := rfl
  obtain ⟨-, hlinked, hmade, -⟩ := tokens_tally hlink
  obtain ⟨k, stack, hmakes⟩ := (hlinked last).1 (hdeeds ▸ List.mem_singleton_self _)
  obtain ⟨-, -, -, ⟨x, hx, hcount⟩, hstep⟩ := hmade last k stack hmakes
  -- No setter is called, so the step is over once the link is made.
  obtain ⟨rfl, rfl | hsetter⟩ := hstep (after 11) hnext
  · obtain ⟨-, -, -, hbare⟩ := tokens_tally hchange
    exact ⟨hdeeds, ⟨x, hx, hcount.trans (by decide)⟩,
      hbare ⟨0⟩ "x" (deedsOver routines 11 first) [] rfl fun l hl => absurd hl List.not_mem_nil⟩
  · rw [hdeeds] at hsetter
    cases List.mem_singleton.1 hsetter

end LateBind
