import LateBind.Proofs.Unit.WellFormed

/-!
# Searches that end

Looking for free names goes from a function into the closures it makes, and looking for captured
names from a closure out to the functions around it, with answers remembered from one search to the
next. A search that went on for ever would have no answer however deep it might go. In a unit that
passes the checks both have one: what the checks ask of the chain of enclosing functions is exactly
that it ends, and nothing else could go on for ever or come back to where it is.
-/

namespace LateBind

/-! ## 1. Searches that remember -/

/-- The names that were found for some functions. -/
abbrev Memo := FunctionId → Option (List Name)

namespace Memo

def empty : Memo := fun _ => none

def remember (memo : Memo) (f : FunctionId) (names : List Name) : Memo :=
  fun g => if g = f then some names else memo g

/-- Whatever is remembered of a function is its `answer`. -/
def Honest (answer : FunctionId → List Name) (memo : Memo) : Prop :=
  ∀ f names, memo f = some names → names = answer f

end Memo

section Searches

variable {m : Type → Type} [Monad m] {α β : Type} {answer : FunctionId → List Name}

/-- From any honest memo the search comes to an end, with `v` and an honest memo. -/
def Finds (answer : FunctionId → List Name) (search : StateT Memo m α) (v : α) : Prop :=
  ∀ memo : Memo, memo.Honest answer →
    ∃ memo' : Memo, search.run memo = pure (v, memo') ∧ memo'.Honest answer

theorem Memo.honest_empty : Memo.empty.Honest answer := nofun

theorem finds_pure (v : α) : Finds (m := m) answer (pure v) v :=
  fun memo hmemo => ⟨memo, rfl, hmemo⟩

variable [LawfulMonad m]

theorem Finds.bind {search : StateT Memo m α} {v : α} {next : α → StateT Memo m β} {w : β}
    (h : Finds answer search v) (h' : Finds answer (next v) w) :
    Finds answer (search >>= next) w := by
  intro memo hmemo
  obtain ⟨memo', hrun, hmemo'⟩ := h memo hmemo
  obtain ⟨memo'', hrun', hmemo''⟩ := h' memo' hmemo'
  refine ⟨memo'', ?_, hmemo''⟩
  rw [StateT.run_bind, hrun, pure_bind]
  exact hrun'

theorem finds_mapM {search : α → StateT Memo m β} {v : α → β} {as : List α}
    (h : ∀ a ∈ as, Finds answer (search a) (v a)) : Finds answer (as.mapM search) (as.map v) := by
  induction as with
  | nil => exact finds_pure []
  | cons a rest ih =>
    rw [List.mapM_cons, List.map_cons]
    have hrest := ih fun b hb => h b (List.mem_cons_of_mem a hb)
    exact (h a List.mem_cons_self).bind (hrest.bind (finds_pure _))

-- What is remembered need not be looked for.
theorem finds_recall {f : FunctionId} {search : StateT Memo m (List Name)}
    (h : Finds answer search (answer f)) :
    Finds answer (do
      match (← get) f with
      | some names => return names
      | none => search) (answer f) := by
  intro memo hmemo
  rw [StateT.run_bind, StateT.run_get, pure_bind]
  show ∃ memo', (match memo f with
    | some names => pure names
    | none => search).run memo = _ ∧ _
  cases hf : memo f with
  | some names => exact ⟨memo, by rw [hmemo f names hf]; rfl, hmemo⟩
  | none => exact h memo hmemo

theorem finds_remember (f : FunctionId) :
    Finds (m := m) answer (do
      modify (·.remember f (answer f))
      return answer f) (answer f) := by
  intro memo hmemo
  refine ⟨memo.remember f (answer f), ?_, fun g names hg => ?_⟩
  · rw [StateT.run_bind, StateT.run_modify, pure_bind]
    rfl
  · unfold Memo.remember at hg
    split at hg
    next hgf => rw [hgf]; exact (Option.some.inj hg).symm
    next => exact hmemo g names hg

theorem Finds.run'_empty {search : StateT Memo m α} {v : α} (h : Finds answer search v) :
    search.run' .empty = pure v := by
  obtain ⟨memo, hrun, -⟩ := h .empty Memo.honest_empty
  rw [StateT.run'_eq, hrun, map_pure]

end Searches

namespace Nesting

/-- The free names of `f`. While the search is in the functions `active`, coming to one of them
again is the end of it. There is no answer if it would go deeper than it may. -/
def searchFree (t : Nesting) : Nat → List FunctionId → FunctionId →
    StateT Memo (ExceptT FunctionId Option) (List Name)
  | 0, _, _ => liftM (none : Option (List Name))
  | deep + 1, active, f => do
    match (← get) f with
    | some names => return names
    | none =>
      match t.function? f with
      | none => return []
      | some x =>
        if f ∈ active then throw f
        else do
          let used ← x.points.mapM fun p => do
            let names ← match p.mark with
              | .closure c _ => t.searchFree deep (f :: active) c
              | m => pure m.usedName?.toList
            return names.filter fun n => !p.scope.binds n
          let names := used.flatten.eraseDups
          modify (·.remember f names)
          return names

/-- What closure `c` captures, looking from one enclosing function to the next as long as there is
one. There is no answer if there are more than it may look at. -/
def searchCaptures (t : Nesting) : Nat → FunctionId → StateT Memo Option (List Name)
  | 0, _ => liftM (none : Option (List Name))
  | far + 1, c => do
    match (← get) c with
    | some names => return names
    | none =>
      match t.siteOf? c with
      | none => return []
      | some s =>
        let inherited ← t.searchCaptures far s.owner
        let names := (t.freeNames t.functions.length c).filter fun n =>
          s.scope.binds n || inherited.contains n
        modify (·.remember c names)
        return names

variable {fs : List Function}

/-! ## 2. Into closures -/

theorem makes_of_mem_points {f c : FunctionId} {x : Function} {p : Point} {sp : Span}
    (hx : fs[f.index]? = some x) (hp : p ∈ x.points) (hm : p.mark = .closure c sp) :
    Makes fs f c :=
  makes_iff_exists_site.2 ⟨⟨f, c, sp, p.scope⟩, mem_sites.2 ⟨x, hx, p, hp, hm, rfl⟩, rfl, rfl⟩

/-- No way from function to closure goes on for ever. -/
theorem WellNested.wellFounded_makes (hw : (ofFunctions fs).WellNested) :
    WellFounded fun c f => Makes fs f c := by
  -- Each closure on the way is deeper than the one before, and none deeper than all there are.
  have hacc : ∀ (k : Nat) {f : FunctionId} {d : Nat}, (ofFunctions fs).Depth f d →
      fs.length ≤ k + d → Acc (fun c f => Makes fs f c) f := by
    intro k
    induction k with
    | zero =>
      intro f d hd hk
      have : d < fs.length := hd.lt
      omega
    | succ k ih =>
      intro f d hd hk
      refine ⟨f, fun c hc => ih (.inner (hw.enclosing?_iff.2 hc) hd) ?_⟩
      omega
  refine ⟨fun f => ⟨f, fun c hc => ?_⟩⟩
  obtain ⟨d, hd⟩ := hw.depth c (declared_of_enclosing? (hw.enclosing?_iff.2 hc))
  exact hacc fs.length hd (Nat.le_add_right _ _)

theorem freeNames_of_undeclared {k : Nat} {f : FunctionId} (hf : fs[f.index]? = none) :
    (ofFunctions fs).freeNames k f = [] := by
  have hf' : (ofFunctions fs).function? f = none := hf
  cases k with
  | zero => rfl
  | succ k => rw [freeNames, hf']

/-- The free names found at a point if `inner c` are those found in closure `c`. -/
def freeAt (inner : FunctionId → List Name) (p : Point) : List Name :=
  (match p.mark with
    | .closure c _ => inner c
    | m => m.usedName?.toList).filter fun n => !p.scope.binds n

theorem freeNames_of_declared {k : Nat} {f : FunctionId} {x : Function}
    (hx : fs[f.index]? = some x) : (ofFunctions fs).freeNames (k + 1) f =
      (x.points.flatMap (freeAt ((ofFunctions fs).freeNames k))).eraseDups := by
  have hx' : (ofFunctions fs).function? f = some x := hx
  rw [freeNames, hx']
  rfl

theorem WellNested.freeNames_stable (hw : (ofFunctions fs).WellNested) {k l : Nat}
    {f : FunctionId} {d : Nat} (hd : (ofFunctions fs).Depth f d) (hk : fs.length ≤ k + d)
    (hl : fs.length ≤ l + d) : (ofFunctions fs).freeNames k f = (ofFunctions fs).freeNames l f := by
  have hlt : d < fs.length := hd.lt
  induction k generalizing f d l with
  | zero => omega
  | succ k ih =>
    obtain ⟨l, rfl⟩ : ∃ n, l = n + 1 := ⟨l - 1, by omega⟩
    obtain ⟨x, hx⟩ : ∃ x, fs[f.index]? = some x := ⟨_, List.getElem?_eq_getElem hd.declared⟩
    rw [freeNames_of_declared hx, freeNames_of_declared hx]
    refine congrArg List.eraseDups (List.flatMap_congr fun p hp => ?_)
    unfold freeAt
    split
    next c sp hm =>
      have hc : (ofFunctions fs).Depth c (d + 1) :=
        .inner (hw.enclosing?_iff.2 (makes_of_mem_points hx hp hm)) hd
      rw [ih (l := l) hc (by omega) (by omega) hc.lt]
    next => rfl

/-- The bound is not felt: what is free in a function is what it uses and what is free in the
closures it makes, at the same bound. -/
theorem WellNested.freeNames_eq (hw : (ofFunctions fs).WellNested) {f : FunctionId} {x : Function}
    (hx : fs[f.index]? = some x) : (ofFunctions fs).freeNames fs.length f =
      (x.points.flatMap (freeAt ((ofFunctions fs).freeNames fs.length))).eraseDups := by
  obtain ⟨d, hd⟩ := hw.depth f (List.getElem?_eq_some_iff.1 hx).1
  rw [← freeNames_of_declared hx]
  exact hw.freeNames_stable hd (by omega) (by omega)

/-- The search for free names comes to an end, and never to a function that it is in. -/
theorem WellNested.finds_searchFree (hw : (ofFunctions fs).WellNested) {k : Nat} {f : FunctionId}
    {d : Nat} (hd : (ofFunctions fs).Depth f d) (hk : fs.length ≤ k + d)
    {active : List FunctionId} (hactive : ∀ a ∈ active, ∃ e, e < d ∧ (ofFunctions fs).Depth a e) :
    Finds ((ofFunctions fs).freeNames fs.length) ((ofFunctions fs).searchFree k active f)
      ((ofFunctions fs).freeNames fs.length f) := by
  have hlt : d < fs.length := hd.lt
  induction k generalizing f d active with
  | zero => omega
  | succ k ih =>
    obtain ⟨x, hx⟩ : ∃ x, fs[f.index]? = some x := ⟨_, List.getElem?_eq_getElem hd.declared⟩
    have hx' : (ofFunctions fs).function? f = some x := hx
    -- All functions that the search is in are less deep.
    have hf : f ∉ active := fun hf => by
      obtain ⟨e, he, hfe⟩ := hactive f hf
      have := hfe.unique hd
      omega
    have hclosure : ∀ c, Makes fs f c →
        Finds ((ofFunctions fs).freeNames fs.length) ((ofFunctions fs).searchFree k (f :: active) c)
          ((ofFunctions fs).freeNames fs.length c) := by
      intro c hc
      have hcd : (ofFunctions fs).Depth c (d + 1) := .inner (hw.enclosing?_iff.2 hc) hd
      refine ih hcd (by omega) (fun a ha => ?_) hcd.lt
      rcases List.mem_cons.1 ha with rfl | ha
      · exact ⟨d, Nat.lt_succ_self d, hd⟩
      · obtain ⟨e, he, hae⟩ := hactive a ha
        exact ⟨e, Nat.lt_succ_of_lt he, hae⟩
    rw [searchFree]
    apply finds_recall
    rw [hx']
    simp only [if_neg hf]
    refine Finds.bind (v := x.points.map (freeAt ((ofFunctions fs).freeNames fs.length)))
      (finds_mapM fun p hp => ?_) ?_
    · unfold freeAt
      split
      next c sp hm => exact (hclosure c (makes_of_mem_points hx hp hm)).bind (finds_pure _)
      next => exact (finds_pure _).bind (finds_pure _)
    · rw [← List.flatMap_def, ← hw.freeNames_eq hx]
      exact finds_remember f

/-! ## 3. Out of closures -/

/-- No way from closure to enclosing function goes on for ever. -/
theorem WellNested.wellFounded_enclosing (hw : (ofFunctions fs).WellNested) :
    WellFounded fun p c => (ofFunctions fs).enclosing? c = some p := by
  refine wellFounded_of_climbs fun c p hp => ?_
  obtain ⟨d, hd⟩ := hw.depth c (declared_of_enclosing? hp)
  obtain ⟨r, hclimbs, hr⟩ := depth_iff_climbs.1 hd
  exact ⟨d, r, hclimbs, enclosing?_of_isRoot hr⟩

theorem Depth.capturesWithin_stable {t : Nesting} {k l : Nat} {c : FunctionId} {d : Nat}
    (hd : t.Depth c d) (hk : d < k) (hl : d < l) : t.capturesWithin k c = t.capturesWithin l c := by
  induction k generalizing c d l with
  | zero => omega
  | succ k ih =>
    obtain ⟨l, rfl⟩ : ∃ n, l = n + 1 := ⟨l - 1, by omega⟩
    rw [capturesWithin, capturesWithin]
    cases hs : t.siteOf? c with
    | none => rfl
    | some s =>
      obtain ⟨e, rfl, he⟩ := hd.of_siteOf? hs
      simp only [ih he (by omega : e < k) (by omega : e < l)]

/-- Nor is the bound on captures felt. -/
theorem WellNested.captures_eq (hw : (ofFunctions fs).WellNested) {c : FunctionId}
    {s : ClosureSite} (hs : (ofFunctions fs).siteOf? c = some s) : (ofFunctions fs).captures c =
      ((ofFunctions fs).freeNames fs.length c).filter fun n =>
        s.scope.binds n || ((ofFunctions fs).captures s.owner).contains n := by
  obtain ⟨d, hd⟩ := hw.depth c (declared_of_isClosure (siteOf?_eq_some.1 hs).1)
  have hlt : d < fs.length := hd.lt
  have hstep : (ofFunctions fs).captures c = (ofFunctions fs).capturesWithin (fs.length + 1) c :=
    hd.capturesWithin_stable hlt (Nat.lt_succ_of_lt hlt)
  rw [hstep, capturesWithin, hs]
  rfl

/-- The search for captured names comes to an end. -/
theorem WellNested.finds_searchCaptures (hw : (ofFunctions fs).WellNested) {k : Nat}
    {c : FunctionId} (hk : ∀ d, (ofFunctions fs).Depth c d → d < k) (hpos : 0 < k) :
    Finds (ofFunctions fs).captures ((ofFunctions fs).searchCaptures k c)
      ((ofFunctions fs).captures c) := by
  induction k generalizing c with
  | zero => exact absurd hpos (Nat.lt_irrefl 0)
  | succ k ih =>
    rw [searchCaptures]
    apply finds_recall
    cases hs : (ofFunctions fs).siteOf? c with
    | none =>
      have hc : (ofFunctions fs).isClosure c ≠ true := fun hc => by
        obtain ⟨s, hs'⟩ := hw.made c hc
        rw [hs] at hs'
        cases hs'
      rw [captures_eq_nil hc]
      exact finds_pure []
    | some s =>
      obtain ⟨d, hd⟩ := hw.depth c (declared_of_isClosure (siteOf?_eq_some.1 hs).1)
      obtain ⟨e, rfl, he⟩ := hd.of_siteOf? hs
      have hdeep : e + 1 < k + 1 := hk (e + 1) hd
      have howner : Finds (ofFunctions fs).captures ((ofFunctions fs).searchCaptures k s.owner)
          ((ofFunctions fs).captures s.owner) := by
        refine ih (fun d hd => ?_) (by omega)
        have := hd.unique he
        omega
      refine howner.bind ?_
      have heq : List.filter _ ((ofFunctions fs).freeNames (ofFunctions fs).functions.length c) =
        (ofFunctions fs).captures c := (hw.captures_eq hs).symm
      rw [heq]
      exact finds_remember c

/-! ## 4. The check -/

/-- Both searches come to an end wherever they start, if they may pass all functions there are, and
find what is found within the bounds. The one for free names never comes to a function that it is
in. -/
structure SearchesEnd (t : Nesting) : Prop where
  outward : WellFounded fun p c => t.enclosing? c = some p
  inward : WellFounded fun c f => Makes t.functions f c
  captures : ∀ far, t.functions.length < far → ∀ cs : List FunctionId,
    (cs.mapM (t.searchCaptures far)).run' .empty = some (cs.map t.captures)
  free : ∀ deep, t.functions.length < deep → ∀ ids : List FunctionId,
    ((ids.mapM (t.searchFree deep [])).run' .empty).run =
      some (.ok (ids.map (t.freeNames t.functions.length)))

theorem WellNested.searchesEnd (hw : (ofFunctions fs).WellNested) :
    (ofFunctions fs).SearchesEnd where
  outward := hw.wellFounded_enclosing
  inward := hw.wellFounded_makes
  captures far hfar cs := by
    have hfar : fs.length < far := hfar
    refine Finds.run'_empty (finds_mapM fun c _ => hw.finds_searchCaptures (fun d hd => ?_) ?_)
    · have : d < fs.length := hd.lt
      omega
    · omega
  free deep hdeep ids := by
    have hdeep : fs.length < deep := hdeep
    have hfinds : ∀ f, Finds ((ofFunctions fs).freeNames fs.length)
        ((ofFunctions fs).searchFree deep [] f) ((ofFunctions fs).freeNames fs.length f) := by
      intro f
      cases hf : fs[f.index]? with
      | some x =>
        obtain ⟨d, hd⟩ := hw.depth f (List.getElem?_eq_some_iff.1 hf).1
        exact hw.finds_searchFree hd (by omega) nofun
      | none =>
        have hf' : (ofFunctions fs).function? f = none := hf
        obtain ⟨k, rfl⟩ : ∃ k, deep = k + 1 := ⟨deep - 1, by omega⟩
        rw [searchFree]
        apply finds_recall
        rw [hf', freeNames_of_undeclared hf]
        exact finds_pure []
    exact congrArg ExceptT.run (Finds.run'_empty (finds_mapM fun f _ => hfinds f))

-- The table of closures that are made in one place maps closures to functions.
theorem closure_of_enclosing? {c p : FunctionId} (hp : (ofFunctions fs).enclosing? c = some p) :
    (∃ x, fs[c.index]? = some x ∧ x.kind = .closure) ∧ p.index < fs.length := by
  refine ⟨isClosure_iff.1 (isClosure_of_enclosing? hp), ?_⟩
  obtain ⟨s, hs, rfl⟩ := Option.map_eq_some_iff.1 hp
  obtain ⟨x, -, hx, -⟩ := does_of_siteOf? hs
  exact (List.getElem?_eq_some_iff.1 hx).1

end Nesting

open Nesting

/-- **The check on nesting is exact, and lets through what can be searched.** Along a map from
closures of a table to functions of it, the walk comes to a root exactly if some number of steps
leads to a function of the table that is not mapped and no closure; it never does from where the way
goes round in a circle. So going along a map that is rooted everywhere ends, and in a unit that
passes the checks the searches for free and captured names do. -/
theorem nesting_check_exact {fs : List Function} {parent : FunctionId → Option FunctionId}
    (hparent : ∀ c p, parent c = some p →
      (∃ x, fs[c.index]? = some x ∧ x.kind = .closure) ∧ p.index < fs.length) :
    (∀ c, (reachesRoot parent (ofFunctions fs).isRoot (fs.length + 1) c = true ↔
        ∃ n f, Climbs parent c n f ∧ parent f = none ∧
          ∃ x, fs[f.index]? = some x ∧ x.kind ≠ .closure) ∧
      ∀ m n f, Climbs parent c m f → Climbs parent f (n + 1) f →
        reachesRoot parent (ofFunctions fs).isRoot (fs.length + 1) c = false) ∧
    ((∀ c p, parent c = some p →
        reachesRoot parent (ofFunctions fs).isRoot (fs.length + 1) c = true) →
      WellFounded fun p c => parent c = some p) ∧
    ((ofFunctions fs).errors = [] → (ofFunctions fs).SearchesEnd) := by
  have hdeclared : ∀ c p, parent c = some p → c.index < fs.length := by
    intro c p hp
    obtain ⟨⟨x, hx, -⟩, -⟩ := hparent c p hp
    exact (List.getElem?_eq_some_iff.1 hx).1
  have hwalk : ∀ c, reachesRoot parent (ofFunctions fs).isRoot (fs.length + 1) c = true ↔
      ∃ n f, Climbs parent c n f ∧ parent f = none ∧ (ofFunctions fs).isRoot f = true := fun c =>
    reachesRoot_iff_of_size hdeclared (fun _ => declared_of_isRoot) (Nat.le_succ _)
  refine ⟨fun c => ⟨?_, fun m n f h hcycle => ?_⟩, fun hrooted => ?_, fun herrors => ?_⟩
  · simp only [hwalk, isRoot_iff]
    rfl
  · rw [← Bool.not_eq_true, hwalk]
    rintro ⟨k, r, hclimbs, hend, -⟩
    exact h.not_end_of_cycle hcycle hclimbs hend
  · refine wellFounded_of_climbs fun c p hp => ?_
    obtain ⟨n, f, hclimbs, hend, -⟩ := (hwalk c).1 (hrooted c p hp)
    exact ⟨n, f, hclimbs, hend⟩
  · exact (wellNested_of_errors herrors).searchesEnd

open ClosureCycle in
-- One chain passes every function there is, and is walked to its end; the other has none.
theorem nesting_check_exact_chain :
    reachesRoot (ofFunctions chain.functions).enclosing? (ofFunctions chain.functions).isRoot 4 ⟨2⟩ =
      true ∧
    (WellFounded fun p c => (ofFunctions chain.functions).enclosing? c = some p) ∧
    (ofFunctions chain.functions).SearchesEnd ∧
    reachesRoot (ofFunctions circle.functions).enclosing? (ofFunctions circle.functions).isRoot 4
      ⟨1⟩ = false := by
  obtain ⟨hchain, hends, hsearches⟩ :=
    @nesting_check_exact chain.functions (ofFunctions chain.functions).enclosing?
      fun _ _ => closure_of_enclosing?
  obtain ⟨hcircle, -⟩ :=
    @nesting_check_exact circle.functions (ofFunctions circle.functions).enclosing?
      fun _ _ => closure_of_enclosing?
  have hclimbs : Climbs (ofFunctions chain.functions).enclosing? ⟨2⟩ 2 ⟨0⟩ :=
    .up (p := ⟨1⟩) rfl (.up rfl .here)
  have hcycle : Climbs (ofFunctions circle.functions).enclosing? ⟨1⟩ 2 ⟨1⟩ :=
    .up (p := ⟨2⟩) rfl (.up rfl .here)
  have hall : ∀ c p, (ofFunctions chain.functions).enclosing? c = some p →
      reachesRoot (ofFunctions chain.functions).enclosing? (ofFunctions chain.functions).isRoot 4 c =
        true := by
    intro c p hp
    have hc : c.index < 3 := declared_of_enclosing? hp
    match c, hc with
    | ⟨0⟩, _ | ⟨1⟩, _ | ⟨2⟩, _ => rfl
  exact ⟨(hchain ⟨2⟩).1.2 ⟨2, ⟨0⟩, hclimbs, rfl, _, rfl, by decide⟩, hends hall, hsearches rfl,
    (hcircle ⟨1⟩).2 0 1 ⟨1⟩ .here hcycle⟩

end LateBind
