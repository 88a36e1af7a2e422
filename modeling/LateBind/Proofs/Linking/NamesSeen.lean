import LateBind.Proofs.Unit.Captures
import LateBind.Proofs.Unit.CallSites
import LateBind.Proofs.Diagnostic.Queue
import LateBind.Linking.Resolution

/-!
# What names see

In a published unit a name is in scope exactly where it is visible, whether its function has bound
it or captured it. So the checks and the resolution of a unit can be told from the trees it was
built from, and moving code into a closure does not change what its names see.
-/

namespace LateBind

/-! ## 1. Passes over a published unit -/

/-- What is used at a place is bound or captured there exactly if it is visible. -/
theorem Nesting.WellNested.bound_iff {fs : List Function} (hw : (ofFunctions fs).WellNested)
    {f : FunctionId} {x : Function} {q : Place} {n : Name} (hx : fs[f.index]? = some x)
    (hq : q ∈ x.walk) (hn : q.mark.usedName? = some n) :
    n ∈ (ofFunctions fs).captures f ++ q.bound ↔ Visible fs f q.bound n := by
  have hlt : f.index < fs.length := (List.getElem?_eq_some_iff.1 hx).1
  rw [List.mem_append, hw.mem_captures hlt, visible_iff]
  by_cases hbound : n ∈ q.bound
  · simp [hbound]
  · have hfree : FreeIn fs f n := .used hx (Function.mem_walk.1 hq) hn hbound
    simp [hbound, hfree]

namespace Builder

variable {b : Builder} {m : Module}

/-- A pass that does nothing where a slot is bound, and asks of a name it comes upon only whether
it is in scope, is a pass over the places of the unit that asks whether the name is visible. -/
theorem flatMap_points {α : Type} (h : b.publish = .ok m) {g : Point → List α}
    {k : FunctionId → Place → List α} (hbind : ∀ p s, p.mark = .bind s → g p = [])
    (hat : ∀ f p q, p.mark = q.mark →
      (∀ n, q.mark.usedName? = some n →
        (p.scope.binds n = true ↔ Visible b.functions f q.bound n)) → g p = k f q) :
    m.points.flatMap g = (numbered b.functions).flatMap fun e => e.2.walk.flatMap (k e.1) := by
  obtain ⟨hw, rfl⟩ := publish_eq_ok h
  simp only [Module.points, withCaptures, List.flatMap_map, List.flatMap_assoc]
  refine List.flatMap_congr fun e he => ?_
  obtain ⟨f, x⟩ := e
  refine x.flatMap_points (b.nesting.captures f) hbind fun p q hq hpq => ?_
  obtain ⟨hm, hscope⟩ := hpq
  refine hat f p q hm fun n hn => ?_
  rw [hscope n]
  exact hw.bound_iff (mem_numbered.1 he) hq hn

theorem filterMap_points {α : Type} (h : b.publish = .ok m) {g : Point → Option α}
    {k : FunctionId → Place → Option α} (hbind : ∀ p s, p.mark = .bind s → g p = none)
    (hat : ∀ f p q, p.mark = q.mark →
      (∀ n, q.mark.usedName? = some n →
        (p.scope.binds n = true ↔ Visible b.functions f q.bound n)) → g p = k f q) :
    m.points.filterMap g = (numbered b.functions).flatMap fun e => e.2.walk.filterMap (k e.1) := by
  simp only [List.filterMap_eq_flatMap_toList]
  refine flatMap_points h (g := fun p => (g p).toList) (k := fun f q => (k f q).toList)
    (fun p s hp => ?_) fun f p q hm hscope => ?_
  · rw [hbind p s hp, Option.toList_none]
  · rw [hat f p q hm hscope]

-- Every place of a unit is a point of the published unit.
theorem exists_point (h : b.publish = .ok m) {f : FunctionId} {x : Function} {ns : List Name}
    {a : Mark} (hx : b.functions[f.index]? = some x) (hd : x.Does ns a) :
    ∃ p ∈ m.points, p.mark = a ∧
      ∀ n, a.usedName? = some n → (p.scope.binds n = true ↔ Visible b.functions f ns n) := by
  obtain ⟨hw, rfl⟩ := publish_eq_ok h
  have hq : (⟨ns, a⟩ : Place) ∈ x.walk := Function.mem_walk.2 hd
  obtain ⟨p, hp, hm, hscope⟩ := Function.exists_point (b.nesting.captures f) hq
  refine ⟨p, List.mem_flatMap.2 ⟨x.withCaptured (b.nesting.captures f), ?_, hp⟩, hm, fun n hn => ?_⟩
  · apply List.mem_of_getElem? (i := f.index)
    exact (b.getElem?_withCaptures f).trans (by rw [hx, Option.map_some])
  · rw [hscope n]
    exact hw.bound_iff hx hq hn

end Builder

/-! ## 2. Undeclared names -/

open Classical in
/-- The report that the read or assignment at a place deserves. -/
noncomputable def Place.undeclared? (fs : List Function) (f : FunctionId) (q : Place) :
    Option NameError :=
  match q.mark with
  | .read n sp | .assign n sp => if Visible fs f q.bound n then none else some (.undeclared n sp)
  | _ => none

-- A point reports an undeclared name exactly if its place deserves that.
theorem Point.undeclared?_eq {fs : List Function} {f : FunctionId} {p : Point} {q : Place}
    (hm : p.mark = q.mark)
    (hscope : ∀ n, q.mark.usedName? = some n →
      (p.scope.binds n = true ↔ Visible fs f q.bound n)) (names : Interner) :
    p.nameError?.filter (fun e => (e.report names).code = .undeclaredName) =
      q.undeclared? fs f := by
  unfold nameError? Place.undeclared?
  rw [hm]
  cases hq : q.mark with
  | read n sp =>
    have hn := hscope n (by rw [hq]; rfl)
    by_cases hv : Visible fs f q.bound n
    · simp [hv, hn.2 hv]
    · simp only [hv, mt hn.1 hv, if_false]
      rfl
  | assign n sp =>
    have hn := hscope n (by rw [hq]; rfl)
    rw [Scope.binds] at hn
    cases hfind : p.scope.find? n with
    | none =>
      have hv : ¬Visible fs f q.bound n := fun hv => by
        have := hn.2 hv
        rw [hfind] at this
        cases this
      simp only [hfind, hv, if_false]
      rfl
    | some s =>
      -- To assign to a constant is an error too, but not this one.
      have hv : Visible fs f q.bound n := hn.1 (by rw [hfind]; rfl)
      simp only [hfind, hv, if_true]
      split <;> rfl
  | bind s =>
    simp only
    cases p.scope.repeated? s.name <;> rfl
  | call | method | closure => rfl

/-- The undeclared names of a published unit are those read or assigned where they are not
visible. -/
theorem Builder.undeclared_points {b : Builder} {m : Module} (h : b.publish = .ok m)
    (names : Interner) :
    (m.nameReports names).filter (·.code = .undeclaredName) =
      ((numbered b.functions).flatMap fun e =>
        e.2.walk.filterMap (Place.undeclared? b.functions e.1)).map (·.report names) := by
  have hpass : m.points.filterMap (fun p => p.nameError?.filter fun e =>
        (e.report names).code = .undeclaredName) =
      (numbered b.functions).flatMap fun e =>
        e.2.walk.filterMap (Place.undeclared? b.functions e.1) := by
    refine filterMap_points h (fun p s hp => ?_) fun f p q hm hscope =>
      Point.undeclared?_eq hm hscope names
    simp only [Point.nameError?, hp]
    cases p.scope.repeated? s.name <;> rfl
  rw [← hpass, Module.nameReports, Module.nameErrors, List.filter_map, List.filter_filterMap]
  rfl

/-! ## 3. Calls -/

namespace Builder

variable {b : Builder} {m : Module}

theorem sites_of_publish (h : b.publish = .ok m) :
    m.marks.filterMap Mark.site? = b.functions.flatMap Function.sites := by
  have hpass := filterMap_points h (g := fun p => p.mark.site?) (k := fun _ q => q.mark.site?)
    (fun p s hp => by rw [hp]; rfl) fun f p q hm _ => by rw [hm]
  rw [Module.marks, List.filterMap_map]
  apply hpass.trans
  conv_rhs => rw [← map_snd_numbered b.functions, List.flatMap_map]
  refine List.flatMap_congr fun e _ => ?_
  rw [Function.sites, sitesAlong, callSites, List.filterMap_map]
  rfl

theorem nodup_sites (hb : b.Distinct) (h : b.publish = .ok m) :
    (m.marks.filterMap Mark.site?).Nodup :=
  sites_of_publish h ▸ (distinct_iff.1 hb).1

theorem count_sites_le_one (hb : b.Distinct) (h : b.publish = .ok m) (s : CallSiteId) :
    (m.marks.filterMap Mark.site?).count s ≤ 1 :=
  List.nodup_iff_count_le_one.1 (nodup_sites hb h) s

-- The table has for a plain call what its name stands for there.
theorem bindingAt?_eq (hb : b.Distinct) (h : b.publish = .ok m) {p : Point} (hp : p ∈ m.points)
    {n : Name} {args : Nat} {s : CallSiteId} {r : Bool} {sp : Span}
    (hm : p.mark = .call n args s r sp) : m.locals.bindingAt? s = p.scope.find? n := by
  have hcount : (m.points.filterMap fun p => p.mark.site?).count s ≤ 1 := by
    have := count_sites_le_one hb h s
    rwa [Module.marks, List.filterMap_map] at this
  have hget : m.locals.bindingAt? s = p.callBinding?.map (·.2) := by
    refine SiteTable.get?_filterMap (fun p s v hp => ?_) hp hcount (by rw [hm]; rfl)
    unfold Point.callBinding? at hp
    split at hp
    next hmark =>
      obtain ⟨v, -, he⟩ := Option.map_eq_some_iff.1 hp
      cases he
      rw [hmark]
      rfl
    next => cases hp
  have hbinding : p.callBinding? = (p.scope.find? n).map (s, ·) := by
    rw [Point.callBinding?, hm]
  rw [hget, hbinding]
  cases p.scope.find? n <;> rfl

theorem bindingAt?_iff (hb : b.Distinct) (h : b.publish = .ok m) {f : FunctionId} {x : Function}
    {ns : List Name} {n : Name} {args : Nat} {s : CallSiteId} {r : Bool} {sp : Span}
    (hx : b.functions[f.index]? = some x) (hd : x.Does ns (.call n args s r sp)) :
    (m.locals.bindingAt? s).isSome = true ↔ Visible b.functions f ns n := by
  obtain ⟨p, hp, hm, hscope⟩ := exists_point h hx hd
  rw [bindingAt?_eq hb h hp hm]
  exact hscope n rfl

-- The table has for a call what was found at its mark.
theorem get?_finding (hb : b.Distinct) (h : b.publish = .ok m) (reg : Registry) {a : Mark}
    (ha : a ∈ m.marks) {s : CallSiteId} (hs : a.site? = some s) :
    (m.resolutions reg).get? s = ((m.linkContext reg).finding? a).map (·.2) := by
  refine SiteTable.get?_filterMap (fun a t v ha => ?_) ha (count_sites_le_one hb h s) hs
  cases a with
  | call n args site r sp =>
    obtain ⟨w, -, he⟩ := Option.map_eq_some_iff.1 ha
    cases he
    rfl
  | method =>
    cases ha
    rfl
  | _ => cases ha

-- For a plain call that is what resolving it gives.
theorem get?_resolutions (hb : b.Distinct) (h : b.publish = .ok m) (reg : Registry) {n : Name}
    {args : Nat} {s : CallSiteId} {r : Bool} {sp : Span} (hm : .call n args s r sp ∈ m.marks) :
    (m.resolutions reg).get? s = (m.linkContext reg).resolveCall? n args s r := by
  rw [get?_finding hb h reg hm rfl, LinkContext.finding?]
  cases (m.linkContext reg).resolveCall? n args s r <;> rfl

-- A method call is always resolved.
theorem get?_resolutions_method (hb : b.Distinct) (h : b.publish = .ok m) (reg : Registry)
    {n : Name} {args : Nat} {s : CallSiteId} {t : Option Name} {sp : Span}
    (hm : .method n args s t sp ∈ m.marks) :
    (m.resolutions reg).get? s = some ((m.linkContext reg).resolveMethod n args t) := by
  rw [get?_finding hb h reg hm rfl]
  rfl

end Builder

/-- The report that a call without a resolution deserves. -/
def Mark.unresolved? (t : Resolutions) : Mark → Option UnresolvedCall
  | .call n args s _ sp => if t.get? s = none then some ⟨n, args, sp⟩ else none
  | _ => none

theorem Builder.unresolvedCalls_eq {b : Builder} {m : Module} (hb : b.Distinct)
    (h : b.publish = .ok m) (reg : Registry) :
    m.unresolvedCalls reg = m.marks.filterMap (Mark.unresolved? (m.resolutions reg)) := by
  refine List.filterMap_congr fun a ha => ?_
  cases a with
  | call n args s r sp =>
    simp only [LinkContext.unresolved?, Mark.unresolved?, get?_resolutions hb h reg ha]
    cases (m.linkContext reg).resolveCall? n args s r <;> rfl
  | _ => rfl

-- How a call resolves depends on its unit, on what it says and on whether its name is bound.
theorem LinkContext.resolveCall?_congr {c d : LinkContext} (hmodule : c.module = d.module)
    (himports : c.imports = d.imports) (hregistry : c.registry = d.registry) {s t : CallSiteId}
    (hbound : (c.locals.bindingAt? s).isSome = (d.locals.bindingAt? t).isSome) (n : Name)
    (args : Nat) (r : Bool) : c.resolveCall? n args s r = d.resolveCall? n args t r := by
  have hmap : ((c.locals.bindingAt? s).map fun _ => Resolution.reference n) =
      (d.locals.bindingAt? t).map fun _ => .reference n := by
    cases hc : c.locals.bindingAt? s <;> cases hd : d.locals.bindingAt? t <;>
      simp_all
  unfold resolveCall?
  rw [hmap, hmodule, himports, hregistry]

/-! ## 4. Moving code into a closure -/

-- Only where closures are made and what is bound there matters for what is visible.
theorem Visible.congr {fs gs : List Function}
    (h : ∀ c g ns, MadeIn fs c g ns → MadeIn gs c g ns) {f : FunctionId} {ns : List Name}
    {n : Name} (hn : Visible fs f ns n) : Visible gs f ns n := by
  induction hn with
  | here hn => exact .here hn
  | around hmade _ ih => exact .around (h _ _ _ hmade) ih

/-- A closure sees what it has not bound itself as the place sees it that makes the closure. -/
theorem Nesting.WellNested.visible_iff_around {fs : List Function}
    (hw : (ofFunctions fs).WellNested) {c g : FunctionId} {ns ms ms' : List Name} {n : Name}
    (hmade : MadeIn fs c g ms) (hns : n ∉ ns) (hms : n ∈ ms' ↔ n ∈ ms) :
    Visible fs c ns n ↔ Visible fs g ms' n := by
  have hp := hw.enclosing?_of_madeIn hmade
  obtain ⟨s, hs, howner⟩ := Option.map_eq_some_iff.1 hp
  rw [visible_iff, visible_iff, hms]
  constructor
  · rintro (hn | ⟨g', ns', hmade', hn⟩)
    · exact absurd hn hns
    · obtain ⟨rfl, hscope'⟩ := hw.madeIn_iff hs hmade'
      obtain ⟨rfl, hscope⟩ := hw.madeIn_iff hs hmade
      rw [visible_iff, ← hscope' n, hscope n] at hn
      exact hn
  · exact fun hn => .inr ⟨g, ms, hmade, visible_iff.2 hn⟩

/-- **Names see what is visible.** In a published unit the names reported as undeclared are those read
or assigned where they are not visible. If each of its calls has a site of its own,

* the name of a plain call is bound exactly where it is visible;
* a plain call is reported as unresolved exactly if it has no resolution;
* a plain call of a name that a closure has not bound resolves in the closure as it does in a unit
  that makes the same closures, at a place where as many of the names around are bound as where the
  closure is made.
-/
theorem names_seen {b : Builder} {names : Interner} {m : Module} (h : b.finish names = .ok m) :
    (∀ names' : Interner,
      ((Queue.ofConfig .unlimited).extend (m.nameReports names')).contents.filter
          (·.code = .undeclaredName) =
        ((numbered b.functions).flatMap fun e =>
          e.2.walk.filterMap (Place.undeclared? b.functions e.1)).map (·.report names')) ∧
    (b.Distinct →
      (∀ f x ns n args s r sp, b.functions[f.index]? = some x → x.Does ns (.call n args s r sp) →
        ((m.locals.bindingAt? s).isSome = true ↔ Visible b.functions f ns n)) ∧
      (∀ reg, m.unresolvedCalls reg = m.marks.filterMap (Mark.unresolved? (m.resolutions reg))) ∧
      (∀ reg b' names' m', Builder.Distinct b' → b'.finish names' = .ok m' → m'.name = m.name →
        m'.imports = m.imports →
        (∀ c g ns, MadeIn b.functions c g ns ↔ MadeIn b'.functions c g ns) →
        ∀ c g x y ns ms ms' n args r s s' sp sp',
          b.functions[c.index]? = some x → x.Does ns (.call n args s r sp) → n ∉ ns →
          MadeIn b.functions c g ms →
          b'.functions[g.index]? = some y → y.Does ms' (.call n args s' r sp') →
          (n ∈ ms' ↔ n ∈ ms) →
          (m.resolutions reg).get? s = (m'.resolutions reg).get? s')) := by
  have hm := Builder.publish_of_finish h
  refine ⟨fun names' => ?_, fun hb => ⟨fun f x ns n args s r sp hx hd =>
    Builder.bindingAt?_iff hb hm hx hd, Builder.unresolvedCalls_eq hb hm, ?_⟩⟩
  · rw [Queue.contents_extend_unlimited]
    exact Builder.undeclared_points hm names'
  · intro reg b' names' m' hb' h' hname himports hmakes c g x y ns ms ms' n args r s s' sp sp' hx hd
      hns hmade hy hd' hms
    have hm' := Builder.publish_of_finish h'
    obtain ⟨hw, -⟩ := Builder.publish_eq_ok hm
    -- Resolving a call asks of the scope only whether the name is bound.
    obtain ⟨p, hp, hmark, -⟩ := Builder.exists_point hm hx hd
    obtain ⟨p', hp', hmark', -⟩ := Builder.exists_point hm' hy hd'
    have hmem : .call n args s r sp ∈ m.marks := List.mem_map.2 ⟨p, hp, hmark⟩
    have hmem' : .call n args s' r sp' ∈ m'.marks := List.mem_map.2 ⟨p', hp', hmark'⟩
    rw [Builder.get?_resolutions hb hm reg hmem, Builder.get?_resolutions hb' hm' reg hmem']
    refine LinkContext.resolveCall?_congr (c := m.linkContext reg) (d := m'.linkContext reg)
      hname.symm himports.symm rfl ?_ n args r
    show (m.locals.bindingAt? s).isSome = (m'.locals.bindingAt? s').isSome
    rw [Bool.eq_iff_iff, Builder.bindingAt?_iff hb hm hx hd, Builder.bindingAt?_iff hb' hm' hy hd',
      hw.visible_iff_around hmade hns hms]
    exact ⟨.congr fun c g ns => (hmakes c g ns).1, .congr fun c g ns => (hmakes c g ns).2⟩

namespace CalledInside

/-- The call with number `k` of the function's parameter. -/
def call (k : Nat) : Expr := .call ⟨5⟩ [] ⟨k⟩ false .dummy

/-- A function and a closure in it both call the function's parameter. The calls are made as they are
written, so the one in the closure comes between those around it. -/
def steps : List Builder.Step :=
  [.declare ⟨2⟩ .anyUnit .topLevel .dummy, .declare ⟨3⟩ .ownUnit .closure .dummy,
    .edit ⟨0⟩ (.parameters [⟨5⟩]), .call ⟨5⟩ [] .dummy, .call ⟨5⟩ [] .dummy,
    .edit ⟨1⟩ (.body (.mk [.ret (some (call 1)) .dummy] .dummy)), .call ⟨5⟩ [] .dummy,
    .edit ⟨0⟩ (.body (.mk [.expr (call 0) .dummy,
      .expr (.binary .add (.closure ⟨1⟩ .dummy) (call 2) .dummy) .dummy] .dummy))]

def builder : Builder := steps.foldl Builder.step (.ofName ⟨1⟩)

def unit : Module := ⟨builder.name, builder.imports, builder.withCaptures, builder.nextSite⟩

theorem distinct : builder.Distinct := Builder.distinct_iff.2 ⟨by decide, by decide⟩

end CalledInside

open CalledInside in
-- The call in the closure resolves as the next one does.
theorem names_seen_inside :
    (unit.locals.bindingAt? ⟨1⟩).isSome = true ∧
      (unit.resolutions {}).get? ⟨1⟩ = (unit.resolutions {}).get? ⟨2⟩ ∧
      (unit.resolutions {}).get? ⟨1⟩ = some (.reference ⟨5⟩) := by
  have hfinish : builder.finish .initial = .ok unit := rfl
  obtain ⟨outer, houter⟩ : ∃ x, builder.functions[0]? = some x := ⟨_, rfl⟩
  obtain ⟨inner, hinner⟩ : ∃ x, builder.functions[1]? = some x := ⟨_, rfl⟩
  have hcall : inner.Does [] (.call ⟨5⟩ 0 ⟨1⟩ false .dummy) := by
    cases hinner
    exact Function.mem_walk (q := ⟨_, _⟩).1 List.mem_cons_self
  have hmakes : outer.Does [⟨5⟩] (.closure ⟨1⟩ .dummy) := by
    cases houter
    exact Function.mem_walk (q := ⟨_, _⟩).1 (List.mem_cons_of_mem _ List.mem_cons_self)
  have hcall' : outer.Does [⟨5⟩] (.call ⟨5⟩ 0 ⟨2⟩ false .dummy) := by
    cases houter
    exact Function.mem_walk (q := ⟨_, _⟩).1
      (List.mem_cons_of_mem _ (List.mem_cons_of_mem _ List.mem_cons_self))
  have hmade : MadeIn builder.functions ⟨1⟩ ⟨0⟩ [⟨5⟩] := ⟨outer, .dummy, houter, hmakes⟩
  obtain ⟨hbound, -, hmoved⟩ := (names_seen hfinish).2 distinct
  refine ⟨(hbound ⟨1⟩ inner [] ⟨5⟩ 0 ⟨1⟩ false .dummy hinner hcall).2
    (.around hmade (.here List.mem_cons_self)), ?_, rfl⟩
  exact hmoved {} builder .initial unit distinct hfinish rfl rfl (fun _ _ _ => Iff.rfl) ⟨1⟩ ⟨0⟩ inner
    outer [] [⟨5⟩] [⟨5⟩] ⟨5⟩ 0 false ⟨1⟩ ⟨2⟩ .dummy .dummy hinner hcall List.not_mem_nil hmade houter
    hcall' Iff.rfl

end LateBind
