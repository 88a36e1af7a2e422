import LateBind.Proofs.Dynamic.Steps
import LateBind.Proofs.Dynamic.Uncached

/-!
# Forgetting tokens

A heap without its tokens and without what its sites remember is a state of the machine without
memory. Giving out a token or remembering a link is not seen, and every operation does the same in
both machines.
-/

namespace LateBind

/-! ## 1. Forgetting -/

/-- What an object shows. -/
def Object.view (x : Object) : Uncached.Object := ⟨x.properties, x.frozen⟩

namespace Heap

/-- A stub with the validity of its token in place of the token. -/
def viewStub (h : Heap) (x : Stub) : Uncached.Stub :=
  ⟨x.link.owner, x.link.name, x.link.target, x.fallback, h.isValid x.link.token⟩

/-- A handle with the name and shape of its site in place of the site. -/
def viewHandle (h : Heap) (x : Handle) : Uncached.Handle :=
  match h.site? x.site with
  | some y => ⟨y.name, y.shape, x.live⟩
  | none => ⟨"", { arity := 0 }, x.live⟩

def view (h : Heap) : Uncached.State :=
  ⟨h.objects.map (·.view), h.stubs.map (·.map h.viewStub), h.handles.map h.viewHandle,
    h.references.length⟩

end Heap

-- Nothing is marked where no property changes.
theorem Uncached.State.change_self {s : Uncached.State} {o : ObjectId} {x : Uncached.Object}
    (ho : s.object? o = some x) : s.change o x [] = s := by
  obtain ⟨hlt, rfl⟩ := List.getElem?_eq_some_iff.1 ho
  have hmark : ∀ y : Uncached.Stub, y.mark o [] = y := fun y => by simp [Uncached.Stub.mark]
  simp [Uncached.State.change, funext hmark]

namespace Heap

variable {h : Heap} {stack : List Frame}

theorem object?_view (h : Heap) (o : ObjectId) : h.view.object? o = (h.object? o).map (·.view) :=
  List.getElem?_map

theorem stub?_view (h : Heap) (s : StubId) : h.view.stub? s = (h.stub? s).map h.viewStub := by
  show ((h.stubs.map (·.map h.viewStub))[s.index]?).join = ((h.stubs[s.index]?).join).map _
  rw [List.getElem?_map]
  rcases h.stubs[s.index]? with _ | _ | x <;> rfl

theorem viewHandle_eq {x : Handle} {y : Site} (hy : h.site? x.site = some y) :
    h.viewHandle x = ⟨y.name, y.shape, x.live⟩ := by
  simp only [viewHandle, hy]

-- Whether a handle is live or not, it shows the name and shape of one site.
theorem Sound.viewHandle_of_mem {x : Handle} (hs : h.Sound stack) (hx : x ∈ h.handles) :
    ∃ name shape, ∀ b, h.viewHandle ⟨x.site, b⟩ = ⟨name, shape, b⟩ := by
  obtain ⟨y, hy⟩ := hs.handles x hx
  exact ⟨y.name, y.shape, fun b => viewHandle_eq (x := ⟨x.site, b⟩) hy⟩

theorem getElem?_handles_view (h : Heap) (i : Nat) :
    h.view.handles[i]? = (h.handles[i]?).map h.viewHandle :=
  List.getElem?_map

theorem target_view (x : Object) (name : String) (shape : Shape) :
    x.view.target name shape = x.target name shape := rfl

-- The view of a changed object: what was revoked is marked.
theorem Sound.view_commit {o : ObjectId} {x : Object} {names : List String}
    {change : Object × List TokenId} (hs : h.Sound stack) (ho : h.object? o = some x)
    (hc : x.Rebinds names change) :
    (h.commit o change).view = h.view.change o change.1.view names := by
  have hstub : ∀ y, some y ∈ h.stubs →
      (h.commit o change).viewStub y = (h.viewStub y).mark o names := by
    intro y hy
    have hl := hs.honoured y.link (mem_links.2 (.inl ⟨y, hy, rfl⟩))
    have hv : (h.commit o change).isValid y.link.token =
        (h.isValid y.link.token && !(y.link.owner == o && names.contains y.link.name)) := by
      rw [Bool.eq_iff_iff, isValid_commit hl ho hc]
      simp [Decidable.imp_iff_not_or]
    simp only [viewStub, Uncached.Stub.mark, hv]
  unfold view Uncached.State.change
  congr 1
  · exact (List.map_set ..)
  · show h.stubs.map _ = (h.stubs.map _).map _
    rw [List.map_map]
    refine List.map_congr_left fun y hy => ?_
    rcases y with _ | y
    · rfl
    · exact congrArg some (hstub y hy)

theorem view_create (h : Heap) (x : Object) :
    h.view.create x.view = ((h.create x).1, (h.create x).2.view) := by
  simp only [Uncached.State.create, create, view, List.length_map, List.map_append, List.map_cons,
    List.map_nil]
  rfl

/-! ## 2. Operations -/

/-- An answer with the heap it leaves, seen without memory. -/
def viewAnswer {α : Type} (p : α × Heap) : α × Uncached.State := (p.1, p.2.view)

theorem Sound.view_define {o : ObjectId} {name : String} {v : Value} (hs : h.Sound stack) :
    h.view.define o name v = (h.define o name v).map viewAnswer := by
  unfold Uncached.State.define Heap.define
  rw [object?_view]
  cases ho : h.object? o with
  | none => rfl
  | some x =>
    simp only [Option.map_some]
    have hfrozen : x.view.frozen = x.frozen := rfl
    rw [hfrozen]
    by_cases hx : x.frozen = true
    · rw [if_pos hx, if_pos hx]
      rfl
    · rw [if_neg hx, if_neg hx]
      simp only [viewAnswer, hs.view_commit ho (x.rebinds_define name v)]
      rfl

theorem Sound.view_undefine {o : ObjectId} {name : String} (hs : h.Sound stack) :
    h.view.undefine o name = (h.undefine o name).map viewAnswer := by
  unfold Uncached.State.undefine Heap.undefine
  rw [object?_view]
  cases ho : h.object? o with
  | none => rfl
  | some x =>
    have hc := hs.view_commit ho (x.rebinds_undefine name)
    simp only [Option.map_some]
    have hfrozen : x.view.frozen = x.frozen := rfl
    have hproperties : x.view.properties = x.properties := rfl
    rw [hfrozen, hproperties]
    by_cases hx : x.frozen = true
    · rw [if_pos hx, if_pos hx]
      rfl
    · rw [if_neg hx, if_neg hx]
      simp only [viewAnswer, hc]
      by_cases hn : x.properties.contains name = true
      · simp only [Object.undefine, if_pos hn]
        rfl
      · simp only [Object.undefine, if_neg hn]
        -- A property that is not there is left alone.
        rw [Uncached.State.change_self ((object?_view h o).trans (congrArg _ ho))]

theorem Sound.view_mixin {o source : ObjectId} (hs : h.Sound stack) :
    h.view.mixin o source = (h.mixin o source).map viewAnswer := by
  unfold Uncached.State.mixin Heap.mixin
  rw [object?_view, object?_view]
  cases h.object? source with
  | none => rfl
  | some y =>
    cases ho : h.object? o with
    | none => rfl
    | some x =>
      have hproperties : y.view.properties = y.properties := rfl
      have hfrozen : x.view.frozen = x.frozen := rfl
      simp only [Option.map_some, Option.bind_eq_bind, Option.bind_some, hproperties, hfrozen]
      cases he : y.properties.entries with
      | nil => rfl
      | cons e rest =>
        simp only
        by_cases hx : x.frozen = true
        · rw [if_pos hx, if_pos hx]
          rfl
        · rw [if_neg hx, if_neg hx]
          simp only [Option.pure_def, Option.map_some, viewAnswer,
            hs.view_commit ho (x.rebinds_mixin y.properties)]
          rw [← he]
          rfl

-- Giving out a token is not seen.
theorem Sound.view_grant {o : ObjectId} {x : Object} {name : String} (hs : h.Sound stack)
    (ho : h.object? o = some x) : (h.grant stack o x name).view = h.view := by
  have hobjects : (h.grant stack o x name).objects.map (·.view) = h.objects.map (·.view) := by
    obtain ⟨hlt, rfl⟩ := List.getElem?_eq_some_iff.1 ho
    show (h.objects.set _ _).map _ = _
    rw [List.map_set]
    refine List.ext_getElem (by simp) fun i hi hi' => ?_
    by_cases e : o.index = i
    · subst e
      simp [Object.issue, Object.view]
    · simp [List.getElem_set_ne e]
  have hstub : ∀ y, some y ∈ h.stubs → (h.grant stack o x name).viewStub y = h.viewStub y := by
    intro y hy
    have hl := hs.honoured y.link (mem_links.2 (.inl ⟨y, hy, rfl⟩))
    simp only [viewStub, isValid_grant hl.issued]
  unfold view
  rw [hobjects]
  congr 1
  refine List.map_congr_left fun y hy => ?_
  rcases y with _ | y
  · rfl
  · exact congrArg some (hstub y hy)

theorem Sound.view_link {o : ObjectId} {name : String} {shape : Shape} {fallback : RoutineId}
    (hs : h.Sound stack) :
    Uncached.perform (.link o name shape fallback) h.view =
      ((Operation.link o name shape fallback).perform h stack).map viewAnswer := by
  simp only [Uncached.perform, Operation.perform, link_eq]
  rw [object?_view]
  cases ho : h.object? o with
  | none => rfl
  | some x =>
    simp only [Option.map_some, target_view]
    cases x.target name shape with
    | error e => rfl
    | ok t =>
      -- The new stub shows as valid because its token is.
      have hfresh : (h.grant stack o x name).isValid ⟨h.issued⟩ = true := hs.isValid_fresh
      have hview : (h.grant stack o x name).view = h.view := hs.view_grant ho
      have hstub : (h.grant stack o x name).viewStub ⟨⟨⟨h.issued⟩, o, name, shape, t⟩, fallback⟩ =
          ⟨o, name, t, fallback, true⟩ := by
        simp only [viewStub, hfresh]
      simp only [Except.map, viewAnswer]
      rw [← hview, ← hstub]
      simp only [view, List.length_map, List.map_append]
      rfl

-- A site that was made or bound anew looks the same through every handle there was.
theorem Sound.map_viewHandle {k : Heap} (hs : h.Sound stack)
    (hsites : ∀ s y, h.site? s = some y →
      ∃ z, k.site? s = some z ∧ z.name = y.name ∧ z.shape = y.shape) :
    h.handles.map k.viewHandle = h.handles.map h.viewHandle := by
  refine List.map_congr_left fun x hx => ?_
  obtain ⟨y, hy⟩ := hs.handles x hx
  obtain ⟨z, hz, hname, hshape⟩ := hsites _ y hy
  rw [viewHandle_eq hy, viewHandle_eq hz, hname, hshape]

theorem Sound.map_viewHandle_createSite (hs : h.Sound stack) (name : String) (shape : Shape) :
    h.handles.map (h.createSite name shape).2.viewHandle = h.handles.map h.viewHandle :=
  hs.map_viewHandle fun _ y hy => ⟨y, site?_createSite hy, rfl, rfl⟩

end Heap

-- An operation does the same in both machines.
theorem Operation.perform_view {a : Operation} {h : Heap} {stack : List Frame}
    (hs : h.Sound stack) :
    Uncached.perform a h.view = (a.perform h stack).map Heap.viewAnswer := by
  cases a with
  | create => exact congrArg some (h.view_create .empty)
  | copy o =>
    simp only [Uncached.perform, Operation.perform, Heap.object?_view, Option.map_map]
    exact congrArg (Option.map · _) (funext fun x => h.view_create x.copy)
  | define o name v => exact hs.view_define
  | undefine o name => exact hs.view_undefine
  | freeze o =>
    simp only [Uncached.perform, Operation.perform, Heap.object?_view]
    cases ho : h.object? o with
    | none => rfl
    | some x =>
      exact congrArg (fun s => some ((), s)) (hs.view_commit ho (x.rebinds_nil true)).symm
  | mixin o source => exact hs.view_mixin
  | properties o | isFrozen o =>
    simp only [Uncached.perform, Operation.perform, Heap.object?_view, Option.map_map]
    rfl
  | link o name shape fallback => exact hs.view_link
  | cloneStub s =>
    simp only [Uncached.perform, Operation.perform, Heap.stub?_view, Option.map_map]
    refine congrArg (Option.map · _) (funext fun x => ?_)
    simp only [Function.comp, Heap.viewAnswer, Heap.view, List.length_map, List.map_append]
    rfl
  | dropStub s =>
    simp only [Uncached.perform, Operation.perform, Heap.stub?_view, Option.isSome_map]
    simp only [Option.map_some, Heap.viewAnswer, Heap.view, List.map_set]
    rfl
  | createSite name shape =>
    have hhandles := hs.map_viewHandle_createSite name shape
    have hnew : (h.createSite name shape).2.viewHandle { site := (h.createSite name shape).1 } =
        ⟨name, shape, true⟩ :=
      Heap.viewHandle_eq (y := { name, shape }) (Heap.site?_createSite_self name shape)
    simp only [Uncached.perform, Operation.perform, Option.map_some, Heap.viewAnswer, Heap.view,
      List.length_map]
    rw [← hnew, ← hhandles, ← List.map_singleton, ← List.map_append]
    rfl
  | cloneSite s =>
    simp only [Uncached.perform, Operation.perform, Heap.getElem?_handles_view]
    rcases hx : h.handles[s.index]? with _ | ⟨site, live⟩
    · rfl
    · obtain ⟨name, shape, hview⟩ := hs.viewHandle_of_mem (List.mem_of_getElem? hx)
      simp only [Option.map_some, hview]
      cases live with
      | false => rfl
      | true =>
        simp only [Option.map_some, Heap.viewAnswer, Heap.view, List.length_map]
        rw [← hview true, ← List.map_singleton, ← List.map_append]
        rfl
  | dropSite s =>
    simp only [Uncached.perform, Operation.perform, Heap.getElem?_handles_view]
    rcases hx : h.handles[s.index]? with _ | ⟨site, live⟩
    · rfl
    · obtain ⟨name, shape, hview⟩ := hs.viewHandle_of_mem (List.mem_of_getElem? hx)
      simp only [Option.map_some, hview]
      cases live with
      | false => rfl
      | true =>
        simp only [Option.map_some, Heap.viewAnswer, Heap.view]
        rw [← hview false, ← List.map_set]
        rfl
  | createReference =>
    simp only [Uncached.perform, Operation.perform, Option.map_some, Heap.viewAnswer, Heap.view,
      List.length_append]
    rfl

end LateBind
