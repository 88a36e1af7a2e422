import LateBind.Dynamic.Program
import Std.Data.HashSet

/-!
The state that programs change: objects, stubs and call sites. Validity of tokens is kept here,
since a token is shared by the object that issued it and every stub that carries it.
-/
namespace LateBind

/-! ## What there is -/

/-- What a call site is bound to: which object's property, for which shape, and what to do. It
holds good while its token is not revoked, and for calls on its owner only. -/
structure Link where
  token : TokenId
  owner : ObjectId
  name : String
  shape : Shape
  target : Target
deriving DecidableEq, Repr

/-- A link, and the routine to run where it does not hold good. -/
structure Stub where
  link : Link
  fallback : RoutineId
deriving DecidableEq, Repr

/-- A call site by its place in order of creation. -/
structure SiteId where
  index : Nat
deriving DecidableEq, Repr

/-- A call site that remembers the last link it made. -/
structure Site where
  name : String
  shape : Shape
  cached : Option Link := none
  /-- How many links the site has made. -/
  relinks : Nat := 0
deriving DecidableEq, Repr

/-- A handle on a site. Once dropped it is of no use and no longer keeps the site. -/
structure Handle where
  site : SiteId
  live : Bool := true
deriving DecidableEq, Repr

structure Heap where
  objects : List Object := []
  /-- The number of tokens issued; the next one takes it. -/
  issued : Nat := 0
  revoked : List TokenId := []
  /-- The stub behind each handle, until it is dropped. -/
  stubs : List (Option Stub) := []
  sites : List Site := []
  handles : List Handle := []
  /-- The site that each reference currently goes through for bound methods. -/
  references : List (Option SiteId) := []

/-- What a call in progress goes back to, or keeps hold of while it runs. -/
inductive Frame where
  /-- The rest of the calling program. -/
  | resume (next : Outcome → Program)
  /-- A stub being called. -/
  | stub (s : Stub)
  /-- A site being called: the link read from it, and the link made since, which it will remember
  once the call is over. -/
  | site (s : SiteId) (read linked : Option Link)

namespace Heap

/-! ## Parts of the heap -/

def object? (h : Heap) (o : ObjectId) : Option Object := h.objects[o.index]?

def setObject (h : Heap) (o : ObjectId) (x : Object) : Heap :=
  { h with objects := h.objects.set o.index x }

theorem object?_setObject (h : Heap) (o p : ObjectId) (x : Object) :
    (h.setObject o x).object? p = if p = o then (h.object? o).map fun _ => x else h.object? p := by
  unfold object? setObject
  rw [List.getElem?_set]
  by_cases e : p = o
  · subst e
    by_cases hlt : p.index < h.objects.length <;> simp [hlt]
  · have : o.index ≠ p.index := fun i => e (by cases o; cases p; simp_all)
    simp [e, this]

def stub? (h : Heap) (s : StubId) : Option Stub := (h.stubs[s.index]?).join

def site? (h : Heap) (s : SiteId) : Option Site := h.sites[s.index]?

def setSite (h : Heap) (s : SiteId) (x : Site) : Heap := { h with sites := h.sites.set s.index x }

/-! ## Tokens -/

def isValid (h : Heap) (t : TokenId) : Bool := t.index < h.issued && !h.revoked.contains t

def revoke (h : Heap) (ts : List TokenId) : Heap := { h with revoked := ts ++ h.revoked }

theorem isValid_revoke (h : Heap) (ts : List TokenId) (t : TokenId) :
    (h.revoke ts).isValid t = (h.isValid t && !ts.contains t) := by
  change (decide (t.index < h.issued) && !(ts ++ h.revoked).contains t) =
    (decide (t.index < h.issued) && !h.revoked.contains t && !ts.contains t)
  rw [List.contains_append, Bool.not_or, Bool.and_assoc, Bool.and_comm (!ts.contains t)]

/-- Whether a call with `args` may go straight to the target of `l`. -/
def guards (h : Heap) (l : Link) (args : List Value) : Bool :=
  h.isValid l.token && receiver? args == some l.owner

/-- The sites that are still there: those with a live handle, those that a reference goes
through, and those being called. -/
def liveSites (h : Heap) (stack : List Frame) : List SiteId :=
  (h.handles.filter (·.live)).map (·.site) ++ h.references.filterMap id ++
    stack.filterMap fun
      | .site s .. => some s
      | _ => none

/-- The links that are still there: in stubs that were not dropped, remembered by live sites, and
in use by calls in progress. -/
def links (h : Heap) (stack : List Frame) : List Link :=
  h.stubs.filterMap (·.map (·.link)) ++
    (h.liveSites stack).filterMap (fun s => (h.site? s).bind (·.cached)) ++
    stack.flatMap fun
      | .resume _ => []
      | .stub s => [s.link]
      | .site _ read linked => read.toList ++ linked.toList

/-- The tokens of the links that are still there. -/
def carried (h : Heap) (stack : List Frame) : Std.HashSet TokenId :=
  .ofList ((h.links stack).map (·.token))

/-- A token is carried exactly if some link that is still there has it. -/
theorem contains_carried_iff {h : Heap} {stack : List Frame} {t : TokenId} :
    (h.carried stack).contains t = true ↔ ∃ l ∈ h.links stack, l.token = t := by
  simp [carried]

/-! ## Changes to objects -/

/-- Replaces object `o` by the result of a change and revokes what the change revokes. -/
def commit (h : Heap) (o : ObjectId) (change : Object × List TokenId) : Heap :=
  (h.revoke change.2).setObject o change.1

def create (h : Heap) (x : Object) : ObjectId × Heap :=
  (⟨h.objects.length⟩, { h with objects := h.objects ++ [x] })

def define (h : Heap) (o : ObjectId) (name : String) (v : Value) :
    Option (Except CallError Unit × Heap) :=
  (h.object? o).map fun x =>
    if x.frozen then (.error (.frozen name), h) else (.ok (), h.commit o (x.define name v))

def undefine (h : Heap) (o : ObjectId) (name : String) : Option (Except CallError Unit × Heap) :=
  (h.object? o).map fun x =>
    if x.frozen then (.error (.frozen name), h) else (.ok (), h.commit o (x.undefine name))

/-- A frozen object refuses the first property it is offered, and accepts an empty source. -/
def mixin (h : Heap) (o source : ObjectId) : Option (Except CallError Unit × Heap) := do
  let incoming := (← h.object? source).properties
  let x ← h.object? o
  match incoming.entries with
  | [] => return (.ok (), h)
  | (first, _) :: _ =>
      if x.frozen then return (.error (.frozen first), h)
      else return (.ok (), h.commit o (x.mixin incoming))

/-! ## Binding call sites -/

/-- Binds a call site of `shape` to property `name` of `o`. -/
def link (h : Heap) (stack : List Frame) (o : ObjectId) (name : String) (shape : Shape) :
    Option (Except LinkError (Link × Heap)) :=
  (h.object? o).map fun x =>
    match x.target name shape with
    | .error e => .error e
    | .ok target =>
        let fresh : TokenId := ⟨h.issued⟩
        let carried := h.carried stack
        .ok (⟨fresh, o, name, shape, target⟩,
          { h with issued := h.issued + 1 }.setObject o (x.issue name carried.contains fresh))

def createSite (h : Heap) (name : String) (shape : Shape) : SiteId × Heap :=
  (⟨h.sites.length⟩, { h with sites := h.sites ++ [{ name, shape }] })

/-- The site through which reference `r` calls method `name` with `arity` arguments, the receiver
included. The site of the last call is kept as long as name and arity stay the same. -/
def referenceSite (h : Heap) (r : ReferenceId) (name : String) (arity : Nat) :
    Option (SiteId × Heap) :=
  (h.references[r.index]?).map fun current =>
    let usable := current.filter fun s => (h.site? s).any fun x =>
      x.name == name && x.shape.arity == arity
    match usable with
    | some s => (s, h)
    | none =>
        let (s, h) := h.createSite name { arity }
        (s, { h with references := h.references.set r.index (some s) })

end Heap

/-! ## Operations -/

/-- Carries out an operation while the calls on `stack` are in progress. There is no answer where
the operation names something that was never created, or a stub that was dropped. -/
def Operation.perform (a : Operation) (h : Heap) (stack : List Frame) : Option (a.Reply × Heap) :=
  match a with
  | .create => some (h.create .empty)
  | .copy o => (h.object? o).map fun x => h.create x.copy
  | .define o name v => h.define o name v
  | .undefine o name => h.undefine o name
  | .freeze o => (h.object? o).map fun x => ((), h.setObject o { x with frozen := true })
  | .mixin o source => h.mixin o source
  | .properties o => (h.object? o).map fun x => (x.properties, h)
  | .isFrozen o => (h.object? o).map fun x => (x.frozen, h)
  | .link o name shape fallback =>
      (h.link stack o name shape).map fun
        | .error e => (.error e, h)
        | .ok (l, h) =>
            (.ok ⟨h.stubs.length⟩, { h with stubs := h.stubs ++ [some ⟨l, fallback⟩] })
  | .cloneStub s => (h.stub? s).map fun x =>
      (⟨h.stubs.length⟩, { h with stubs := h.stubs ++ [some x] })
  | .dropStub s => some ((h.stub? s).isSome, { h with stubs := h.stubs.set s.index none })
  | .createSite name shape =>
      let (s, h) := h.createSite name shape
      some (⟨h.handles.length⟩, { h with handles := h.handles ++ [{ site := s }] })
  | .cloneSite s =>
      match h.handles[s.index]? with
      | some ⟨site, true⟩ =>
          some (⟨h.handles.length⟩, { h with handles := h.handles ++ [{ site }] })
      | _ => none
  | .dropSite s =>
      match h.handles[s.index]? with
      | some ⟨site, true⟩ => some (true, { h with handles := h.handles.set s.index ⟨site, false⟩ })
      | _ => some (false, h)
  | .createReference =>
      some (⟨h.references.length⟩, { h with references := h.references ++ [none] })

end LateBind
