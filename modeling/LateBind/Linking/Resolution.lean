import LateBind.Lexical.Locals
import LateBind.Linking.Registry

/-! How each written call is to be made. -/
namespace LateBind

/-- The function that a direct call goes to. -/
structure FunctionTarget where
  module : Name
  function : FunctionId
  kind : FunctionKind
  varargs : Bool
deriving DecidableEq, Repr

def Entry.toTarget (e : Entry) : FunctionTarget := ⟨e.module, e.function, e.kind, e.varargs⟩

inductive Resolution where
  | direct (target : FunctionTarget)
  /-- Whatever the binding of that name holds is called. -/
  | reference (name : Name)
  /-- A method found at run time. -/
  | dynamic
deriving DecidableEq, Repr

/-- A call that nothing answers to. -/
structure UnresolvedCall where
  name : Name
  args : Nat
  span : Span
deriving DecidableEq, Repr

def UnresolvedCall.report (names : Interner) (u : UnresolvedCall) : Diagnostic :=
  let name := names.lookup u.name
  ((Diagnostic.ofCode .unresolvedCall).withMessage ("cannot resolve call to `" ++ name ++ "`")).withLabel
      u.span "not found in this scope"
    |>.withNote ("no function `" ++ name ++ "` taking " ++ toString u.args ++
      " argument(s) is visible here, and no local binding is named `" ++ name ++ "`")

/-- What calls are resolved against. -/
structure LinkContext where
  module : Name
  imports : List Name
  registry : Registry
  locals : Locals

namespace LinkContext

/-- A call marked as one of a binding must have the binding. Any other goes to a function if one
fits, else to the binding of that name. -/
def resolveCall? (c : LinkContext) (name : Name) (args : Nat) (site : CallSiteId)
    (onReference : Bool) : Option Resolution :=
  let bound := (c.locals.bindingAt? site).map fun _ => .reference name
  if onReference then bound
  else ((c.registry.function? c.module c.imports name args).map fun e => .direct e.toTarget).or bound

/-- A method call goes to an extension of the receiver's type if one fits; it can always be left
to run time. -/
def resolveMethod (c : LinkContext) (name : Name) (args : Nat) (receiverType : Option Name) :
    Resolution :=
  match receiverType.bind fun type => c.registry.extension? c.module type name args with
  | some e => .direct e.toTarget
  | none => .dynamic

/-- The finding about a call, at the mark of the call. -/
def finding? (c : LinkContext) : Mark → Option (CallSiteId × Resolution)
  | .call n args site r _ => (c.resolveCall? n args site r).map (site, ·)
  | .method n args site t _ => some (site, c.resolveMethod n args t)
  | _ => none

def unresolved? (c : LinkContext) : Mark → Option UnresolvedCall
  | .call n args site r s =>
      match c.resolveCall? n args site r with
      | some _ => none
      | none => some ⟨n, args, s⟩
  | _ => none

end LinkContext

/-- The resolutions of a module. Calls that failed to resolve have none. -/
abbrev Resolutions := SiteTable Resolution

namespace Module

def marks (m : Module) : List Mark := m.points.map (·.mark)

def linkContext (m : Module) (r : Registry) : LinkContext := ⟨m.name, m.imports, r, m.locals⟩

def resolutions (m : Module) (r : Registry) : Resolutions :=
  ⟨m.marks.filterMap (m.linkContext r).finding?⟩

def unresolvedCalls (m : Module) (r : Registry) : List UnresolvedCall :=
  m.marks.filterMap (m.linkContext r).unresolved?

/-- The reports of local checks, then those of resolution. -/
def nameReports (m : Module) (names : Interner) : List Diagnostic :=
  m.nameErrors.map (·.report names)

def callReports (m : Module) (r : Registry) (names : Interner) : List Diagnostic :=
  (m.unresolvedCalls r).map (·.report names)

end Module

end LateBind
