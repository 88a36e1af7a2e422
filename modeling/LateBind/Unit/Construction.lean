import LateBind.Diagnostic.Basic
import LateBind.Unit.Nesting

/-! What keeps a unit from being published. -/
namespace LateBind

inductive ConstructionError where
  /-- A closure is made of what is not one, at `span`. -/
  | notAClosure (body : FunctionId) (span : Span)
  | missingBody (name : Name) (span : Span)
  /-- A varargs function without a parameter to collect into. -/
  | varargsWithoutParameter (name : Name) (span : Span)
  /-- A closure that nothing makes. -/
  | neverMade (name : Name) (span : Span)
  /-- A closure that several places make. -/
  | madeRepeatedly (name : Name) (span : Span) (sites : List Span)
  /-- A closure nested in itself, or in one that is nested nowhere. -/
  | unrooted (name : Name) (span : Span)
  /-- A second function of one kind, name and number of parameters in one place. -/
  | duplicate (kind : FunctionKind) (name : Name) (arity : Nat) (span first : Span)
deriving DecidableEq, Repr

def ConstructionError.report (names : Interner) : ConstructionError → Diagnostic
  | notAClosure f s =>
      ((Diagnostic.ofCode .notAClosure).withMessage
        "closure expression does not refer to a closure function").withLabel
        s (f.text ++ " is not a closure")
  | missingBody n s =>
      ((Diagnostic.ofCode .missingBody).withMessage
        ("function `" ++ names.lookup n ++ "` has no body")).withLabel s "declared here"
  | varargsWithoutParameter n s =>
      ((Diagnostic.ofCode .varargsWithoutParameter).withMessage
        ("varargs function `" ++ names.lookup n ++ "` declares no parameter to collect into")).withLabel
        s "declared here"
      |>.withNote "the last declared parameter receives the trailing arguments"
  | neverMade n s =>
      ((Diagnostic.ofCode .misplacedClosure).withMessage
        ("closure `" ++ names.lookup n ++ "` is never instantiated")).withLabel s "declared here"
      |>.withNote "a closure must be nested inside exactly one function body"
  | madeRepeatedly n s sites =>
      let d := ((Diagnostic.ofCode .misplacedClosure).withMessage
        ("closure `" ++ names.lookup n ++ "` is instantiated " ++ toString sites.length ++
          " times")).withLabel s "declared here"
      sites.foldl (fun d site => d.withSecondary site "instantiated here") d
  | unrooted n s =>
      ((Diagnostic.ofCode .misplacedClosure).withMessage
        ("closure `" ++ names.lookup n ++
          "` is not nested inside a module or extension function")).withLabel s "declared here"
  | duplicate k n arity s first =>
      ((Diagnostic.ofCode .duplicateFunction).withMessage
        ("duplicate " ++ k.text ++ " function `" ++ names.lookup n ++ "` with " ++ toString arity ++
          " parameter(s)")).withLabel s "redeclared here"
      |>.withSecondary first "first declared here"

namespace Nesting

/-! ## The checks -/

/-- Closures made of functions that are none. -/
def strayErrors (t : Nesting) : List ConstructionError :=
  (t.sites.filter fun s => !t.isClosure s.body).map fun s => .notAClosure s.body s.span

/-- What is wrong with one function, apart from where it is nested and what else there is. -/
def functionErrors (t : Nesting) (id : FunctionId) (f : Function) : List ConstructionError :=
  (if f.isComplete then [] else [.missingBody f.name f.span]) ++
  (if f.varargs && f.userArity == 0 then [.varargsWithoutParameter f.name f.span] else []) ++
  if f.kind = .closure then
    match t.sitesOf id with
    | [] => [.neverMade f.name f.span]
    | [_] => []
    | sites => [.madeRepeatedly f.name f.span (sites.map (·.span))]
  else []

/-- Closures made in one place that are not nested in any other function in the end. -/
def rootErrors (t : Nesting) : List ConstructionError :=
  ((numbered t.functions).filter fun (id, _) => (t.enclosing? id).isSome && !t.isRooted id).map
    fun (_, f) => .unrooted f.name f.span

/-- What functions of one place are told apart by. -/
def signature (t : Nesting) (id : FunctionId) (f : Function) :
    Option FunctionId × Name × FunctionKind × Option Name × Nat :=
  (t.enclosing? id, f.name, f.kind, f.target, f.userArity)

/-- Functions with the signature of an earlier one. -/
def duplicateErrors (t : Nesting) : List ConstructionError :=
  (numbered t.functions).filterMap fun (id, f) =>
    let earlier := (numbered t.functions).take id.index
    (earlier.find? fun (i, g) => t.signature i g == t.signature id f).map fun (_, g) =>
      .duplicate f.kind f.name f.userArity f.span g.span

/-- Everything that keeps these functions from being published. -/
def errors (t : Nesting) : List ConstructionError :=
  t.strayErrors ++ (numbered t.functions).flatMap (fun (id, f) => t.functionErrors id f) ++
    t.rootErrors ++ t.duplicateErrors

end Nesting

end LateBind
