import LateBind.Unit.Capture
import LateBind.Unit.Construction
import LateBind.Unit.Numbering

/-!
Building a unit. Functions are declared first and filled in after, in any order. A call gets its
number when it is made, which is before it stands in a body. Publishing checks the whole and gives
closures their captured names as synthetic parameters; a unit with any fault is not published.
-/
namespace LateBind

structure Builder where
  name : Name
  imports : List Name := []
  functions : List Function := []
  /-- The first number that no call site has. -/
  nextSite : Nat := 0

/-- One step of building. -/
inductive Builder.Step where
  /-- Makes the functions of another unit visible. -/
  | addImport (module : Name)
  | declare (name : Name) (visibility : Visibility) (kind : FunctionKind) (span : Span)
  /-- Takes a call site number without a call. -/
  | allocate
  /-- Makes a call. Its arguments are there by then; a receiver need not be. -/
  | call (name : Name) (args : List Expr) (span : Span)
  /-- The calls of a body are there by then, and keep their numbers. -/
  | edit (id : FunctionId) (edit : Edit)

/-- Steps taken together, for bodies that are written down as a whole: their calls are made just
before. -/
inductive Command where
  | addImport (module : Name)
  | declare (name : Name) (visibility : Visibility) (kind : FunctionKind) (span : Span)
  | allocate
  /-- Whatever numbers the calls of a body had, they get new ones. -/
  | edit (id : FunctionId) (edit : Edit)

namespace Builder

def ofName (name : Name) : Builder := { name }

/-- An import counts once. -/
def addImport (b : Builder) (m : Name) : Builder :=
  if b.imports.contains m then b else { b with imports := b.imports ++ [m] }

/-- Declares an empty function; its id is the number of functions before. -/
def declare (b : Builder) (name : Name) (visibility : Visibility) (kind : FunctionKind)
    (span : Span) : Builder :=
  { b with functions := b.functions ++ [{ name, visibility, kind, span }] }

def function? (b : Builder) (f : FunctionId) : Option Function := b.functions[f.index]?

/-- Takes the next number. -/
def takeSite (b : Builder) : CallSiteId × Builder :=
  (⟨b.nextSite⟩, { b with nextSite := b.nextSite + 1 })

/-- Makes a call, which takes the next number. -/
def namedCall (b : Builder) (name : Name) (args : List Expr) (span : Span) :
    NamedCall × Builder :=
  let (site, b) := b.takeSite
  (⟨name, args, site, span⟩, b)

/-- Edits a function, if it was declared. -/
def edit? (b : Builder) (id : FunctionId) (e : Edit) : Option Builder :=
  (b.function? id).map fun f => { b with functions := b.functions.set id.index (f.edit e) }

/-- Takes a step. An edit of a function that was never declared changes nothing. -/
def step (b : Builder) (s : Step) : Builder :=
  match s with
  | .addImport m => b.addImport m
  | .declare name visibility kind span => b.declare name visibility kind span
  | .allocate => b.takeSite.2
  | .call name args span => (b.namedCall name args span).2
  | .edit id e => (b.edit? id e).getD b

/-- Makes the calls of a body that is about to be attached. -/
def prepare (b : Builder) (e : Edit) : Edit × Builder :=
  match e with
  | .body block =>
      let (block, next) := block.number b.nextSite
      (.body block, { b with nextSite := next })
  | e => (e, b)

/-- Carries out a command. An edit of a function that was never declared fails, but the numbers
given to the calls of its body stay taken. -/
def perform (b : Builder) (c : Command) : Bool × Builder :=
  match c with
  | .addImport m => (true, b.addImport m)
  | .declare name visibility kind span => (true, b.declare name visibility kind span)
  | .allocate => (true, b.takeSite.2)
  | .edit id e =>
      let (e, b) := b.prepare e
      match b.edit? id e with
      | some b => (true, b)
      | none => (false, b)

/-- Carries out commands one after another. -/
def performAll (b : Builder) (cs : List Command) : Builder :=
  cs.foldl (fun b c => (b.perform c).2) b

def nesting (b : Builder) : Nesting := .ofFunctions b.functions

/-- The functions with captured names added to the parameters of closures. -/
def withCaptures (b : Builder) : List Function :=
  let t := b.nesting
  (numbered b.functions).map fun (id, f) =>
    { f with syntheticParams := f.syntheticParams ++ t.captures id }

/-- The unit, or what is wrong with it. -/
def publish (b : Builder) : Except (List ConstructionError) Module :=
  match b.nesting.errors with
  | [] => .ok ⟨b.name, b.imports, b.withCaptures, b.nextSite⟩
  | es => .error es

/-- The unit, or reports of what is wrong with it by position. -/
def finish (b : Builder) (names : Interner) : Except (List Diagnostic) Module :=
  match b.publish with
  | .ok m => .ok m
  | .error es => .error (Diagnostic.sorted (es.map (·.report names)))

end Builder

end LateBind
