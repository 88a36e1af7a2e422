import LateBind.Diagnostic.Queue
import LateBind.Linking.Resolution
import LateBind.Unit.Builder

/-!
Compiling batches of sibling units. All units of a batch are published and registered before any
is checked, so siblings may call each other. A unit that fails does not stop the others, and one
that cannot be published is not registered.
-/
namespace LateBind

/-- A unit that passed every check. -/
structure CompiledUnit where
  module : Module
  locals : Locals
  resolutions : Resolutions

/-- A unit that failed, with its reports by position. -/
structure FailedUnit where
  name : Name
  diagnostics : List Diagnostic

structure Session where
  config : QueueConfig
  registry : Registry := {}

namespace Session

/-- A unit whose construction failed, its reports filtered as the configuration asks. -/
def fail (s : Session) (name : Name) (reports : List Diagnostic) : FailedUnit :=
  ⟨name, (((Queue.ofConfig s.config).extend reports).flush).1⟩

/-- The queue after both passes over a published unit. -/
def queueOf (s : Session) (names : Interner) (m : Module) : Queue :=
  ((Queue.ofConfig s.config).extend (m.nameReports names)).extend (m.callReports s.registry names)

/-- Checks names and calls of a published unit. -/
def check (s : Session) (names : Interner) (m : Module) : Except FailedUnit CompiledUnit :=
  let q := s.queueOf names m
  match q.hasErrors with
  | some _ => .error ⟨m.name, q.flush.1⟩
  | none => .ok ⟨m, m.locals, m.resolutions s.registry⟩

/-- The published units of a batch. -/
def published (units : List Builder) : List Module :=
  units.filterMap fun b => match b.publish with
    | .ok m => some m
    | .error _ => none

/-- The session once a batch is registered. -/
def register (s : Session) (units : List Builder) : Session :=
  { s with registry := (published units).foldl Registry.addModule s.registry }

/-- The result for one unit of a batch that is registered. -/
def compileUnit (s : Session) (names : Interner) (b : Builder) : Except FailedUnit CompiledUnit :=
  match b.finish names with
  | .error reports => .error (s.fail b.name reports)
  | .ok m => s.check names m

/-- Compiles a batch; results are in the order of the units. -/
def compileUnits (s : Session) (names : Interner) (units : List Builder) :
    List (Except FailedUnit CompiledUnit) × Session :=
  let s := s.register units
  (units.map (s.compileUnit names), s)

end Session

end LateBind
