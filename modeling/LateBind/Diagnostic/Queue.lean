import LateBind.Diagnostic.Basic

/-!
The queue that reports go through on their way out. It drops an error that repeats a queued one,
stops after a configured number of errors with one final report that it did so, and hands the
rest out by position.
-/
namespace LateBind

/-- How a queue filters. -/
structure QueueConfig where
  /-- Errors taken before the queue stops; 0 takes all. -/
  errorLimit : Nat := 10
  /-- Drop an error whose code and primary span are those of a queued one. -/
  deduplicate : Bool := true
deriving DecidableEq, Repr

/-- No limit and no filtering. -/
def QueueConfig.unlimited : QueueConfig := ⟨0, false⟩

/-- What a pass hands back to say that it has reported an error. -/
structure Guarantee where
deriving DecidableEq, Repr

namespace Guarantee

/-- A guarantee from a count of errors kept elsewhere. -/
def ofErrorCount (n : Nat) : Option Guarantee := if 0 < n then some ⟨⟩ else none

def text (_ : Guarantee) : String := "error(s) emitted"

end Guarantee

structure Queue where
  config : QueueConfig
  /-- The reports taken, in order of arrival. -/
  reports : List Diagnostic := []
  /-- How many of them are errors. -/
  errors : Nat := 0
  /-- Code and primary span of the errors taken that have one. -/
  seen : List (Code × Span) := []
  /-- The report that the limit was passed. It comes after all others, since the queue takes
  nothing more once it is there. -/
  overflow : Option Diagnostic := none

namespace Queue

def ofConfig (config : QueueConfig) : Queue := { config }

/-- Everything queued, in order of arrival. -/
def contents (q : Queue) : List Diagnostic := q.reports ++ q.overflow.toList

def limitReached (q : Queue) : Bool :=
  0 < q.config.errorLimit && q.config.errorLimit ≤ q.errors

def isEmpty (q : Queue) : Bool := q.contents.isEmpty

def hasErrors (q : Queue) : Option Guarantee := Guarantee.ofErrorCount q.errors

/-- The report that ends a queue, placed at the first report it turned away. -/
def tooManyErrors (limit : Nat) (span : Span) : Diagnostic :=
  ((Diagnostic.ofCode .tooManyErrors).withMessage
      ("aborting due to " ++ toString limit ++ " previous errors")).withLabel
      span "error limit reached here"
    |>.withNote "raise `DiagnosticConfig::error_limit` to see more"

/-- What a report is recognised by: an error's code and primary span. Warnings and errors without
a primary span are never taken for repeats. -/
def key? (d : Diagnostic) : Option (Code × Span) :=
  if d.isError then d.primarySpan?.map (d.code, ·) else none

/-- Whether `d` repeats a queued error, where the configuration asks for that. -/
def repeats (q : Queue) (d : Diagnostic) : Bool :=
  q.config.deduplicate && (key? d).any q.seen.contains

/-- Offers a report; the answer says whether it was taken. -/
def add (q : Queue) (d : Diagnostic) : Bool × Queue :=
  if q.limitReached then
    let final := tooManyErrors q.config.errorLimit (d.primarySpan?.getD .dummy)
    (false, { q with overflow := q.overflow.or (some final) })
  else if q.repeats d then (false, q)
  else
    (true,
      { q with
        reports := q.reports ++ [d]
        errors := if d.isError then q.errors + 1 else q.errors
        seen := (key? d).toList ++ q.seen })

/-- Offers reports one after another. -/
def extend (q : Queue) (ds : List Diagnostic) : Queue := ds.foldl (fun q d => (q.add d).2) q

/-- Offers a report and answers with a guarantee, whatever became of it. -/
def emit (q : Queue) (d : Diagnostic) : Guarantee × Queue := (⟨⟩, (q.add d).2)

/-- Hands everything out by position and starts over. -/
def flush (q : Queue) : List Diagnostic × Queue :=
  (Diagnostic.sorted q.contents, ofConfig q.config)

end Queue

end LateBind
