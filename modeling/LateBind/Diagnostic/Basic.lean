import LateBind.Span
import LateBind.Diagnostic.Code

/-! A reported problem: what it is, where it is, and how it is written. -/
namespace LateBind

inductive Severity where
  | error
  | warning
deriving DecidableEq, Repr

def Severity.text : Severity → String
  | error => "error"
  | warning => "warning"

/-- A remark on a range of the source. The primary labels say where the problem itself is. -/
structure Label where
  span : Span
  text : String
  primary : Bool
deriving DecidableEq, Repr

structure Diagnostic where
  code : Code
  severity : Severity := .error
  message : String := ""
  labels : List Label := []
  notes : List String := []
deriving DecidableEq, Repr

namespace Diagnostic

/-- An error with nothing said about it yet. -/
def ofCode (code : Code) : Diagnostic := { code }

def withMessage (d : Diagnostic) (message : String) : Diagnostic := { d with message }

def withLabel (d : Diagnostic) (span : Span) (text : String) : Diagnostic :=
  { d with labels := d.labels ++ [⟨span, text, true⟩] }

def withSecondary (d : Diagnostic) (span : Span) (text : String) : Diagnostic :=
  { d with labels := d.labels ++ [⟨span, text, false⟩] }

def withNote (d : Diagnostic) (note : String) : Diagnostic := { d with notes := d.notes ++ [note] }

/-- The range of the first primary label. -/
def primarySpan? (d : Diagnostic) : Option Span := (d.labels.find? (·.primary)).map (·.span)

def isError (d : Diagnostic) : Bool := d.severity == .error

def text (d : Diagnostic) : String :=
  let place := match d.primarySpan? with
    | some s => " at " ++ s.text
    | none => ""
  let notes := d.notes.map fun n => "\n  = note: " ++ n
  d.severity.text ++ " [" ++ d.code.text ++ "]: " ++ d.message ++ place ++ String.join notes

/-- Where a report stands in a sorted list: at the start of its primary span. A report without
one takes the largest offset a span can start at. -/
def position (d : Diagnostic) : Nat :=
  match d.primarySpan? with
  | some s => s.start.toNat
  | none => 4294967295

/-- Reports by position; those at one position keep their order. -/
def sorted (ds : List Diagnostic) : List Diagnostic :=
  ds.mergeSort fun a b => a.position ≤ b.position

end Diagnostic

end LateBind
