/-!
The causes a compilation can report, each with its published code. The first digit of a code
gives the phase that reports it.
-/
namespace LateBind

/-- When a problem is found. -/
inductive Phase where
  /-- Building a unit; such a problem aborts the unit. -/
  | construction
  /-- Checking names and calls; all such problems of a unit are reported together. -/
  | resolution
  /-- The reporting itself. -/
  | internal
deriving DecidableEq, Repr

inductive Code where
  | duplicateFunction
  | varargsWithoutParameter
  | missingBody
  | misplacedClosure
  | notAClosure
  | unresolvedCall
  | undeclaredName
  | constantAssigned
  | nameRebound
  | tooManyErrors
deriving DecidableEq, Repr, Inhabited

namespace Code

def text : Code → String
  | duplicateFunction => "E1001"
  | varargsWithoutParameter => "E1002"
  | missingBody => "E1003"
  | misplacedClosure => "E1004"
  | notAClosure => "E1005"
  | unresolvedCall => "E2001"
  | undeclaredName => "E2002"
  | constantAssigned => "E2003"
  | nameRebound => "E2004"
  | tooManyErrors => "E9001"

def phase : Code → Phase
  | duplicateFunction | varargsWithoutParameter | missingBody | misplacedClosure | notAClosure =>
      .construction
  | unresolvedCall | undeclaredName | constantAssigned | nameRebound => .resolution
  | tooManyErrors => .internal

/-- Every code, by number. -/
def all : List Code :=
  [duplicateFunction, varargsWithoutParameter, missingBody, misplacedClosure, notAClosure,
    unresolvedCall, undeclaredName, constantAssigned, nameRebound, tooManyErrors]

theorem mem_all (c : Code) : c ∈ all := by cases c <;> decide

/-- The code a text stands for. -/
def ofText? (s : String) : Option Code := all.find? (·.text == s)

theorem ofText?_text (c : Code) : ofText? c.text = some c := by cases c <;> decide

end Code

end LateBind
