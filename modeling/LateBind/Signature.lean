/-! How many arguments a signature takes, for declared functions and function values alike. -/
namespace LateBind

/-- Whether a signature takes `args` arguments: exactly as many as it has parameters, or, if the
last one collects the rest, at least all but one. -/
def signatureAccepts (arity : Nat) (varargs : Bool) (args : Nat) : Bool :=
  if varargs then arity ≤ args + 1 else args == arity

end LateBind
