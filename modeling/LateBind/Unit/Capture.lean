import LateBind.Unit.Nesting

/-!
What closures capture. A name is free in a function where it is read, assigned or called without
being bound there; what is free in a closure is free in its parent too, unless the parent has it
in scope where it makes the closure. A closure captures the free names that its parent can supply:
those in scope at that place and those that the parent captures itself.
-/
namespace LateBind

/-- The name that a point uses. Functions used as values are not local bindings. -/
def Mark.usedName? : Mark → Option Name
  | .assign n _ | .read n _ | .call n .. => some n
  | .bind _ | .method .. | .closure .. => none

namespace Nesting

/-- The names free in `f`, each once, in order of first occurrence; the free names of a closure
count where it is made. Only closures nested less than `fuel` deep are looked into. -/
def freeNames (t : Nesting) : Nat → FunctionId → List Name
  | 0, _ => []
  | fuel + 1, f =>
      match t.function? f with
      | none => []
      | some x =>
          (x.points.flatMap fun p =>
            let used := match p.mark with
              | .closure c _ => t.freeNames fuel c
              | m => m.usedName?.toList
            used.filter fun n => !p.scope.binds n).eraseDups

/-- What closure `c` captures, looking at no more than `fuel` enclosing functions. -/
def capturesWithin (t : Nesting) : Nat → FunctionId → List Name
  | 0, _ => []
  | fuel + 1, c =>
      match t.siteOf? c with
      | none => []
      | some s =>
          let inherited := t.capturesWithin fuel s.owner
          (t.freeNames t.functions.length c).filter fun n =>
            s.scope.binds n || inherited.contains n

/-- What closure `c` captures, in order of first occurrence. In a well-nested unit neither chain
passes a function twice, so the number of functions bounds both. -/
def captures (t : Nesting) (c : FunctionId) : List Name :=
  t.capturesWithin t.functions.length c

end Nesting

end LateBind
