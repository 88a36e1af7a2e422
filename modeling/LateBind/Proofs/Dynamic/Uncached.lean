import LateBind.Dynamic.Machine

/-!
# The machine without memory

The same programs, run by a machine whose call sites remember nothing. There are no tokens: an
object is its properties and whether it is frozen, a site is a name and a shape, and a stub is
marked when the property it is bound to changes. Every call of a method looks the property up as
it is at that moment.
-/

namespace LateBind.Uncached

/-! ## 1. State -/

structure Object where
  properties : Table Value
  frozen : Bool

/-- What a site of `shape` for `name` should do, as the property is now. -/
def Object.target (x : Object) (name : String) (shape : Shape) : Except LinkError Target :=
  (LateBind.Object.mk x.properties .empty x.frozen).target name shape

structure Stub where
  owner : ObjectId
  name : String
  target : Target
  fallback : RoutineId
  /-- The property has not been changed since. -/
  valid : Bool

/-- Marks a stub if it is bound to one of `names` on `o`. -/
def Stub.mark (o : ObjectId) (names : List String) (x : Stub) : Stub :=
  { x with valid := x.valid && !(x.owner == o && names.contains x.name) }

/-- A handle on a call site. -/
structure Handle where
  name : String
  shape : Shape
  live : Bool

structure State where
  objects : List Object
  stubs : List (Option Stub)
  handles : List Handle
  /-- How many references there are. -/
  references : Nat

namespace State

def object? (s : State) (o : ObjectId) : Option Object := s.objects[o.index]?

def stub? (s : State) (i : StubId) : Option Stub := (s.stubs[i.index]?).join

def create (s : State) (x : Object) : ObjectId × State :=
  (⟨s.objects.length⟩, { s with objects := s.objects ++ [x] })

/-- Replaces object `o` by `x`, which differs in the properties `names`. -/
def change (s : State) (o : ObjectId) (x : Object) (names : List String) : State :=
  { s with objects := s.objects.set o.index x, stubs := s.stubs.map (·.map (·.mark o names)) }

def define (s : State) (o : ObjectId) (name : String) (v : Value) :
    Option (Except CallError Unit × State) :=
  (s.object? o).map fun x =>
    if x.frozen then (.error (.frozen name), s)
    else (.ok (), s.change o { x with properties := x.properties.insert name v } [name])

def undefine (s : State) (o : ObjectId) (name : String) : Option (Except CallError Unit × State) :=
  (s.object? o).map fun x =>
    if x.frozen then (.error (.frozen name), s)
    else if x.properties.contains name then
      (.ok (), s.change o { x with properties := x.properties.erase name } [name])
    else (.ok (), s)

def mixin (s : State) (o source : ObjectId) : Option (Except CallError Unit × State) := do
  let incoming := (← s.object? source).properties
  let x ← s.object? o
  match incoming.entries with
  | [] => return (.ok (), s)
  | (first, _) :: _ =>
      if x.frozen then return (.error (.frozen first), s)
      else
        let properties := incoming.entries.foldl (fun t e => t.insert e.1 e.2) x.properties
        return (.ok (), s.change o { x with properties } incoming.keys)

end State

/-- Carries out an operation. -/
def perform (a : Operation) (s : State) : Option (a.Reply × State) :=
  match a with
  | .create => some (s.create ⟨.empty, false⟩)
  | .copy o => (s.object? o).map fun x => s.create ⟨x.properties, false⟩
  | .define o name v => s.define o name v
  | .undefine o name => s.undefine o name
  | .freeze o => (s.object? o).map fun x => ((), s.change o { x with frozen := true } [])
  | .mixin o source => s.mixin o source
  | .properties o => (s.object? o).map fun x => (x.properties, s)
  | .isFrozen o => (s.object? o).map fun x => (x.frozen, s)
  | .link o name shape fallback =>
      (s.object? o).map fun x =>
        match x.target name shape with
        | .error e => (.error e, s)
        | .ok target =>
            (.ok ⟨s.stubs.length⟩,
              { s with stubs := s.stubs ++ [some ⟨o, name, target, fallback, true⟩] })
  | .cloneStub i => (s.stub? i).map fun x =>
      (⟨s.stubs.length⟩, { s with stubs := s.stubs ++ [some x] })
  | .dropStub i => some ((s.stub? i).isSome, { s with stubs := s.stubs.set i.index none })
  | .createSite name shape =>
      some (⟨s.handles.length⟩, { s with handles := s.handles ++ [⟨name, shape, true⟩] })
  | .cloneSite i =>
      match s.handles[i.index]? with
      | some ⟨name, shape, true⟩ =>
          some (⟨s.handles.length⟩, { s with handles := s.handles ++ [⟨name, shape, true⟩] })
      | _ => none
  | .dropSite i =>
      match s.handles[i.index]? with
      | some ⟨name, shape, true⟩ =>
          some (true, { s with handles := s.handles.set i.index ⟨name, shape, false⟩ })
      | _ => some (false, s)
  | .createReference => some (⟨s.references⟩, { s with references := s.references + 1 })

/-! ## 2. Calls -/

/-- Does what a property is bound to. -/
def enterTarget (t : Target) (code : Routines) (s : State) (args : List Value) :
    Option (Program × State) :=
  match t with
  | .method f => some (f.body code args, s)
  | .constant v => some (.done (.ok v), s)
  | .define name =>
      match args with
      | [.object o, v] =>
          (s.define o name v).map fun (r, s) => (.done (r.map fun _ => .object o), s)
      | _ => some (.done (.error (.wrongArgCount name 2 args.length)), s)
  | .missing name => some (.done (.error (.propertyMissing name args)), s)

/-- Calls `name` on the first of `args`: what the receiver's property is bound to for `shape` at
this moment is done with `args`. -/
def dispatch (code : Routines) (s : State) (name : String) (shape : Shape) (args : List Value) :
    Option (Program × State) :=
  match receiver? args with
  | none => some (.done (.error (.notAnObject name (receiverType args))), s)
  | some o => do
      let x ← s.object? o
      match x.target name shape with
      | .error e => return (.done (.error (.link e)), s)
      | .ok t => enterTarget t code s args

/-- What a call in progress goes back to. -/
inductive Frame where
  /-- The rest of the calling program. -/
  | resume (next : Outcome → Program)
  /-- A stub or site being called. -/
  | call

structure Config where
  state : State
  program : Program
  stack : List Frame

/-- Goes on with a call that was entered through a stub or site. -/
def called (stack : List Frame) (entered : Option (Program × State)) : Option Config :=
  entered.map fun (p, s) => ⟨s, p, .call :: stack⟩

def enter (i : Invocation) (code : Routines) (s : State) (stack : List Frame) : Option Config :=
  match i with
  | .function f args => some ⟨s, f.body code args, stack⟩
  | .stub i args => do
      let x ← s.stub? i
      if x.valid && receiver? args == some x.owner then
        called stack (enterTarget x.target code s args)
      else return ⟨s, code x.fallback args, .call :: stack⟩
  | .site i args => do
      let x ← s.handles[i.index]?
      if x.live then called stack (dispatch code s x.name x.shape args)
      else return ⟨s, .done (.error (.siteDropped x.name)), stack⟩
  | .reference r callee args =>
      match callee with
      | .function f => some ⟨s, f.body code args, stack⟩
      | .boundMethod o name =>
          if r.index < s.references then
            called stack (dispatch code s name { arity := args.length + 1 } (.object o :: args))
          else none
      | v => some ⟨s, .done (.error (.notCallable v.typeName)), stack⟩

/-! ## 3. Runs -/

def step (code : Routines) (c : Config) : Option Config :=
  match c.program with
  | .done outcome =>
      match c.stack with
      | [] => none
      | .resume next :: stack => some ⟨c.state, next outcome, stack⟩
      | .call :: stack => some ⟨c.state, .done outcome, stack⟩
  | .operate a next => (perform a c.state).map fun (r, s) => ⟨s, next r, c.stack⟩
  | .invoke i next => enter i code c.state (.resume next :: c.stack)

/-- The configuration `n` steps on, if the run gets that far. -/
def advance (code : Routines) : Nat → Config → Option Config
  | 0, c => some c
  | n + 1, c => (step code c).bind (advance code n)

/-- The outcome that a configuration has come to with `depth` calls still in progress. -/
def Config.outcome? (c : Config) (depth : Nat) : Option (Outcome × State) :=
  match c.program with
  | .done outcome => if c.stack.length = depth then some (outcome, c.state) else none
  | _ => none

/-- Runs for at most `fuel` steps, until only `depth` calls are in progress and the last of the
others has come to an outcome. -/
def runTo (code : Routines) (depth : Nat) : Nat → Config → Option (Outcome × State)
  | 0, c => c.outcome? depth
  | fuel + 1, c => (c.outcome? depth).or ((step code c).bind (runTo code depth fuel))

/-- What a call of `name` answers with, made on its own and within `fuel` steps. -/
def answer (code : Routines) (fuel : Nat) (s : State) (name : String) (shape : Shape)
    (args : List Value) : Option (Outcome × State) :=
  (dispatch code s name shape args).bind fun (p, s) => runTo code 0 fuel ⟨s, p, []⟩

/-! ## 4. What is below a call does not matter -/

/-- The same configuration with more calls in progress below. -/
def Config.above (c : Config) (stack : List Frame) : Config := { c with stack := c.stack ++ stack }

theorem called_append (stack rest : List Frame) (entered : Option (Program × State)) :
    called (stack ++ rest) entered = (called stack entered).map (·.above rest) := by
  cases entered <;> rfl

theorem enter_append (i : Invocation) (code : Routines) (s : State) (stack rest : List Frame) :
    enter i code s (stack ++ rest) = (enter i code s stack).map (·.above rest) := by
  cases i with
  | function f args => rfl
  | stub i args =>
    simp only [enter]
    cases s.stub? i with
    | none => rfl
    | some x =>
      simp only [Option.bind_eq_bind, Option.bind_some]
      split
      · exact called_append stack rest _
      · rfl
  | site i args =>
    simp only [enter]
    cases s.handles[i.index]? with
    | none => rfl
    | some x =>
      simp only [Option.bind_eq_bind, Option.bind_some]
      split
      · exact called_append stack rest _
      · rfl
  | reference r callee args =>
    simp only [enter]
    split
    · rfl
    · split
      · exact called_append stack rest _
      · rfl
    · rfl

-- A step of a call that is not over is the same whatever is below.
theorem step_above {code : Routines} {c : Config} {rest : List Frame} (hc : c.outcome? 0 = none) :
    step code (c.above rest) = (step code c).map (·.above rest) := by
  obtain ⟨s, p, stack⟩ := c
  cases p with
  | done outcome =>
    cases stack with
    | nil => simp [Config.outcome?] at hc
    | cons f stack => cases f <;> rfl
  | operate a next =>
    simp only [step, Config.above, Option.map_map]
    rfl
  | invoke i next => exact enter_append i code s (.resume next :: stack) rest

theorem runTo_of_outcome {code : Routines} {depth fuel : Nat} {c : Config} {r : Outcome × State}
    (hc : c.outcome? depth = some r) : runTo code depth fuel c = some r := by
  cases fuel with
  | zero => exact hc
  | succ fuel => rw [runTo, hc, Option.some_or]

-- A call that has come to an outcome returns with it.
theorem returned {code : Routines} {fuel : Nat} {c : Config} {rest : List Frame}
    {r : Outcome × State} (hc : c.outcome? 0 = some r) :
    (step code (c.above (.call :: rest))).bind (runTo code rest.length fuel) = some r := by
  obtain ⟨s, p, stack⟩ := c
  cases p with
  | operate | invoke => cases hc
  | done outcome =>
    simp only [Config.outcome?] at hc
    split at hc
    next hnil =>
      obtain rfl : stack = [] := List.eq_nil_of_length_eq_zero hnil
      cases hc
      exact runTo_of_outcome (if_pos rfl)
    next => cases hc

/-- A call within a run comes to what it would come to on its own. -/
theorem runTo_above (code : Routines) (fuel : Nat) (c : Config) (rest : List Frame) :
    runTo code rest.length (fuel + 1) (c.above (.call :: rest)) = runTo code 0 fuel c := by
  have hgoing : ∀ c : Config, (c.above (.call :: rest)).outcome? rest.length = none := by
    intro c
    simp only [Config.outcome?, Config.above, List.length_append, List.length_cons]
    split
    · exact if_neg (by omega)
    · rfl
  have hstep : ∀ (fuel : Nat) (c : Config),
      runTo code rest.length (fuel + 1) (c.above (.call :: rest)) =
        (step code (c.above (.call :: rest))).bind (runTo code rest.length fuel) := by
    intro fuel c
    rw [runTo, hgoing, Option.none_or]
  -- The induction is on the steps of the call itself; the one step more returns from it.
  induction fuel generalizing c with
  | zero =>
    rw [hstep]
    cases hc : c.outcome? 0 with
    | some r => exact (returned hc).trans (runTo_of_outcome hc).symm
    | none =>
      rw [step_above hc]
      cases step code c with
      | none => exact hc.symm
      | some d => exact (hgoing d).trans hc.symm
  | succ fuel ih =>
    rw [hstep]
    cases hc : c.outcome? 0 with
    | some r => exact (returned hc).trans (runTo_of_outcome hc).symm
    | none =>
      rw [step_above hc, runTo, hc, Option.none_or]
      cases step code c with
      | none => rfl
      | some d => exact ih d

/-- A run that waits for the calls above `rest` to end comes to what it would come to without
`rest`. -/
theorem runTo_length (code : Routines) (fuel : Nat) (c : Config) (rest : List Frame) :
    runTo code rest.length fuel (c.above rest) = runTo code 0 fuel c := by
  have houtcome : ∀ c : Config, (c.above rest).outcome? rest.length = c.outcome? 0 := by
    intro c
    have hlength : c.stack.length + rest.length = rest.length ↔ c.stack.length = 0 := by omega
    simp only [Config.outcome?, Config.above, List.length_append, hlength]
  induction fuel generalizing c with
  | zero => exact houtcome c
  | succ fuel ih =>
    rw [runTo, runTo, houtcome]
    cases hc : c.outcome? 0 with
    | some r => rfl
    | none =>
      rw [step_above hc, Option.none_or, Option.none_or]
      cases step code c with
      | none => rfl
      | some d => exact ih d

end LateBind.Uncached
