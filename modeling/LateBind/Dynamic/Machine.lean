import LateBind.Dynamic.Heap

/-!
The machine that runs programs. A configuration is a heap, the program being run, and the stack
of calls in progress. One step performs one operation, enters one call, or returns from one.
-/
namespace LateBind

structure Config where
  heap : Heap
  program : Program
  stack : List Frame := []

/-! ## Entering and leaving calls -/

/-- Does what a link says. -/
def Target.enter (t : Target) (code : Routines) (h : Heap) (args : List Value) :
    Option (Program × Heap) :=
  match t with
  | .method f => some (f.body code args, h)
  | .constant v => some (.done (.ok v), h)
  | .define name =>
      match args with
      | [.object o, v] =>
          (h.define o name v).map fun (r, h) => (.done (r.map fun _ => .object o), h)
      | _ => some (.done (.error (.wrongArgCount name 2 args.length)), h)
  | .missing name => some (.done (.error (.propertyMissing name args)), h)

/-- Binds site `s` anew to the receiver of a call and does what the new link says. The site
remembers the link when the call is over. -/
def relink (code : Routines) (h : Heap) (s : SiteId) (x : Site) (args : List Value)
    (stack : List Frame) : Option Config :=
  match receiver? args with
  | none =>
      some ⟨h, .done (.error (.notAnObject x.name (receiverType args))), .site s x.cached none :: stack⟩
  | some o => do
      match ← h.link (.site s x.cached none :: stack) o x.name x.shape with
      | .error e => return ⟨h, .done (.error (.link e)), .site s x.cached none :: stack⟩
      | .ok (l, h) =>
          let h := h.setSite s { x with relinks := x.relinks + 1 }
          let (program, h) ← l.target.enter code h args
          return ⟨h, program, .site s x.cached (some l) :: stack⟩

/-- Calls through site `s`: by the link it remembers if that holds good, else by a new one. -/
def dispatch (code : Routines) (h : Heap) (s : SiteId) (args : List Value) (stack : List Frame) :
    Option Config := do
  let x ← h.site? s
  match x.cached.filter fun l => h.guards l args with
  | some l =>
      let (program, h) ← l.target.enter code h args
      return ⟨h, program, .site s (some l) none :: stack⟩
  | none => relink code h s x args stack

/-- Enters a call. A call through a dropped handle fails. -/
def Invocation.enter (i : Invocation) (code : Routines) (h : Heap) (stack : List Frame) :
    Option Config :=
  match i with
  | .function f args => some ⟨h, f.body code args, stack⟩
  | .stub s args => do
      let x ← h.stub? s
      if h.guards x.link args then
        let (program, h) ← x.link.target.enter code h args
        return ⟨h, program, .stub x :: stack⟩
      else return ⟨h, code x.fallback args, .stub x :: stack⟩
  | .site s args => do
      let handle ← h.handles[s.index]?
      if handle.live then dispatch code h handle.site args stack
      else
        let x ← h.site? handle.site
        return ⟨h, .done (.error (.siteDropped x.name)), stack⟩
  | .reference r callee args =>
      match callee with
      | .function f => some ⟨h, f.body code args, stack⟩
      | .boundMethod o name => do
          let (s, h) ← h.referenceSite r name (args.length + 1)
          dispatch code h s (.object o :: args) stack
      | v => some ⟨h, .done (.error (.notCallable v.typeName)), stack⟩

/-- Returns to the topmost call in progress. A site that was linked anew remembers its link now,
whatever the outcome. -/
def Frame.finish (f : Frame) (outcome : Outcome) (h : Heap) (stack : List Frame) : Config :=
  match f with
  | .resume next => ⟨h, next outcome, stack⟩
  | .stub _ => ⟨h, .done outcome, stack⟩
  | .site s _ linked =>
      let h := match linked, h.site? s with
        | some l, some x => h.setSite s { x with cached := some l }
        | _, _ => h
      ⟨h, .done outcome, stack⟩

/-! ## Runs -/

/-- One step. There is none when the program has ended and no call is in progress, and none for a
program that uses what it was never given. -/
def step (code : Routines) (c : Config) : Option Config :=
  match c.program with
  | .done outcome =>
      match c.stack with
      | [] => none
      | f :: stack => some (f.finish outcome c.heap stack)
  | .operate a next => (a.perform c.heap c.stack).map fun (r, h) => ⟨h, next r, c.stack⟩
  | .invoke i next => i.enter code c.heap (.resume next :: c.stack)

/-- Runs for at most `fuel` steps and answers if that ends the program. -/
def run (code : Routines) : Nat → Config → Option (Outcome × Heap)
  | _, ⟨h, .done outcome, []⟩ => some (outcome, h)
  | 0, _ => none
  | fuel + 1, c => (step code c).bind (run code fuel)

/-- Calls from outside any program. -/
def Heap.invoke (h : Heap) (code : Routines) (fuel : Nat) (i : Invocation) : Option (Outcome × Heap) :=
  run code fuel ⟨h, .invoke i .done, []⟩

/-- The configurations that a run from the empty heap comes through. -/
inductive Reachable (code : Routines) : Config → Prop where
  | start (p : Program) : Reachable code ⟨{}, p, []⟩
  | step {c d : Config} : Reachable code c → step code c = some d → Reachable code d

end LateBind
