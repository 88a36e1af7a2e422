import LateBind.Dynamic.Program

/-! A small language for the bodies of functions and fallbacks. -/
namespace LateBind

inductive Script where
  /-- The first argument, or null. -/
  | first
  /-- The second argument, or null. -/
  | second
  /-- The number of arguments. -/
  | argc
  /-- The types of the arguments. -/
  | types
  | const (v : Value)
  | fail (e : CallError)
  /-- Freeze the receiver. -/
  | freeze
  /-- A property of the receiver, or null. -/
  | get (name : String)
  | put (name : String) (v : Value)
  /-- Bind a property of the receiver to the second argument, or null. -/
  | store (name : String)
  | remove (name : String)
  /-- Call through a site with the same arguments. -/
  | site (s : SiteHandle)
  | dropSite (s : SiteHandle)
  /-- Call through a site with the second argument counted down, until it reaches zero. -/
  | countdown (s : SiteHandle)
  /-- Call `callee` with all arguments but the first. -/
  | reference (r : ReferenceId) (callee : Value)
  /-- One after another with the same arguments, for the value of the last. -/
  | seq (parts : List Script)

namespace Script

def result (v : Value) : Program := .done (.ok v)

/-- Goes on with the receiver of a call; a call without one fails. -/
def onReceiver (args : List Value) (next : ObjectId → Program) : Program :=
  match receiver? args with
  | some o => next o
  | none => .done (.error (.notAnObject "body" (receiverType args)))

/-- Changes the receiver and answers with it. -/
def change (args : List Value) (operation : ObjectId → Operation)
    (failed : (o : ObjectId) → (operation o).Reply → Option CallError) : Program :=
  onReceiver args fun o => .operate (operation o) fun r =>
    match failed o r with
    | some e => .done (.error e)
    | none => result (.object o)

def failure? : Except CallError Unit → Option CallError
  | .error e => some e
  | .ok _ => none

def argument (args : List Value) (i : Nat) : Value := args.getD i .null

mutual

def program (s : Script) (args : List Value) : Program :=
  match s with
  | first => result (argument args 0)
  | second => result (argument args 1)
  | argc => result (.int (Int64.ofNat args.length))
  | types => result (.str (",".intercalate (args.map (·.typeName))))
  | const v => result v
  | fail e => .done (.error e)
  | freeze => change args .freeze fun _ _ => none
  | get name => onReceiver args fun o =>
      .operate (.properties o) fun properties => result ((properties.get? name).getD .null)
  | put name v => change args (.define · name v) fun _ => failure?
  | store name => change args (.define · name (argument args 1)) fun _ => failure?
  | remove name => change args (.undefine · name) fun _ => failure?
  | site s => .invoke (.site s args) .done
  | dropSite s => .operate (.dropSite s) fun _ => result .null
  | countdown s =>
      match argument args 1 with
      | .int i => if 0 < i then .invoke (.site s (args.set 1 (.int (i - 1)))) .done
          else result (.str "done")
      | _ => result (.str "done")
  | reference r callee => .invoke (.reference r callee (args.drop 1)) .done
  | seq parts => programs parts .null args

/-- The parts in turn; `last` is the value so far. -/
def programs (parts : List Script) (last : Value) (args : List Value) : Program :=
  match parts with
  | [] => result last
  | s :: rest => (s.program args).andThen fun v => programs rest v args

end

end Script

/-- The code in which routine `i` runs the script at position `i`. A routine without a script
answers null. -/
def Routines.ofScripts (scripts : Array Script) : Routines := fun r args =>
  match scripts[r.index]? with
  | some s => s.program args
  | none => Script.result .null

end LateBind
