import LateBind.Text.Decimal
import LateBind.Text.Quoted
import LateBind.Dynamic.Heap

/-! Descriptions of values, stubs and sites for people who debug programs. -/
namespace LateBind

/-- A constructor name with its fields. -/
def braced (name : String) (fields : List String) : String :=
  name ++ " \x7b " ++ ", ".intercalate fields ++ " \x7d"

def field (name text : String) : String := name ++ ": " ++ text

def ObjectId.text (o : ObjectId) : String := "ObjectId(" ++ toString o.index ++ ")"

def Shape.text (s : Shape) : String :=
  braced "CallShape" [field "arity" (toString s.arity), field "varargs" (toString s.varargs)]

namespace Heap

/-- An object shows the names of its properties only, so that cycles end. -/
def describeObject (h : Heap) (o : ObjectId) : String :=
  let x := (h.object? o).getD .empty
  braced "DynamicObject"
    [field "id" o.text, field "frozen" (toString x.frozen),
      field "properties" ("[" ++ ", ".intercalate (x.properties.keys.map quotedText) ++ "]")]

def describeValue (h : Heap) : Value → String
  | .null => "Null"
  | .bool b => "Bool(" ++ toString b ++ ")"
  | .int i => "Int(" ++ toString i.toInt ++ ")"
  | .float bits => "Float(" ++ floatText bits ++ ")"
  | .str s => "Str(" ++ quotedText s ++ ")"
  | .function f => "Function(" ++ f.text ++ ")"
  | .boundMethod o name =>
      "BoundMethod(" ++
        braced "BoundMethod" [field "receiver" (h.describeObject o), field "name" (quotedText name)] ++
        ")"
  | .object o => "Object(" ++ h.describeObject o ++ ")"

def describeTarget (h : Heap) : Target → String
  | .method f => "Method(" ++ f.text ++ ")"
  | .constant v => "Constant(" ++ h.describeValue v ++ ")"
  | .define name => "Define(" ++ quotedText name ++ ")"
  | .missing name => "Missing(" ++ quotedText name ++ ")"

def describeStub (h : Heap) (s : Stub) : String :=
  braced "DispatchStub"
    [field "owner" s.link.owner.text, field "valid" (toString (h.isValid s.link.token)),
      field "target" (h.describeTarget s.link.target), ".."]

end Heap

def Site.describe (s : Site) : String :=
  braced "MethodCallSite"
    [field "name" (quotedText s.name), field "shape" s.shape.text,
      field "relinks" (toString s.relinks), ".."]

end LateBind
