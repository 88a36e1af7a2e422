import LateBind.Text.CharClass
import LateBind.Text.CharClass.Extending
import LateBind.Text.CharClass.Unassigned

/-! Text between double quotes, with the characters that would end, hide or alter it escaped. -/
namespace LateBind

/-- Whether a character can be seen on its own: it has a shape or is the plain space, and does not
join the character before it. -/
def isDistinct (c : Char) : Bool :=
  if c.toNat < 0x7f then 0x20 ≤ c.toNat
  else
    !(CharClass.control.contains c || CharClass.format.contains c ||
      CharClass.separator.contains c || CharClass.privateUse.contains c ||
      CharClass.unassigned.contains c || CharClass.ignorable.contains c ||
      CharClass.extending.contains c)

/-- One character inside quotes. Characters without a letter of their own that cannot be seen are
written by number. -/
def quotedChar (c : Char) : List Char :=
  match c with
  | '"' => ['\\', '"']
  | '\\' => ['\\', '\\']
  | '\n' => ['\\', 'n']
  | '\r' => ['\\', 'r']
  | '\t' => ['\\', 't']
  | '\x00' => ['\\', '0']
  | c =>
      if isDistinct c then [c]
      else ['\\', 'u', '\x7b'] ++ Nat.toDigits 16 c.toNat ++ ['\x7d']

def quotedText (s : String) : String :=
  String.ofList ('"' :: s.toList.flatMap quotedChar ++ ['"'])

end LateBind
