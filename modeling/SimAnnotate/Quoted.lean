import SimAnnotate.Quoted.Invisible

/-!
# Quoted strings in messages

Messages show strings in double quotes. Quotes, backslashes and characters that
do not show on their own are escaped there.
-/

namespace SimAnnotate

namespace Quoted

def escape (c : Char) : List Char :=
  match c with
  | '"' => ['\\', '"']
  | '\\' => ['\\', '\\']
  | '\n' => ['\\', 'n']
  | '\r' => ['\\', 'r']
  | '\t' => ['\\', 't']
  | '\x00' => ['\\', '0']
  | c =>
      if isInvisible c then
        '\\' :: 'u' :: '{' :: Nat.toDigits 16 c.toNat ++ ['}']
      else [c]

end Quoted

/-- A string as messages show it. -/
def quoted (s : String) : String :=
  String.ofList ('"' :: s.toList.flatMap Quoted.escape ++ ['"'])

/-- A string that may be absent, as messages show it. -/
def quotedOption : Option String → String
  | none => "None"
  | some s => "Some(" ++ quoted s ++ ")"

/-- A list of strings as messages show it. -/
def quotedList (ss : List String) : String :=
  "[" ++ ", ".intercalate (ss.map quoted) ++ "]"

end SimAnnotate
