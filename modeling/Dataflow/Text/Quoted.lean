import Dataflow.Text.Hidden

/-!
# Quoted text

Text between double quotes in which every character can be seen: the quote, the backslash and the
usual controls have short escapes, and any other character that does not show by itself is given by
its code point.
-/

namespace Dataflow.Text

/-- The lower-case hexadecimal digits of `n`, without padding. -/
def hex (n : Nat) : String :=
  String.ofList (Nat.toDigits 16 n)

/-- A character as it stands between the quotes. A single quote needs no escape there. -/
def escape (c : Char) : String :=
  match c with
  | '"' => "\\\""
  | '\\' => "\\\\"
  | '\n' => "\\n"
  | '\r' => "\\r"
  | '\t' => "\\t"
  | '\x00' => "\\0"
  | c => if isHidden c then "\\u\x7b" ++ hex c.toNat ++ "\x7d" else c.toString

/-- The text between double quotes. -/
def quoted (s : String) : String :=
  "\"" ++ String.join (s.toList.map escape) ++ "\""

end Dataflow.Text
