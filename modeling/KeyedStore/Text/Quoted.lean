import KeyedStore.Text.Unmarked
/-!
Quoted texts. A quoted text stands between double quotes on one line; a character that would end it,
start an escape, or not show is written as an escape.
-/
namespace KeyedStore.Text

/-- Digits in base sixteen, lower case and without leading zeros. -/
def hexadecimal (n : Nat) : String := String.ofList (Nat.toDigits 16 n)

/-- One character of a quoted text. -/
def escape (c : Char) : String :=
  match c with
  | '\"' => "\\\""
  | '\\' => "\\\\"
  | '\t' => "\\t"
  | '\n' => "\\n"
  | '\r' => "\\r"
  | '\x00' => "\\0"
  | _ => if isUnmarked c then "\\u\x7b" ++ hexadecimal c.toNat ++ "\x7d" else c.toString

def quoted (text : String) : String :=
  "\"" ++ String.join (text.toList.map escape) ++ "\""

end KeyedStore.Text
