/-!
# Quoted text

A text in quotes, where quotes, backslashes and control characters are written with a backslash.
-/

namespace ClauseLearning

namespace Text

/-- A character within quotes. -/
def quotedChar (c : Char) : String :=
  match c with
  | '"' => "\\\""
  | '\\' => "\\\\"
  | '\n' => "\\n"
  | '\r' => "\\r"
  | '\t' => "\\t"
  | '\x00' => "\\0"
  | _ =>
    if c.toNat < 0x20 ∨ 0x7F ≤ c.toNat ∧ c.toNat < 0xA0 then
      "\\u\x7b" ++ String.ofList (Nat.toDigits 16 c.toNat) ++ "\x7d"
    else
      c.toString

/-- A text in quotes. -/
def quoted (text : String) : String := "\"" ++ String.join (text.toList.map quotedChar) ++ "\""

end Text

end ClauseLearning
