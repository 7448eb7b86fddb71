import ScopeIR.Text.Invisible

/-! Quoted text: five short escapes, code points for what a reader would not see, all else as it
is. -/

namespace ScopeIR.Text

/-- Digits of `n` in lower case hexadecimal, without leading zeros. -/
def hex (n : Nat) : String := String.ofList (Nat.toDigits 16 n)

/-- How one character stands between double quotes. A single quote needs no escape. -/
def escapeChar (c : Char) : String :=
  if c = '\x00' then "\\0"
  else if c = '\t' then "\\t"
  else if c = '\n' then "\\n"
  else if c = '\r' then "\\r"
  else if c = '"' then "\\\""
  else if c = '\\' then "\\\\"
  else if isInvisible c then "\\u\x7b" ++ hex c.toNat ++ "\x7d"
  else c.toString

def quoted (chars : List Char) : String :=
  "\"" ++ String.join (chars.map escapeChar) ++ "\""

end ScopeIR.Text
