import ArmPseudocode.Text.Printable

/-!
# Quoted text in messages

Source text inside a message stands between double quotes. Quotes and backslashes take a backslash,
the usual controls their letter, and every other character that is not printable its code point.
-/

namespace ArmPseudocode.Text

/-- How one character is written between double quotes. -/
def quotedChar (c : Char) : List Char :=
  if c = '\x00' then ['\\', '0']
  else if c = '\t' then ['\\', 't']
  else if c = '\r' then ['\\', 'r']
  else if c = '\n' then ['\\', 'n']
  else if c = '\\' || c = '"' then ['\\', c]
  else if isPrintable c then [c]
  else ['\\', 'u', '\x7b'] ++ Nat.toDigits 16 c.toNat ++ ['\x7d']

def quoted (s : List Char) : List Char :=
  '"' :: s.flatMap quotedChar ++ ['"']

end ArmPseudocode.Text
