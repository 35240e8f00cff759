import OperatorLALR.Text.Printable

/-!
# Quoted texts

A text between double quotes. The quote, the backslash and the common controls are written with a
backslash, and every other character without a shape of its own by its code point in braces.
-/

namespace OperatorLALR.Text

/-- The double quote. -/
def quoteMark : Char := '\x22'

/-- The backslash. -/
def backslash : Char := '\x5c'

/-- A character as it is written inside double quotes. -/
def escape (c : Char) : List Char :=
  if c = '\x00' then [backslash, '0']
  else if c = '\t' then [backslash, 't']
  else if c = '\n' then [backslash, 'n']
  else if c = '\r' then [backslash, 'r']
  else if c = quoteMark ∨ c = backslash then [backslash, c]
  else if isPrintable c then [c]
  else [backslash, 'u', '\x7b'] ++ Nat.toDigits 16 c.toNat ++ ['\x7d']

/-- The text between double quotes. -/
def quoted (text : String) : String :=
  String.ofList (quoteMark :: text.toList.flatMap escape ++ [quoteMark])

end OperatorLALR.Text
