/-!
# White space

Layout items and the prose after `SEE` are trimmed, and a line counts as empty, by Unicode's
White_Space property. The tokenizer's own blanks are the four ASCII ones, which `isBlank` contains.
-/

namespace ArmPseudocode.Text

/-- The 25 characters with Unicode's White_Space property. -/
def isBlank (c : Char) : Bool :=
  let n := c.toNat
  (0x09 ≤ n && n ≤ 0x0D) || n == 0x20 || n == 0x85 || n == 0xA0 || n == 0x1680 ||
    (0x2000 ≤ n && n ≤ 0x200A) || n == 0x2028 || n == 0x2029 || n == 0x202F || n == 0x205F ||
    n == 0x3000

def trim (s : List Char) : List Char :=
  ((s.dropWhile isBlank).reverse.dropWhile isBlank).reverse

def isEmptyLine (s : List Char) : Bool :=
  s.all isBlank

end ArmPseudocode.Text
