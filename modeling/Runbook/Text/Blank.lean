/-!
# Blank characters

* `isBlank`: the Unicode property White_Space
* `trimLeft`, `trimRight`, `trim`: a text without the blanks at its ends
-/

namespace Runbook.Text

/-- Whether a character has the property White_Space. -/
def isBlank (c : Char) : Bool :=
  let n := c.toNat
  (0x09 ≤ n && n ≤ 0x0D) || n = 0x20 || n = 0x85 || n = 0xA0 || n = 0x1680 ||
    (0x2000 ≤ n && n ≤ 0x200A) || n = 0x2028 || n = 0x2029 || n = 0x202F || n = 0x205F ||
    n = 0x3000

/-- The text without the blanks at its front. -/
def trimLeft (cs : List Char) : List Char := cs.dropWhile isBlank

/-- The text without the blanks at its end. -/
def trimRight (cs : List Char) : List Char := (cs.reverse.dropWhile isBlank).reverse

/-- The text without the blanks at either end. -/
def trim (cs : List Char) : List Char := trimRight (trimLeft cs)

end Runbook.Text
