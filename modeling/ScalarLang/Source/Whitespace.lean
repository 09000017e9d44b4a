/-
  White space at the ends of a text, by the property of that name in the Unicode standard.
-/

namespace ScalarLang

/-- The characters with the property White_Space. -/
def isWhitespace (c : Char) : Bool :=
  let n := c.toNat
  (0x09 ≤ n && n ≤ 0x0D) || n == 0x20 || n == 0x85 || n == 0xA0 || n == 0x1680 ||
    (0x2000 ≤ n && n ≤ 0x200A) || n == 0x2028 || n == 0x2029 || n == 0x202F || n == 0x205F ||
    n == 0x3000

def trimEndChars (cs : List Char) : List Char := (cs.reverse.dropWhile isWhitespace).reverse

/-- A text without the white space at its end. -/
def trimEnd (s : String) : String := String.ofList (trimEndChars s.toList)

/-- A text without the white space at its ends. -/
def trim (s : String) : String := String.ofList (trimEndChars (s.toList.dropWhile isWhitespace))

end ScalarLang
