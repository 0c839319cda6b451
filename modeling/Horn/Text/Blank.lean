/-!
Blank characters: those with the Unicode property White_Space.
-/

set_option autoImplicit false
set_option relaxedAutoImplicit false

namespace Horn

/-- The ranges of code points with the property White_Space. -/
def blankRanges : List (Nat × Nat) :=
  [(0x09, 0x0d), (0x20, 0x20), (0x85, 0x85), (0xa0, 0xa0), (0x1680, 0x1680), (0x2000, 0x200a),
    (0x2028, 0x2029), (0x202f, 0x202f), (0x205f, 0x205f), (0x3000, 0x3000)]

/-- Whether a character is white space. -/
def isBlank (c : Char) : Bool :=
  blankRanges.any fun range => range.1 ≤ c.toNat && c.toNat ≤ range.2

/-- A list of characters without the blanks in front. -/
def dropBlanks (text : List Char) : List Char :=
  text.dropWhile isBlank

/-- A text without blanks at both ends. -/
def trimmedText (text : String) : String :=
  String.ofList (dropBlanks (dropBlanks text.toList).reverse).reverse

end Horn
