/-!
# Text

What is written for people and read from them. Reports name places in the heap by offset, in
lowercase hexadecimal after `0x`, with as many digits as the number needs or with at least a given
count of them. The environment is read for decimal numerals: an optional plus sign and ASCII digits
with a value below a limit, and any blanks around them.

Leading zeros of a numeral do not matter, so its value and not its length decides what is too large.
Blanks are the characters with the Unicode property `White_Space`, as a table of ranges:
`Char.isWhitespace` knows only four of the twenty-five.
-/

set_option autoImplicit false

namespace BoundaryHeap.Text

/-! ## Hexadecimal offsets -/

/-- `0x` and the digits of `n`, without leading zeros. -/
def hex (n : Nat) : String :=
  "0x" ++ String.ofList (Nat.toDigits 16 n)

/-- `0x` and at least `width` digits of `n`: zeros fill the front, and no digit is cut. -/
def hexPadded (width n : Nat) : String :=
  "0x" ++ String.ofList ((Nat.toDigits 16 n).leftpad width '0')

/-- The handle of a block as reports print it: at least six digits, so that the handles of one heap
line up. -/
def handle (p : Nat) : String :=
  hexPadded 6 p

/-! ## Blanks -/

/-- The ranges of code points, ends included, in increasing order. -/
def blankRanges : List (Nat × Nat) :=
  [(0x9, 0xD), (0x20, 0x20), (0x85, 0x85), (0xA0, 0xA0), (0x1680, 0x1680), (0x2000, 0x200A),
   (0x2028, 0x2029), (0x202F, 0x202F), (0x205F, 0x205F), (0x3000, 0x3000)]

/-- Whether `c` has the property `White_Space`. -/
def isBlank (c : Char) : Bool :=
  blankRanges.any fun (lo, hi) => lo ≤ c.toNat && c.toNat ≤ hi

/-- The text without the blanks at either end. -/
def trimBlanks (cs : List Char) : List Char :=
  ((cs.dropWhile isBlank).reverse.dropWhile isBlank).reverse

/-! ## Decimal numerals -/

/-- The value of an ASCII digit. -/
def digitValue? (c : Char) : Option Nat :=
  if '0' ≤ c ∧ c ≤ '9' then some (c.toNat - '0'.toNat) else none

/-- The value of a string of digits that follow digits worth `value`. -/
def digitsValue? (value : Nat) : List Char → Option Nat
  | [] => some value
  | c :: rest => (digitValue? c).bind fun d => digitsValue? (10 * value + d) rest

/-- The value of a numeral, if it is one and its value is below `limit`. -/
def numeralBelow? (limit : Nat) (cs : List Char) : Option Nat :=
  let digits := match cs with
    | '+' :: rest => rest
    | _ => cs
  match digits with
  | [] => none
  | _ => (digitsValue? 0 digits).filter (· < limit)

end BoundaryHeap.Text
