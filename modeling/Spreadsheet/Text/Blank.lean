/-!
# Blank characters

Every reader of this library skips the same characters between the things it reads: those with the
Unicode property `White_Space`.

* `isBlank` is that property.
* `trimBlank` and `trim` cut blanks off both ends of a text and nothing else.
-/

namespace Spreadsheet

/-- The 25 code points with the Unicode property `White_Space`. -/
def isBlank (c : Char) : Bool :=
  let n := c.toNat
  (0x09 ≤ n && n ≤ 0x0D) || n == 0x20 || n == 0x85 || n == 0xA0 || n == 0x1680 ||
    (0x2000 ≤ n && n ≤ 0x200A) || n == 0x2028 || n == 0x2029 || n == 0x202F || n == 0x205F ||
    n == 0x3000

/-- `trimBlank cs` is `cs` without the blanks at its two ends. -/
def trimBlank (cs : List Char) : List Char :=
  ((cs.dropWhile isBlank).reverse.dropWhile isBlank).reverse

/-- `trim s` is `s` without the blanks at its two ends. -/
def trim (s : String) : String :=
  String.ofList (trimBlank s.toList)

theorem toList_trim (s : String) : (trim s).toList = trimBlank s.toList := by
  simp [trim]

end Spreadsheet
