/-!
Characters that leave no mark of their own on the page: controls, format characters, separators other
than the space, and private use; and the blocks of marks that combine with the character before them.
-/
namespace KeyedStore.Text

/-- Controls, format characters, separators and private use, as ascending ranges of code points. -/
def blankRanges : List (Nat × Nat) := [
  (0x0, 0x1f), (0x7f, 0xa0), (0xad, 0xad), (0x600, 0x605), (0x61c, 0x61c), (0x6dd, 0x6dd),
  (0x70f, 0x70f), (0x890, 0x891), (0x8e2, 0x8e2), (0x1680, 0x1680), (0x180e, 0x180e),
  (0x2000, 0x200f), (0x2028, 0x202f), (0x205f, 0x2064), (0x2066, 0x206f), (0x3000, 0x3000),
  (0xe000, 0xf8ff), (0xfeff, 0xfeff), (0xfff9, 0xfffb), (0x110bd, 0x110bd), (0x110cd, 0x110cd),
  (0x13430, 0x13438), (0x1bca0, 0x1bca3), (0x1d173, 0x1d17a), (0xe0001, 0xe0001),
  (0xe0020, 0xe007f), (0xf0000, 0xffffd), (0x100000, 0x10fffd)]

/-- The blocks set aside for combining marks and variation selectors, as ascending ranges. -/
def combiningRanges : List (Nat × Nat) := [
  (0x300, 0x36f), (0x483, 0x489), (0x1ab0, 0x1ace), (0x1dc0, 0x1dff), (0x20d0, 0x20f0),
  (0x302a, 0x302d), (0x3099, 0x309a), (0xfe00, 0xfe0f), (0xfe20, 0xfe2f), (0xe0100, 0xe01ef)]

/-- The character lies in one of the ranges. -/
def within (ranges : List (Nat × Nat)) (c : Char) : Bool :=
  ranges.any fun (low, high) => low ≤ c.toNat && c.toNat ≤ high

/-- The character cannot be shown by itself. -/
def isUnmarked (c : Char) : Bool := within blankRanges c || within combiningRanges c

end KeyedStore.Text
