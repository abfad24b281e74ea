import CountedMachine.Text.Combining
import CountedMachine.Text.Unassigned

/-! # Characters shown as they are

Some characters have no shape of their own: those that leave no mark, those whose meaning is private
and those that attach to the character before them. Some code points have no character at all.
`printable` is everything else. -/

namespace CountedMachine.Text

/-- The controls, the spaces and separators other than `U+0020`, the format characters and the
letters that only fill a place. -/
def invisible : Ranges :=
  [(0x00, 0x1f), (0x7f, 0xa0), (0xad, 0xad), (0x600, 0x605), (0x61c, 0x61c), (0x6dd, 0x6dd),
   (0x70f, 0x70f), (0x890, 0x891), (0x8e2, 0x8e2), (0x115f, 0x1160), (0x1680, 0x1680),
   (0x180e, 0x180e), (0x2000, 0x200f), (0x2028, 0x202f), (0x205f, 0x2064), (0x2066, 0x206f),
   (0x3000, 0x3000), (0x3164, 0x3164), (0xfeff, 0xfeff), (0xffa0, 0xffa0), (0xfff9, 0xfffb),
   (0x110bd, 0x110bd), (0x110cd, 0x110cd), (0x13430, 0x1343f), (0x1bca0, 0x1bca3),
   (0x1d173, 0x1d17a), (0xe0001, 0xe0001), (0xe0020, 0xe007f)]

/-- The areas whose characters are left to private agreement. -/
def privateUse : Ranges :=
  [(0xe000, 0xf8ff), (0xf0000, 0xffffd), (0x100000, 0x10fffd)]

/-- The character is shown as itself inside quoted text. -/
def printable (c : Char) : Bool :=
  !invisible.covers c && !combining.covers c && !privateUse.covers c && !unassigned.covers c

end CountedMachine.Text
