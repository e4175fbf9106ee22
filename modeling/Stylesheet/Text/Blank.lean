/-!
This module contains the characters that count as blank: those with the Unicode property
`White_Space`. The information separators, the zero width space and the byte order mark lack it.
-/

namespace Stylesheet

/--
The 25 code points that have the property `White_Space`.
-/
def isBlank (c : Char) : Bool :=
  let n := c.toNat
  if n < 0x80 then
    n == 0x20 || (0x09 ≤ n && n ≤ 0x0D)
  else
    n == 0x85 || n == 0xA0 || n == 0x1680 || (0x2000 ≤ n && n ≤ 0x200A) || n == 0x2028 ||
      n == 0x2029 || n == 0x202F || n == 0x205F || n == 0x3000

end Stylesheet
