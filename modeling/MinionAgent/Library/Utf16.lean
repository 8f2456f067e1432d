import MinionAgent.Library.JsonGrammar

/-!
# MinionAgent.Library.Utf16

A string of code points, which may hold surrogates, as UTF-16 code units.
-/

namespace Utf16

open Rfc8259 (CodePoint)

/-- The one or two code units of a code point. -/
def unitsOf (c : CodePoint) : List UInt16 :=
  if c.val < 0x10000 then [c.val.toUInt16]
  else [(0xD800 + (c.val - 0x10000) / 0x400).toUInt16, (0xDC00 + (c.val - 0x10000) % 0x400).toUInt16]

/-- The code units of a string. -/
def toUnits (text : List CodePoint) : List UInt16 := text.flatMap unitsOf

end Utf16
