import Mathlib.Data.UInt
import Mathlib.Data.List.Basic

/-!
# Character classes

The classes of the bytes in ISO 8859/1 that the table `ss_chtype` gives.
-/

namespace SolidDB

def chIsdigit (c : UInt8) : Bool := 48 ≤ c && c ≤ 57

def chIsupper (c : UInt8) : Bool :=
  65 ≤ c && c ≤ 90 || 192 ≤ c && c ≤ 220 && c ≠ 208 && c ≠ 215

def chIslower (c : UInt8) : Bool :=
  97 ≤ c && c ≤ 122 || 223 ≤ c && c ≠ 240 && c ≠ 247 && c ≠ 253 && c ≠ 254

def chIsalnum (c : UInt8) : Bool := chIsupper c || chIslower c || chIsdigit c

def chIsspace (c : UInt8) : Bool := 9 ≤ c && c ≤ 13 || c = 32

def chIspunct (c : UInt8) : Bool :=
  33 ≤ c && c ≤ 47 || 58 ≤ c && c ≤ 64 || 91 ≤ c && c ≤ 96 || 123 ≤ c && c ≤ 126 ||
    161 ≤ c && c ≤ 191 || c = 208 || c = 215 || c = 221 || c = 222 || c = 240 || c = 247 ||
    c = 253 || c = 254

def chToupper (c : UInt8) : UInt8 :=
  if chIslower c && c ≠ 223 && c ≠ 255 then c - 32 else c

def bytesOf (s : String) : List UInt8 := s.toList.map Char.toUInt8

def cString (buf : List UInt8) : List UInt8 := buf.takeWhile fun c => c ≠ 0

/-- Whether `SsStrnicmp` finds the first bytes of the text the same as a string. -/
def ssStrnicmpEq (s text : List UInt8) : Bool :=
  (text.take s.length).map chToupper = s.map chToupper

end SolidDB
