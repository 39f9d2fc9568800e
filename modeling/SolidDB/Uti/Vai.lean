import SolidDB.Foundation.LeadInt
import SolidDB.Ss.Int8Exact
import SolidDB.Uti.VtplCompare

/-!
# Integers in v-attributes

`uti0vai.c` and `uti0vai8.c` for an `int` of four and a `long` of eight bytes. The bytes of a
v-attribute are the length, the first byte and the low bytes of the biased value.
-/

namespace SolidDB.Vai

open LeadInt

def vaIntBias : ℤ := 0x80

def vaIntMaxBytes : ℤ := 8

def vaPosBias : ℤ := vaIntBias + vaIntMaxBytes - 0x100

def vaNegBias : ℤ := vaIntBias - vaIntMaxBytes

def ssByte (value : ℤ) : UInt8 := UInt8.ofNat (value % 256).toNat

/-! ## Writing -/

def vaSetint (value : ℤ) : List UInt8 :=
  if vaIntMaxBytes - vaIntBias ≤ value ∧ value ≤ 0xFF - vaIntBias - vaIntMaxBytes then
    [1, ssByte (value + vaIntBias)]
  else if value < 0 then
    let value := value + vaNegBias
    if value ≥ -0x100 then
      [2, ssByte (vaIntMaxBytes - 1), ssByte value]
    else
      let intLen := if value ≥ -0x10000 then 2 else if value ≥ -0x1000000 then 3 else 4
      ssByte (intLen + 1 : ℕ) :: ssByte (vaIntMaxBytes - intLen) :: lowBytes value intLen
  else
    let value := value + vaPosBias
    if value < 0x100 then
      [2, ssByte (0x100 - vaIntMaxBytes), ssByte value]
    else
      let intLen := if value < 0x10000 then 2 else if value < 0x1000000 then 3 else 4
      ssByte (intLen + 1 : ℕ) :: ssByte (0xFF - vaIntMaxBytes + intLen) :: lowBytes value intLen

/-- `va_setlong`: the value is cast to four bytes, and every such value is an `int`. -/
def vaSetlong (parvalue : ℤ) : List UInt8 := vaSetint (toInt32 parvalue)

def ssInt8ConvertToInt4 (i8 : SsInt8) : Bool × ℤ :=
  let result := toInt32 i8.lsU4
  if i8.isneg then
    (!(i8.msU4 ≠ 2 ^ 32 - 1 || !(result < 0 : Bool)), result)
  else
    (!(i8.msU4 ≠ 0 || result < 0), result)

/-- The loop of `va_setint8` over the bits from 32 on. -/
def setMsBytes (msUint4 : ℕ) : ℕ → List UInt8
  | 0 => [UInt8.ofNat msUint4]
  | longLenMinus5 + 1 => setMsBytes (msUint4 >>> 8) longLenMinus5 ++ [UInt8.ofNat msUint4]

/-- The value bytes that `va_setint8` sets; the four low ones by `SS_UINT4_STORE_MSB1ST`. -/
def setValueBytes (parvalue : SsInt8) (longLen : ℕ) : List UInt8 :=
  setMsBytes parvalue.msU4 (longLen - 5) ++ lowBytes parvalue.lsU4 4

def value1111110000000000 : SsInt8 := .set2U4 0x11111100 0

def value1111000000000000 : SsInt8 := .set2U4 0x11110000 0

def value1100000000000000 : SsInt8 := .set2U4 0x11000000 0

def value0000010000000000 : SsInt8 := .set2U4 0x00000100 0

def value0001000000000000 : SsInt8 := .set2U4 0x00010000 0

def value0100000000000000 : SsInt8 := .set2U4 0x01000000 0

def vaSetint8 (parvalue : SsInt8) : List UInt8 :=
  let (fits, i4) := ssInt8ConvertToInt4 parvalue
  if fits then
    vaSetlong i4
  else if parvalue.isneg then
    let parvalue := (ssInt8AddUint2 parvalue (UInt16.ofNat vaNegBias.toNat)).2
    let longLen :=
      if ssInt8Cmp parvalue value1111110000000000 ≥ 0 then 5
      else if ssInt8Cmp parvalue value1111000000000000 ≥ 0 then 6
      else if ssInt8Cmp parvalue value1100000000000000 ≥ 0 then 7
      else 8
    ssByte (longLen + 1 : ℕ) :: ssByte (vaIntMaxBytes - longLen) :: setValueBytes parvalue longLen
  else
    let parvalue := (ssInt8AddInt8 parvalue (ssInt8SetInt4 vaPosBias)).2
    let longLen :=
      if ssInt8Cmp parvalue value0000010000000000 < 0 then 5
      else if ssInt8Cmp parvalue value0001000000000000 < 0 then 6
      else if ssInt8Cmp parvalue value0100000000000000 < 0 then 7
      else 8
    ssByte (longLen + 1 : ℕ) :: ssByte (0xFF - vaIntMaxBytes + longLen) ::
      setValueBytes parvalue longLen

/-! ## Reading -/

def signExtendToLong (byte : ℤ) : ℤ := byte.bmod 256

/-- The loops that shift `n` bytes into a result of `w` bits. -/
def getBytes (w : ℕ) : ℕ → List UInt8 → ℕ → ℕ
  | 0, _, result => result
  | n + 1, ptr, result =>
    getBytes w n ptr.tail ((result <<< 8) % 2 ^ w ||| (ptr.headD 0).toNat)

/-- The value of 64 bits as a `long`. -/
def asLong (result : ℕ) : ℤ := if result < 2 ^ 63 then result else result - 2 ^ 64

/-- `va_getlong`; the assertion fails for the null attribute. -/
def vaGetlong (va : List UInt8) : Option ℤ :=
  if va.headD 0 = 0 then none
  else
    let firstByte : ℤ := (va.tail.headD 0).toNat
    if vaIntMaxBytes ≤ firstByte ∧ firstByte ≤ 0xFF - vaIntMaxBytes then
      some (signExtendToLong (firstByte - vaIntBias))
    else if firstByte < vaIntMaxBytes then
      let n := (vaIntMaxBytes - firstByte).toNat
      some (asLong (getBytes 64 n (va.drop 2) (2 ^ 64 - 1)) - vaNegBias)
    else
      let n := (firstByte - (0xFF - vaIntMaxBytes)).toNat
      some (asLong (getBytes 64 n (va.drop 2) 0) - vaPosBias)

/-- The two loops of `va_getint8` with their start value. -/
def getInt8Bytes (n : ℕ) (ptr : List UInt8) (start : ℕ) : SsInt8 :=
  .set2U4 (getBytes 32 (n - 4) ptr start) (getBytes 32 (min n 4) (ptr.drop (n - 4)) start)

/-- `va_getint8`; the assertion fails for the null attribute. -/
def vaGetint8 (va : List UInt8) : Option SsInt8 :=
  if va.headD 0 = 0 then none
  else
    let firstByte : ℤ := (va.tail.headD 0).toNat
    if vaIntMaxBytes ≤ firstByte ∧ firstByte ≤ 0xFF - vaIntMaxBytes then
      some (ssInt8SetInt4 (signExtendToLong (firstByte - vaIntBias)))
    else if firstByte < vaIntMaxBytes then
      let n := (vaIntMaxBytes - firstByte).toNat
      some (ssInt8SubtractInt8 (getInt8Bytes n (va.drop 2) (2 ^ 32 - 1))
        (ssInt8SetInt4 vaNegBias)).2
    else
      let n := (firstByte - (0xFF - vaIntMaxBytes)).toNat
      some (ssInt8SubtractInt8 (getInt8Bytes n (va.drop 2) 0) (ssInt8SetInt4 vaPosBias)).2

end SolidDB.Vai
