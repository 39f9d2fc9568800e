import SolidDB.Foundation.Words

/-!
# Eight-byte integers

`ssint8.c`: a signed 64-bit integer as four words of two bytes. The operations go over the
words with carries, and return whether they succeed together with the result.
-/

namespace SolidDB

/-- `ss_int8_t`, with the least significant word first. -/
structure SsInt8 where
  u2 : List UInt16
  length_u2 : u2.length = 4
  deriving DecidableEq

namespace SsInt8

def toNat (i8 : SsInt8) : ℕ := ofWords i8.u2

def toInt (i8 : SsInt8) : ℤ :=
  if i8.toNat < 2 ^ 63 then i8.toNat else i8.toNat - 2 ^ 64

def ofNat (n : ℕ) : SsInt8 := ⟨toWords 4 n, toWords_length 4 n⟩

def ofInt (n : ℤ) : SsInt8 := ofNat (n % 2 ^ 64).toNat

/-- `u4[SS_INT8_LS_U4_IDX]` -/
def lsU4 (i8 : SsInt8) : ℕ := (i8.u2.getD 0 0).toNat + 65536 * (i8.u2.getD 1 0).toNat

/-- `u4[SS_INT8_MS_U4_IDX]` -/
def msU4 (i8 : SsInt8) : ℕ := (i8.u2.getD 2 0).toNat + 65536 * (i8.u2.getD 3 0).toNat

def set2U4 (u4hi u4lo : ℕ) : SsInt8 := ⟨toWords 2 u4lo ++ toWords 2 u4hi, by simp⟩

def isneg (i8 : SsInt8) : Bool := i8.msU4 >>> 31 ≠ 0

def is0 (i8 : SsInt8) : Bool := i8.lsU4 ||| i8.msU4 = 0

def unsignedcmp (i8₁ i8₂ : SsInt8) : Ordering :=
  (compare i8₁.msU4 i8₂.msU4).then (compare i8₁.lsU4 i8₂.lsU4)

def unsignedshiftright1 (i8 : SsInt8) : SsInt8 :=
  set2U4 (i8.msU4 >>> 1) (i8.lsU4 >>> 1 ||| (i8.msU4 <<< 31) % 2 ^ 32)

def unsignedshiftleft1 (i8 : SsInt8) : SsInt8 :=
  set2U4 ((i8.msU4 <<< 1) % 2 ^ 32 ||| ((i8.lsU4 >>> 31) &&& 1)) ((i8.lsU4 <<< 1) % 2 ^ 32)

end SsInt8

def ssInt8SetInt4 (i4 : ℤ) : SsInt8 :=
  .set2U4 (if i4 < 0 then 2 ^ 32 - 1 else 0) (i4 % 2 ^ 32).toNat

/-! ## Addition -/

def ssInt8AddUint2WithShift (i8 : SsInt8) (u2 : UInt16) (shift : ℕ) : Bool × SsInt8 :=
  let result : SsInt8 :=
    ⟨i8.u2.take shift ++ addCarry (i8.u2.drop shift) u2, by
      rw [List.length_append, addCarry_length, ← List.length_append, List.take_append_drop,
        i8.length_u2]⟩
  (!(!i8.isneg && result.isneg), result)

def ssInt8AddUint2 (i8 : SsInt8) (u2 : UInt16) : Bool × SsInt8 :=
  ssInt8AddUint2WithShift i8 u2 0

def ssInt8AddUint4 (i8 : SsInt8) (u4 : ℕ) : Bool × SsInt8 :=
  let r := ssInt8AddUint2WithShift i8 (UInt16.ofNat u4) 0
  let s := ssInt8AddUint2WithShift r.2 (UInt16.ofNat (u4 >>> 16)) 1
  (r.1 && s.1, s.2)

def ssInt8Negate (i8 : SsInt8) : Bool × SsInt8 :=
  let r := ssInt8AddUint2 ⟨i8.u2.map (~~~ ·), by rw [List.length_map, i8.length_u2]⟩ 1
  (!(i8.isneg && r.2.isneg), r.2)

def addInt8Loop (i8 : SsInt8) (shift : ℕ) : List UInt16 → SsInt8
  | [] => i8
  | u2 :: u2s => addInt8Loop (ssInt8AddUint2WithShift i8 u2 shift).2 (shift + 1) u2s

def ssInt8AddInt8 (i8₁ i8₂ : SsInt8) : Bool × SsInt8 :=
  let result := addInt8Loop i8₁ 0 i8₂.u2
  (!(i8₁.isneg == i8₂.isneg && i8₁.isneg != result.isneg), result)

def ssInt8SubtractInt8 (i8₁ i8₂ : SsInt8) : Bool × SsInt8 :=
  let n := ssInt8Negate i8₂
  let r := ssInt8AddInt8 i8₁ n.2
  (n.1 && r.1, r.2)

/-! ## Multiplication -/

/-- The loop of `SsInt8MultiplyByUint2WithShift` over the words of the operand that reach into
the result, with the shift of the next product. -/
def multiplyLoop (u2 : UInt16) (result : SsInt8) (shift : ℕ) : List UInt16 → Bool × SsInt8
  | [] => (true, result)
  | w :: ws =>
    let u4 := w.toNat * u2.toNat
    let r := ssInt8AddUint2WithShift result (UInt16.ofNat u4) shift
    match ws with
    | [] => (r.1 && (u4 >>> 16 = 0), r.2)
    | ws =>
      let s := ssInt8AddUint2WithShift r.2 (UInt16.ofNat (u4 >>> 16)) (1 + shift)
      let t := multiplyLoop u2 s.2 (shift + 1) ws
      (r.1 && s.1 && t.1, t.2)

def ssInt8MultiplyByUint2WithShift (result i8 : SsInt8) (u2 : UInt16) (shift : ℕ) :
    Bool × SsInt8 :=
  multiplyLoop u2 result shift (i8.u2.take (4 - shift))

def multiplyInt8Loop (i8 result : SsInt8) (shift : ℕ) : List UInt16 → Bool × SsInt8
  | [] => (true, result)
  | u2 :: u2s =>
    let r := if u2 ≠ 0 then ssInt8MultiplyByUint2WithShift result i8 u2 shift else (true, result)
    let s := multiplyInt8Loop i8 r.2 (shift + 1) u2s
    (r.1 && s.1, s.2)

/-- The operand without its sign, as the signed operations take it. -/
def negateIf (neg : Bool) (i8 : SsInt8) : Bool × SsInt8 :=
  if neg then ssInt8Negate i8 else (true, i8)

def ssInt8MultiplyByInt8 (i8₁ i8₂ : SsInt8) : Bool × SsInt8 :=
  let n₁ := negateIf i8₁.isneg i8₁
  let n₂ := negateIf i8₂.isneg i8₂
  let r := multiplyInt8Loop n₁.2 (.set2U4 0 0) 0 n₂.2.u2
  let s := negateIf (i8₁.isneg != i8₂.isneg) r.2
  (n₁.1 && n₂.1 && r.1 && s.1, s.2)

/-- The loop of `SsInt8MultiplyByInt2`: the result, and what is left of the last product. -/
def multiplyInt2Loop (i8 : SsInt8) (multiplier : ℕ) : SsInt8 × ℕ :=
  (⟨(mulCarry multiplier i8.u2 0).1, by rw [mulCarry_length, i8.length_u2]⟩,
    (mulCarry multiplier i8.u2 0).2)

def ssInt8MultiplyByInt2 (i8 : SsInt8) (i2 : UInt16) : Bool × SsInt8 :=
  let neg₂ : Bool := i2.toNat >>> 15 ≠ 0
  let multiplier := (if neg₂ then -i2 else i2).toNat
  let r := multiplyInt2Loop (negateIf i8.isneg i8).2 multiplier
  (!(r.2 ≠ 0 || r.1.isneg), (negateIf (i8.isneg != neg₂) r.1).2)

/-! ## Division -/

structure DivideState where
  dividend : SsInt8
  divisor : SsInt8
  resbit : SsInt8
  result : SsInt8
  bitshift : ℕ

/-- The first loop of `SsInt8UnsignedDivide`. -/
def divideShiftLoop : ℕ → DivideState → Option DivideState
  | 0, _ => none
  | fuel + 1, d =>
    if !d.divisor.isneg && d.dividend.unsignedcmp d.divisor == .gt then
      divideShiftLoop fuel
        { d with divisor := d.divisor.unsignedshiftleft1, resbit := d.resbit.unsignedshiftleft1,
                 bitshift := d.bitshift + 1 }
    else some d

/-- The second loop of `SsInt8UnsignedDivide` with the one inside: one shift to the right or one
subtraction. -/
def divideLoop : ℕ → DivideState → Option DivideState
  | 0, _ => none
  | fuel + 1, d =>
    if d.dividend.unsignedcmp d.divisor = .lt then
      if d.bitshift = 0 then some d
      else
        divideLoop fuel
          { d with divisor := d.divisor.unsignedshiftright1,
                   resbit := d.resbit.unsignedshiftright1, bitshift := d.bitshift - 1 }
    else
      divideLoop fuel
        { d with result := (ssInt8AddInt8 d.result d.resbit).2,
                 dividend := (ssInt8SubtractInt8 d.dividend d.divisor).2 }

/-- `SsInt8UnsignedDivide`: the result and the remainder. A divisor has 64 bits, so that the
loops end within the fuel. -/
def ssInt8UnsignedDivide (dividend divisor : SsInt8) : Option (SsInt8 × SsInt8) :=
  if divisor.is0 then none
  else
    ((divideShiftLoop 65 ⟨dividend, divisor, .set2U4 0 1, .set2U4 0 0, 0⟩).bind
      (divideLoop 130)).map fun d => (d.result, d.dividend)

/-- `SsInt8DivideByInt8`; `none` for a divisor of zero. -/
def ssInt8DivideByInt8 (dividend divisor : SsInt8) : Option SsInt8 :=
  if divisor.is0 then none
  else
    (ssInt8UnsignedDivide (negateIf dividend.isneg dividend).2
      (negateIf divisor.isneg divisor).2).map fun r =>
        (negateIf (dividend.isneg != divisor.isneg) r.1).2

def ssInt8RemainderByInt8 (dividend divisor : SsInt8) : Option SsInt8 :=
  if divisor.is0 then none
  else
    (ssInt8UnsignedDivide (negateIf dividend.isneg dividend).2
      (negateIf divisor.isneg divisor).2).map fun r => (negateIf dividend.isneg r.2).2

/-! ## Comparison -/

def cmpLoop (cmp : ℤ) : List UInt16 → List UInt16 → ℤ
  | w₁ :: ws₁, w₂ :: ws₂ =>
    if cmp = 0 then cmpLoop ((w₁.toNat : ℤ) - w₂.toNat) ws₁ ws₂ else cmp
  | _, _ => cmp

def ssInt8Cmp (i8₁ i8₂ : SsInt8) : ℤ :=
  cmpLoop ((if i8₂.isneg then 1 else 0) - (if i8₁.isneg then 1 else 0)) i8₁.u2.reverse
    i8₂.u2.reverse

end SolidDB
