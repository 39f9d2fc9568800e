import SolidDB.Dt.Dfl
import SolidDB.Foundation.DigitText

/-!
# Decimals as text

`dfl_dfltoasciiz_maxlen` writes the digits from the last one to the first, and
`dfl_asciiztodfl` reads them from the first one on. A string is the list of its characters
before the terminating zero.
-/

namespace SolidDB

def isDecimalpoint (c : Char) : Bool := c = '.' || c = ','

/-! ## Printing -/

inductive PrintError where
  | assertion
  | overflow
  deriving DecidableEq

/-- The variables of `dfl_dfltoasciiz_maxlen`. The text is that from `s` on. -/
structure PrintState where
  tmp : Dfl
  e : ℤ
  zeroscoming : ℕ
  stgprinted : Bool
  text : List Char

namespace PrintState

def put (maxlen : ℕ) (c : Char) (st : PrintState) : Except PrintError PrintState :=
  if maxlen ≤ st.text.length + 2 then .error .overflow
  else .ok { st with text := c :: st.text }

def putZeros (maxlen : ℕ) : ℕ → PrintState → Except PrintError PrintState
  | 0, st => .ok { st with zeroscoming := 0 }
  | n + 1, st => (st.put maxlen '0').bind (putZeros maxlen n)

def putPoint (maxlen : ℕ) (st : PrintState) : Except PrintError PrintState :=
  if st.e = 0 then st.put maxlen '.' else .ok st

def takeDigit (st : PrintState) : Option (Dfl × ℕ) :=
  if st.tmp.exp = 0 then dfMdiv10 { st.tmp with exp := 1 }
  else (dfMdiv10 st.tmp).map fun r => ({ r.1 with exp := r.1.exp + 1 }, r.2)

/-- A zero before the decimal point waits for a digit that is not zero, and one behind it is
left out as long as nothing is printed. -/
def putDigit (maxlen digit : ℕ) (st : PrintState) : Except PrintError PrintState :=
  if digit = 0 ∧ st.e < 0 then .ok { st with zeroscoming := st.zeroscoming + 1 }
  else if digit ≠ 0 ∨ st.stgprinted then
    ((st.putZeros maxlen st.zeroscoming).bind fun st => st.put maxlen (Nat.digitChar digit)).map
      fun st => { st with stgprinted := true }
  else .ok st

def round (maxlen : ℕ) (st : PrintState) : Except PrintError PrintState :=
  (st.putPoint maxlen).bind fun st =>
    match st.takeDigit with
    | none => .error .assertion
    | some (tmp, digit) => { st with tmp := tmp, e := st.e - 1 }.putDigit maxlen digit

def loop (maxlen : ℕ) : ℕ → ℤ → PrintState → Except PrintError PrintState
  | 0, _, _ => .error .assertion
  | fuel + 1, maxroundsleft, st =>
    if 0 < maxroundsleft ∨ 0 ≤ st.e then
      (st.round maxlen).bind (loop maxlen fuel (maxroundsleft - 1))
    else .ok st

def finish (maxlen : ℕ) (st : PrintState) : Except PrintError PrintState :=
  if isDecimalpoint (st.text.headD '0') then st.put maxlen '0' else .ok st

end PrintState

def overflowString : List Char := ['#', '#', '#']

/-- `dfl_dfltoasciiz_maxlen`: the success and the string. The rounds are limited by the
exponent byte. -/
def dflDfltoasciizMaxlen (df : Dfl) (maxlen : ℕ) : Except PrintError (Bool × List Char) :=
  if dflOverflow df then .ok (false, overflowString)
  else
    let sign := if df.neg then ['-'] else []
    let tmp := if df.neg then dflChangeSign df else df
    let st : PrintState := ⟨tmp, tmp.exp, 0, false, []⟩
    match (st.loop maxlen (dflMaxlen * 2 + 260) (dflMaxlen * 2 + 2)).bind
        (PrintState.finish maxlen) with
    | .ok st => .ok (true, sign ++ st.text)
    | .error .overflow => .ok (false, sign ++ overflowString)
    | .error .assertion => .error .assertion

/-! ## Parsing -/

structure AsciiState where
  df₁ : Dfl
  found : Bool
  pointfound : Bool
  toomanydigits : Bool

def appendDigit (df : Dfl) (digit : ℕ) : Dfl :=
  let df₂ := dfMmul10 df
  if dflOverflow df₂ then df₂
  else
    let df₂ := dfMaddint df₂ digit
    if df₂.neg ∧ df₂.len < dflMaxlen then dfIncsize df₂ else df₂

/-- The first digit that does not fit rounds the result. An error carries what is in `*pdf`. -/
def digitTooMany (orgdf : Dfl) (st : AsciiState) (digit : ℕ) : Except Dfl AsciiState :=
  if st.toomanydigits then
    .ok { st with df₁ := if st.pointfound then decExp st.df₁ else st.df₁ }
  else if st.pointfound then
    let df₁ := decExp st.df₁
    if 5 ≤ digit then
      if (dfMaddint df₁ 1).neg then .error orgdf
      else .ok { st with df₁ := dfMaddint df₁ 1, toomanydigits := true }
    else .ok { st with df₁ := df₁, toomanydigits := true }
  else .error dfZero

def asciiDigit (orgdf : Dfl) (st : AsciiState) (digit : ℕ) : Except Dfl AsciiState :=
  let st := { st with found := true, df₁ := if st.pointfound then incExp st.df₁ else st.df₁ }
  let df₂ := appendDigit st.df₁ digit
  if dflOverflow df₂ then digitTooMany orgdf st digit
  else if (decExp df₂).neg then .error orgdf
  else .ok { st with df₁ := decExp df₂ }

def asciiStep (orgdf : Dfl) (st : AsciiState) (c : Char) : Except Dfl AsciiState :=
  if isDecimalpoint c then
    if st.pointfound then .error orgdf else .ok { st with pointfound := true }
  else asciiDigit orgdf st (c.toNat - '0'.toNat)

/-- The loop over digits and decimal points, with the rest of the string. -/
def asciiLoop (orgdf : Dfl) : AsciiState → List Char → Except Dfl (AsciiState × List Char)
  | st, [] => .ok (st, [])
  | st, c :: s =>
    if isDigitChar c || isDecimalpoint c then
      (asciiStep orgdf st c).bind fun st => asciiLoop orgdf st s
    else .ok (st, c :: s)

/-- A positive exponent takes decimal places away and then multiplies by ten. -/
def raiseExponent : ℕ → Dfl → Option Dfl
  | 0, df => some df
  | n + 1, df =>
    if df.exp ≠ 0 then raiseExponent n { df with exp := df.exp - 1 }
    else if dflOverflow (dfMmul10 df) then none
    else raiseExponent n { dfMmul10 df with exp := 0 }

/-- A negative exponent adds decimal places. -/
def lowerExponent : ℕ → Dfl → Option Dfl
  | 0, df => some df
  | n + 1, df => if (incExp df).exp = 0 then none else lowerExponent n (incExp df)

/-- The exponent behind the mantissa. `ssStrScanInt` reads an `int`, which is cut to 16
bits. -/
def asciiExponent (ssStrScanInt : List Char → Option ℤ) (s : List Char) (df : Dfl) :
    Option Dfl :=
  match s with
  | c :: s =>
    if c = 'e' ∨ c = 'E' ∨ c = 'd' ∨ c = 'D' then
      match ssStrScanInt s with
      | some exp =>
        let e := exp.bmod (2 ^ 16)
        if 0 < e then raiseExponent e.toNat df else lowerExponent (-e).toNat df
      | none => some df
    else some df
  | [] => some df

def isBlankChar (c : Char) : Bool := c = ' ' || c = '\t' || c = '\n'

def asciiSign : List Char → Bool × List Char
  | '+' :: s => (false, s)
  | '-' :: s => (true, s)
  | s => (false, s)

/-- `dfl_asciiztodfl`, with the old content of `*pdf`. An error carries the new one. -/
def dflAsciiztodfl (ssStrScanInt : List Char → Option ℤ) (orgdf : Dfl) (s : List Char) :
    Except Dfl Dfl :=
  let s := s.dropWhile isBlankChar
  (asciiLoop orgdf ⟨dfZero, false, false, false⟩ (asciiSign s).2).bind fun r =>
    let df := if r.1.found then asciiExponent ssStrScanInt r.2 r.1.df₁ else some r.1.df₁
    match df with
    | none => .error dfZero
    | some df =>
      if !r.1.found then .error orgdf
      else .ok (if (asciiSign s).1 then dflChangeSign df else df)

end SolidDB
