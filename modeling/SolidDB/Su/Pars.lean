import SolidDB.Ss.Chcvt
import SolidDB.Ss.Scan

/-!
# String parsing utilities

A position is the rest of the text, which ends before the NUL. A function that reads behind the
NUL or writes behind its buffer has no result.
-/

namespace SolidDB

@[ext] structure SuParsMatch where
  mStart : List UInt8
  mPos : List UInt8
  deriving DecidableEq

inductive ParsRet (α : Type*) where
  | outside
  | no (m : SuParsMatch)
  | yes (value : α) (m : SuParsMatch)
  deriving DecidableEq

variable {α β : Type*}

namespace ParsRet

def bind (r : ParsRet α) (f : α → SuParsMatch → ParsRet β) : ParsRet β :=
  match r with
  | .outside => .outside
  | .no m => .no m
  | .yes a m => f a m

def map (f : α → β) (r : ParsRet α) : ParsRet β := r.bind fun a m => .yes (f a) m

/-- `FALSE` at the saved position. -/
def restore (saved : SuParsMatch) : ParsRet α → ParsRet α
  | .outside => .outside
  | .no _ => .no saved
  | .yes a m => .yes a m

end ParsRet

/-! ## Spaces, comments and constants -/

def ssStrTrimLeft (s : List UInt8) : List UInt8 := s.dropWhile chIsspace

theorem length_dropWhile_le (p : UInt8 → Bool) (s : List UInt8) :
    (s.dropWhile p).length ≤ s.length :=
  (List.dropWhile_sublist p).length_le

/-- The loop of `su_pars_check_comment` -/
def skipComments : List UInt8 → List UInt8
  | 45 :: 45 :: s => skipComments (ssStrTrimLeft (s.dropWhile fun c => c ≠ 10))
  | s => s
  termination_by s => s.length
  decreasing_by
    have h := length_dropWhile_le (fun c => decide (c ≠ 10)) s
    have h' := length_dropWhile_le chIsspace (s.dropWhile fun c => c ≠ 10)
    simp only [ssStrTrimLeft, List.length_cons]
    omega

def checkComment (s : List UInt8) : List UInt8 := skipComments (ssStrTrimLeft s)

namespace SuParsMatch

def checkComment (m : SuParsMatch) : SuParsMatch := { m with mPos := SolidDB.checkComment m.mPos }

def matchConst (m : SuParsMatch) (const_str : List UInt8) : Bool × SuParsMatch :=
  let m := m.checkComment
  if const_str = [] then (m.mPos = [], m)
  else if const_str <+: m.mPos then (true, { m with mPos := m.mPos.drop const_str.length })
  else (false, m)

/-- The position before the last `n` characters. -/
def back (m : SuParsMatch) (n : ℕ) : SuParsMatch :=
  { m with mPos := m.mStart.drop (m.mStart.length - (m.mPos.length + n)) }

end SuParsMatch

open SuParsMatch

/-! ## Buffers -/

/-- Writes a byte to a buffer of `cap` bytes behind those that are written. The function returns
`FALSE` when no byte is left. -/
def putCounted (saved : SuParsMatch) (cap : ℕ) (buf : List UInt8) (size : ℕ) (c : UInt8)
    (next : List UInt8 → ℕ → ParsRet α) : ParsRet α :=
  if cap ≤ buf.length then .outside
  else if size ≤ 1 then .no saved
  else next (buf ++ [c]) (size - 1)

def putNul (cap : ℕ) (buf : List UInt8) (m : SuParsMatch) : ParsRet (List UInt8) :=
  if cap ≤ buf.length then .outside else .yes (buf ++ [0]) m

/-- The loops that copy characters of a class and count down the size of the buffer. -/
def getWhile (p : UInt8 → Bool) (saved : SuParsMatch) (cap : ℕ) :
    List UInt8 → List UInt8 → ℕ → ParsRet (List UInt8)
  | [], buf, _ => .yes buf { saved with mPos := [] }
  | c :: s, buf, size =>
      if p c then
        putCounted saved cap buf size c fun buf size => getWhile p saved cap s buf size
      else .yes buf { saved with mPos := c :: s }

def getUncounted (p : UInt8 → Bool) (saved : SuParsMatch) (cap : ℕ) :
    List UInt8 → List UInt8 → ParsRet (List UInt8)
  | [], buf => .yes buf { saved with mPos := [] }
  | c :: s, buf =>
      if p c then
        if cap ≤ buf.length then .outside else getUncounted p saved cap s (buf ++ [c])
      else .yes buf { saved with mPos := c :: s }

/-- The loop of `pars_get_quoted` -/
def getQuotedLoop (saved : SuParsMatch) (cap : ℕ) (quote : UInt8) (keep_quotes : Bool) :
    List UInt8 → List UInt8 → ℕ → ParsRet (List UInt8 × ℕ)
  | [], buf, size => .yes (buf, size) { saved with mPos := [] }
  | [c], buf, size =>
      if c = quote then .yes (buf, size) { saved with mPos := [c] }
      else putCounted saved cap buf size c fun buf size =>
        .yes (buf, size) { saved with mPos := [] }
  | c :: c' :: s, buf, size =>
      if c = quote then
        if c' = quote then
          if keep_quotes then
            putCounted saved cap buf size quote fun buf size =>
              putCounted saved cap buf size c' fun buf size =>
                getQuotedLoop saved cap quote keep_quotes s buf size
          else
            putCounted saved cap buf size c' fun buf size =>
              getQuotedLoop saved cap quote keep_quotes s buf size
        else .yes (buf, size) { saved with mPos := c :: c' :: s }
      else
        putCounted saved cap buf size c fun buf size =>
          getQuotedLoop saved cap quote keep_quotes (c' :: s) buf size

def parsGetQuoted (m : SuParsMatch) (cap : ℕ) (keep_quotes : Bool) : ParsRet (List UInt8) :=
  match m.mPos with
  | [] => .outside
  | quote :: s =>
      let opened := if keep_quotes then ([quote], cap - 1) else ([], cap)
      (getQuotedLoop m cap quote keep_quotes s opened.1 opened.2).bind fun got m' =>
        match m'.mPos with
        | [] => .no m
        | c :: s' =>
            if c ≠ quote then .no m
            else if keep_quotes then
              putCounted m cap got.1 got.2 quote fun buf _ =>
                putNul cap buf { m' with mPos := s' }
            else putNul cap got.1 { m' with mPos := s' }

/-! ## Words and names -/

def suParsGetPwd (m : SuParsMatch) (pwd_size : ℕ) : ParsRet (List UInt8) :=
  let skipped := m.checkComment
  ((getWhile (fun c => !chIsspace c) skipped pwd_size skipped.mPos [] pwd_size).bind
    fun buf m' => if buf = [] then .no m else putNul pwd_size buf m').restore m

def isIdChar (c : UInt8) : Bool := chIsalnum c || c = 95

def isIdQuote (c : UInt8) : Bool := c = 34 || c = 96

def suParsGetId (m : SuParsMatch) (id_size : ℕ) : ParsRet (List UInt8) :=
  let skipped := m.checkComment
  let got :=
    if skipped.mPos.head?.any isIdQuote then parsGetQuoted skipped id_size false
    else (getWhile isIdChar skipped id_size skipped.mPos [] id_size).bind (putNul id_size)
  (got.bind fun buf m' => if 0 < (cString buf).length then .yes buf m' else .no m).restore m

def suParsGetTablename (m : SuParsMatch) (authid_size tabname_size : ℕ) :
    ParsRet (List UInt8 × List UInt8) :=
  let dot := m.matchConst (bytesOf ".")
  if dot.1 then (suParsGetId dot.2 tabname_size).map fun tabname => ([0], tabname)
  else
    (suParsGetId dot.2 authid_size).bind fun authid m' =>
      let dot := m'.matchConst (bytesOf ".")
      if dot.1 then (suParsGetId dot.2 tabname_size).map fun tabname => (authid, tabname)
      else (suParsGetId m tabname_size).map fun tabname => (0 :: authid.tail, tabname)

def suParsGetFilename (m : SuParsMatch) (fname_size : ℕ) : ParsRet (List UInt8) :=
  let skipped := m.checkComment
  if skipped.mPos.head?.any (fun c => c = 34 || c = 39) then
    (parsGetQuoted skipped fname_size false).restore m
  else
    (((getWhile (fun c => !chIsspace c) skipped fname_size skipped.mPos [] fname_size).bind
      (putNul fname_size)).bind fun buf m' =>
        if 0 < (cString buf).length then .yes buf m' else .no m).restore m

/-- `su_pars_get_stringliteral` and `su_pars_get_stringliteral_withquotes` -/
def suParsGetStringliteral (m : SuParsMatch) (string_size : ℕ) (keep_quotes : Bool) :
    ParsRet (List UInt8) :=
  let skipped := m.checkComment
  if skipped.mPos.head? = some 39 then (parsGetQuoted skipped string_size keep_quotes).restore m
  else .no m

/-! ## Numbers and special characters -/

/-- The loop of `su_pars_get_long` -/
def getLongLoop (saved : SuParsMatch) : List UInt8 → ℤ → ParsRet ℤ
  | [], num => .yes num { saved with mPos := [] }
  | c :: s, num =>
      if chIsdigit c then
        getLongLoop saved s (toLong (toLong (num * 10) + ((c.toNat : ℤ) - 48)))
      else .yes num { saved with mPos := c :: s }

def suParsGetLong (m : SuParsMatch) : ParsRet ℤ :=
  let m := m.checkComment
  if m.mPos.head?.any chIsdigit then getLongLoop m m.mPos 0 else .no m

def parsIsspecial (c : UInt8) : Bool := chIspunct c && c ≠ 39 && c ≠ 34 && c ≠ 58

/-- The characters behind the first digit of a number. -/
def isNumericChar (c : UInt8) : Bool := chIsdigit c || c = 46 || chToupper c = 69

/-- A first character and those of a class behind it, with a terminating NUL. -/
def getFirstAnd (first p : UInt8 → Bool) (m : SuParsMatch) (cap : ℕ) : ParsRet (List UInt8) :=
  let m := m.checkComment
  match m.mPos with
  | [] => .no m
  | c :: s =>
      if first c then
        if cap = 0 then .outside else (getUncounted p m cap s [c]).bind (putNul cap)
      else .no m

def suParsGetSpecial (m : SuParsMatch) (buf_size : ℕ) : ParsRet (List UInt8) :=
  getFirstAnd parsIsspecial parsIsspecial m buf_size

def suParsGetNumeric (m : SuParsMatch) (buf_size : ℕ) : ParsRet (List UInt8) :=
  getFirstAnd chIsdigit isNumericChar m buf_size

/-! ## Object names -/

def suMaxnamelen : ℕ := 254

def suParsGiveObjname (m : SuParsMatch) : ParsRet (List UInt8 × List UInt8) :=
  (suParsGetTablename m (suMaxnamelen + 1) (suMaxnamelen + 1)).map fun names =>
    (cString names.1, cString names.2)

/-- The loop of `su_pars_give_objname3` for as many names as are left. -/
def giveObjname3Loop : ℕ → SuParsMatch → List (List UInt8) → ParsRet (List (List UInt8))
  | 0, m, strarr => .yes strarr m
  | n + 1, m, strarr =>
      (suParsGetId m (suMaxnamelen + 1)).bind fun strbuf m' =>
        if n = 0 then .yes (strarr ++ [cString strbuf]) m'
        else
          let dot := m'.matchConst (bytesOf ".")
          if dot.1 then giveObjname3Loop n dot.2 (strarr ++ [cString strbuf])
          else .yes (strarr ++ [cString strbuf]) dot.2

/-- `su_pars_give_objname3`, with the catalog, the schema and the name. -/
def suParsGiveObjname3 (m : SuParsMatch) :
    ParsRet (Option (List UInt8) × Option (List UInt8) × Option (List UInt8)) :=
  (giveObjname3Loop 3 m []).map fun strarr =>
    match strarr.reverse with
    | [] => (none, none, none)
    | [name] => (none, none, some name)
    | [name, schema] => (none, some schema, some name)
    | name :: schema :: catalog :: _ => (some catalog, some schema, some name)

/-! ## Hints and keywords -/

/-- The loop of `su_pars_get_nonspace`, for which the NUL is no space. -/
def getNonspaceLoop (saved : SuParsMatch) (cap bufsize : ℕ) :
    List UInt8 → List UInt8 → ParsRet (List UInt8)
  | [], buf =>
      if cap ≤ buf.length then .outside
      else if buf.length + 1 = bufsize - 1 then .no saved
      else .outside
  | c :: s, buf =>
      if chIsspace c then .yes buf { saved with mPos := c :: s }
      else if cap ≤ buf.length then .outside
      else if buf.length + 1 = bufsize - 1 then .no saved
      else getNonspaceLoop saved cap bufsize s (buf ++ [c])

/-- `su_pars_get_nonspace` for a buffer of `cap` bytes. -/
def suParsGetNonspace (m : SuParsMatch) (cap bufsize : ℕ) : ParsRet (List UInt8) :=
  ((getNonspaceLoop m cap bufsize (ssStrTrimLeft m.mPos) []).bind (putNul cap)).bind fun buf m' =>
    if (cString buf).length = 0 then .no m' else .yes buf m'

/-- The loop of `su_pars_give_hint` -/
def giveHintLoop : ℕ → SuParsMatch → List UInt8 → ParsRet (List UInt8)
  | 0, _, _ => .outside
  | rounds + 1, m, ds =>
      let hint := m.matchConst (bytesOf "HINT")
      if hint.1 then .yes ds hint.2
      else
        (suParsGetNonspace hint.2 (suMaxnamelen + 1) suMaxnamelen).bind fun name m' =>
          giveHintLoop rounds m' (ds ++ cString name ++ bytesOf " ")

def suParsGiveHint (m : SuParsMatch) : ParsRet (List UInt8) :=
  let hint := m.matchConst (bytesOf "HINT")
  if hint.1 then
    ((giveHintLoop (hint.2.mPos.length + 1) hint.2 (bytesOf " HINT ")).bind fun ds m' =>
      let last := m'.matchConst (bytesOf "END")
      if last.1 then .yes (ds ++ bytesOf "HINT END ") last.2 else .no m).restore m
  else .no hint.2

/-- The loop of `su_pars_skipto_keyword` -/
def skiptoKeywordLoop (const_str end_str : List UInt8) : ℕ → SuParsMatch → ParsRet Unit
  | 0, _ => .outside
  | rounds + 1, m =>
      let m := m.checkComment
      if ssStrnicmpEq const_str m.mPos then
        .yes () { m with mPos := m.mPos.drop const_str.length }
      else
        let ended := m.matchConst end_str
        if ended.1 then .no (ended.2.back end_str.length)
        else
          match ended.2.mPos with
          | [] => .outside
          | [_] => .no { ended.2 with mPos := [] }
          | _ :: s => skiptoKeywordLoop const_str end_str rounds { ended.2 with mPos := s }

def suParsSkiptoKeyword (m : SuParsMatch) (const_str end_str : List UInt8) : ParsRet Unit :=
  let m := m.checkComment
  if const_str = [] then if m.mPos = [] then .yes () m else .no m
  else skiptoKeywordLoop const_str end_str (m.mPos.length + 1) m

end SolidDB
