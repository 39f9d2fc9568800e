import Mathlib.Data.Nat.Bitwise
import Mathlib.Tactic.Common
import Mathlib.Tactic.Ring
import Mathlib.Data.List.Flatten

/-!
# UTF-8 conversions

`ssutf.c`: a conversion gets the room in the destination and the rest of the source, and
returns what it has written and the source position to resume from. The conversions differ in
how they load and store a character.
-/

namespace SolidDB

inductive SsUtfRetT where
  | error
  | ok
  | truncation
  | nochange
  deriving DecidableEq

/-- What a conversion returns: the result code, the output and the rest of the source. -/
structure Converted (α β : Type*) where
  rc : SsUtfRetT
  dst : List β
  src : List α
  deriving DecidableEq

/-! ## The tables -/

def ssUtf8MapBits_11_15 : List ℕ := 0 :: List.replicate 31 2

def ssUtf8MapBits_7_10 : List ℕ := 0 :: List.replicate 15 1

def ssUtf8Bytesneeded : List ℕ := [1, 2, 3, 3]

/-- `ss_UTF8_extrabytes` by the ranges of its rows. -/
def ssUtf8Extrabytes (b : UInt8) : ℕ :=
  if b < 0xC0 then 0 else if b < 0xE0 then 1 else if b < 0xF0 then 2
  else if b < 0xF8 then 3 else if b < 0xFC then 4 else 5

def ssUtf8FirstByteMark : List UInt8 := [0x00, 0xC0, 0xE0, 0xF0, 0xF8, 0xFC]

def ssUtf8Offsets : List ℕ := [0, 0x3080, 0xE2080, 0x3C82080, 0xFA082080, 0x82082080]

def ssUtf8Bytes (ch : ℕ) : ℕ :=
  ssUtf8Bytesneeded.getD
    (ssUtf8MapBits_11_15.getD (ch >>> 11) 0 ||| ssUtf8MapBits_7_10.getD ((ch >>> 7) &&& 15) 0) 0

/-! ## Encoding -/

def utf8TrailByte (ch : ℕ) : UInt8 := UInt8.ofNat ((ch ||| 0x80) &&& 0xBF)

def utf8LeadByte (dstBytes ch : ℕ) : UInt8 :=
  UInt8.ofNat ch ||| ssUtf8FirstByteMark.getD (dstBytes - 1) 0

/-- The bytes that the switch of the encoders writes, from the last one to the first. -/
def utf8Char (dstBytes ch : ℕ) : List UInt8 :=
  match dstBytes with
  | 3 => [utf8LeadByte 3 (ch >>> 6 >>> 6), utf8TrailByte (ch >>> 6), utf8TrailByte ch]
  | 2 => [utf8LeadByte 2 (ch >>> 6), utf8TrailByte ch]
  | n => [utf8LeadByte n ch]

/-- The loop of the encoders, with the load of a character and the number of its bytes. The
source is past the character before the room is checked. -/
def toUtf8Loop {α : Type*} (load : α → ℕ) (bytes : ℕ → ℕ) :
    ℕ → List α → Converted α UInt8
  | _, [] => ⟨.ok, [], []⟩
  | room, c :: src =>
    if room < bytes (load c) then ⟨.truncation, [], src⟩
    else
      let r := toUtf8Loop load bytes (room - bytes (load c)) src
      ⟨r.rc, utf8Char (bytes (load c)) (load c) ++ r.dst, r.src⟩

def ssUCS2toUTF8 (room : ℕ) (src : List UInt16) : Converted UInt16 UInt8 :=
  toUtf8Loop UInt16.toNat ssUtf8Bytes room src

def ssChar2LoadMsb1st (p : UInt8 × UInt8) : ℕ := p.1.toNat <<< 8 ||| p.2.toNat

/-- `SsUCS2vatoUTF8`, with the bytes of a character as a pair. -/
def ssUCS2vatoUTF8 (room : ℕ) (src : List (UInt8 × UInt8)) : Converted (UInt8 × UInt8) UInt8 :=
  toUtf8Loop ssChar2LoadMsb1st ssUtf8Bytes room src

def ascii8Bytes (ch : ℕ) : ℕ := 1 + ch >>> 7

/-- `SsASCII8toUTF8`. The flag `change` is set by all characters that were loaded. -/
def ssASCII8toUTF8 (room : ℕ) (src : List UInt8) : Converted UInt8 UInt8 :=
  let r := toUtf8Loop UInt8.toNat ascii8Bytes room src
  if r.rc = .ok ∧ src.all (fun c => c.toNat >>> 7 = 0) then { r with rc := .nochange } else r

def ssUCS2ByteLenAsUTF8 (src : List UInt16) : ℕ :=
  src.foldl (fun blen ch => blen + ssUtf8Bytes ch.toNat) 0

def ssUCS2vaByteLenAsUTF8 (src : List (UInt8 × UInt8)) : ℕ :=
  src.foldl (fun blen p => blen + ssUtf8Bytes (ssChar2LoadMsb1st p)) 0

def ssASCII8ByteLenAsUTF8 (src : List UInt8) : ℕ :=
  src.foldl (fun blen c => blen + (1 + c.toNat >>> 7)) 0

/-! ## Decoding -/

/-- The difference of the sum of the shifted bytes and the offset, in 32 bits. -/
def utf8Subtract (ch extrabytes : ℕ) : ℕ :=
  (ch + (2 ^ 32 - ssUtf8Offsets.getD extrabytes 0)) % 2 ^ 32

/-- The loop of the decoders, with the store of a character; `none` for a character that does
not fit. A read behind the end of the source gives `none`. -/
def fromUtf8Loop {β : Type*} (store : ℕ → Option β) :
    ℕ → List UInt8 → Option (Converted UInt8 β)
  | _, [] => some ⟨.ok, [], []⟩
  | room, b :: src =>
    let put (ch extrabytes : ℕ) (r : ℕ → Option (Converted UInt8 β)) :=
      match store (utf8Subtract ch extrabytes) with
      | none => some ⟨.error, [], b :: src⟩
      | some c => (r (room - 1)).map fun r => ⟨r.rc, c :: r.dst, r.src⟩
    if (b :: src).length ≤ ssUtf8Extrabytes b then some ⟨.error, [], b :: src⟩
    else if room = 0 then some ⟨.truncation, [], b :: src⟩
    else
      match ssUtf8Extrabytes b with
      | 0 => put b.toNat 0 fun room => fromUtf8Loop store room src
      | 1 =>
        match src with
        | b₁ :: src => put (b.toNat <<< 6 + b₁.toNat) 1 fun room => fromUtf8Loop store room src
        | [] => none
      | 2 =>
        match src with
        | b₁ :: b₂ :: src =>
          put ((b.toNat <<< 6 + b₁.toNat) <<< 6 + b₂.toNat) 2 fun room =>
            fromUtf8Loop store room src
        | _ => none
      | _ => some ⟨.error, [], b :: src⟩

def ssUTF8toUCS2 (room : ℕ) (src : List UInt8) : Option (Converted UInt8 UInt16) :=
  fromUtf8Loop (fun ch => some (UInt16.ofNat ch)) room src

def ssChar2StoreMsb1st (ch : ℕ) : UInt8 × UInt8 := (UInt8.ofNat (ch >>> 8), UInt8.ofNat ch)

def ssUTF8toUCS2va (room : ℕ) (src : List UInt8) : Option (Converted UInt8 (UInt8 × UInt8)) :=
  fromUtf8Loop (fun ch => some (ssChar2StoreMsb1st ch)) room src

/-- The store of `SsUTF8toASCII8`. -/
def ascii8Store (ch : ℕ) : Option UInt8 := if 0xFF < ch then none else some (UInt8.ofNat ch)

/-- `SsUTF8toASCII8`. The flag `change` is set by every character with extra bytes. -/
def ssUTF8toASCII8 (room : ℕ) (src : List UInt8) : Option (Converted UInt8 UInt8) :=
  (fromUtf8Loop ascii8Store room src).map fun r =>
    if r.rc = .ok ∧ src.all (fun b => ssUtf8Extrabytes b = 0) then { r with rc := .nochange }
    else r

/-! ## Piece by piece -/

/-- Calls of an encoder with the rooms of a sequence of buffers, each from the position where
the previous one stopped: the output of all calls and the rest of the source. -/
def encodePieces {α : Type*} (encode : ℕ → List α → Converted α UInt8) :
    List ℕ → List α → List UInt8 × List α
  | [], src => ([], src)
  | room :: rooms, src =>
    let r := encode room src
    let s := encodePieces encode rooms r.src
    (r.dst ++ s.1, s.2)

end SolidDB

/-!
## The bytes of a UTF-8 character

A UCS-2 character takes one, two or three bytes by its range, its first byte tells how many
follow, and the sum of the shifted bytes less the offset is the character.
-/

namespace SolidDB

section

/-! ## The number of bytes -/

theorem ssUtf8Bytes_table : ∀ k < 512,
    ssUtf8Bytesneeded.getD
      (ssUtf8MapBits_11_15.getD (k >>> 4) 0 ||| ssUtf8MapBits_7_10.getD (k &&& 15) 0) 0 =
    if k = 0 then 1 else if k < 16 then 2 else 3 := by
  decide +kernel

theorem ssUtf8Bytes_eq {ch : ℕ} (hch : ch < 65536) :
    ssUtf8Bytes ch = if ch < 128 then 1 else if ch < 2048 then 2 else 3 := by
  have hk : ch >>> 7 < 512 := by
    rw [Nat.shiftRight_eq_div_pow]
    omega
  have hs : ch >>> 11 = ch >>> 7 >>> 4 := by rw [← Nat.shiftRight_add]
  rw [ssUtf8Bytes, hs, ssUtf8Bytes_table _ hk, Nat.shiftRight_eq_div_pow]
  have h0 : ch / 2 ^ 7 = 0 ↔ ch < 128 := by omega
  have h1 : ch / 2 ^ 7 < 16 ↔ ch < 2048 := by omega
  simp only [h0, h1]

theorem ascii8Bytes_eq {ch : ℕ} (hch : ch < 256) : ascii8Bytes ch = ssUtf8Bytes ch := by
  rw [ssUtf8Bytes_eq (by omega), ascii8Bytes, Nat.shiftRight_eq_div_pow]
  split
  · omega
  · rw [if_pos (by omega)]
    omega

theorem ssUtf8Bytes_pos {ch : ℕ} (hch : ch < 65536) : 0 < ssUtf8Bytes ch := by
  rw [ssUtf8Bytes_eq hch]
  split <;> [skip; split] <;> omega

/-! ## The values of the bytes -/

theorem trailByte_table : ∀ k < 256, ((k ||| 0x80) &&& 0xBF) % 256 = 0x80 + k % 64 := by
  decide +kernel

theorem utf8TrailByte_toNat (ch : ℕ) : (utf8TrailByte ch).toNat = 0x80 + ch % 64 := by
  have hmod : ((ch ||| 0x80) &&& 0xBF) % 2 ^ 8 = ((ch % 256 ||| 0x80) &&& 0xBF) % 256 := by
    have h256 : (256 : ℕ) = 2 ^ 8 := rfl
    rw [h256, Nat.and_mod_two_pow, Nat.or_mod_two_pow, Nat.and_mod_two_pow, Nat.or_mod_two_pow,
      Nat.mod_mod]
  rw [utf8TrailByte, UInt8.toNat_ofNat', hmod, trailByte_table _ (Nat.mod_lt _ (by simp))]
  omega

theorem leadByte_table : (∀ k < 32, k ||| 0xC0 = 0xC0 + k) ∧ ∀ k < 16, k ||| 0xE0 = 0xE0 + k := by
  decide +kernel

theorem utf8LeadByte_one {ch : ℕ} (hch : ch < 128) : (utf8LeadByte 1 ch).toNat = ch := by
  rw [utf8LeadByte, UInt8.toNat_or, UInt8.toNat_ofNat']
  have hm : (ssUtf8FirstByteMark.getD (1 - 1) 0).toNat = 0 := rfl
  rw [hm, Nat.or_zero, Nat.mod_eq_of_lt (by omega)]

theorem utf8LeadByte_two {ch : ℕ} (hch : ch < 32) : (utf8LeadByte 2 ch).toNat = 0xC0 + ch := by
  rw [utf8LeadByte, UInt8.toNat_or, UInt8.toNat_ofNat']
  have hm : (ssUtf8FirstByteMark.getD (2 - 1) 0).toNat = 0xC0 := rfl
  rw [hm, Nat.mod_eq_of_lt (by omega), leadByte_table.1 ch hch]

theorem utf8LeadByte_three {ch : ℕ} (hch : ch < 16) :
    (utf8LeadByte 3 ch).toNat = 0xE0 + ch := by
  rw [utf8LeadByte, UInt8.toNat_or, UInt8.toNat_ofNat']
  have hm : (ssUtf8FirstByteMark.getD (3 - 1) 0).toNat = 0xE0 := rfl
  rw [hm, Nat.mod_eq_of_lt (by omega), leadByte_table.2 ch hch]

theorem utf8Char_length {n : ℕ} (hn : n = 1 ∨ n = 2 ∨ n = 3) (ch : ℕ) :
    (utf8Char n ch).length = n := by
  rcases hn with rfl | rfl | rfl <;> rfl

theorem utf8Char_length_bytes {ch : ℕ} (hch : ch < 65536) :
    (utf8Char (ssUtf8Bytes ch) ch).length = ssUtf8Bytes ch := by
  apply utf8Char_length
  rw [ssUtf8Bytes_eq hch]
  split
  · exact Or.inl rfl
  · split
    · exact Or.inr (Or.inl rfl)
    · exact Or.inr (Or.inr rfl)

/-! ## The extra bytes -/

theorem ssUtf8Extrabytes_toNat (b : UInt8) :
    ssUtf8Extrabytes b = if b.toNat < 0xC0 then 0 else if b.toNat < 0xE0 then 1
      else if b.toNat < 0xF0 then 2 else if b.toNat < 0xF8 then 3
      else if b.toNat < 0xFC then 4 else 5 := by
  simp only [ssUtf8Extrabytes, UInt8.lt_iff_toNat_lt]
  rfl

/-! ## Decoding one character -/

variable {β : Type*}

/-- The decoder puts the character in front of what the rest of the source gives. -/
def Converted.cons (c : β) (r : Converted UInt8 β) : Converted UInt8 β :=
  ⟨r.rc, c :: r.dst, r.src⟩

theorem fromUtf8Loop_one {store : ℕ → Option β} {ch : ℕ} (hch : ch < 128) {c : β}
    (hs : store ch = some c) (room : ℕ) (rest : List UInt8) :
    fromUtf8Loop store (room + 1) (utf8Char 1 ch ++ rest) =
      (fromUtf8Loop store room rest).map (Converted.cons c) := by
  have hb := utf8LeadByte_one hch
  have he : ssUtf8Extrabytes (utf8LeadByte 1 ch) = 0 := by
    rw [ssUtf8Extrabytes_toNat, hb, if_pos (by omega)]
  have hv : utf8Subtract (utf8LeadByte 1 ch).toNat 0 = ch := by
    simp only [utf8Subtract, ssUtf8Offsets, List.getD_cons_zero, hb]
    omega
  change fromUtf8Loop store (room + 1) (utf8LeadByte 1 ch :: rest) = _
  rw [fromUtf8Loop.eq_def]
  simp only [he, hv, hs, List.length_cons]
  rw [if_neg (by omega), if_neg (by omega), Nat.add_sub_cancel]
  rfl

theorem fromUtf8Loop_two {store : ℕ → Option β} {ch : ℕ} (h128 : 128 ≤ ch) (hch : ch < 2048)
    {c : β} (hs : store ch = some c) (room : ℕ) (rest : List UInt8) :
    fromUtf8Loop store (room + 1) (utf8Char 2 ch ++ rest) =
      (fromUtf8Loop store room rest).map (Converted.cons c) := by
  have hq : ch >>> 6 = ch / 64 := Nat.shiftRight_eq_div_pow ch 6
  have hb := utf8LeadByte_two (show ch >>> 6 < 32 by omega)
  have ht := utf8TrailByte_toNat ch
  have he : ssUtf8Extrabytes (utf8LeadByte 2 (ch >>> 6)) = 1 := by
    rw [ssUtf8Extrabytes_toNat, hb, if_neg (by omega), if_pos (by omega)]
  have hv : utf8Subtract ((utf8LeadByte 2 (ch >>> 6)).toNat <<< 6 + (utf8TrailByte ch).toNat) 1 =
      ch := by
    simp only [utf8Subtract, ssUtf8Offsets, List.getD_cons_zero, List.getD_cons_succ, hb, ht,
      Nat.shiftLeft_eq]
    omega
  simp only [utf8Char, List.cons_append, List.nil_append, fromUtf8Loop, he, hv, hs,
    List.length_cons]
  rw [if_neg (by omega), if_neg (by omega), Nat.add_sub_cancel]
  rfl

theorem fromUtf8Loop_three {store : ℕ → Option β} {ch : ℕ} (h2048 : 2048 ≤ ch)
    (hch : ch < 65536) {c : β} (hs : store ch = some c) (room : ℕ) (rest : List UInt8) :
    fromUtf8Loop store (room + 1) (utf8Char 3 ch ++ rest) =
      (fromUtf8Loop store room rest).map (Converted.cons c) := by
  have hq : ch >>> 6 = ch / 64 := Nat.shiftRight_eq_div_pow ch 6
  have hq2 : ch >>> 6 >>> 6 = ch / 64 / 64 := by
    rw [hq, Nat.shiftRight_eq_div_pow]
  have hb := utf8LeadByte_three (show ch >>> 6 >>> 6 < 16 by omega)
  have ht := utf8TrailByte_toNat ch
  have ht2 := utf8TrailByte_toNat (ch >>> 6)
  have he : ssUtf8Extrabytes (utf8LeadByte 3 (ch >>> 6 >>> 6)) = 2 := by
    rw [ssUtf8Extrabytes_toNat, hb, if_neg (by omega), if_neg (by omega), if_pos (by omega)]
  have hv : utf8Subtract (((utf8LeadByte 3 (ch >>> 6 >>> 6)).toNat <<< 6 +
      (utf8TrailByte (ch >>> 6)).toNat) <<< 6 + (utf8TrailByte ch).toNat) 2 = ch := by
    simp only [utf8Subtract, ssUtf8Offsets, List.getD_cons_zero, List.getD_cons_succ, hb, ht,
      ht2, Nat.shiftLeft_eq]
    omega
  simp only [utf8Char, List.cons_append, List.nil_append, fromUtf8Loop, he, hv, hs,
    List.length_cons]
  rw [if_neg (by omega), if_neg (by omega), Nat.add_sub_cancel]
  rfl

/-- A decoder reads back what the encoders write for a character. -/
theorem fromUtf8Loop_utf8Char {store : ℕ → Option β} {ch : ℕ} (hch : ch < 65536) {c : β}
    (hs : store ch = some c) (room : ℕ) (rest : List UInt8) :
    fromUtf8Loop store (room + 1) (utf8Char (ssUtf8Bytes ch) ch ++ rest) =
      (fromUtf8Loop store room rest).map (Converted.cons c) := by
  rw [ssUtf8Bytes_eq hch]
  split
  · next h => exact fromUtf8Loop_one h hs room rest
  · next h =>
    split
    · next h' => exact fromUtf8Loop_two (by omega) h' hs room rest
    · next h' => exact fromUtf8Loop_three (by omega) hch hs room rest

end

/-!
## Conversion piece by piece

The bytes of a text are those of its characters one after the other. A call with too little
room has already passed the character that did not fit, so that the next call does not see
it: the pieces give the whole conversion when the first buffer has room for everything, and
in no other case.
-/

section

variable {α β : Type*}

/-! ## One call -/

def utf8Text (load : α → ℕ) (src : List α) : List UInt8 :=
  src.flatMap fun c => utf8Char (ssUtf8Bytes (load c)) (load c)

@[simp] theorem utf8Text_nil (load : α → ℕ) : utf8Text load [] = [] := rfl

theorem utf8Text_cons (load : α → ℕ) (c : α) (src : List α) :
    utf8Text load (c :: src) = utf8Char (ssUtf8Bytes (load c)) (load c) ++ utf8Text load src :=
  List.flatMap_cons

theorem utf8Text_cons_length {load : α → ℕ} (hload : ∀ c, load c < 65536) (c : α)
    (src : List α) :
    (utf8Text load (c :: src)).length = ssUtf8Bytes (load c) + (utf8Text load src).length := by
  rw [utf8Text_cons, List.length_append, utf8Char_length_bytes (hload c)]

theorem toUtf8Loop_of_room {load : α → ℕ} {bytes : ℕ → ℕ} (hload : ∀ c, load c < 65536)
    (hbytes : ∀ c, bytes (load c) = ssUtf8Bytes (load c)) :
    ∀ (src : List α) (room : ℕ), (utf8Text load src).length ≤ room →
      toUtf8Loop load bytes room src = ⟨.ok, utf8Text load src, []⟩
  | [], _, _ => by rw [toUtf8Loop, utf8Text_nil]
  | c :: src, room, h => by
    rw [utf8Text_cons_length hload] at h
    rw [toUtf8Loop, hbytes, if_neg (by omega),
      toUtf8Loop_of_room hload hbytes src (room - ssUtf8Bytes (load c)) (by omega),
      utf8Text_cons]

/-- A call loses nothing, or it is truncated and a character is missing. -/
theorem toUtf8Loop_length_lt {load : α → ℕ} {bytes : ℕ → ℕ} (hload : ∀ c, load c < 65536)
    (hbytes : ∀ c, bytes (load c) = ssUtf8Bytes (load c)) :
    ∀ (src : List α) (room : ℕ), room < (utf8Text load src).length →
      (toUtf8Loop load bytes room src).rc = .truncation ∧
        (toUtf8Loop load bytes room src).dst.length +
            (utf8Text load (toUtf8Loop load bytes room src).src).length <
          (utf8Text load src).length
  | [], room, h => absurd h (Nat.not_lt_zero room)
  | c :: src, room, h => by
    have hpos := ssUtf8Bytes_pos (hload c)
    rw [utf8Text_cons_length hload] at h
    rw [toUtf8Loop, hbytes, utf8Text_cons_length hload]
    by_cases hroom : room < ssUtf8Bytes (load c)
    · rw [if_pos hroom]
      refine ⟨rfl, ?_⟩
      simp only [List.length_nil]
      omega
    · rw [if_neg hroom]
      have ih := toUtf8Loop_length_lt hload hbytes src (room - ssUtf8Bytes (load c)) (by omega)
      refine ⟨ih.1, ?_⟩
      simp only [List.length_append, utf8Char_length_bytes (hload c)]
      omega

/-! ## The sequence of calls -/

/-- An encoder that writes the bytes of a text up to the first character that does not fit,
and then is past this character. -/
structure Encodes (load : α → ℕ) (encode : ℕ → List α → Converted α UInt8) : Prop where
  load_lt : ∀ c, load c < 65536
  dst : ∀ src room, (utf8Text load src).length ≤ room →
    (encode room src).dst = utf8Text load src ∧ (encode room src).src = [] ∧
      ((encode room src).rc = .ok ∨ (encode room src).rc = .nochange)
  lost : ∀ src room, room < (utf8Text load src).length →
    (encode room src).dst.length + (utf8Text load (encode room src).src).length <
      (utf8Text load src).length

theorem toUtf8Loop_encodes {load : α → ℕ} {bytes : ℕ → ℕ} (hload : ∀ c, load c < 65536)
    (hbytes : ∀ c, bytes (load c) = ssUtf8Bytes (load c)) :
    Encodes load (toUtf8Loop load bytes) where
  load_lt := hload
  dst := by
    intro src room h
    rw [toUtf8Loop_of_room hload hbytes src room h]
    exact ⟨rfl, rfl, Or.inl rfl⟩
  lost := fun src room h => (toUtf8Loop_length_lt hload hbytes src room h).2

namespace Encodes

variable {load : α → ℕ} {encode : ℕ → List α → Converted α UInt8}

theorem pieces_nil (he : Encodes load encode) (rooms : List ℕ) :
    encodePieces encode rooms [] = ([], []) := by
  induction rooms with
  | nil => rfl
  | cons room rooms ih =>
      obtain ⟨hd, hs, -⟩ := he.dst [] room (Nat.zero_le _)
      rw [encodePieces, hs, hd, ih]
      rfl

theorem pieces_length_le (he : Encodes load encode) (rooms : List ℕ) (src : List α) :
    (encodePieces encode rooms src).1.length +
        (utf8Text load (encodePieces encode rooms src).2).length ≤
      (utf8Text load src).length := by
  induction rooms generalizing src with
  | nil => simp [encodePieces]
  | cons room rooms ih =>
      have hrest := ih (encode room src).src
      have hone : (encode room src).dst.length + (utf8Text load (encode room src).src).length ≤
          (utf8Text load src).length := by
        rcases Nat.lt_or_ge room (utf8Text load src).length with h | h
        · exact (he.lost src room h).le
        · obtain ⟨hd, hs, -⟩ := he.dst src room h
          rw [hd, hs]
          exact le_rfl
      simp only [encodePieces, List.length_append]
      omega

/-- What all calls write, followed by the bytes of what is left of the source, is the
conversion of the source exactly when the first buffer has room for it. -/
theorem pieces_iff (he : Encodes load encode) (rooms : List ℕ) (src : List α) :
    (encodePieces encode rooms src).1 ++ utf8Text load (encodePieces encode rooms src).2 =
        utf8Text load src ↔
      ∀ room ∈ rooms.head?, (utf8Text load src).length ≤ room := by
  cases rooms with
  | nil => simp [encodePieces]
  | cons room rooms =>
      simp only [List.head?_cons, Option.mem_def, Option.some.injEq, forall_eq']
      constructor
      · intro h
        by_contra hroom
        have hlost := he.lost src room (Nat.lt_of_not_le hroom)
        have hle := he.pieces_length_le rooms (encode room src).src
        have hlen := congrArg List.length h
        simp only [encodePieces, List.length_append] at hlen
        omega
      · intro h
        obtain ⟨hd, hs, -⟩ := he.dst src room h
        rw [encodePieces, hs, he.pieces_nil, hd]
        simp

end Encodes

/-! ## Reading back -/

theorem fromUtf8Loop_utf8Text {load : α → ℕ} (hload : ∀ c, load c < 65536)
    {store : ℕ → Option α} (hstore : ∀ c, store (load c) = some c) :
    ∀ src : List α,
      fromUtf8Loop store src.length (utf8Text load src) = some ⟨.ok, src, []⟩
  | [] => by rw [utf8Text_nil, fromUtf8Loop]
  | c :: src => by
    rw [utf8Text_cons, List.length_cons, fromUtf8Loop_utf8Char (hload c) (hstore c),
      fromUtf8Loop_utf8Text hload hstore src]
    rfl

end

end SolidDB
