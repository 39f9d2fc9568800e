import SolidDB.Ss.Utf

/-!
# Decoding of any bytes

A decoder takes the bytes of one character after the other, each with as many bytes behind it
as its first byte tells, and never looks behind the end of the source.
-/

namespace SolidDB

section

variable {β : Type*}

/-- The sum of the shifted bytes of a character less the offset. -/
def utf8Value : List UInt8 → ℕ
  | [b] => utf8Subtract b.toNat 0
  | [b, b₁] => utf8Subtract (b.toNat <<< 6 + b₁.toNat) 1
  | [b, b₁, b₂] => utf8Subtract ((b.toNat <<< 6 + b₁.toNat) <<< 6 + b₂.toNat) 2
  | _ => 0

inductive Utf8Chars (store : ℕ → Option β) : List UInt8 → List β → Prop
  | nil : Utf8Chars store [] []
  | char {b : UInt8} {trail rest : List UInt8} {c : β} {cs : List β} :
      trail.length = ssUtf8Extrabytes b → trail.length ≤ 2 →
      store (utf8Value (b :: trail)) = some c → Utf8Chars store rest cs →
      Utf8Chars store (b :: (trail ++ rest)) (c :: cs)

/-- A sequence that the decoders refuse: it is cut off, has more than two extra bytes or is a
character that the destination cannot hold. -/
def Utf8Refused (store : ℕ → Option β) : List UInt8 → Prop
  | [] => False
  | b :: src =>
    src.length < ssUtf8Extrabytes b ∨ 2 < ssUtf8Extrabytes b ∨
      store (utf8Value (b :: src.take (ssUtf8Extrabytes b))) = none

/-- The output is the characters of the bytes that were passed; the call ends at the end of
the source, with the room used up, or at a sequence that is refused. -/
structure DecodesWhole (store : ℕ → Option β) (room : ℕ) (src : List UInt8)
    (r : Converted UInt8 β) : Prop where
  passed : ∃ bytes, src = bytes ++ r.src ∧ Utf8Chars store bytes r.dst
  fits : r.dst.length ≤ room
  stop : (r.rc = .ok ∨ r.rc = .nochange) ∧ r.src = [] ∨
    r.rc = .truncation ∧ r.src ≠ [] ∧ r.dst.length = room ∨
    r.rc = .error ∧ Utf8Refused store r.src

theorem fromUtf8Loop_cons (store : ℕ → Option β) (room : ℕ) (b : UInt8) (src : List UInt8) :
    (Utf8Refused store (b :: src) ∧
      fromUtf8Loop store room (b :: src) = some ⟨.error, [], b :: src⟩) ∨
    (room = 0 ∧ fromUtf8Loop store room (b :: src) = some ⟨.truncation, [], b :: src⟩) ∨
    (0 < room ∧ ∃ trail rest c, src = trail ++ rest ∧ trail.length = ssUtf8Extrabytes b ∧
      trail.length ≤ 2 ∧ store (utf8Value (b :: trail)) = some c ∧
      fromUtf8Loop store room (b :: src) =
        (fromUtf8Loop store (room - 1) rest).map (Converted.cons c)) := by
  rw [fromUtf8Loop.eq_def]
  by_cases hcut : (b :: src).length ≤ ssUtf8Extrabytes b
  · exact Or.inl ⟨Or.inl hcut, by simp only [hcut, if_true]⟩
  by_cases hroom : room = 0
  · exact Or.inr (Or.inl ⟨hroom, by simp only [hcut, hroom, if_true, if_false]⟩)
  have hpos : 0 < room := Nat.pos_of_ne_zero hroom
  simp only [hcut, hroom, if_false]
  rw [List.length_cons] at hcut
  cases he : ssUtf8Extrabytes b with
  | zero =>
      cases hs : store (utf8Subtract b.toNat 0) with
      | none => exact Or.inl ⟨Or.inr (Or.inr (by rw [he]; exact hs)), rfl⟩
      | some c => exact Or.inr (Or.inr ⟨hpos, [], src, c, rfl, rfl, Nat.zero_le _, hs, rfl⟩)
  | succ n =>
      rw [he] at hcut
      cases n with
      | zero =>
          cases src with
          | nil => exact absurd Nat.le.refl hcut
          | cons b₁ src =>
              cases hs : store (utf8Subtract (b.toNat <<< 6 + b₁.toNat) 1) with
              | none =>
                  refine Or.inl ⟨Or.inr (Or.inr ?_), by simp only [hs]⟩
                  rw [he]
                  exact hs
              | some c =>
                  exact Or.inr (Or.inr ⟨hpos, [b₁], src, c, rfl, rfl, (show 1 ≤ 2 by decide), hs,
                    by simp only [hs]; rfl⟩)
      | succ n =>
          cases n with
          | zero =>
              cases src with
              | nil => exact absurd (by decide : 0 + 1 ≤ 0 + 1 + 1) hcut
              | cons b₁ src =>
                  cases src with
                  | nil => exact absurd Nat.le.refl hcut
                  | cons b₂ src =>
                      cases hs : store
                          (utf8Subtract ((b.toNat <<< 6 + b₁.toNat) <<< 6 + b₂.toNat) 2) with
                      | none =>
                          refine Or.inl ⟨Or.inr (Or.inr ?_), by simp only [hs]⟩
                          rw [he]
                          exact hs
                      | some c =>
                          exact Or.inr (Or.inr ⟨hpos, [b₁, b₂], src, c, rfl, rfl, le_rfl, hs,
                            by simp only [hs]; rfl⟩)
          | succ n => exact Or.inl ⟨Or.inr (Or.inl (by omega)), rfl⟩

/-- For all bytes and every room a decoder stays in the source and stops where it may. -/
theorem fromUtf8Loop_whole (store : ℕ → Option β) :
    ∀ (n : ℕ) (src : List UInt8), src.length ≤ n → ∀ room,
      ∃ r, fromUtf8Loop store room src = some r ∧ DecodesWhole store room src r
  | _, [], _, room =>
    ⟨⟨.ok, [], []⟩, by rw [fromUtf8Loop],
      ⟨⟨[], rfl, .nil⟩, Nat.zero_le room, Or.inl ⟨Or.inl rfl, rfl⟩⟩⟩
  | 0, b :: src, hn, _ => absurd hn (by simp)
  | n + 1, b :: src, hn, room => by
    rcases fromUtf8Loop_cons store room b src with ⟨hbad, heq⟩ | ⟨hroom, heq⟩ |
      ⟨hpos, trail, rest, c, rfl, hlen, htwo, hs, heq⟩
    · exact ⟨_, heq, ⟨[], rfl, .nil⟩, Nat.zero_le room, Or.inr (Or.inr ⟨rfl, hbad⟩)⟩
    · exact ⟨_, heq, ⟨[], rfl, .nil⟩, Nat.zero_le room,
        Or.inr (Or.inl ⟨rfl, List.cons_ne_nil b src, hroom.symm⟩)⟩
    · have hrest : rest.length ≤ n := by
        simp only [List.length_cons, List.length_append] at hn
        omega
      obtain ⟨r, hr, ⟨bytes, hbytes, hchars⟩, hle, hstop⟩ :=
        fromUtf8Loop_whole store n rest hrest (room - 1)
      refine ⟨r.cons c, by rw [heq, hr]; rfl, ⟨b :: (trail ++ bytes), ?_, ?_⟩, ?_, ?_⟩
      · rw [hbytes, List.cons_append, List.append_assoc]
        rfl
      · exact .char hlen htwo hs hchars
      · have hlen : (r.cons c).dst.length = r.dst.length + 1 := rfl
        omega
      · rcases hstop with h | ⟨hrc, hne, hfull⟩ | h
        · exact Or.inl h
        · refine Or.inr (Or.inl ⟨hrc, hne, ?_⟩)
          have hlen : (r.cons c).dst.length = r.dst.length + 1 := rfl
          omega
        · exact Or.inr (Or.inr h)

end

/-!
## The conversions of all encoders and decoders
-/

section

variable {α β : Type*}

/-! ## Loads and stores -/

theorem toNat_lt_65536 (c : UInt16) : c.toNat < 65536 := c.toNat_lt

theorem uint8_toNat_lt_65536 (c : UInt8) : c.toNat < 65536 :=
  c.toNat_lt.trans (by decide)

theorem ssChar2LoadMsb1st_eq (p : UInt8 × UInt8) :
    ssChar2LoadMsb1st p = p.1.toNat * 256 + p.2.toNat := by
  rw [ssChar2LoadMsb1st, Nat.shiftLeft_eq, Nat.mul_comm]
  exact (Nat.two_pow_add_eq_or_of_lt p.2.toNat_lt p.1.toNat).symm

theorem ssChar2LoadMsb1st_lt (p : UInt8 × UInt8) : ssChar2LoadMsb1st p < 65536 := by
  have h1 := p.1.toNat_lt
  have h2 := p.2.toNat_lt
  rw [ssChar2LoadMsb1st_eq]
  omega

theorem ssChar2StoreMsb1st_load (p : UInt8 × UInt8) :
    ssChar2StoreMsb1st (ssChar2LoadMsb1st p) = p := by
  have h1 := p.1.toNat_lt
  have h2 := p.2.toNat_lt
  rw [ssChar2StoreMsb1st, ssChar2LoadMsb1st_eq, Nat.shiftRight_eq_div_pow]
  refine Prod.ext ?_ ?_
  · apply UInt8.toNat_inj.mp
    rw [UInt8.toNat_ofNat']
    omega
  · apply UInt8.toNat_inj.mp
    rw [UInt8.toNat_ofNat']
    omega

theorem ascii8Store_toNat (c : UInt8) : ascii8Store c.toNat = some c := by
  have h := c.toNat_lt
  rw [ascii8Store, if_neg (by omega), UInt8.ofNat_toNat]

/-! ## The encoders -/

theorem ssUCS2toUTF8_encodes : Encodes UInt16.toNat ssUCS2toUTF8 :=
  toUtf8Loop_encodes toNat_lt_65536 fun _ => rfl

theorem ssUCS2vatoUTF8_encodes : Encodes ssChar2LoadMsb1st ssUCS2vatoUTF8 :=
  toUtf8Loop_encodes ssChar2LoadMsb1st_lt fun _ => rfl

theorem ssASCII8toUTF8_dst (room : ℕ) (src : List UInt8) :
    (ssASCII8toUTF8 room src).dst = (toUtf8Loop UInt8.toNat ascii8Bytes room src).dst ∧
      (ssASCII8toUTF8 room src).src = (toUtf8Loop UInt8.toNat ascii8Bytes room src).src ∧
      ((ssASCII8toUTF8 room src).rc = (toUtf8Loop UInt8.toNat ascii8Bytes room src).rc ∨
        (ssASCII8toUTF8 room src).rc = .nochange) := by
  rw [ssASCII8toUTF8]
  split
  · exact ⟨rfl, rfl, Or.inr rfl⟩
  · exact ⟨rfl, rfl, Or.inl rfl⟩

theorem ssASCII8toUTF8_encodes : Encodes UInt8.toNat ssASCII8toUTF8 := by
  have hloop := toUtf8Loop_encodes uint8_toNat_lt_65536 fun c : UInt8 =>
    ascii8Bytes_eq c.toNat_lt
  refine ⟨uint8_toNat_lt_65536, ?_, ?_⟩
  · intro src room h
    obtain ⟨hdst, hsrc, hrc⟩ := ssASCII8toUTF8_dst room src
    obtain ⟨hd, hs, hr⟩ := hloop.dst src room h
    rw [hdst, hsrc, hd, hs]
    refine ⟨rfl, rfl, ?_⟩
    rcases hrc with hrc | hrc
    · rw [hrc]
      exact hr
    · exact Or.inr hrc
  · intro src room h
    obtain ⟨hdst, hsrc, -⟩ := ssASCII8toUTF8_dst room src
    rw [hdst, hsrc]
    exact hloop.lost src room h

/-! ## The byte lengths -/

theorem foldl_utf8Bytes {load : α → ℕ} {bytes : ℕ → ℕ} (hload : ∀ c, load c < 65536)
    (hbytes : ∀ c, bytes (load c) = ssUtf8Bytes (load c)) (src : List α) (blen : ℕ) :
    src.foldl (fun blen c => blen + bytes (load c)) blen =
      blen + (utf8Text load src).length := by
  induction src generalizing blen with
  | nil => rfl
  | cons c src ih =>
      rw [List.foldl_cons, ih, hbytes, utf8Text_cons_length hload]
      omega

theorem ssUCS2ByteLenAsUTF8_eq (src : List UInt16) :
    ssUCS2ByteLenAsUTF8 src = (utf8Text UInt16.toNat src).length :=
  (foldl_utf8Bytes toNat_lt_65536 (fun _ => rfl) src 0).trans (Nat.zero_add _)

theorem ssUCS2vaByteLenAsUTF8_eq (src : List (UInt8 × UInt8)) :
    ssUCS2vaByteLenAsUTF8 src = (utf8Text ssChar2LoadMsb1st src).length :=
  (foldl_utf8Bytes ssChar2LoadMsb1st_lt (fun _ => rfl) src 0).trans (Nat.zero_add _)

theorem ssASCII8ByteLenAsUTF8_eq (src : List UInt8) :
    ssASCII8ByteLenAsUTF8 src = (utf8Text UInt8.toNat src).length :=
  (foldl_utf8Bytes uint8_toNat_lt_65536 (fun c => ascii8Bytes_eq c.toNat_lt) src 0).trans
    (Nat.zero_add _)

/-! ## The decoders -/

theorem ssUTF8toASCII8_of_loop {room : ℕ} {src : List UInt8} {r : Converted UInt8 UInt8}
    (h : fromUtf8Loop ascii8Store room src = some r) :
    ∃ r', ssUTF8toASCII8 room src = some r' ∧ r'.dst = r.dst ∧ r'.src = r.src ∧
      (r'.rc = r.rc ∨ r.rc = .ok ∧ r'.rc = .nochange) := by
  rw [ssUTF8toASCII8, h, Option.map_some]
  split
  · next hok => exact ⟨_, rfl, rfl, rfl, Or.inr ⟨hok.1, rfl⟩⟩
  · exact ⟨_, rfl, rfl, rfl, Or.inl rfl⟩

theorem ssUTF8toUCS2_whole (room : ℕ) (src : List UInt8) :
    ∃ r, ssUTF8toUCS2 room src = some r ∧
      DecodesWhole (fun ch => some (UInt16.ofNat ch)) room src r :=
  fromUtf8Loop_whole _ src.length src le_rfl room

theorem ssUTF8toUCS2va_whole (room : ℕ) (src : List UInt8) :
    ∃ r, ssUTF8toUCS2va room src = some r ∧
      DecodesWhole (fun ch => some (ssChar2StoreMsb1st ch)) room src r :=
  fromUtf8Loop_whole _ src.length src le_rfl room

theorem ssUTF8toASCII8_whole (room : ℕ) (src : List UInt8) :
    ∃ r, ssUTF8toASCII8 room src = some r ∧ DecodesWhole ascii8Store room src r := by
  obtain ⟨r, hr, hpassed, hfits, hstop⟩ :=
    fromUtf8Loop_whole ascii8Store src.length src le_rfl room
  obtain ⟨r', hr', hdst, hsrc, hrc⟩ := ssUTF8toASCII8_of_loop hr
  refine ⟨r', hr', ?_, ?_, ?_⟩
  · rw [hdst, hsrc]
    exact hpassed
  · rw [hdst]
    exact hfits
  · rw [hdst, hsrc]
    rcases hrc with hrc | ⟨hok, hnochange⟩
    · rw [hrc]
      exact hstop
    · rw [hok] at hstop
      rcases hstop with ⟨-, h⟩ | ⟨h, -⟩ | ⟨h, -⟩
      · exact Or.inl ⟨Or.inr hnochange, h⟩
      · cases h
      · cases h

/-! ## Piece by piece -/

/-- The calls with a sequence of rooms write what one call with enough room writes, where the
bytes of what they leave in the source are still to come; this has the length that the length
function gives, and decodes to the source. -/
def ConvertsByPieces (encode : ℕ → List α → Converted α UInt8) (byteLen : List α → ℕ)
    (decode : ℕ → List UInt8 → Option (Converted UInt8 α)) (rooms : List ℕ) (src : List α) :
    Prop :=
  ∀ room, byteLen src ≤ room →
    (encodePieces encode rooms src).1 ++
        (encode room (encodePieces encode rooms src).2).dst = (encode room src).dst ∧
      (encode room src).src = [] ∧ (encode room src).dst.length = byteLen src ∧
      ∃ r, decode src.length (encode room src).dst = some r ∧ r.dst = src ∧ r.src = [] ∧
        (r.rc = .ok ∨ r.rc = .nochange)

def FirstHasRoom (byteLen : List α → ℕ) (rooms : List ℕ) (src : List α) : Prop :=
  ∀ room ∈ rooms.head?, byteLen src ≤ room

theorem convertsByPieces_iff {load : α → ℕ} {encode : ℕ → List α → Converted α UInt8}
    {byteLen : List α → ℕ} {decode : ℕ → List UInt8 → Option (Converted UInt8 α)}
    (he : Encodes load encode) (hlen : ∀ src, byteLen src = (utf8Text load src).length)
    (hdecode : ∀ src, ∃ r, decode src.length (utf8Text load src) = some r ∧ r.dst = src ∧
      r.src = [] ∧ (r.rc = .ok ∨ r.rc = .nochange)) (rooms : List ℕ) (src : List α) :
    ConvertsByPieces encode byteLen decode rooms src ↔ FirstHasRoom byteLen rooms src := by
  have hpieces := he.pieces_iff rooms src
  have hrest : (utf8Text load (encodePieces encode rooms src).2).length ≤
      (utf8Text load src).length :=
    (Nat.le_add_left _ _).trans (he.pieces_length_le rooms src)
  simp only [FirstHasRoom, hlen]
  rw [← hpieces]
  constructor
  · intro h
    have hone := (h _ (hlen src).le).1
    rw [(he.dst src _ le_rfl).1, (he.dst _ _ hrest).1] at hone
    exact hone
  · intro h room hroom
    rw [hlen] at hroom
    obtain ⟨hd, hs, -⟩ := he.dst src room hroom
    rw [(he.dst _ room (hrest.trans hroom)).1, hd, hs, hlen]
    exact ⟨h, rfl, rfl, hdecode src⟩

/-- Each encoder converts by pieces as by one call exactly when its first buffer has room for
everything; and each decoder, on any bytes, passes whole characters and stops at the end, with
the room used up or at a refused sequence. -/
theorem utf8_converts_iff (rooms : List ℕ) (chars : List UInt16)
    (vaChars : List (UInt8 × UInt8)) (asciiChars : List UInt8) (room : ℕ) (text : List UInt8) :
    (ConvertsByPieces ssUCS2toUTF8 ssUCS2ByteLenAsUTF8 ssUTF8toUCS2 rooms chars ↔
      FirstHasRoom ssUCS2ByteLenAsUTF8 rooms chars) ∧
    (ConvertsByPieces ssUCS2vatoUTF8 ssUCS2vaByteLenAsUTF8 ssUTF8toUCS2va rooms vaChars ↔
      FirstHasRoom ssUCS2vaByteLenAsUTF8 rooms vaChars) ∧
    (ConvertsByPieces ssASCII8toUTF8 ssASCII8ByteLenAsUTF8 ssUTF8toASCII8 rooms asciiChars ↔
      FirstHasRoom ssASCII8ByteLenAsUTF8 rooms asciiChars) ∧
    (∃ r, ssUTF8toUCS2 room text = some r ∧
      DecodesWhole (fun ch => some (UInt16.ofNat ch)) room text r) ∧
    (∃ r, ssUTF8toUCS2va room text = some r ∧
      DecodesWhole (fun ch => some (ssChar2StoreMsb1st ch)) room text r) ∧
    ∃ r, ssUTF8toASCII8 room text = some r ∧ DecodesWhole ascii8Store room text r := by
  refine ⟨?_, ?_, ?_, ssUTF8toUCS2_whole room text, ssUTF8toUCS2va_whole room text,
    ssUTF8toASCII8_whole room text⟩
  · refine convertsByPieces_iff ssUCS2toUTF8_encodes ssUCS2ByteLenAsUTF8_eq (fun src => ?_) _ _
    exact ⟨_, fromUtf8Loop_utf8Text toNat_lt_65536
      (fun c => congrArg some (UInt16.ofNat_toNat (x := c))) src, rfl, rfl, Or.inl rfl⟩
  · refine convertsByPieces_iff ssUCS2vatoUTF8_encodes ssUCS2vaByteLenAsUTF8_eq
      (fun src => ?_) _ _
    exact ⟨_, fromUtf8Loop_utf8Text ssChar2LoadMsb1st_lt
      (fun c => congrArg some (ssChar2StoreMsb1st_load c)) src, rfl, rfl, Or.inl rfl⟩
  · refine convertsByPieces_iff ssASCII8toUTF8_encodes ssASCII8ByteLenAsUTF8_eq
      (fun src => ?_) _ _
    obtain ⟨r, hr, hdst, hsrc, hrc⟩ := ssUTF8toASCII8_of_loop
      (fromUtf8Loop_utf8Text uint8_toNat_lt_65536 ascii8Store_toNat src)
    refine ⟨r, hr, hdst, hsrc, ?_⟩
    rcases hrc with hrc | ⟨-, hrc⟩
    · exact Or.inl hrc
    · exact Or.inr hrc

/-- The character U+0080 with a first buffer of one byte and then enough room. -/
theorem utf8_pieces_lose_character :
    ¬ ConvertsByPieces ssUCS2toUTF8 ssUCS2ByteLenAsUTF8 ssUTF8toUCS2 [1, 16] [0x80, 0x41] := by
  intro h
  have hone := (h 16 (by decide)).1
  have hne : (encodePieces ssUCS2toUTF8 [1, 16] [0x80, 0x41]).1 ++
      (ssUCS2toUTF8 16 (encodePieces ssUCS2toUTF8 [1, 16] [0x80, 0x41]).2).dst ≠
      (ssUCS2toUTF8 16 [0x80, 0x41]).dst := by decide
  exact hne hone

end

end SolidDB
