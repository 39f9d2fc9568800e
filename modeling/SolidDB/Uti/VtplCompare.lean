import SolidDB.Foundation.FrontSearch
import SolidDB.Uti.VaCode

/-!
# Comparing v-tuples

`vtpl_compare` of `uti0vcmp.c` walks over the fields of two v-tuples. On
canonically encoded tuples its result has the sign of the lexicographic
comparison of the field lists.
-/

namespace SolidDB

open FrontCoding

def toInt32 (x : ℤ) : ℤ := x.bmod (2 ^ 32)

theorem toInt32_of_abs_lt {x : ℤ} (h1 : -2 ^ 31 ≤ x) (h2 : x < 2 ^ 31) :
    toInt32 x = x := by
  unfold toInt32
  rw [Int.bmod_eq_of_le (by omega) (by omega)]

def signOf (cmp : ℤ) : Ordering :=
  if cmp < 0 then .lt else if 0 < cmp then .gt else .eq

theorem signOf_of_neg {x : ℤ} (h : x < 0) : signOf x = .lt := if_pos h

theorem signOf_of_pos {x : ℤ} (h : 0 < x) : signOf x = .gt := by
  rw [signOf, if_neg (by omega), if_pos h]

@[simp] theorem signOf_zero : signOf 0 = .eq := rfl

theorem signOf_eq_gt_iff (x : ℤ) : signOf x = .gt ↔ 0 < x := by
  unfold signOf
  split
  · constructor
    · exact fun h => Ordering.noConfusion h
    · omega
  · split
    · simp [*]
    · simp [*]

theorem signOf_eq_lt_iff (x : ℤ) : signOf x = .lt ↔ x < 0 := by
  unfold signOf
  split
  · simp [*]
  · split
    · simp [*]
    · simp [*]

theorem signOf_eq_eq_iff (x : ℤ) : signOf x = .eq ↔ x = 0 := by
  rcases lt_trichotomy x 0 with h | h | h
  · simp [signOf_of_neg h, h.ne]
  · simp [h]
  · simp [signOf_of_pos h, h.ne']

def ssMemcmp : List UInt8 → List UInt8 → ℕ → ℤ
  | _, _, 0 => 0
  | pc1, pc2, n + 1 =>
      let diff : ℤ := ((pc1.headD 0).toNat : ℤ) - (pc2.headD 0).toNat
      if diff ≠ 0 then diff else ssMemcmp pc1.tail pc2.tail n

/-- The loop over the fields in `vtpl_compare`; every round passes at least
one byte of the first tuple. -/
def vtplCompareFields : ℕ → List UInt8 → List UInt8 → ℤ
  | 0, _, _ => 0
  | fuel + 1, pField1, pField2 =>
      if pField1 ≠ [] ∧ pField2 ≠ [] then
        let (data1, len1) := vaGetdata pField1
        let (data2, len2) := vaGetdata pField2
        let compRes := ssMemcmp data1 data2 (min len1 len2)
        if compRes = 0 then
          if len1 ≠ len2 then toInt32 ((len1 : ℤ) - len2)
          else vtplCompareFields fuel (data1.drop len1) (data2.drop len2)
        else compRes
      else if pField1 ≠ [] then 1
      else if pField2 ≠ [] then -1
      else 0

def vtplCompare (vtpl1 vtpl2 : List UInt8) : ℤ :=
  let vtplLen1 := (vaGetdata vtpl1).2
  let vtplLen2 := (vaGetdata vtpl2).2
  if vtplLen1 ≤ 1 ∨ vtplLen2 ≤ 1 then
    -- one of the values is VTPL_NULL
    toInt32 ((vtplLen1 : ℤ) - vtplLen2)
  else
    vtplCompareFields (vtplLen1 + 1) (vtplGetdata vtpl1) (vtplGetdata vtpl2)

def vaCompare (va1 va2 : List UInt8) : ℤ :=
  let (data1, len1) := vaGetdata va1
  let (data2, len2) := vaGetdata va2
  let compRes := ssMemcmp data1 data2 (min len1 len2)
  if compRes = 0 then toInt32 ((len1 : ℤ) - len2) else compRes

/-! ## Comparing one field -/

theorem toNat_sub_pos_iff (x y : UInt8) :
    (0 : ℤ) < (x.toNat : ℤ) - y.toNat ↔ y < x := by
  rw [UInt8.lt_iff_toNat_lt]
  omega

theorem toNat_sub_neg_iff (x y : UInt8) :
    (x.toNat : ℤ) - y.toNat < 0 ↔ x < y := by
  rw [UInt8.lt_iff_toNat_lt]
  omega

theorem ssMemcmp_cons_cons (x y : UInt8) (a b : List UInt8) (n : ℕ) :
    ssMemcmp (x :: a) (y :: b) (n + 1) =
      if (x.toNat : ℤ) - y.toNat ≠ 0 then (x.toNat : ℤ) - y.toNat
      else ssMemcmp a b n := rfl

/-- Comparing the shorter length of two fields either finds the order or
leaves one field as the beginning of the other. -/
theorem ssMemcmp_append (f g r s : List UInt8) :
    (ssMemcmp (f ++ r) (g ++ s) (min f.length g.length) < 0 ∧ f < g) ∨
      (0 < ssMemcmp (f ++ r) (g ++ s) (min f.length g.length) ∧ g < f) ∨
      (ssMemcmp (f ++ r) (g ++ s) (min f.length g.length) = 0 ∧
        (f <+: g ∨ g <+: f)) := by
  induction f generalizing g with
  | nil => simp [ssMemcmp]
  | cons x f ih =>
      cases g with
      | nil => simp [ssMemcmp]
      | cons y g =>
          simp only [List.length_cons, Nat.add_min_add_right, List.cons_append,
            ssMemcmp_cons_cons]
          rcases lt_trichotomy x y with hlt | rfl | hgt
          · have hneg := (toNat_sub_neg_iff x y).mpr hlt
            rw [if_pos hneg.ne]
            exact Or.inl ⟨hneg, List.cons_lt_cons_iff.mpr (Or.inl hlt)⟩
          · rw [Int.sub_self, if_neg (by simp)]
            rcases ih g with h | h | h
            · exact Or.inl
                ⟨h.1, List.cons_lt_cons_iff.mpr (Or.inr ⟨rfl, h.2⟩)⟩
            · exact Or.inr (Or.inl
                ⟨h.1, List.cons_lt_cons_iff.mpr (Or.inr ⟨rfl, h.2⟩)⟩)
            · refine Or.inr (Or.inr ⟨h.1, ?_⟩)
              simpa [List.cons_prefix_cons] using h.2
          · have hpos := (toNat_sub_pos_iff x y).mpr hgt
            rw [if_pos hpos.ne']
            exact Or.inr (Or.inl
              ⟨hpos, List.cons_lt_cons_iff.mpr (Or.inl hgt)⟩)

theorem lt_of_isPrefix_of_length_lt {f g : List UInt8} (h : f <+: g ∨ g <+: f)
    (hlen : f.length < g.length) : f < g := by
  rcases h with hpre | hpre
  · exact lt_of_le_of_ne (le_of_isPrefix hpre) fun heq => by simp [heq] at hlen
  · have := hpre.length_le
    omega

theorem eq_of_isPrefix_of_length_eq {f g : List UInt8}
    (h : f <+: g ∨ g <+: f) (hlen : f.length = g.length) : f = g := by
  rcases h with hpre | hpre
  · exact hpre.eq_of_length hlen
  · exact (hpre.eq_of_length hlen.symm).symm

/-- Attributes are compared by their data, a beginning before the longer one. -/
theorem vaCompare_cases {f g : List UInt8} (hf : f.length < 2 ^ 31) (hg : g.length < 2 ^ 31) :
    (vaCompare (encVa f) (encVa g) < 0 ∧ f < g) ∨
      (0 < vaCompare (encVa f) (encVa g) ∧ g < f) ∨
      (vaCompare (encVa f) (encVa g) = 0 ∧ f = g) := by
  have hget (f : List UInt8) (h : f.length < 2 ^ 31) : vaGetdata (encVa f) = (f, f.length) := by
    have heq := vaGetdata_encVa (f := f) (by omega) []
    rwa [List.append_nil, List.append_nil] at heq
  have hcmp := ssMemcmp_append f g [] []
  rw [List.append_nil, List.append_nil] at hcmp
  rw [vaCompare, hget f hf, hget g hg]
  rcases hcmp with ⟨hneg, hlt⟩ | ⟨hpos, hgt⟩ | ⟨hzero, hpre⟩
  · simp only [if_neg hneg.ne]
    exact Or.inl ⟨hneg, hlt⟩
  · simp only [if_neg hpos.ne']
    exact Or.inr (Or.inl ⟨hpos, hgt⟩)
  · simp only [if_pos hzero]
    rw [toInt32_of_abs_lt (by omega) (by omega)]
    rcases lt_trichotomy f.length g.length with hlt | heq | hgt
    · exact Or.inl ⟨by omega, lt_of_isPrefix_of_length_lt hpre hlt⟩
    · exact Or.inr (Or.inr ⟨by omega, eq_of_isPrefix_of_length_eq hpre heq⟩)
    · exact Or.inr (Or.inl ⟨by omega, lt_of_isPrefix_of_length_lt hpre.symm hgt⟩)

/-! ## Comparing tuples -/

theorem tupleCompare_cons_of_lt {f g : List UInt8} (v w : Fields) (h : f < g) :
    tupleCompare (f :: v) (g :: w) = .lt :=
  tupleCompare_of_lt (List.cons_lt_cons_iff.mpr (Or.inl h))

theorem tupleCompare_cons_of_gt {f g : List UInt8} (v w : Fields) (h : g < f) :
    tupleCompare (f :: v) (g :: w) = .gt :=
  tupleCompare_of_gt (List.cons_lt_cons_iff.mpr (Or.inl h))

theorem tupleCompare_cons_self (f : List UInt8) (v w : Fields) :
    tupleCompare (f :: v) (f :: w) = tupleCompare v w := by
  simp [tupleCompare]

theorem length_le_of_mem_netlen {f : List UInt8} {v : Fields} :
    f.length ≤ netlen (f :: v) := by
  rw [netlen_cons]
  omega

theorem length_le_netlen (v : Fields) : v.length ≤ netlen v := by
  induction v with
  | nil => simp
  | cons f v ih =>
      have := vaLenLen_pos f.length
      rw [netlen_cons, List.length_cons]
      omega

variable {v w : Fields}

theorem signOf_vtplCompareFields {b c : List UInt8} {fuel : ℕ} (hv : FieldsCode b v)
    (hw : FieldsCode c w) (hvlen : ∀ f ∈ v, f.length < 2 ^ 31)
    (hwlen : ∀ g ∈ w, g.length < 2 ^ 31) (hfuel : v.length < fuel) :
    signOf (vtplCompareFields fuel b c) = tupleCompare v w := by
  induction hv generalizing w c fuel with
  | nil =>
      obtain ⟨fuel, rfl⟩ : ∃ n, fuel = n + 1 := ⟨fuel - 1, by simp at hfuel; omega⟩
      cases hw with
      | nil => simp [vtplCompareFields]
      | @cons h g c w hlen hrest =>
          have hne : h ++ (g ++ c) ≠ [] := fun hnil =>
            hlen.ne_nil (List.append_eq_nil_iff.mp hnil).1
          simp [vtplCompareFields, hlen.ne_nil, tupleCompare_of_lt (List.nil_lt_cons g w),
            signOf_of_neg]
  | @cons h f b v hlen hrest ih =>
      obtain ⟨fuel, rfl⟩ : ∃ n, fuel = n + 1 := ⟨fuel - 1, by simp at hfuel; omega⟩
      have hne : h ++ (f ++ b) ≠ [] := fun hnil => hlen.ne_nil (List.append_eq_nil_iff.mp hnil).1
      cases hw with
      | nil =>
          simp [vtplCompareFields, hlen.ne_nil, tupleCompare_of_gt (List.nil_lt_cons f v),
            signOf_of_pos]
      | @cons h' g c w hlen' hrest' =>
          have hne' : h' ++ (g ++ c) ≠ [] :=
            fun hnil => hlen'.ne_nil (List.append_eq_nil_iff.mp hnil).1
          have hf := hvlen f (List.mem_cons_self ..)
          have hg := hwlen g (List.mem_cons_self ..)
          rw [vtplCompareFields, if_pos ⟨hne, hne'⟩, hlen.vaGetdata, hlen'.vaGetdata]
          simp only [List.drop_left]
          rcases ssMemcmp_append f g b c with ⟨hneg, hlt⟩ | ⟨hpos, hgt⟩ | ⟨hzero, hpre⟩
          · rw [if_neg hneg.ne, signOf_of_neg hneg, tupleCompare_cons_of_lt _ _ hlt]
          · rw [if_neg hpos.ne', signOf_of_pos hpos, tupleCompare_cons_of_gt _ _ hgt]
          · rw [if_pos hzero]
            rcases lt_trichotomy f.length g.length with hlt | heq | hgt
            · rw [if_pos hlt.ne, toInt32_of_abs_lt (by omega) (by omega),
                signOf_of_neg (by omega),
                tupleCompare_cons_of_lt _ _ (lt_of_isPrefix_of_length_lt hpre hlt)]
            · obtain rfl := eq_of_isPrefix_of_length_eq hpre heq
              rw [if_neg (by simp), tupleCompare_cons_self]
              exact ih hrest' (fun f hmem => hvlen f (List.mem_cons_of_mem _ hmem))
                (fun g hmem => hwlen g (List.mem_cons_of_mem _ hmem)) (by simpa using hfuel)
            · rw [if_pos hgt.ne', toInt32_of_abs_lt (by omega) (by omega),
                signOf_of_pos (by omega),
                tupleCompare_cons_of_gt _ _ (lt_of_isPrefix_of_length_lt hpre.symm hgt)]

theorem netlen_singleton_nil : netlen [[]] = 1 := rfl

theorem singleton_nil_lt {v : Fields} (hv : v ≠ []) (h : v ≠ [[]]) :
    [[]] < v := by
  obtain ⟨f, v, rfl⟩ := List.exists_cons_of_ne_nil hv
  rw [List.cons_lt_cons_iff]
  cases f with
  | nil =>
      refine Or.inr ⟨rfl, ?_⟩
      cases v with
      | nil => exact absurd rfl h
      | cons g v => exact List.nil_lt_cons g v
  | cons x f => exact Or.inl (List.nil_lt_cons x f)

/-! ## `VTPL_NULL` -/

/-- Where the first tuple is `VTPL_NULL`, the second one has its bytes if it has its field, and
else a length whose difference fits into an `int`. -/
def NullAgrees (t s : List UInt8) (w : Fields) : Prop :=
  (vaGetdata t).2 = 1 → (vaGetdata s).2 ≤ 2 ^ 31 ∧ (w = [[]] → (vaGetdata s).2 = 1)

instance (t s : List UInt8) (w : Fields) : Decidable (NullAgrees t s w) :=
  inferInstanceAs (Decidable (_ → _))

variable {t s : List UInt8}

theorem VtplCode.eq_of_netlen (hcode : VtplCode t v) (hone : (vaGetdata t).2 = 1) : v = [[]] := by
  obtain ⟨hfields, hlen⟩ := hcode.getdata
  exact hfields.eq_of_length_le_one hcode.ne_nil (by omega)

theorem toInt32_pos {x : ℤ} (hpos : 0 < x) (hlt : x < 2 ^ 32) :
    0 < toInt32 x ↔ x < 2 ^ 31 := by
  rw [toInt32, Int.bmod]
  omega

theorem toInt32_neg_iff {x : ℤ} (hneg : x < 0) (hgt : -2 ^ 32 < x) :
    toInt32 x < 0 ↔ -2 ^ 31 ≤ x := by
  rw [toInt32, Int.bmod]
  omega

/-- Both comparisons with `VTPL_NULL` are right exactly when the lengths tell it. -/
theorem vtplCompare_null_iff (ht : VtplCode t v) (hs : VtplCode s w)
    (hone : (vaGetdata t).2 = 1) :
    (signOf (vtplCompare t s) = tupleCompare v w ∧ signOf (vtplCompare s t) = tupleCompare w v) ↔
      NullAgrees t s w := by
  have hlt := hs.netlen_lt
  have hpos := hs.netlen_pos
  obtain rfl := ht.eq_of_netlen hone
  have hcmp : vtplCompare t s = toInt32 (1 - ((vaGetdata s).2 : ℤ)) ∧
      vtplCompare s t = toInt32 (((vaGetdata s).2 : ℤ) - 1) := by
    rw [vtplCompare, vtplCompare, hone, if_pos (.inl le_rfl), if_pos (.inr le_rfl)]
    exact ⟨rfl, rfl⟩
  have hagrees : NullAgrees t s w ↔
      (vaGetdata s).2 ≤ 2 ^ 31 ∧ (w = [[]] → (vaGetdata s).2 = 1) :=
    ⟨fun h => h hone, fun h _ => h⟩
  rw [hcmp.1, hcmp.2, hagrees]
  by_cases hnull : w = [[]]
  · rw [hnull, tupleCompare_self, signOf_eq_eq_iff, signOf_eq_eq_iff]
    rcases (Nat.succ_le_of_lt hpos).eq_or_lt with heq | hmore
    · rw [← heq]
      exact iff_of_true ⟨rfl, rfl⟩ ⟨by decide, fun _ => rfl⟩
    · have hzero : ∀ x : ℤ, 0 < x → x < 2 ^ 32 → toInt32 x ≠ 0 := by
        intro x hx hx'
        rw [toInt32, Int.bmod]
        omega
      refine iff_of_false (fun h => ?_) (fun h => ?_)
      · exact hzero (((vaGetdata s).2 : ℤ) - 1) (by omega) (by omega) h.2
      · have hsame := h.2 rfl
        omega
  · have hmore : 1 < (vaGetdata s).2 := by
      rcases (Nat.succ_le_of_lt hpos).eq_or_lt with heq | hmore
      · exact absurd (hs.eq_of_netlen heq.symm) hnull
      · exact hmore
    have hless := singleton_nil_lt hs.ne_nil hnull
    rw [tupleCompare_of_lt hless, tupleCompare_of_gt hless, signOf_eq_lt_iff, signOf_eq_gt_iff,
      toInt32_pos (by omega) (by omega), toInt32_neg_iff (by omega) (by omega)]
    constructor
    · intro h
      exact ⟨by omega, fun hw => absurd hw hnull⟩
    · intro h
      have hle := h.1
      omega

theorem VtplCode.one_lt_netlen (hcode : VtplCode t v) (hone : (vaGetdata t).2 ≠ 1) :
    1 < (vaGetdata t).2 := by
  have hpos := hcode.netlen_pos
  omega

/-- Tuples that are not `VTPL_NULL` are compared by their fields. -/
theorem signOf_vtplCompare_code (ht : VtplCode t v) (hs : VtplCode s w)
    (hvlen : ∀ f ∈ v, f.length < 2 ^ 31) (hwlen : ∀ g ∈ w, g.length < 2 ^ 31)
    (htone : (vaGetdata t).2 ≠ 1) (hsone : (vaGetdata s).2 ≠ 1) :
    signOf (vtplCompare t s) = tupleCompare v w := by
  have htmore := ht.one_lt_netlen htone
  have hsmore := hs.one_lt_netlen hsone
  obtain ⟨htfields, htlen⟩ := ht.getdata
  have hle := htfields.length_le
  rw [vtplCompare, if_neg (by omega)]
  exact signOf_vtplCompareFields htfields hs.getdata.1 hvlen hwlen (by omega)

/-- `vtpl_compare` decides the lexicographic order of the field lists. -/
theorem vtplCompare_iff (ht : VtplCode t v) (hs : VtplCode s w)
    (hvlen : ∀ f ∈ v, f.length < 2 ^ 31) (hwlen : ∀ g ∈ w, g.length < 2 ^ 31) :
    (signOf (vtplCompare t s) = tupleCompare v w ∧ signOf (vtplCompare s t) = tupleCompare w v) ↔
      NullAgrees t s w ∧ NullAgrees s t v := by
  by_cases htone : (vaGetdata t).2 = 1
  · rw [vtplCompare_null_iff ht hs htone]
    refine ⟨fun h => ⟨h, fun hsone => ?_⟩, And.left⟩
    rw [htone]
    exact ⟨by decide, fun _ => rfl⟩
  · by_cases hsone : (vaGetdata s).2 = 1
    · rw [and_comm, vtplCompare_null_iff hs ht hsone]
      exact ⟨fun h => ⟨fun hone => absurd hone htone, h⟩, And.right⟩
    · exact iff_of_true ⟨signOf_vtplCompare_code ht hs hvlen hwlen htone hsone,
        signOf_vtplCompare_code hs ht hwlen hvlen hsone htone⟩
        ⟨fun hone => absurd hone htone, fun hone => absurd hone hsone⟩

/-! ## Tuples as they are written -/

theorem length_lt_of_mem {n : ℕ} (hv : netlen v < n) : ∀ f ∈ v, f.length < n := by
  induction v with
  | nil => exact fun f hf => absurd hf List.not_mem_nil
  | cons g v ih =>
      rw [netlen_cons] at hv
      intro f hf
      rcases List.mem_cons.mp hf with rfl | hmem
      · omega
      · exact ih (by omega) f hmem

theorem signOf_vtplCompare {v w : Fields} (hv : v ≠ []) (hw : w ≠ [])
    (hvlen : netlen v < 2 ^ 31) (hwlen : netlen w < 2 ^ 31)
    (r s : List UInt8) :
    signOf (vtplCompare (encVtpl v ++ r) (encVtpl w ++ s)) =
      tupleCompare v w := by
  have hget {u : Fields} (hu : netlen u < 2 ^ 31) (t : List UInt8) :
      (vaGetdata (encVtpl u ++ t)).2 = netlen u := by
    rw [encVtpl, vaGetdata_encVa (by rw [length_encFields]; omega)]
    rfl
  have hagree {u : Fields} (hu : netlen u < 2 ^ 31) (t t' : List UInt8) :
      NullAgrees t' (encVtpl u ++ t) u := by
    intro _
    rw [hget hu]
    refine ⟨hu.le, fun hnull => ?_⟩
    rw [hnull]
    exact netlen_singleton_nil
  have hvcode : VtplCode (encVtpl v ++ r) v := VtplFits.vtplCode ⟨hv, by omega⟩ r
  have hwcode : VtplCode (encVtpl w ++ s) w := VtplFits.vtplCode ⟨hw, by omega⟩ s
  exact ((vtplCompare_iff hvcode hwcode (length_lt_of_mem hvlen) (length_lt_of_mem hwlen)).mpr
    ⟨hagree hwlen s _, hagree hvlen r _⟩).1

end SolidDB
