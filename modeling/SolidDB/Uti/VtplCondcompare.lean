import SolidDB.Uti.VtplCompare

/-!
# Comparing v-tuples by the conditions of a sort

`vtpl_condcompare` compares as many v-attributes as there are conditions. Descending conditions
turn the comparison around, and one of them leaves the null values in front.
-/

namespace SolidDB

inductive VtplCmp where
  | asc
  | descNcStart
  | desc
  deriving DecidableEq

def vaTestnull (va : List UInt8) : Bool := va.headD 0 = 0

/-- The end of `vtpl_condcompare`. -/
def condResult (cond : VtplCmp) (va1 va2 : List UInt8) (cmp : ℤ) : ℤ :=
  if cmp ≠ 0 ∧ cond ≠ .asc then
    if cond ≠ .descNcStart ∨ (¬ vaTestnull va1 ∧ ¬ vaTestnull va2) then -cmp else cmp
  else cmp

/-- The loop of `vtpl_condcompare` from two v-attributes on. -/
def condcompareLoop : List VtplCmp → List UInt8 → List UInt8 → ℤ
  | [], _, _ => 0
  | cond :: conds, va1, va2 =>
    let (p1, l1) := vaGetdata va1
    let (p2, l2) := vaGetdata va2
    let l := min l1 l2
    let cmp := if l ≠ 0 then ssMemcmp p1 p2 l else 0
    if cmp = 0 then
      let cmp := toInt32 ((l1 : ℤ) - l2)
      if cmp ≠ 0 then condResult cond va1 va2 cmp
      else condcompareLoop conds (p1.drop l1) (p2.drop l2)
    else condResult cond va1 va2 cmp

def vtplCondcompare (conds : List VtplCmp) (vtpl1 vtpl2 : List UInt8) : ℤ :=
  condcompareLoop conds (vaGetdata vtpl1).1 (vaGetdata vtpl2).1

/-! ## The order of a condition -/

/-- The order of two values by a condition. A null value is an empty one. -/
def ValueLt : VtplCmp → List UInt8 → List UInt8 → Prop
  | .asc, f, g => f < g
  | .desc, f, g => g < f
  | .descNcStart, f, g => if f = [] ∨ g = [] then f < g else g < f

def CondLe : List VtplCmp → Fields → Fields → Prop
  | [], _, _ => True
  | cond :: conds, f :: v, g :: w => ValueLt cond f g ∨ f = g ∧ CondLe conds v w
  | _ :: _, _, _ => False

variable {cond : VtplCmp} {conds : List VtplCmp} {f g h : List UInt8} {u v w : Fields}

theorem nil_lt_of_ne_nil (hf : f ≠ []) : [] < f := by
  obtain ⟨x, f, rfl⟩ := List.exists_cons_of_ne_nil hf
  exact List.nil_lt_cons x f

theorem not_lt_nil (f : List UInt8) : ¬ f < [] := List.not_lt_nil f

theorem ValueLt.irrefl (cond : VtplCmp) (f : List UInt8) : ¬ ValueLt cond f f := by
  cases cond with
  | asc => exact lt_irrefl f
  | desc => exact lt_irrefl f
  | descNcStart =>
      rw [ValueLt]
      split
      · exact lt_irrefl f
      · exact lt_irrefl f

theorem ValueLt.trans (hfg : ValueLt cond f g) (hgh : ValueLt cond g h) : ValueLt cond f h := by
  cases cond with
  | asc => exact lt_trans hfg hgh
  | desc => exact lt_trans hgh hfg
  | descNcStart =>
      rw [ValueLt] at hfg hgh ⊢
      by_cases hf : f = []
      · rw [if_pos (.inl hf)] at hfg ⊢
        by_cases hh : h = []
        · rw [hh] at hgh
          rw [if_pos (.inr rfl)] at hgh
          exact absurd hgh (not_lt_nil g)
        · rw [hf]
          exact nil_lt_of_ne_nil hh
      · by_cases hg : g = []
        · rw [if_pos (.inr hg), hg] at hfg
          exact absurd hfg (not_lt_nil f)
        · by_cases hh : h = []
          · rw [if_pos (.inr hh), hh] at hgh
            exact absurd hgh (not_lt_nil g)
          · rw [if_neg (not_or.mpr ⟨hf, hg⟩)] at hfg
            rw [if_neg (not_or.mpr ⟨hg, hh⟩)] at hgh
            rw [if_neg (not_or.mpr ⟨hf, hh⟩)]
            exact lt_trans hgh hfg

theorem CondLe.trans (huv : CondLe conds u v) (hvw : CondLe conds v w) : CondLe conds u w := by
  induction conds generalizing u v w with
  | nil => trivial
  | cons cond conds ih =>
      cases u with
      | nil => exact huv.elim
      | cons f u =>
          cases v with
          | nil => exact huv.elim
          | cons g v =>
              cases w with
              | nil => exact hvw.elim
              | cons h w =>
                  rcases huv with huv | ⟨rfl, huv⟩
                  · rcases hvw with hvw | ⟨rfl, -⟩
                    · exact .inl (huv.trans hvw)
                    · exact .inl huv
                  · rcases hvw with hvw | ⟨rfl, hvw⟩
                    · exact .inl hvw
                    · exact .inr ⟨rfl, ih huv hvw⟩

/-! ## The comparison -/

theorem vaTestnull_encVa (f rest : List UInt8) : vaTestnull (encVa f ++ rest) = true ↔ f = [] := by
  have hhead := headD_encVa f rest
  rw [vaTestnull, decide_eq_true_iff]
  constructor
  · intro hzero
    rw [hzero, UInt8.toNat_zero] at hhead
    split at hhead
    · exact List.eq_nil_of_length_eq_zero hhead.symm
    · omega
  · rintro rfl
    rfl

/-- The values differ, and the comparison has the sign of their order. -/
theorem condResult_sign {cmp : ℤ} (cond : VtplCmp) (b c : List UInt8)
    (hcmp : cmp < 0 ∧ f < g ∨ 0 < cmp ∧ g < f) :
    condResult cond (encVa f ++ b) (encVa g ++ c) cmp < 0 ∧ ValueLt cond f g ∨
      0 < condResult cond (encVa f ++ b) (encVa g ++ c) cmp ∧ ValueLt cond g f := by
  have hne : cmp ≠ 0 := by omega
  cases cond with
  | asc =>
      rw [condResult, if_neg fun h => h.2 rfl]
      exact hcmp
  | desc =>
      rw [condResult, if_pos ⟨hne, VtplCmp.noConfusion⟩, if_pos (.inl VtplCmp.noConfusion)]
      rcases hcmp with ⟨hneg, hlt⟩ | ⟨hpos, hgt⟩
      · exact .inr ⟨by omega, hlt⟩
      · exact .inl ⟨by omega, hgt⟩
  | descNcStart =>
      have hnull : (VtplCmp.descNcStart ≠ .descNcStart ∨
          (¬ vaTestnull (encVa f ++ b) ∧ ¬ vaTestnull (encVa g ++ c))) ↔ ¬ (f = [] ∨ g = []) := by
        rw [vaTestnull_encVa, vaTestnull_encVa, not_or]
        exact or_iff_right fun h => h rfl
      rw [condResult, if_pos ⟨hne, VtplCmp.noConfusion⟩, if_congr hnull rfl rfl, ValueLt, ValueLt]
      by_cases hempty : f = [] ∨ g = []
      · rw [if_neg (not_not.mpr hempty), if_pos hempty, if_pos hempty.symm]
        exact hcmp
      · rw [if_pos hempty, if_neg hempty, if_neg fun h => hempty h.symm]
        rcases hcmp with ⟨hneg, hlt⟩ | ⟨hpos, hgt⟩
        · exact .inr ⟨by omega, hlt⟩
        · exact .inl ⟨by omega, hgt⟩

theorem condcompareLoop_cons (cond : VtplCmp) (conds : List VtplCmp) (hf : f.length < 2 ^ 31)
    (hg : g.length < 2 ^ 31) (b c : List UInt8) :
    (f = g ∧ condcompareLoop (cond :: conds) (encVa f ++ b) (encVa g ++ c) =
        condcompareLoop conds b c) ∨
      ∃ cmp, condcompareLoop (cond :: conds) (encVa f ++ b) (encVa g ++ c) =
          condResult cond (encVa f ++ b) (encVa g ++ c) cmp ∧
        (cmp < 0 ∧ f < g ∨ 0 < cmp ∧ g < f) := by
  have hcmp : (if min f.length g.length ≠ 0 then
      ssMemcmp (f ++ b) (g ++ c) (min f.length g.length) else 0) =
        ssMemcmp (f ++ b) (g ++ c) (min f.length g.length) := by
    split
    · rfl
    · rename_i hzero
      rw [not_not.mp hzero]
      rfl
  rw [condcompareLoop, vaGetdata_encVa (by omega), vaGetdata_encVa (by omega)]
  dsimp only
  rw [hcmp, List.drop_left, List.drop_left]
  rcases ssMemcmp_append f g b c with ⟨hneg, hlt⟩ | ⟨hpos, hgt⟩ | ⟨hzero, hpre⟩
  · rw [if_neg hneg.ne]
    exact .inr ⟨_, rfl, .inl ⟨hneg, hlt⟩⟩
  · rw [if_neg hpos.ne']
    exact .inr ⟨_, rfl, .inr ⟨hpos, hgt⟩⟩
  · rw [if_pos hzero, toInt32_of_abs_lt (by omega) (by omega)]
    rcases lt_trichotomy f.length g.length with hlt | heq | hgt
    · rw [if_pos (by omega)]
      exact .inr ⟨_, rfl, .inl ⟨by omega, lt_of_isPrefix_of_length_lt hpre hlt⟩⟩
    · obtain rfl := eq_of_isPrefix_of_length_eq hpre heq
      rw [if_neg (by omega)]
      exact .inl ⟨rfl, rfl⟩
    · rw [if_pos (by omega)]
      exact .inr ⟨_, rfl, .inr ⟨by omega, lt_of_isPrefix_of_length_lt hpre.symm hgt⟩⟩

/-- The comparison has the sign of the order by the conditions. -/
theorem condcompareLoop_sign (hv : conds.length ≤ v.length) (hw : conds.length ≤ w.length)
    (hvlen : ∀ f ∈ v, f.length < 2 ^ 31) (hwlen : ∀ g ∈ w, g.length < 2 ^ 31) (b c : List UInt8) :
    (condcompareLoop conds (encFields v ++ b) (encFields w ++ c) ≤ 0 ↔ CondLe conds v w) ∧
      (0 ≤ condcompareLoop conds (encFields v ++ b) (encFields w ++ c) ↔ CondLe conds w v) := by
  induction conds generalizing v w with
  | nil => exact ⟨iff_of_true le_rfl trivial, iff_of_true le_rfl trivial⟩
  | cons cond conds ih =>
      cases v with
      | nil => exact absurd hv (Nat.not_succ_le_zero _)
      | cons f v =>
          cases w with
          | nil => exact absurd hw (Nat.not_succ_le_zero _)
          | cons g w =>
              have hf := hvlen f (List.mem_cons_self ..)
              have hg := hwlen g (List.mem_cons_self ..)
              rw [encFields_cons, encFields_cons, List.append_assoc, List.append_assoc]
              rcases condcompareLoop_cons cond conds hf hg
                (encFields v ++ b) (encFields w ++ c) with ⟨rfl, heq⟩ | ⟨cmp, heq, hcmp⟩
              · rw [heq]
                have hrest := ih (Nat.le_of_succ_le_succ hv) (Nat.le_of_succ_le_succ hw)
                  (fun f hmem => hvlen f (List.mem_cons_of_mem _ hmem))
                  fun g hmem => hwlen g (List.mem_cons_of_mem _ hmem)
                have hself (u' v' : Fields) :
                    CondLe (cond :: conds) (f :: u') (f :: v') ↔ CondLe conds u' v' :=
                  (or_iff_right (ValueLt.irrefl cond f)).trans (and_iff_right rfl)
                rw [hself, hself]
                exact hrest
              · rw [heq]
                have hne : f ≠ g := by
                  rintro rfl
                  exact hcmp.elim (fun h => lt_irrefl f h.2) fun h => lt_irrefl f h.2
                have hle (f g : List UInt8) (v w : Fields) (hne : f ≠ g) :
                    CondLe (cond :: conds) (f :: v) (g :: w) ↔ ValueLt cond f g :=
                  or_iff_left fun h => hne h.1
                rw [hle f g v w hne, hle g f w v hne.symm]
                rcases condResult_sign cond (encFields v ++ b) (encFields w ++ c) hcmp with
                  ⟨hneg, hlt⟩ | ⟨hpos, hgt⟩
                · exact ⟨iff_of_true hneg.le hlt, iff_of_false (by omega) fun hgt =>
                    ValueLt.irrefl cond f (hlt.trans hgt)⟩
                · exact ⟨iff_of_false (by omega) fun hlt =>
                    ValueLt.irrefl cond f (hlt.trans hgt), iff_of_true hpos.le hgt⟩

/-- `vtpl_condcompare` is the order by its conditions. -/
theorem vtplCondcompare_sign (hv : conds.length ≤ v.length) (hw : conds.length ≤ w.length)
    (hvlen : netlen v < 2 ^ 31) (hwlen : netlen w < 2 ^ 31) (b c : List UInt8) :
    (vtplCondcompare conds (encVtpl v ++ b) (encVtpl w ++ c) ≤ 0 ↔ CondLe conds v w) ∧
      (0 ≤ vtplCondcompare conds (encVtpl v ++ b) (encVtpl w ++ c) ↔ CondLe conds w v) := by
  have hget {v : Fields} (hlen : netlen v < 2 ^ 31) (b : List UInt8) :
      (vaGetdata (encVtpl v ++ b)).1 = encFields v ++ b := by
    rw [encVtpl, vaGetdata_encVa (by rw [length_encFields]; omega)]
  rw [vtplCondcompare, hget hvlen, hget hwlen]
  exact condcompareLoop_sign hv hw (length_lt_of_mem hvlen) (length_lt_of_mem hwlen) b c

end SolidDB
