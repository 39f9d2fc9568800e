import Mathlib.Data.List.Infix
import Mathlib.Order.Compare
import Mathlib.Algebra.Order.Ring.Int

/-!
# Deciding an order by beginnings

Two strings are compared from the left, a beginning before the longer one. Beginnings of
both strings decide the order as soon as they differ somewhere, or as soon as one of them
is a whole string and the other one goes on.
-/

namespace LexDecision

def lexOrder {α : Type*} [LinearOrder α] : List α → List α → Ordering
  | [], [] => .eq
  | [], _ :: _ => .lt
  | _ :: _, [] => .gt
  | a :: x, b :: y => (cmp a b).then (lexOrder x y)

def Apart {α : Type*} (x y : List α) : Prop := ¬ x <+: y ∧ ¬ y <+: x

section Apart

variable {α : Type*} {x y : List α}

theorem Apart.symm (h : Apart x y) : Apart y x := ⟨h.2, h.1⟩

theorem not_apart_nil (y : List α) : ¬ Apart [] y := fun h => h.1 List.nil_prefix

theorem not_apart_nil' (x : List α) : ¬ Apart x [] := fun h => h.2 List.nil_prefix

theorem not_apart_iff : ¬ Apart x y ↔ x <+: y ∨ y <+: x := by
  unfold Apart
  rw [not_and_or, not_not, not_not]

theorem apart_cons_cons (a b : α) (x y : List α) :
    Apart (a :: x) (b :: y) ↔ a ≠ b ∨ Apart x y := by
  unfold Apart
  rw [List.cons_prefix_cons, List.cons_prefix_cons]
  by_cases h : a = b
  · simp [h]
  · simp [h, Ne.symm h]

theorem Apart.append (h : Apart x y) (r s : List α) : Apart (x ++ r) (y ++ s) := by
  have hxr : x <+: x ++ r := List.prefix_append x r
  have hys : y <+: y ++ s := List.prefix_append y s
  constructor
  · intro hpre
    exact (List.prefix_or_prefix_of_prefix (hxr.trans hpre) hys).elim h.1 h.2
  · intro hpre
    exact (List.prefix_or_prefix_of_prefix hxr (hys.trans hpre)).elim h.1 h.2

/-- Strings of one length differ unless they are equal. -/
theorem apart_iff_ne (h : x.length = y.length) : Apart x y ↔ x ≠ y := by
  constructor
  · rintro hapart rfl
    exact hapart.1 List.prefix_rfl
  · exact fun hne =>
      ⟨fun hp => hne (hp.eq_of_length h), fun hp => hne (hp.eq_of_length h.symm).symm⟩

end Apart

variable {α : Type*} [LinearOrder α] {x y u w : List α} {o : Ordering}

theorem lexOrder_cons_cons (a b : α) (x y : List α) :
    lexOrder (a :: x) (b :: y) = (cmp a b).then (lexOrder x y) := rfl

@[simp] theorem lexOrder_self (x : List α) : lexOrder x x = .eq := by
  induction x with
  | nil => rfl
  | cons a x ih =>
      rw [lexOrder_cons_cons, cmp_self_eq_eq, ih]
      rfl

theorem lexOrder_eq_eq_iff : lexOrder x y = .eq ↔ x = y := by
  refine ⟨fun h => ?_, fun h => h ▸ lexOrder_self x⟩
  induction x generalizing y with
  | nil =>
      cases y with
      | nil => rfl
      | cons b y => cases h
  | cons a x ih =>
      cases y with
      | nil => cases h
      | cons b y =>
          rw [lexOrder_cons_cons, Ordering.then_eq_eq, cmp_eq_eq_iff] at h
          rw [h.1, ih h.2]

theorem swap_lexOrder (x y : List α) : (lexOrder x y).swap = lexOrder y x := by
  induction x generalizing y with
  | nil => cases y <;> rfl
  | cons a x ih =>
      cases y with
      | nil => rfl
      | cons b y => rw [lexOrder_cons_cons, lexOrder_cons_cons, Ordering.swap_then, cmp_swap, ih]

theorem lexOrder_append_left (r x y : List α) : lexOrder (r ++ x) (r ++ y) = lexOrder x y := by
  induction r with
  | nil => rfl
  | cons a r ih =>
      rw [List.cons_append, List.cons_append, lexOrder_cons_cons, cmp_self_eq_eq, ih]
      rfl

theorem lexOrder_of_isPrefix (h : x <+: y) (hne : x ≠ y) : lexOrder x y = .lt := by
  obtain ⟨r, rfl⟩ := h
  cases r with
  | nil => exact absurd (List.append_nil x).symm hne
  | cons a r =>
      have happ := lexOrder_append_left x [] (a :: r)
      rw [List.append_nil] at happ
      rw [happ]
      rfl

theorem Apart.lexOrder_append (h : Apart x y) (r s : List α) :
    lexOrder (x ++ r) (y ++ s) = lexOrder x y := by
  induction x generalizing y with
  | nil => exact absurd h (not_apart_nil y)
  | cons a x ih =>
      cases y with
      | nil => exact absurd h (not_apart_nil' _)
      | cons b y =>
          rw [List.cons_append, List.cons_append, lexOrder_cons_cons, lexOrder_cons_cons]
          by_cases hab : a = b
          · rw [ih (((apart_cons_cons a b x y).mp h).resolve_left fun hne => hne hab)]
          · rcases lt_or_gt_of_ne hab with hlt | hgt
            · rw [(cmp_eq_lt_iff a b).mpr hlt]
              rfl
            · rw [(cmp_eq_gt_iff a b).mpr hgt]
              rfl

/-- Strings that do not differ are ordered by their lengths. -/
theorem lexOrder_of_not_apart (h : ¬ Apart x y) : lexOrder x y = cmp x.length y.length := by
  rcases not_apart_iff.mp h with hpre | hpre
  · by_cases heq : x = y
    · rw [heq, lexOrder_self, cmp_self_eq_eq]
    · have hlen := hpre.length_le
      have hne : x.length ≠ y.length := fun e => heq (hpre.eq_of_length e)
      rw [lexOrder_of_isPrefix hpre heq, (cmp_eq_lt_iff _ _).mpr (by omega)]
  · by_cases heq : y = x
    · rw [heq, lexOrder_self, cmp_self_eq_eq]
    · have hlen := hpre.length_le
      have hne : y.length ≠ x.length := fun e => heq (hpre.eq_of_length e)
      rw [← swap_lexOrder, lexOrder_of_isPrefix hpre heq, (cmp_eq_gt_iff _ _).mpr (by omega)]
      rfl

/-! ## Decisions -/

/-- What the beginnings `x` and `y` tell about the order of two strings; the flags say which
of them is a whole string, and then the other one goes on. -/
def Decides (whole₁ whole₂ : Bool) (x y : List α) (o : Ordering) : Prop :=
  (Apart x y ∧ lexOrder x y = o) ∨
    (whole₁ = true ∧ whole₂ = false ∧ x <+: y ∧ o = .lt) ∨
    (whole₁ = false ∧ whole₂ = true ∧ y <+: x ∧ o = .gt)

variable {whole₁ whole₂ : Bool}

theorem Decides.swap (h : Decides whole₁ whole₂ x y o) : Decides whole₂ whole₁ y x o.swap := by
  rcases h with ⟨hapart, rfl⟩ | ⟨h₁, h₂, hpre, rfl⟩ | ⟨h₁, h₂, hpre, rfl⟩
  · exact .inl ⟨hapart.symm, (swap_lexOrder x y).symm⟩
  · exact .inr (.inr ⟨h₂, h₁, hpre, rfl⟩)
  · exact .inr (.inl ⟨h₂, h₁, hpre, rfl⟩)

theorem Decides.unique {o' : Ordering} (h : Decides whole₁ whole₂ x y o)
    (h' : Decides whole₁ whole₂ x y o') : o = o' := by
  rcases h with ⟨hapart, rfl⟩ | ⟨h₁, h₂, hpre, rfl⟩ | ⟨h₁, h₂, hpre, rfl⟩
  · rcases h' with ⟨-, h'⟩ | ⟨-, -, hpre, -⟩ | ⟨-, -, hpre, -⟩
    · exact h'
    · exact absurd hpre hapart.1
    · exact absurd hpre hapart.2
  · rcases h' with ⟨hapart, -⟩ | ⟨-, -, -, rfl⟩ | ⟨h₃, -, -, -⟩
    · exact absurd hpre hapart.1
    · rfl
    · exact absurd (h₁.symm.trans h₃) (by decide)
  · rcases h' with ⟨hapart, -⟩ | ⟨h₃, -, -, -⟩ | ⟨-, -, -, rfl⟩
    · exact absurd hpre hapart.2
    · exact absurd (h₁.symm.trans h₃) (by decide)
    · rfl

/-- The beginning is the whole string, or the string goes on. -/
def IsBeginning (whole : Bool) (x u : List α) : Prop :=
  x <+: u ∧ (whole = true ↔ x = u)

theorem lexOrder_of_whole (hx : x <+: y) (hy : y <+: w) (hne : y ≠ w) : lexOrder x w = .lt := by
  refine lexOrder_of_isPrefix (hx.trans hy) fun hxw => hne ?_
  have hle := hx.length_le
  rw [hxw] at hle
  exact hy.eq_of_length_le hle

theorem Decides.lexOrder_eq (h : Decides whole₁ whole₂ x y o) (hx : IsBeginning whole₁ x u)
    (hy : IsBeginning whole₂ y w) : lexOrder u w = o := by
  rcases h with ⟨hapart, hcmp⟩ | ⟨h₁, h₂, hpre, rfl⟩ | ⟨h₁, h₂, hpre, rfl⟩
  · obtain ⟨r, hr⟩ := hx.1
    obtain ⟨s, hs⟩ := hy.1
    rw [← hr, ← hs, hapart.lexOrder_append, hcmp]
  · rw [← hx.2.mp h₁]
    exact lexOrder_of_whole hpre hy.1 fun e => by simp [hy.2.mpr e] at h₂
  · rw [← hy.2.mp h₂, ← swap_lexOrder,
      lexOrder_of_whole hpre hx.1 fun e => by simp [hx.2.mpr e] at h₁]
    rfl

/-- More is known of the string, unless it was known as a whole. -/
def Extends (whole : Bool) (x u : List α) : Prop :=
  x <+: u ∧ (whole = true → x = u)

/-- What beginnings decide stays decided when more is known. -/
theorem Decides.extends (h : Decides whole₁ whole₂ x y o) (hx : Extends whole₁ x u)
    (hy : Extends whole₂ y w) : Decides whole₁ whole₂ u w o := by
  rcases h with ⟨hapart, hcmp⟩ | ⟨h₁, h₂, hpre, rfl⟩ | ⟨h₁, h₂, hpre, rfl⟩
  · obtain ⟨r, hr⟩ := hx.1
    obtain ⟨s, hs⟩ := hy.1
    rw [← hr, ← hs]
    exact .inl ⟨hapart.append r s, by rw [hapart.lexOrder_append, hcmp]⟩
  · exact .inr (.inl ⟨h₁, h₂, hx.2 h₁ ▸ hpre.trans hy.1, rfl⟩)
  · exact .inr (.inr ⟨h₁, h₂, hy.2 h₂ ▸ hpre.trans hx.1, rfl⟩)

/-! ## Numbers -/

theorem lexOrder_append_zero (x y : List ℕ) :
    lexOrder (x ++ [0]) (y ++ [0]) = lexOrder x y := by
  induction x generalizing y with
  | nil =>
      cases y with
      | nil => rfl
      | cons b y =>
          rcases Nat.eq_zero_or_pos b with rfl | hb
          · cases y <;> rfl
          · rw [List.nil_append, List.cons_append, lexOrder_cons_cons, (cmp_eq_lt_iff 0 b).mpr hb]
            rfl
  | cons a x ih =>
      cases y with
      | nil =>
          rcases Nat.eq_zero_or_pos a with rfl | ha
          · cases x <;> rfl
          · rw [List.nil_append, List.cons_append, lexOrder_cons_cons, (cmp_eq_gt_iff a 0).mpr ha]
            rfl
      | cons b y =>
          rw [List.cons_append, List.cons_append, lexOrder_cons_cons, ih, lexOrder_cons_cons]

def firstDiff : List ℕ → List ℕ → ℤ
  | a :: x, b :: y => if (a : ℤ) - b ≠ 0 then (a : ℤ) - b else firstDiff x y
  | _, _ => 0

theorem firstDiff_eq_zero_iff (x y : List ℕ) : firstDiff x y = 0 ↔ ¬ Apart x y := by
  induction x generalizing y with
  | nil => exact iff_of_true (by cases y <;> rfl) (not_apart_nil y)
  | cons a x ih =>
      cases y with
      | nil => exact iff_of_true rfl (not_apart_nil' _)
      | cons b y =>
          rw [firstDiff, apart_cons_cons]
          by_cases hab : a = b
          · rw [hab, if_neg (by omega), ih]
            simp
          · rw [if_pos (by omega)]
            exact iff_of_false (by omega) (fun h => h (.inl hab))

theorem lexOrder_of_firstDiff {x y : List ℕ} (h : firstDiff x y ≠ 0) :
    (firstDiff x y < 0 ∧ lexOrder x y = .lt) ∨ (0 < firstDiff x y ∧ lexOrder x y = .gt) := by
  induction x generalizing y with
  | nil => exact absurd (by cases y <;> rfl) h
  | cons a x ih =>
      cases y with
      | nil => exact absurd rfl h
      | cons b y =>
          rw [firstDiff] at h ⊢
          rw [lexOrder_cons_cons]
          rcases lt_trichotomy a b with hlt | rfl | hgt
          · rw [if_pos (by omega), (cmp_eq_lt_iff a b).mpr hlt]
            exact .inl ⟨by omega, rfl⟩
          · rw [if_neg (by omega)] at h ⊢
            rw [cmp_self_eq_eq]
            exact ih h
          · rw [if_pos (by omega), (cmp_eq_gt_iff a b).mpr hgt]
            exact .inr ⟨by omega, rfl⟩

/-- Only as many numbers of both strings are compared as the shorter one has. -/
theorem firstDiff_take (x y : List ℕ) :
    firstDiff (x.take (min x.length y.length)) (y.take (min x.length y.length)) =
      firstDiff x y := by
  induction x generalizing y with
  | nil => cases y <;> rfl
  | cons a x ih =>
      cases y with
      | nil => rfl
      | cons b y =>
          rw [List.length_cons, List.length_cons, Nat.add_min_add_right, List.take_succ_cons,
            List.take_succ_cons, firstDiff, firstDiff, ih]

end LexDecision
