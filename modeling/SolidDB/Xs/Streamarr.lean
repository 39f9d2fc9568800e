import Mathlib.Algebra.Order.BigOperators.Group.List
import SolidDB.Xs.MergePhases

/-!
# Stream arrays

Runs are distributed to the streams of a sort. The numbers of runs come near to a perfect
distribution, where the stream farthest from it gets the next run, and empty runs are added at the
end. The counters do not overflow.
-/

namespace SolidDB

open XsStreamstatus Polyphase

open Memory (Mem)

/-- `xs_streamarr_t`. The streams have the places from 1 to `sa_maxfiles`. -/
structure XsStreamarr where
  maxfiles : ℕ
  maxruns : Mem ℕ
  actruns : Mem ℕ
  streams : Mem XsStream
  totruns : ℕ

/-- What `xs_streamarr_endofdistribute` gives: the stream of the only run, or the streams of a
merge. -/
inductive Distribution where
  | onerun (writestream : XsStream)
  | runs (writestream : XsStream) (readstreams : List XsStream)

namespace XsStreamarr

def init (maxstreams blocksize : ℕ) (hpos : 0 < blocksize) : XsStreamarr where
  maxfiles := maxstreams
  maxruns := Function.update (Function.update (fun _ => 0) 0 1) maxstreams 1
  actruns _ := 0
  streams _ := XsStream.init blocksize hpos
  totruns := 0

/-- The loop of `xs_streamarr_nextstream` to the next perfect distribution, from `i` down to 2. -/
def shiftRuns (inc : ℕ) : ℕ → Mem ℕ → Mem ℕ
  | i + 2, maxruns =>
    shiftRuns inc (i + 1) (Function.update maxruns (i + 2) (maxruns (i + 1) + inc))
  | _, maxruns => maxruns

/-- The loop of `xs_streamarr_nextstream` over `k` files from `i` on. -/
def selectLoop (maxruns actruns : Mem ℕ) : ℕ → ℕ → ℕ → ℕ
  | 0, _, j => j
  | k + 1, i, j =>
    if (maxruns j : ℤ) - actruns j < maxruns i - actruns i then
      selectLoop maxruns actruns k (i + 1) i
    else selectLoop maxruns actruns k (i + 1) j

/-- `xs_streamarr_nextstream`, with the place of the stream. -/
def nextstream (sa : XsStreamarr) : ℕ × XsStreamarr :=
  let actruns := Function.update sa.actruns 0 (sa.actruns 0 + 1)
  let maxruns :=
    if sa.maxruns 0 < actruns 0 then
      let inc := sa.maxruns sa.maxfiles
      shiftRuns inc sa.maxfiles
        (Function.update sa.maxruns 0 (sa.maxruns 0 + (sa.maxfiles - 2) * inc))
    else sa.maxruns
  let j := selectLoop maxruns actruns (sa.maxfiles - 2) 3 2
  (j, { sa with
    totruns := sa.totruns + 1
    maxruns := maxruns
    actruns := Function.update actruns j (actruns j + 1) })

def putStream (sa : XsStreamarr) (j : ℕ) (st : XsStream) : XsStreamarr :=
  { sa with streams := Function.update sa.streams j st }

def filledStream (sa : XsStreamarr) (i : ℕ) : Option XsStream :=
  if sa.actruns i < sa.maxruns i then
    (sa.streams i).addemptyruns (sa.maxruns i - sa.actruns i)
  else some (sa.streams i)

def readstreams (sa : XsStreamarr) : List ℕ → Option (List XsStream)
  | [] => some []
  | i :: is =>
    if 0 < sa.actruns i then do
      let st ← sa.filledStream i
      let sts ← readstreams sa is
      some (st :: sts)
    else readstreams sa is

def files (sa : XsStreamarr) : List ℕ := List.range' 2 (sa.maxfiles - 1)

def endofdistribute (sa : XsStreamarr) : Option Distribution :=
  if sa.totruns = 1 then
    match sa.files.find? fun i => 0 < sa.actruns i with
    | none => none
    | some i => (sa.streams i).rewind.map .onerun
  else (sa.readstreams sa.files).map fun sts => .runs (sa.streams 1) sts

/-! ## The next perfect distribution -/

section

variable {maxruns actruns : Mem ℕ} {sa : XsStreamarr} {i j k inc : ℕ}

theorem shiftRuns_apply (inc : ℕ) : ∀ (k : ℕ) (maxruns : Mem ℕ) (i : ℕ),
    shiftRuns inc k maxruns i = if 2 ≤ i ∧ i ≤ k then maxruns (i - 1) + inc else maxruns i
  | 0, maxruns, i => (if_neg (by omega)).symm
  | 1, maxruns, i => (if_neg (by omega)).symm
  | k + 2, maxruns, i => by
      rw [shiftRuns, shiftRuns_apply inc (k + 1)]
      by_cases hi : i = k + 2
      · subst hi
        rw [if_neg (by omega), if_pos (by omega), Function.update_self]
        rfl
      · by_cases hmid : 2 ≤ i ∧ i ≤ k + 1
        · rw [if_pos hmid, if_pos (by omega), Function.update_of_ne (by omega)]
        · rw [if_neg hmid, if_neg (by omega), Function.update_of_ne hi]

theorem selectLoop_spec (maxruns actruns : Mem ℕ) (k i j : ℕ) :
    (selectLoop maxruns actruns k i j = j ∨
      i ≤ selectLoop maxruns actruns k i j ∧ selectLoop maxruns actruns k i j < i + k) ∧
    ∀ x, x = j ∨ i ≤ x ∧ x < i + k → (maxruns x : ℤ) - actruns x ≤
      maxruns (selectLoop maxruns actruns k i j) - actruns (selectLoop maxruns actruns k i j) := by
  induction k generalizing i j with
  | zero =>
      refine ⟨.inl rfl, fun x hx => ?_⟩
      obtain rfl : x = j := by omega
      exact le_rfl
  | succ k ih =>
      rw [selectLoop]
      split
      · rename_i hlt
        obtain ⟨hplace, hmost⟩ := ih (i + 1) i
        refine ⟨by omega, fun x hx => ?_⟩
        have hi := hmost i (.inl rfl)
        rcases hx with rfl | hx
        · omega
        · exact hmost x (by omega)
      · rename_i hge
        obtain ⟨hplace, hmost⟩ := ih (i + 1) j
        refine ⟨by omega, fun x hx => ?_⟩
        have hj := hmost j (.inl rfl)
        by_cases hx' : x = i
        · subst hx'
          omega
        · exact hmost x (by omega)

/-- The numbers of a perfect distribution. Before the first one only the last file gets a run. -/
structure MaxRuns (sa : XsStreamarr) (maxruns : Mem ℕ) : Prop where
  one : maxruns 1 = 0
  mono : ∀ i, 1 ≤ i → i < sa.maxfiles → maxruns i ≤ maxruns (i + 1)
  sum_eq : (sa.files.map maxruns).sum = maxruns 0
  act_le : ∀ i ∈ sa.files, sa.actruns i ≤ maxruns i
  le : maxruns 0 ≤ (sa.maxfiles - 1) * max sa.totruns 1
  perfect : (sa.totruns ≤ 1 ∧ maxruns 0 = 1 ∧
      ∀ i ∈ sa.files, maxruns i = if i = sa.maxfiles then 1 else 0) ∨
    Perfect (↑(sa.files.map maxruns) : Multiset ℕ) ∧
      ((∀ i ∈ sa.files, maxruns i = 1) ∨ ∀ i ∈ sa.files, 0 < sa.actruns i)

structure Spread (sa : XsStreamarr) : Prop where
  three_le : 3 ≤ sa.maxfiles
  actruns_zero : sa.actruns 0 = sa.totruns
  act_sum : (sa.files.map sa.actruns).sum = sa.totruns
  numbers : MaxRuns sa sa.maxruns

theorem mem_files : i ∈ sa.files ↔ 2 ≤ i ∧ i ≤ sa.maxfiles := by
  rw [files, List.mem_range'_1]
  omega

theorem eq_of_sum_le {l : List ℕ} {f g : ℕ → ℕ} (hle : ∀ i ∈ l, f i ≤ g i)
    (hsum : (l.map g).sum ≤ (l.map f).sum) : ∀ i ∈ l, f i = g i := by
  induction l with
  | nil => nofun
  | cons i l ih =>
      have hrest : (l.map f).sum ≤ (l.map g).sum :=
        List.sum_le_sum fun j hj => hle j (List.mem_cons_of_mem _ hj)
      have hi := hle i (List.mem_cons_self ..)
      rw [List.map_cons, List.map_cons, List.sum_cons, List.sum_cons] at hsum
      intro j hj
      rcases List.mem_cons.mp hj with rfl | hj
      · omega
      · exact ih (fun j hj => hle j (List.mem_cons_of_mem _ hj)) (by omega) j hj

theorem files_map (h : 3 ≤ sa.maxfiles) (maxruns : Mem ℕ) :
    ∃ a : List ℕ, sa.files.map maxruns = a ++ [maxruns sa.maxfiles] ∧
      a.length = sa.maxfiles - 2 ∧
      (sa.files.map fun i => maxruns (i - 1)) = maxruns 1 :: a := by
  obtain ⟨n, hn⟩ : ∃ n, sa.maxfiles = n + 2 := ⟨sa.maxfiles - 2, by omega⟩
  refine ⟨(List.range' 2 n).map maxruns, ?_, by rw [List.length_map, List.length_range', hn]; rfl,
    ?_⟩
  · have hfiles : n + 2 - 1 = n + 1 := rfl
    rw [files, hn, hfiles, List.range'_1_concat, List.map_append, Nat.add_comm 2 n]
    rfl
  · have hfiles : n + 2 - 1 = n + 1 := rfl
    rw [files, hn, hfiles, List.range'_succ, List.range'_succ_left, List.map_cons, List.map_map]
    rfl

theorem MaxRuns.le_last (h : MaxRuns sa maxruns) (hi : 1 ≤ i) (hle : i ≤ sa.maxfiles) :
    maxruns i ≤ maxruns sa.maxfiles := by
  induction hle using Nat.decreasingInduction with
  | self => exact le_rfl
  | of_succ k hk ih => exact (h.mono k hi hk).trans (ih (by omega))

theorem Spread.advance (h : Spread sa) (hfull : sa.maxruns 0 < sa.totruns + 1)
    (hmaxruns : maxruns = shiftRuns (sa.maxruns sa.maxfiles) sa.maxfiles
      (Function.update sa.maxruns 0
        (sa.maxruns 0 + (sa.maxfiles - 2) * sa.maxruns sa.maxfiles))) :
    MaxRuns sa maxruns ∧ sa.totruns < maxruns 0 := by
  have hthree := h.three_le
  obtain ⟨a, ha, hlength, hshift⟩ := files_map hthree sa.maxruns
  have hact := eq_of_sum_le h.numbers.act_le (by rw [h.act_sum, h.numbers.sum_eq]; omega)
  have hzero : maxruns 0 = sa.maxruns 0 + (sa.maxfiles - 2) * sa.maxruns sa.maxfiles := by
    rw [hmaxruns, shiftRuns_apply, if_neg (by omega), Function.update_self]
  have hone : maxruns 1 = 0 := by
    rw [hmaxruns, shiftRuns_apply, if_neg (by omega), Function.update_of_ne (by omega),
      h.numbers.one]
  have hfile : ∀ i, 2 ≤ i → i ≤ sa.maxfiles →
      maxruns i = sa.maxruns (i - 1) + sa.maxruns sa.maxfiles := by
    intro i hi hle
    rw [hmaxruns, shiftRuns_apply, if_pos ⟨hi, hle⟩, Function.update_of_ne (by omega)]
  have hmap : sa.files.map maxruns =
      sa.maxruns sa.maxfiles :: a.map (· + sa.maxruns sa.maxfiles) := by
    have hfiles : sa.files.map maxruns =
        (sa.files.map fun i => sa.maxruns (i - 1)).map (· + sa.maxruns sa.maxfiles) := by
      rw [List.map_map]
      exact List.map_congr_left fun i hi => hfile i (mem_files.mp hi).1 (mem_files.mp hi).2
    rw [hfiles, hshift, List.map_cons, h.numbers.one, Nat.zero_add]
  have hsum := h.numbers.sum_eq
  rw [ha, List.sum_append, List.sum_singleton] at hsum
  have hpos : 0 < sa.maxruns sa.maxfiles := by
    have hlast : sa.maxfiles ∈ sa.files := mem_files.mpr ⟨by omega, le_rfl⟩
    rcases h.numbers.perfect with ⟨-, -, hlevel⟩ | ⟨hperfect, -⟩
    · rw [hlevel _ hlast, if_pos rfl]
      exact Nat.one_pos
    · exact hperfect.pos _ (Multiset.mem_coe.mpr (List.mem_map_of_mem hlast))
  have htotal : sa.maxruns 0 = sa.totruns := by
    have hsame : sa.files.map sa.actruns = sa.files.map sa.maxruns := List.map_congr_left hact
    rw [← h.numbers.sum_eq, ← hsame, h.act_sum]
  have hinc : 0 < (sa.maxfiles - 2) * sa.maxruns sa.maxfiles :=
    Nat.mul_pos (by omega) hpos
  refine ⟨⟨hone, ?_, ?_, ?_, ?_, ?_⟩, by omega⟩
  · intro i hi hlt
    by_cases hi' : i = 1
    · rw [hi', hone]
      exact Nat.zero_le _
    · have hmono := h.numbers.mono (i - 1) (by omega) (by omega)
      rw [show i - 1 + 1 = i by omega] at hmono
      rw [hfile i (by omega) hlt.le, hfile (i + 1) (by omega) hlt, Nat.add_sub_cancel]
      exact Nat.add_le_add_right hmono _
  · rw [hmap, hzero, List.sum_cons, List.sum_map_add, List.map_id', List.map_const',
      List.sum_replicate_nat, hlength]
    omega
  · intro i hi
    obtain ⟨htwo, hle⟩ := mem_files.mp hi
    rw [hact i hi, hfile i htwo hle]
    exact (h.numbers.le_last (by omega) hle).trans (Nat.le_add_left _ _)
  · have hlast : sa.maxruns sa.maxfiles ≤ sa.totruns := by omega
    calc maxruns 0 = sa.totruns + (sa.maxfiles - 2) * sa.maxruns sa.maxfiles := by
          rw [hzero, htotal]
      _ ≤ sa.totruns + (sa.maxfiles - 2) * sa.totruns :=
          Nat.add_le_add_left (Nat.mul_le_mul_left _ hlast) _
      _ = (sa.maxfiles - 1) * sa.totruns := by
          rw [show sa.maxfiles - 1 = sa.maxfiles - 2 + 1 by omega, Nat.succ_mul, Nat.add_comm]
      _ ≤ (sa.maxfiles - 1) * max sa.totruns 1 := Nat.mul_le_mul_left _ (le_max_left _ _)
  · right
    rcases h.numbers.perfect with ⟨-, hfirst, hlevel⟩ | ⟨hperfect, hruns⟩
    · have hones : ∀ i ∈ sa.files, maxruns i = 1 := by
        intro i hi
        obtain ⟨htwo, hle⟩ := mem_files.mp hi
        have hbefore : sa.maxruns (i - 1) = 0 := by
          by_cases hi' : i = 2
          · rw [hi']
            exact h.numbers.one
          · rw [hlevel _ (mem_files.mpr ⟨by omega, by omega⟩), if_neg (by omega)]
        rw [hfile i htwo hle, hbefore, hlevel _ (mem_files.mpr ⟨by omega, le_rfl⟩), if_pos rfl]
      refine ⟨?_, .inl hones⟩
      have hreplicate : sa.files.map maxruns = List.replicate sa.files.length 1 := by
        rw [← List.map_const']
        exact List.map_congr_left hones
      rw [hreplicate, Multiset.coe_replicate]
      exact Perfect.ones _
    · rw [ha] at hperfect
      rw [hmap]
      refine ⟨hperfect.next, .inr fun i hi => ?_⟩
      rcases hruns with hones | hruns
      · rw [hact i hi, hones i hi]
        exact Nat.one_pos
      · exact hruns i hi

/-! ## The next run -/

theorem map_update_split {α β : Type*} [DecidableEq α] {l : List α} (hl : l.Nodup) {j : α}
    (hj : j ∈ l) (f : α → β) : ∃ a b, l = a ++ j :: b ∧
      ∀ x, l.map (Function.update f j x) = a.map f ++ x :: b.map f := by
  obtain ⟨a, b, rfl⟩ := List.append_of_mem hj
  obtain ⟨-, hb, hab⟩ := List.nodup_append.mp hl
  refine ⟨a, b, rfl, fun x => ?_⟩
  have ha : a.map (Function.update f j x) = a.map f :=
    List.map_congr_left fun i hi =>
      Function.update_of_ne (hab i hi j (List.mem_cons_self ..)) _ _
  have hb : b.map (Function.update f j x) = b.map f :=
    List.map_congr_left fun i hi =>
      Function.update_of_ne (fun heq : i = j => (List.nodup_cons.mp hb).1 (heq ▸ hi)) _ _
  rw [List.map_append, List.map_cons, ha, hb, Function.update_self]

theorem files_nodup (sa : XsStreamarr) : sa.files.Nodup := List.nodup_range'

theorem sum_update_succ (hj : j ∈ sa.files) (f : ℕ → ℕ) :
    (sa.files.map (Function.update f j (f j + 1))).sum = (sa.files.map f).sum + 1 := by
  obtain ⟨a, b, hsplit, hmap⟩ := map_update_split sa.files_nodup hj f
  have hsame := hmap (f j)
  rw [Function.update_eq_self] at hsame
  rw [hmap, hsame, List.sum_append, List.sum_append, List.sum_cons, List.sum_cons]
  omega

def addrun (sa : XsStreamarr) (maxruns : Mem ℕ) (j : ℕ) : XsStreamarr := { sa with
  totruns := sa.totruns + 1
  maxruns := maxruns
  actruns := Function.update (Function.update sa.actruns 0 (sa.actruns 0 + 1)) j
    (sa.actruns j + 1) }

theorem addrun_actruns (maxruns : Mem ℕ) (j : ℕ) (hi : i ∈ sa.files) :
    (sa.addrun maxruns j).actruns i = Function.update sa.actruns j (sa.actruns j + 1) i := by
  have hi' := (mem_files.mp hi).1
  change Function.update _ j _ i = _
  simp only [Function.update_apply, if_neg (show i ≠ 0 by omega)]

theorem le_addrun_actruns (hi : i ∈ sa.files) :
    sa.actruns i ≤ (sa.addrun maxruns j).actruns i := by
  rw [addrun_actruns maxruns j hi]
  by_cases hij : i = j
  · rw [hij, Function.update_self]
    exact Nat.le_succ _
  · rw [Function.update_of_ne hij]

theorem Spread.addrun (h : Spread sa) (hnumbers : MaxRuns sa maxruns)
    (hlt : sa.totruns < maxruns 0) (hj : j ∈ sa.files) (hroom : sa.actruns j < maxruns j) :
    Spread (sa.addrun maxruns j) := by
  have htwo := (mem_files.mp hj).1
  have hact : (sa.addrun maxruns j).files.map (sa.addrun maxruns j).actruns =
      sa.files.map (Function.update sa.actruns j (sa.actruns j + 1)) :=
    List.map_congr_left fun i hi => addrun_actruns maxruns j hi
  refine ⟨h.three_le, ?_, ?_, hnumbers.one, hnumbers.mono, hnumbers.sum_eq, fun i hi => ?_, ?_, ?_⟩
  · change Function.update _ _ _ 0 = _
    rw [Function.update_of_ne (by omega), Function.update_self, h.actruns_zero]
    rfl
  · rw [hact, sum_update_succ hj, h.act_sum]
    rfl
  · rw [addrun_actruns maxruns j (show i ∈ sa.files from hi)]
    by_cases hij : i = j
    · rw [hij, Function.update_self]
      exact hroom
    · rw [Function.update_of_ne hij]
      exact hnumbers.act_le i hi
  · exact hnumbers.le.trans (Nat.mul_le_mul_left _ (max_le_max_right 1 (Nat.le_succ _)))
  · rcases hnumbers.perfect with ⟨-, hone, hlevel⟩ | ⟨hperfect, hruns⟩
    · exact .inl ⟨by rw [hone] at hlt; exact hlt, hone, hlevel⟩
    · exact .inr ⟨hperfect, hruns.imp_right fun hruns i hi =>
        (hruns i hi).trans_le (le_addrun_actruns hi)⟩

/-- The run goes to a file that has room in the distribution. -/
theorem Spread.nextstream (h : Spread sa) :
    ∃ j maxruns, sa.nextstream = (j, sa.addrun maxruns j) ∧ j ∈ sa.files ∧
      Spread (sa.addrun maxruns j) := by
  have hthree := h.three_le
  obtain ⟨maxruns, hmaxruns, hnumbers, hlt⟩ : ∃ maxruns, (if sa.maxruns 0 < sa.actruns 0 + 1 then
      shiftRuns (sa.maxruns sa.maxfiles) sa.maxfiles (Function.update sa.maxruns 0
        (sa.maxruns 0 + (sa.maxfiles - 2) * sa.maxruns sa.maxfiles))
      else sa.maxruns) = maxruns ∧ MaxRuns sa maxruns ∧ sa.totruns < maxruns 0 := by
    refine ⟨_, rfl, ?_⟩
    rw [h.actruns_zero]
    split
    · rename_i hfull
      exact h.advance hfull rfl
    · exact ⟨h.numbers, by omega⟩
  obtain ⟨hplace, hmost⟩ := selectLoop_spec maxruns
    (Function.update sa.actruns 0 (sa.actruns 0 + 1)) (sa.maxfiles - 2) 3 2
  rw [XsStreamarr.nextstream]
  dsimp only
  rw [Function.update_self, hmaxruns]
  generalize selectLoop maxruns (Function.update sa.actruns 0 (sa.actruns 0 + 1))
    (sa.maxfiles - 2) 3 2 = j at hplace hmost ⊢
  have hj : j ∈ sa.files := mem_files.mpr (by omega)
  refine ⟨j, maxruns, ?_, hj, h.addrun hnumbers hlt hj ?_⟩
  · rw [Function.update_of_ne (show j ≠ 0 by omega)]
    rfl
  · obtain ⟨i, hi, hless⟩ : ∃ i ∈ sa.files, sa.actruns i < maxruns i := by
      by_contra hnone
      push Not at hnone
      have hsum : (sa.files.map maxruns).sum ≤ (sa.files.map sa.actruns).sum :=
        List.sum_le_sum hnone
      rw [hnumbers.sum_eq, h.act_sum] at hsum
      omega
    have hi' := mem_files.mp hi
    have hgain := hmost i (by omega)
    rw [Function.update_of_ne (by omega), Function.update_of_ne (by omega)] at hgain
    omega

theorem spread_init {maxstreams blocksize : ℕ} (hpos : 0 < blocksize) (hthree : 3 ≤ maxstreams) :
    Spread (init maxstreams blocksize hpos) := by
  have hzero : ((init maxstreams blocksize hpos).files.map fun _ => 0).sum = 0 :=
    List.sum_eq_zero fun x hx => by
      obtain ⟨-, -, rfl⟩ := List.mem_map.mp hx
      rfl
  have hlevel : ∀ i, 1 ≤ i →
      (init maxstreams blocksize hpos).maxruns i = if i = maxstreams then 1 else 0 := by
    intro i hi
    change Function.update _ _ _ i = _
    rw [Function.update_apply, Function.update_of_ne (by omega)]
  have hfirst : (init maxstreams blocksize hpos).maxruns 0 = 1 := by
    change Function.update _ _ _ 0 = _
    rw [Function.update_of_ne (by omega), Function.update_self]
  refine ⟨hthree, rfl, hzero, ?_, fun i hi hlt => ?_, ?_, fun i hi => Nat.zero_le _, ?_,
    .inl ⟨Nat.zero_le 1, hfirst, fun i hi => hlevel i (by have := mem_files.mp hi; omega)⟩⟩
  · rw [hlevel 1 le_rfl, if_neg (by omega)]
  · rw [hlevel i hi, if_neg (show ¬ i = maxstreams from Nat.ne_of_lt hlt)]
    exact Nat.zero_le _
  · have hlast : maxstreams ∈ (init maxstreams blocksize hpos).files :=
      mem_files.mpr ⟨by omega, le_rfl⟩
    have hmap : (init maxstreams blocksize hpos).files.map
        (init maxstreams blocksize hpos).maxruns = (init maxstreams blocksize hpos).files.map
          (Function.update (fun _ => 0) maxstreams (0 + 1)) := by
      refine List.map_congr_left fun i hi => ?_
      rw [hlevel i (by have := mem_files.mp hi; omega), Function.update_apply]
    rw [hmap, sum_update_succ hlast, hzero, hfirst]
  · rw [hfirst]
    exact Nat.mul_pos (by change 0 < maxstreams - 1; omega) (by omega)

end

/-! ## The streams -/

section

variable {ρ : Type} (toRow : ρ → SortRow) (comp : List UInt8 → List UInt8 → ℤ) (blocksize : ℕ)

structure Distributing (sa : XsStreamarr) (runs : Mem (List (List ρ))) : Prop where
  spread : Spread sa
  writing : ∀ i, Writing toRow blocksize (sa.streams i) (runs i) []
  count : ∀ i ∈ sa.files, (runs i).length = sa.actruns i
  one : runs 1 = []
  sorted : ∀ i, ∀ run ∈ runs i, run.Pairwise (ComparLe (rowComp toRow comp))

def distributedRows (sa : XsStreamarr) (runs : Mem (List (List ρ))) : List ρ :=
  (sa.files.map fun i => (runs i).flatten).flatten

end

section

variable {ρ : Type} {toRow : ρ → SortRow} {comp : List UInt8 → List UInt8 → ℤ} {blocksize : ℕ}
  {sa : XsStreamarr} {runs : Mem (List (List ρ))}
  {j : ℕ} {maxruns : Mem ℕ} {st : XsStream} {run : List ρ}

theorem distributing_init {maxstreams : ℕ} (hpos : 0 < blocksize) (hthree : 3 ≤ maxstreams) :
    Distributing toRow comp blocksize (init maxstreams blocksize hpos) fun _ => [] where
  spread := spread_init hpos hthree
  writing _ := writing_init hpos
  count _ _ := rfl
  one := rfl
  sorted _ := nofun

theorem Spread.putStream (h : Spread sa) (j : ℕ) (st : XsStream) : Spread (sa.putStream j st) :=
  ⟨h.three_le, h.actruns_zero, h.act_sum, h.numbers.one, h.numbers.mono, h.numbers.sum_eq,
    h.numbers.act_le, h.numbers.le, h.numbers.perfect⟩

theorem Distributing.addrun (h : Distributing toRow comp blocksize sa runs)
    (hspread : Spread (sa.addrun maxruns j)) (hj : j ∈ sa.files)
    (hst : Writing toRow blocksize st (runs j ++ [run]) [])
    (hrun : run.Pairwise (ComparLe (rowComp toRow comp))) :
    Distributing toRow comp blocksize ((sa.addrun maxruns j).putStream j st)
      (Function.update runs j (runs j ++ [run])) := by
  have htwo := (mem_files.mp hj).1
  refine ⟨hspread.putStream j st, fun i => ?_, fun i hi => ?_, ?_, fun i r hr => ?_⟩
  · change Writing toRow blocksize (Function.update sa.streams j st i) _ _
    by_cases hij : i = j
    · rw [hij, Function.update_self, Function.update_self]
      exact hst
    · rw [Function.update_of_ne hij, Function.update_of_ne hij]
      exact h.writing i
  · have hact := addrun_actruns maxruns j (show i ∈ sa.files from hi)
    refine Eq.trans ?_ hact.symm
    by_cases hij : i = j
    · rw [hij, Function.update_self, Function.update_self, List.length_append,
        List.length_singleton, h.count j hj]
    · rw [Function.update_of_ne hij, Function.update_of_ne hij]
      exact h.count i hi
  · rw [Function.update_of_ne (by omega)]
    exact h.one
  · by_cases hij : i = j
    · rw [hij, Function.update_self] at hr
      rcases List.mem_append.mp hr with hr | hr
      · exact h.sorted j r hr
      · rw [List.mem_singleton.mp hr]
        exact hrun
    · rw [Function.update_of_ne hij] at hr
      exact h.sorted i r hr

theorem distributedRows_update (sa : XsStreamarr) (hj : j ∈ sa.files)
    (runs : Mem (List (List ρ))) (run : List ρ) :
    (distributedRows sa (Function.update runs j (runs j ++ [run]))).Perm
      (distributedRows sa runs ++ run) := by
  obtain ⟨a, b, -, hmap⟩ := map_update_split sa.files_nodup hj runs
  have hsame := hmap (runs j)
  rw [Function.update_eq_self] at hsame
  have hrows (f : Mem (List (List ρ))) :
      distributedRows sa f = ((sa.files.map f).map List.flatten).flatten := by
    rw [distributedRows, List.map_map]
    rfl
  rw [hrows, hrows, hmap, hsame]
  simp only [List.map_append, List.map_cons, List.flatten_append, List.flatten_cons,
    List.flatten_nil, List.append_nil, List.append_assoc]
  exact List.Perm.append_left _ (List.Perm.append_left _ List.perm_append_comm)

/-! ## The end of the distribution -/

def distributedRuns (sa : XsStreamarr) (runs : Mem (List (List ρ))) :
    List (ℕ × List (List ρ)) :=
  (sa.files.filter fun i => 0 < sa.actruns i).map fun i => (sa.maxruns i - sa.actruns i, runs i)

theorem Distributing.filledStream (h : Distributing toRow comp blocksize sa runs)
    (hj : j ∈ sa.files) (hact : 0 < sa.actruns j) :
    ∃ st, sa.filledStream j = some st ∧
      Distributed toRow blocksize st (sa.maxruns j - sa.actruns j) (runs j) := by
  have hw := h.writing j
  have hdata := hw.data_eq
  rw [rowItems_nil, List.append_nil] at hdata
  have hne : runs j ≠ [] := List.ne_nil_of_length_pos (by rw [h.count j hj]; exact hact)
  rw [XsStreamarr.filledStream]
  split
  · rename_i hless
    rw [XsStream.addemptyruns, if_pos (by omega)]
    exact ⟨_, rfl, hw.nocur, hw.blocksize_eq, rfl, hne, hdata⟩
  · rename_i hfull
    refine ⟨_, rfl, hw.nocur, hw.blocksize_eq, ?_, hne, hdata⟩
    rw [hw.nemptyruns_eq]
    omega

theorem Distributing.readstreams (h : Distributing toRow comp blocksize sa runs) (is : List ℕ)
    (his : ∀ i ∈ is, i ∈ sa.files) :
    ∃ sts, sa.readstreams is = some sts ∧
      List.Forall₂ (fun st d => Distributed toRow blocksize st d.1 d.2) sts
        ((is.filter fun i => 0 < sa.actruns i).map fun i =>
          (sa.maxruns i - sa.actruns i, runs i)) := by
  induction is with
  | nil => exact ⟨[], rfl, .nil⟩
  | cons i is ih =>
      obtain ⟨sts, hsts, hdist⟩ := ih fun i hi => his i (List.mem_cons_of_mem _ hi)
      rw [XsStreamarr.readstreams]
      by_cases hact : 0 < sa.actruns i
      · obtain ⟨st, hst, hd⟩ := h.filledStream (his i (List.mem_cons_self ..)) hact
        rw [if_pos hact, hst, hsts, List.filter_cons, if_pos (decide_eq_true hact)]
        exact ⟨_, rfl, .cons hd hdist⟩
      · rw [if_neg hact, List.filter_cons, if_neg (mt of_decide_eq_true hact)]
        exact ⟨sts, hsts, hdist⟩

theorem Distributing.flatten_filter (h : Distributing toRow comp blocksize sa runs) {is : List ℕ}
    (his : ∀ i ∈ is, i ∈ sa.files) :
    ((is.filter fun i => 0 < sa.actruns i).map fun i => (runs i).flatten).flatten =
      (is.map fun i => (runs i).flatten).flatten := by
  induction is with
  | nil => rfl
  | cons i is ih =>
      have hrest := ih fun i hi => his i (List.mem_cons_of_mem _ hi)
      rw [List.filter_cons]
      by_cases hact : 0 < sa.actruns i
      · rw [if_pos (decide_eq_true hact), List.map_cons, List.map_cons, List.flatten_cons,
          List.flatten_cons, hrest]
      · have hnil : runs i = [] := List.eq_nil_of_length_eq_zero (by
          rw [h.count i (his i (List.mem_cons_self ..))]
          omega)
        rw [if_neg (mt of_decide_eq_true hact), List.map_cons, List.flatten_cons, hnil,
          List.flatten_nil, List.nil_append, hrest]

theorem Distributing.flatten_empty (h : Distributing toRow comp blocksize sa runs) (is : List ℕ)
    (his : ∀ i ∈ is, i ∈ sa.files ∧ sa.actruns i = 0) :
    (is.map fun i => (runs i).flatten).flatten = [] := by
  refine List.flatten_eq_nil_iff.mpr fun rows hrows => ?_
  obtain ⟨i, hi, rfl⟩ := List.mem_map.mp hrows
  obtain ⟨hfile, hzero⟩ := his i hi
  rw [List.eq_nil_of_length_eq_zero ((h.count i hfile).trans hzero), List.flatten_nil]

theorem Distributing.rows_empty (h : Distributing toRow comp blocksize sa runs)
    (hzero : sa.totruns = 0) : distributedRows sa runs = [] :=
  h.flatten_empty sa.files fun i hi => by
    have hsum := h.spread.act_sum
    have hle := List.le_sum_of_mem (List.mem_map_of_mem (f := sa.actruns) hi)
    exact ⟨hi, by omega⟩

theorem Distributing.endofdistribute_one (h : Distributing toRow comp blocksize sa runs)
    (hone : sa.totruns = 1) :
    ∃ st run, sa.endofdistribute = some (.onerun st) ∧ distributedRows sa runs = run ∧
      run.Pairwise (ComparLe (rowComp toRow comp)) ∧
      st.tf.file.data = itemBytes (runItems toRow [run]) := by
  have hsum := h.spread.act_sum
  rw [hone] at hsum
  cases hfind : sa.files.find? fun i => 0 < sa.actruns i with
  | none =>
      have hzero : (sa.files.map sa.actruns).sum = 0 := List.sum_eq_zero fun x hx => by
        obtain ⟨i, hi, rfl⟩ := List.mem_map.mp hx
        have hnot := List.find?_eq_none.mp hfind i hi
        rw [decide_eq_true_eq] at hnot
        omega
      omega
  | some i =>
      obtain ⟨hi, a, b, hsplit, hbefore⟩ := List.find?_eq_some_iff_append.mp hfind
      rw [decide_eq_true_eq] at hi
      have hmem : ∀ j ∈ a ++ i :: b, j ∈ sa.files := fun j hj => hsplit ▸ hj
      rw [hsplit, List.map_append, List.map_cons, List.sum_append, List.sum_cons] at hsum
      -- the other streams are empty
      have ha := h.flatten_empty a fun j hj => by
        refine ⟨hmem j (List.mem_append_left _ hj), ?_⟩
        have hnot := hbefore j hj
        rw [Bool.not_eq_true', decide_eq_false_iff_not] at hnot
        omega
      have hb := h.flatten_empty b fun j hj => by
        refine ⟨hmem j (List.mem_append_right _ (List.mem_cons_of_mem _ hj)), ?_⟩
        have hle := List.le_sum_of_mem (List.mem_map_of_mem (f := sa.actruns) hj)
        omega
      have hrun : (runs i).length = 1 := by
        rw [h.count i (hmem i (List.mem_append_right _ (List.mem_cons_self ..)))]
        omega
      obtain ⟨run, hruns⟩ := List.length_eq_one_iff.mp hrun
      have hw := h.writing i
      rw [hruns] at hw
      obtain ⟨st, hrewind, -, -, -, hfile⟩ := hw.rewind
      refine ⟨st, run, ?_, ?_, h.sorted i run (by rw [hruns]; exact List.mem_singleton_self run),
        by rw [hfile, hw.data_eq, rowItems_nil, List.append_nil]⟩
      · rw [endofdistribute, if_pos hone, hfind]
        dsimp only
        rw [hrewind, Option.map_some]
      · rw [distributedRows, hsplit, List.map_append, List.map_cons, List.flatten_append, ha,
          List.flatten_cons, hb, hruns, List.flatten_singleton, List.nil_append, List.append_nil]

/-- The streams of a merge have perfect numbers of runs. -/
theorem Distributing.endofdistribute_runs (h : Distributing toRow comp blocksize sa runs)
    (htwo : 2 ≤ sa.totruns) :
    ∃ sts, sa.endofdistribute = some (.runs (sa.streams 1) sts) ∧
      List.Forall₂ (fun st d => Distributed toRow blocksize st d.1 d.2) sts
        (distributedRuns sa runs) ∧
      Perfect (↑((distributedRuns sa runs).map fun d => d.1 + d.2.length) : Multiset ℕ) ∧
      ∀ d ∈ distributedRuns sa runs, d.1 + d.2.length ≤ sa.maxruns 0 := by
  obtain ⟨sts, hsts, hdist⟩ := h.readstreams sa.files fun i hi => hi
  have hcount : ∀ i ∈ sa.files,
      sa.maxruns i - sa.actruns i + (runs i).length = sa.maxruns i := by
    intro i hi
    have hle := h.spread.numbers.act_le i hi
    rw [h.count i hi]
    omega
  have hcounts : ((distributedRuns sa runs).map fun d => d.1 + d.2.length) =
      (sa.files.filter fun i => 0 < sa.actruns i).map sa.maxruns := by
    rw [distributedRuns, List.map_map]
    exact List.map_congr_left fun i hi => hcount i (List.mem_of_mem_filter hi)
  refine ⟨sts, ?_, hdist, ?_, fun d hd => ?_⟩
  · rw [endofdistribute, if_neg (by omega), hsts, Option.map_some]
  · rw [hcounts]
    rcases h.spread.numbers.perfect with ⟨hle, -⟩ | ⟨hperfect, hones | hruns⟩
    · omega
    · have hreplicate : (sa.files.filter fun i => 0 < sa.actruns i).map sa.maxruns =
          List.replicate (sa.files.filter fun i => 0 < sa.actruns i).length 1 := by
        rw [← List.map_const']
        exact List.map_congr_left fun i hi => hones i (List.mem_of_mem_filter hi)
      rw [hreplicate, Multiset.coe_replicate]
      exact Perfect.ones _
    · rw [List.filter_eq_self.mpr fun i hi => decide_eq_true (hruns i hi)]
      exact hperfect
  · obtain ⟨i, hi, rfl⟩ := List.mem_map.mp hd
    rw [hcount i (List.mem_of_mem_filter hi), ← h.spread.numbers.sum_eq]
    exact List.le_sum_of_mem (List.mem_map_of_mem (List.mem_of_mem_filter hi))

end

end XsStreamarr

end SolidDB
