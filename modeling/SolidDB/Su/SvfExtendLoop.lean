import SolidDB.Su.SvfExtend

/-!
# The loop of `su_svf_extendszlocal`

The loop ends with the wanted size, or with all files full.
-/

namespace SolidDB

open BlockArray

namespace SuSvfil

variable {β : Type*} {svf svf' : SuSvfil β} {v : Vfil β} {pre post : List (Vfil β)}
  {pages new : List β} {sz : ℕ} {outcome : Option ℕ} {ok : Bool} {rc : SvfRet}

/-- The new size of the file in which the last block lies. -/
theorem newszblks_spec (hends : Fitted.Ends svf.svfNrblks pre v post) (hsz : svf.svfNrblks < sz) :
    v.vfSzblks ≤ newszblks v sz ∧ newszblks v sz ≤ v.vfMaxszblks ∧
      v.vfStartdaddr + newszblks v sz ≤ sz ∧
      (v.vfStartdaddr + newszblks v sz = sz ∨ newszblks v sz = v.vfMaxszblks) := by
  have hroom := hends.room
  have hfull := hends.full
  have hstart := hends.startdaddr
  have hszblks := hends.szblks
  unfold newszblks
  unfold Vfil.enddaddr at *
  split
  · omega
  · omega

theorem filesLeft_le_length (svf : SuSvfil β) : svf.filesLeft ≤ svf.svfVfpArr.length :=
  List.countP_le_length

structure Extends (sz : ℕ) (svf svf' : SuSvfil β) (rc : SvfRet) (new : List β) : Prop where
  grown : Grown svf svf' new
  size : svf'.svfNrblks ≤ max svf.svfNrblks sz
  success : rc = .success → sz ≤ svf'.svfNrblks
  failure : rc ≠ .success → svf'.svfNrblks < sz ∧ svfTotal svf'.svfVfpArr = svf'.svfNrblks

theorem Extends.refl (h : svf.IsFlat) (hsz : sz ≤ svf.svfNrblks) :
    Extends sz svf svf .success [] :=
  ⟨Grown.refl h, Nat.le_max_left _ _, fun _ => hsz, fun hrc => absurd rfl hrc⟩

theorem Round.trans {svf'' : SuSvfil β} {new' : List β} (h : Round sz svf svf' new)
    (h' : Extends sz svf' svf'' rc new') : Extends sz svf svf'' rc (new ++ new') where
  grown := h.grown.trans h'.grown
  size := by
    have hsize := h.size
    have hsize' := h'.size
    omega
  success := h'.success
  failure := h'.failure

variable [Zero β]

/-- A round whose physical extension comes to the old pages and some new ones. -/
theorem extendfile_round (h : svf.IsFlat) (harr : svf.svfVfpArr = pre ++ v :: post)
    (hends : Fitted.Ends svf.svfNrblks pre v post) (hsz : svf.svfNrblks < sz)
    (hext : svf.chsizeEncrypted v (newszblks v sz) outcome = (v.vfPages ++ new, ok))
    (hle : (v.vfPages ++ new).length ≤ newszblks v sz)
    (hok : ok = true → (v.vfPages ++ new).length = newszblks v sz) :
    Round sz svf (svf.extendfile sz pre.length v outcome) new := by
  obtain ⟨hold, hmax, hend, hnext⟩ := newszblks_spec hends hsz
  have hlen := hends.length
  unfold extendfile
  dsimp only
  rw [hext]
  generalize hused : (if svf.svfVfpArrused ≤ pre.length then svf.svfVfpArrused + 1
    else svf.svfVfpArrused) = used
  have harr' : ({ svf with svfVfpArrused := used } : SuSvfil β).svfVfpArr = pre ++ v :: post :=
    harr
  cases ok with
  | true =>
      have hlen' := hok rfl
      have hend' : (extended v (v.vfPages ++ new)).enddaddr = v.enddaddr := rfl
      have htakes : Takes v (extended v (v.vfPages ++ new)) new :=
        ⟨rfl, rfl, rfl, rfl, by simp only [extended]; omega, Nat.le_refl _⟩
      have hround : Round sz svf
          (svf.withFile pre (extended v (v.vfPages ++ new)) post used) new :=
        Round.withFile h harr hends htakes hused.symm (by simp only [extended]; omega)
          (by simp only [extended]; omega)
      unfold SuSvfil.withFile at hround
      rw [hend', hends.behind.rangesFrom_eq] at hround
      rw [← hlen', extendedFile_done harr']
      exact hround
  | false =>
      by_cases hzero : (v.vfPages ++ new).length = 0
      · obtain ⟨hv, hnew⟩ := List.append_eq_nil_iff.mp (List.length_eq_zero_iff.mp hzero)
        rw [extendedFile_removed harr' hzero, hnew]
        rw [hv, List.length_nil] at hlen
        exact Round.withoutFile h harr hends hlen.symm hused.symm (Nat.le_of_lt hsz)
      · have htakes : Takes v (cut v (v.vfPages ++ new)) new :=
          ⟨rfl, rfl, rfl, rfl, Nat.le_refl _, by simp only [cut]; omega⟩
        have hround : Round sz svf
            (svf.withFile pre (cut v (v.vfPages ++ new)) post used) new :=
          Round.withFile h harr hends htakes hused.symm (by simp only [cut]; omega) (.inr rfl)
        rw [extendedFile_cut harr' hzero]
        exact hround

/-! ## The loop -/

/-- The loop ends when each round does its part. `I` is what the rounds keep of the state, `A`
what the physical extensions come to, and `Q` what is known of the blocks behind an address. -/
theorem extendszlocalLoop_extends {I : SuSvfil β → Prop} {A : Option ℕ → Prop}
    {Q : ℕ → List β → Prop} (hnone : A none) (hnil : ∀ a, Q a [])
    (happend : ∀ a new new', Q a new → Q (a + new.length) new' → Q a (new ++ new'))
    (hround : ∀ (svf : SuSvfil β) pre v post outcome, I svf → svf.IsFlat → A outcome →
      svf.svfVfpArr = pre ++ v :: post → Fitted.Ends svf.svfNrblks pre v post →
      svf.svfNrblks < sz →
      ∃ new, Round sz svf (svf.extendfile sz pre.length v outcome) new ∧
        Q svf.svfNrblks new ∧ I (svf.extendfile sz pre.length v outcome))
    {rounds : ℕ} {outcomes : List (Option ℕ)} (hI : I svf) (h : svf.IsFlat)
    (hA : ∀ o ∈ outcomes, A o) (hrounds : svf.filesLeft < rounds) :
    ∃ svf' rc new, extendszlocalLoop sz rounds outcomes svf = some (svf', rc) ∧
      Extends sz svf svf' rc new ∧ Q svf.svfNrblks new ∧ I svf' := by
  induction rounds generalizing svf outcomes with
  | zero => omega
  | succ rounds ih =>
      rw [extendszlocalLoop]
      by_cases hsz : svf.svfNrblks < sz
      · rw [if_pos hsz]
        by_cases hroom : svf.svfNrblks < svfTotal svf.svfVfpArr
        · obtain ⟨pre, v, post, harr, hfind, hlow, hhigh⟩ := h.exists_file hroom
          have hends : Fitted.Ends svf.svfNrblks pre v post :=
            (harr ▸ h.fitted : Fitted svf.svfNrblks 0 (pre ++ v :: post)).ends hlow hhigh
          have hget : svf.svfVfpArr[pre.length]? = some v := by
            rw [harr, getElem?_middle]
          have houtcome : A (outcomes.headD none) := by
            cases outcomes with
            | nil => exact hnone
            | cons o outcomes => exact hA o List.mem_cons_self
          obtain ⟨new, hr, hQ, hI'⟩ :=
            hround svf pre v post (outcomes.headD none) hI h houtcome harr hends hsz
          simp only [hfind, hget]
          -- the next rounds start where this one ended, with one file less or nothing to do
          by_cases hdone : sz ≤ (svf.extendfile sz pre.length v (outcomes.headD none)).svfNrblks
          · refine ⟨_, .success, new, ?_, ?_, hQ, hI'⟩
            · cases rounds with
              | zero => rw [extendszlocalLoop, if_neg (by omega)]
              | succ rounds => rw [extendszlocalLoop, if_neg (by omega)]
            · have htrans := hr.trans (Extends.refl hr.grown.isFlat hdone)
              rwa [List.append_nil] at htrans
          · have hleft := hr.next.resolve_left hdone
            obtain ⟨svf', rc, new', hrun, hext, hQ', hI''⟩ :=
              ih hI' hr.grown.isFlat (fun o ho => hA o (List.mem_of_mem_tail ho)) (by omega)
            refine ⟨svf', rc, new ++ new', hrun, hr.trans hext, happend _ _ _ hQ ?_, hI''⟩
            have hlen := congrArg List.length hr.grown.blocks
            rw [List.length_append, hr.grown.isFlat.length_blocks, h.length_blocks] at hlen
            rwa [hlen] at hQ'
        · have hfind := findvfil_behind h.fitted (Nat.le_of_not_lt hroom)
          have hsize := h.size
          simp only [hfind]
          refine ⟨svf, .fileWriteCfgExceeded, [], rfl, ⟨Grown.refl h, Nat.le_max_left _ _,
            fun hrc => SvfRet.noConfusion hrc, fun _ => ⟨hsz, by omega⟩⟩, hnil _, hI⟩
      · rw [if_neg hsz]
        exact ⟨svf, .success, [], rfl, Extends.refl h (Nat.le_of_not_lt hsz), hnil _, hI⟩

/-! ## Without a cipher -/

/-- A physical extension leaves the old pages and zero pages behind them. -/
theorem ssBChsizePages_spec (h : pages.length ≤ sz) (outcome : Option ℕ) :
    ∃ k ok, ssBChsizePages pages sz outcome = (pages ++ List.replicate k 0, ok) ∧
      pages.length + k ≤ sz ∧ (ok = true → pages.length + k = sz) ∧
      (outcome = none → ok = true) := by
  cases outcome with
  | none =>
      refine ⟨sz - pages.length, true, ?_, by omega, fun _ => by omega, fun _ => rfl⟩
      rw [ssBChsizePages, resize_of_ge h]
  | some reached =>
      refine ⟨max pages.length (min reached sz) - pages.length, false, ?_, by omega,
        fun hok => Bool.noConfusion hok, fun hnone => by cases hnone⟩
      rw [ssBChsizePages, resize_of_ge (Nat.le_max_left _ _)]

/-- Without a cipher an extension brings zero pages, whatever the physical extensions come
to. -/
theorem extendszlocal_extends (h : svf.IsFlat) (hcipher : svf.svfCipher = none) (sz : ℕ)
    (outcomes : List (Option ℕ)) :
    ∃ svf' rc k, svf.extendszlocal sz outcomes = some (svf', rc) ∧
      Extends sz svf svf' rc (List.replicate k 0) := by
  have hround : ∀ (svf : SuSvfil β) pre v post outcome, svf.svfCipher = none → svf.IsFlat →
      True → svf.svfVfpArr = pre ++ v :: post → Fitted.Ends svf.svfNrblks pre v post →
      svf.svfNrblks < sz →
      ∃ new, Round sz svf (svf.extendfile sz pre.length v outcome) new ∧
        (∃ k, new = List.replicate k 0) ∧
        (svf.extendfile sz pre.length v outcome).svfCipher = none := by
    intro svf pre v post outcome hcipher h _ harr hends hsz
    obtain ⟨hold, -, -, -⟩ := newszblks_spec hends hsz
    have hlen := hends.length
    obtain ⟨k, ok, hext, hle, hok, -⟩ :=
      ssBChsizePages_spec (show v.vfPages.length ≤ newszblks v sz by omega) outcome
    have hencrypted : svf.chsizeEncrypted v (newszblks v sz) outcome =
        (v.vfPages ++ List.replicate k 0, ok) := by
      simp only [chsizeEncrypted, hcipher, hext]
    have hr := extendfile_round h harr hends hsz hencrypted
      (by rw [List.length_append, List.length_replicate]; exact hle)
      (fun h => by rw [List.length_append, List.length_replicate]; exact hok h)
    exact ⟨_, hr, ⟨k, rfl⟩, hr.grown.cipher.trans hcipher⟩
  obtain ⟨svf', rc, new, hrun, hext, ⟨k, rfl⟩, -⟩ :=
    extendszlocalLoop_extends (Q := fun _ (new : List β) => ∃ k, new = List.replicate k 0)
      (A := fun _ => True) (I := fun svf => svf.svfCipher = none) trivial
      (fun _ => ⟨0, rfl⟩)
      (fun _ _ _ ⟨k, hk⟩ ⟨k', hk'⟩ => ⟨k + k', by rw [hk, hk', List.replicate_append_replicate]⟩)
      hround hcipher h (fun _ _ => trivial) (Nat.lt_succ_of_le svf.filesLeft_le_length)
  exact ⟨svf', rc, k, hrun, hext⟩

end SuSvfil

end SolidDB
