import P2Pool.Compact
import P2Pool.Types

/-! `DifficultyCalculator.NextTarget` of `internal/sharechain`. The target time enters the source
only as `int64(dc.targetTime.Seconds())`, so the calculator is kept as that number of seconds. -/
namespace P2Pool.Difficulty
open Util Compact Types

def difficultyAdjustmentWindow : Nat := 72

def maxShareTargetBits : UInt32 := 0x207fffff

def maxShareTarget : Int := compactToTarget maxShareTargetBits

structure DifficultyCalculator where
  targetSeconds : Int

/- The trimming loop: the window is cut before the first share whose target is missing, zero,
or more than 4x away from the newest share's. -/
def trimWindow (upper lower : Int) : List Share → List Share
  | [] => []
  | s :: rest =>
    match s.shareTarget with
    | none => []
    | some st => if st = 0 ∨ upper < st ∨ st < lower then [] else s :: trimWindow upper lower rest

def clampTarget (currentTarget newTarget : Int) : Int :=
  let maxAdjust := currentTarget * 4
  let minAdjust := currentTarget / 4
  let newTarget := if newTarget > maxAdjust then maxAdjust else newTarget
  let newTarget := if newTarget < minAdjust then minAdjust else newTarget
  if newTarget > maxShareTarget then maxShareTarget else newTarget

def DifficultyCalculator.nextTarget (dc : DifficultyCalculator) (shares : List Share) : Int :=
  if shares.length < 2 then maxShareTarget else
  match shares.take difficultyAdjustmentWindow with
  | [] => maxShareTarget
  | newest :: older =>
    match newest.shareTarget with
    | none => maxShareTarget
    | some currentTarget =>
      if currentTarget = 0 then maxShareTarget else
      let window := newest :: trimWindow (currentTarget * 4) (currentTarget / 4) older
      if window.length < 2 then compactRoundTrip currentTarget else
      let oldest := window.getLast (List.cons_ne_nil _ _)
      let actualTime : Int := (newest.header.timestamp.toNat : Int) - oldest.header.timestamp.toNat
      let actualTime := if actualTime ≤ 0 then 1 else actualTime
      let expectedTime := dc.targetSeconds * ((window.length - 1 : Nat) : Int)
      let expectedTime := if expectedTime ≤ 0 then 1 else expectedTime
      compactRoundTrip (clampTarget currentTarget (currentTarget * actualTime / expectedTime))

theorem maxShareTargetEq : maxShareTarget = 0x7fffff * 2 ^ 232 := by
  rw [maxShareTarget, show maxShareTargetBits = UInt32.ofNat (32 * 2 ^ 24 + 0x7fffff) from rfl,
    compactToTargetOfFields (by norm_num) (by norm_num)]
  norm_num

/- The three clamps of `NextTarget` are a `min`, a `max` and a `min`. -/
theorem clampTargetEq (t x : Int) : clampTarget t x = min (max (min x (t * 4)) (t / 4)) maxShareTarget := by
  simp only [clampTarget]
  split_ifs <;> omega

theorem clampTargetBounds {t x : Int} (ht : 0 < t) (hmax : t ≤ maxShareTarget) :
    t / 4 ≤ clampTarget t x ∧ clampTarget t x ≤ min (4 * t) maxShareTarget := by
  rw [clampTargetEq]
  omega

theorem nextTargetCases (dc : DifficultyCalculator) (newest : Share) (older : List Share) (t : Int)
    (hold : older ≠ []) (ht : newest.shareTarget = some t) (hpos : t ≠ 0) :
    dc.nextTarget (newest :: older) = compactRoundTrip t ∨
      ∃ y, dc.nextTarget (newest :: older) = compactRoundTrip (clampTarget t y) := by
  have hlen : ¬ (newest :: older).length < 2 := by
    cases older with
    | nil => exact absurd rfl hold
    | cons _ _ => simp
  simp only [DifficultyCalculator.nextTarget, hlen, if_false, difficultyAdjustmentWindow,
    List.take_succ_cons, ht, hpos]
  split
  · exact .inl rfl
  · exact .inr ⟨_, rfl⟩

theorem ltTwoPow256OfLeMax {t : Int} (hmax : t ≤ maxShareTarget) : t < 2 ^ 256 := by
  rw [maxShareTargetEq] at hmax
  omega

theorem nextTargetWithinNormalizedClamp (dc : DifficultyCalculator) (newest : Share)
    (older : List Share) (t : Int) (hold : older ≠ []) (ht : newest.shareTarget = some t)
    (hpos : 0 < t) (hmax : t ≤ maxShareTarget) :
    compactRoundTrip (t / 4) ≤ dc.nextTarget (newest :: older) ∧
      dc.nextTarget (newest :: older) ≤ min (4 * t) maxShareTarget := by
  have hbig := ltTwoPow256OfLeMax hmax
  have hM := ltTwoPow256OfLeMax (le_refl maxShareTarget)
  rcases nextTargetCases dc newest older t hold ht hpos.ne' with h | ⟨y, h⟩ <;> rw [h]
  · have := (roundTripBounds hpos.le hbig).2
    exact ⟨roundTripMonotone (by omega) (by omega) hbig, by omega⟩
  · obtain ⟨lo, hi⟩ := clampTargetBounds (x := y) hpos hmax
    have := (roundTripBounds (by omega) (by omega : clampTarget t y < 2 ^ 256)).2
    exact ⟨roundTripMonotone (by omega) lo (by omega), by omega⟩

theorem nextTargetWithinNormalizedClampExample :
    let s : Share := ⟨default, some 0x4000004, ""⟩
    [s] ≠ [] ∧ s.shareTarget = some 0x4000004 ∧ 0 < (0x4000004 : Int) ∧ (0x4000004 : Int) ≤ maxShareTarget ∧
      (compactRoundTrip (0x4000004 / 4) ≤ (⟨30⟩ : DifficultyCalculator).nextTarget [s, s] ∧
        (⟨30⟩ : DifficultyCalculator).nextTarget [s, s] ≤ min (4 * 0x4000004) maxShareTarget) :=
  have hmax : (0x4000004 : Int) ≤ maxShareTarget := by rw [maxShareTargetEq]; norm_num
  ⟨by simp, rfl, by norm_num, hmax,
    nextTargetWithinNormalizedClamp ⟨30⟩ ⟨default, some 0x4000004, ""⟩ _ 0x4000004 (by simp) rfl
      (by norm_num) hmax⟩

theorem retargetBelowQuarter :
    let s : Share := ⟨default, some 0x4000004, ""⟩
    0 < (0x4000004 : Int) ∧ (0x4000004 : Int) ≤ maxShareTarget ∧
      (⟨30⟩ : DifficultyCalculator).nextTarget [s, s] < 0x4000004 / 4 := by
  intro s
  refine ⟨by norm_num, by rw [maxShareTargetEq]; norm_num, ?_⟩
  have hclamp : clampTarget 0x4000004 2236962 = 16777217 := by
    simp only [clampTarget, maxShareTargetEq]; norm_num
  have hlen : (bigBytes 16777217).length = 4 := by simp [bigBytes]
  have hround : compactRoundTrip 16777217 = 16777216 := by
    have h := roundTripGrid (n := 16777217) (by rw [hlen]; norm_num) (by rw [hlen]; norm_num)
    rw [gridExp, hlen, if_neg (by norm_num)] at h
    norm_num at h
    exact h
  simp [DifficultyCalculator.nextTarget, s, difficultyAdjustmentWindow, trimWindow, hclamp, hround]

/- The length of `window` when `NextTarget` reads its timestamps: the first 72 shares, cut by the
trimming loop when the newest share has a nonzero target. -/
def trimmedLength (shares : List Share) : Nat :=
  match shares.take difficultyAdjustmentWindow with
  | [] => 0
  | newest :: older =>
    match newest.shareTarget with
    | some t => if t = 0 then older.length + 1 else (trimWindow (t * 4) (t / 4) older).length + 1
    | none => older.length + 1

/- `int64(shares[i].Header.Timestamp)`. -/
def timestampAt (shares : List Share) (i : Nat) : Int :=
  match shares[i]? with
  | some s => s.header.timestamp.toNat
  | none => 0

/- The arithmetic `NextTarget` applies to a trimmed window of `m` shares spanning `span` seconds,
from the newest share's target `t`. -/
def retarget (dc : DifficultyCalculator) (t : Int) (m : Nat) (span : Int) : Int :=
  let actualTime := if span ≤ 0 then 1 else span
  let expectedTime := dc.targetSeconds * ((m - 1 : Nat) : Int)
  let expectedTime := if expectedTime ≤ 0 then 1 else expectedTime
  compactRoundTrip (clampTarget t (t * actualTime / expectedTime))

theorem trimWindowLengthCongr (upper lower : Int) {xs ys : List Share}
    (h : xs.map (·.shareTarget) = ys.map (·.shareTarget)) :
    (trimWindow upper lower xs).length = (trimWindow upper lower ys).length := by
  induction xs generalizing ys with
  | nil => cases ys <;> simp_all [trimWindow]
  | cons x xs ih =>
    cases ys with
    | nil => simp at h
    | cons y ys =>
      simp only [List.map_cons, List.cons.injEq] at h
      simp only [trimWindow, h.1]
      split
      · rfl
      · split_ifs <;> simp [ih h.2]

theorem trimWindowPrefix (upper lower : Int) (xs : List Share) : trimWindow upper lower xs <+: xs := by
  induction xs with
  | nil => exact List.prefix_refl _
  | cons x xs ih =>
    simp only [trimWindow]
    split
    · exact List.nil_prefix
    · split_ifs
      · exact List.nil_prefix
      · exact List.prefix_cons_inj x |>.mpr ih

theorem trimmedLengthCongr {w1 w2 : List Share} (h : w1.map (·.shareTarget) = w2.map (·.shareTarget)) :
    trimmedLength w1 = trimmedLength w2 := by
  have ht : (w1.take difficultyAdjustmentWindow).map (·.shareTarget) =
      (w2.take difficultyAdjustmentWindow).map (·.shareTarget) := by rw [List.map_take, List.map_take, h]
  unfold trimmedLength
  generalize w1.take difficultyAdjustmentWindow = l1 at ht
  generalize w2.take difficultyAdjustmentWindow = l2 at ht
  match l1, l2, ht with
  | [], [], _ => rfl
  | x :: xs, y :: ys, ht =>
    simp only [List.map_cons, List.cons.injEq] at ht
    have hlen : xs.length = ys.length := by simpa using congrArg List.length ht.2
    simp only [ht.1]
    split
    · split_ifs
      · rw [hlen]
      · rw [trimWindowLengthCongr _ _ ht.2]
    · rw [hlen]

theorem maxShareTargetPos : 0 < maxShareTarget := by rw [maxShareTargetEq]; norm_num

theorem clampTargetMono (t : Int) {x y : Int} (h : x ≤ y) : clampTarget t x ≤ clampTarget t y := by
  rw [clampTargetEq, clampTargetEq]
  exact min_le_min_right _ (max_le_max (min_le_min_right _ h) le_rfl)

/- For a target that is not positive the two 4x clamps cross and pin the result to `t / 4`. -/
theorem clampTargetNonpos {t : Int} (ht : t ≤ 0) (x : Int) : clampTarget t x = t / 4 := by
  have := maxShareTargetPos
  rw [clampTargetEq]
  omega

theorem clampTargetRange {t : Int} (ht : 0 < t) (x : Int) :
    0 ≤ clampTarget t x ∧ clampTarget t x ≤ maxShareTarget := by
  have := maxShareTargetPos
  rw [clampTargetEq]
  omega

theorem retargetMono (dc : DifficultyCalculator) (t : Int) (m : Nat) {span₁ span₂ : Int} (h : span₁ ≤ span₂) :
    retarget dc t m span₁ ≤ retarget dc t m span₂ := by
  simp only [retarget]
  rcases le_or_lt t 0 with ht | ht
  · rw [clampTargetNonpos ht, clampTargetNonpos ht]
  · have hM := ltTwoPow256OfLeMax (le_refl maxShareTarget)
    refine roundTripMonotone (clampTargetRange ht _).1 (clampTargetMono t ?_)
      (lt_of_le_of_lt (clampTargetRange ht _).2 hM)
    apply Int.ediv_le_ediv (by split_ifs <;> omega)
    exact mul_le_mul_of_nonneg_left (by split_ifs <;> omega) ht.le

theorem timestampAtPrefix {l window : List Share} (h : window <+: l) {i : Nat} (hi : i < window.length) :
    timestampAt l i = ((window[i]).header.timestamp.toNat : Int) := by
  rw [timestampAt, List.getElem?_eq_getElem (Nat.lt_of_lt_of_le hi h.length_le), ← h.getElem hi]

/- Once the newest share has a nonzero target and at least two shares survive trimming,
`NextTarget` is `retarget` of the trimmed window's span. -/
theorem nextTargetEqRetarget (dc : DifficultyCalculator) {shares older : List Share} {newest : Share}
    (hw : shares.take difficultyAdjustmentWindow = newest :: older) {t : Int} (ht : newest.shareTarget = some t)
    (h0 : t ≠ 0) (hm : 2 ≤ trimmedLength shares) :
    dc.nextTarget shares = retarget dc t (trimmedLength shares)
      (timestampAt shares 0 - timestampAt shares (trimmedLength shares - 1)) := by
  have hpre : newest :: trimWindow (t * 4) (t / 4) older <+: shares :=
    ((List.prefix_cons_inj newest).mpr (trimWindowPrefix _ _ older)).trans (hw ▸ List.take_prefix _ _)
  have hwl : trimmedLength shares = (newest :: trimWindow (t * 4) (t / 4) older).length := by
    simp only [trimmedLength, hw, ht, if_neg h0, List.length_cons]
  have hlen : ¬ shares.length < 2 := by have := hpre.length_le; omega
  have hwin : ¬ (newest :: trimWindow (t * 4) (t / 4) older).length < 2 := by omega
  have hfirst : timestampAt shares 0 = newest.header.timestamp.toNat := timestampAtPrefix hpre (by simp)
  have hlast : timestampAt shares ((newest :: trimWindow (t * 4) (t / 4) older).length - 1) =
      ((newest :: trimWindow (t * 4) (t / 4) older).getLast (List.cons_ne_nil _ _)).header.timestamp.toNat := by
    rw [timestampAtPrefix hpre (by simp), List.getLast_eq_getElem]
  rw [hwl, hfirst, hlast]
  simp only [DifficultyCalculator.nextTarget, hlen, if_false, hw, ht, if_neg h0, hwin]
  rfl

theorem nextTargetOfNoTarget (dc : DifficultyCalculator) {shares older : List Share} {newest : Share}
    (hw : shares.take difficultyAdjustmentWindow = newest :: older)
    (ht : newest.shareTarget = none ∨ newest.shareTarget = some 0) : dc.nextTarget shares = maxShareTarget := by
  unfold DifficultyCalculator.nextTarget
  split_ifs
  · rfl
  · rw [hw]
    rcases ht with ht | ht <;> simp [ht]

/- Retargeting is monotone in the elapsed time of the trimmed window: two windows with the same
targets trim to the same length, and the slower one never gets the harder target. -/
theorem nextTargetMonotoneInSpan (dc : DifficultyCalculator) (w1 w2 : List Share)
    (htargets : w1.map (·.shareTarget) = w2.map (·.shareTarget)) (hm : 2 ≤ trimmedLength w1)
    (hspan : timestampAt w1 0 - timestampAt w1 (trimmedLength w1 - 1) ≤
      timestampAt w2 0 - timestampAt w2 (trimmedLength w1 - 1)) :
    dc.nextTarget w1 ≤ dc.nextTarget w2 := by
  have hsame := trimmedLengthCongr htargets
  have ht : (w1.take difficultyAdjustmentWindow).map (·.shareTarget) =
      (w2.take difficultyAdjustmentWindow).map (·.shareTarget) := by rw [List.map_take, List.map_take, htargets]
  match h1 : w1.take difficultyAdjustmentWindow, h2 : w2.take difficultyAdjustmentWindow with
  | [], _ => simp [trimmedLength, h1] at hm
  | _ :: _, [] => simp [h1, h2] at ht
  | n1 :: o1, n2 :: o2 =>
    rw [h1, h2] at ht
    simp only [List.map_cons, List.cons.injEq] at ht
    match hn : n1.shareTarget with
    | none => rw [nextTargetOfNoTarget dc h1 (.inl hn), nextTargetOfNoTarget dc h2 (.inl (ht.1 ▸ hn))]
    | some t =>
      by_cases h0 : t = 0
      · subst h0
        rw [nextTargetOfNoTarget dc h1 (.inr hn), nextTargetOfNoTarget dc h2 (.inr (ht.1 ▸ hn))]
      · rw [nextTargetEqRetarget dc h1 hn h0 hm, nextTargetEqRetarget dc h2 (ht.1 ▸ hn) h0 (hsame ▸ hm), ← hsame]
        exact retargetMono dc t _ hspan

theorem nextTargetMonotoneInSpanExample :
    let s (ts : UInt32) : Share := ⟨⟨0, default, default, ts, 0, 0⟩, some 0x1000000, ""⟩
    let w1 := [s 100, s 90]
    let w2 := [s 100, s 40]
    w1.map (·.shareTarget) = w2.map (·.shareTarget) ∧ 2 ≤ trimmedLength w1 ∧
      timestampAt w1 0 - timestampAt w1 (trimmedLength w1 - 1) ≤
        timestampAt w2 0 - timestampAt w2 (trimmedLength w1 - 1) ∧
      (⟨30⟩ : DifficultyCalculator).nextTarget w1 ≤ (⟨30⟩ : DifficultyCalculator).nextTarget w2 :=
  ⟨rfl, by decide, by decide, nextTargetMonotoneInSpan ⟨30⟩ _ _ rfl (by decide) (by decide)⟩

end P2Pool.Difficulty
