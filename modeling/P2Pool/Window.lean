import P2Pool.Maps
import P2Pool.Types
import P2Pool.Compact

/-! The PPLNS window of `internal/pplns/window.go`: per-share weights, the per-miner weight map
and the total. A share's weight is its difficulty `maxTarget / shareTarget`, or 1 when it has no
target; `big.Int.Div` is Euclidean division, as Lean's `Int` division is. -/
namespace P2Pool.Pplns
open Util Types Maps Compact

structure Window where
  shares : List Share
  maxTarget : Int

def Window.shareWeight (w : Window) (share : Share) : Int :=
  match share.shareTarget with
  | some t => if t = 0 then 1 else w.maxTarget / t
  | none => 1

/- One share of `MinerWeights`: `existing.Add(existing, weight)` or a fresh entry. -/
def Window.addShare (w : Window) (weights : GoMap Int) (share : Share) : GoMap Int :=
  match weights.lookup share.minerAddress with
  | some existing => weights.insert share.minerAddress (existing + w.shareWeight share)
  | none => weights.insert share.minerAddress (w.shareWeight share)

def Window.minerWeights (w : Window) : GoMap Int := w.shares.foldl w.addShare ∅

def Window.totalWeight (w : Window) : Int := w.shares.foldl (fun total share => total + w.shareWeight share) 0

def Window.shareCount (w : Window) : Nat := w.shares.length

def defaultMaxTarget : Int := compactToTarget 0x207fffff

/- The weight a miner holds in the window: its shares' weights summed. -/
def Window.weightOf (w : Window) (addr : String) : Int :=
  ((w.shares.filter (·.minerAddress = addr)).map w.shareWeight).sum

/- The targets the conservation law admits: none, zero, or at most the window's maximum. -/
def TargetInRange (maxTarget : Int) : Option Int → Prop
  | none => True
  | some t => t = 0 ∨ (0 < t ∧ t ≤ maxTarget)

section
variable (w : Window)

theorem addShareEq (weights : GoMap Int) (share : Share) :
    w.addShare weights share =
      weights.insert share.minerAddress (index weights share.minerAddress + w.shareWeight share) := by
  unfold Window.addShare index
  split <;> rename_i h <;> simp [h]

theorem foldAddShareLookup (shares : List Share) (weights : GoMap Int) (a : String) :
    (shares.foldl w.addShare weights).lookup a =
      if a ∈ weights ∨ a ∈ shares.map (·.minerAddress) then
        some (index weights a + ((shares.filter (·.minerAddress = a)).map w.shareWeight).sum)
      else none := by
  induction shares generalizing weights with
  | nil =>
    simp only [List.foldl_nil, List.map_nil, List.not_mem_nil, or_false, List.filter_nil,
      List.sum_nil, add_zero]
    split_ifs with h
    · obtain ⟨v, hv⟩ := Option.isSome_iff_exists.mp (memIffLookup.mp h); simp [index, hv]
    · exact AList.lookup_eq_none.mpr h
  | cons s rest ih =>
    rw [List.foldl_cons, ih, addShareEq]
    by_cases ha : a = s.minerAddress
    · subst ha; simp [AList.mem_insert, add_assoc]
    · simp [AList.mem_insert, ha, Ne.symm ha]

theorem minerWeightsLookup (a : String) :
    w.minerWeights.lookup a = if a ∈ w.shares.map (·.minerAddress) then some (w.weightOf a) else none := by
  rw [Window.minerWeights, foldAddShareLookup]
  simp [Window.weightOf, index]

theorem memMinerWeights (a : String) : a ∈ w.minerWeights ↔ a ∈ w.shares.map (·.minerAddress) := by
  rw [memIffLookup, minerWeightsLookup]; split_ifs with h <;> simp [h]

@[simp] theorem indexMinerWeights (a : String) : index w.minerWeights a = w.weightOf a := by
  rw [index, minerWeightsLookup]
  split_ifs with h
  · rfl
  · have : w.shares.filter (·.minerAddress = a) = [] :=
      List.filter_eq_nil_iff.mpr fun s hs hsa => h (List.mem_map.mpr ⟨s, hs, by simpa using hsa⟩)
    simp [Window.weightOf, this]

theorem totalWeightEq : w.totalWeight = (w.shares.map w.shareWeight).sum := by
  suffices ∀ (l : List Share) t, l.foldl (fun total share => total + w.shareWeight share) t = t + (l.map w.shareWeight).sum by
    simpa using this w.shares 0
  intro l
  induction l with
  | nil => simp
  | cons s rest ih => intro t; simp [ih]; ring

theorem valueSumMinerWeights : valueSum w.minerWeights = w.totalWeight := by
  suffices ∀ (l : List Share) m, valueSum (l.foldl w.addShare m) = valueSum m + (l.map w.shareWeight).sum by
    simpa [totalWeightEq, valueSum] using this w.shares ∅
  intro l
  induction l with
  | nil => simp
  | cons s rest ih =>
    intro m
    rw [List.foldl_cons, ih, addShareEq, valueSumInsert, List.map_cons, List.sum_cons]; ring

theorem shareWeightPos {share : Share} (h : TargetInRange w.maxTarget share.shareTarget) :
    1 ≤ w.shareWeight share := by
  unfold Window.shareWeight
  split
  · rename_i t ht
    rw [ht] at h
    split_ifs with h0
    · exact le_refl 1
    · obtain h | ⟨hpos, hle⟩ := h
      · exact absurd h h0
      · exact (Int.le_ediv_iff_mul_le hpos).mpr (by simpa using hle)
  · exact le_refl 1

theorem weightOfNonneg (hs : ∀ s ∈ w.shares, TargetInRange w.maxTarget s.shareTarget) (a : String) :
    0 ≤ w.weightOf a :=
  List.sum_nonneg fun x hx => by
    obtain ⟨s, hs', rfl⟩ := List.mem_map.mp hx
    exact le_trans zero_le_one (shareWeightPos w (hs s (List.mem_filter.mp hs').1))

theorem totalWeightGeCount (hs : ∀ s ∈ w.shares, TargetInRange w.maxTarget s.shareTarget) :
    (w.shareCount : Int) ≤ w.totalWeight := by
  have h := List.card_nsmul_le_sum (w.shares.map w.shareWeight) 1 fun x hx => by
    obtain ⟨s, hs', rfl⟩ := List.mem_map.mp hx
    exact shareWeightPos w (hs s hs')
  rw [Window.shareCount, totalWeightEq]
  rwa [List.length_map, nsmul_one] at h

end

/- `MinerWeights` and `TotalWeight` are two loops over the same shares: the map's keys are the
distinct addresses, each value sums its address's share weights, and the values add up to the
total, which counts every share at least once when the targets are in range. -/
theorem minerWeightsAgreeWithTotal (w : Window) :
    w.minerWeights.keys.Perm (w.shares.map (·.minerAddress)).dedup ∧
      (∀ a ∈ w.minerWeights, w.minerWeights.lookup a =
        some ((w.shares.filter (·.minerAddress = a)).map w.shareWeight).sum) ∧
      valueSum w.minerWeights = w.totalWeight ∧
      ((∀ s ∈ w.shares, TargetInRange w.maxTarget s.shareTarget) →
        (∀ s ∈ w.shares, 1 ≤ w.shareWeight s) ∧ (w.shareCount : Int) ≤ w.totalWeight ∧
          (w.shares ≠ [] → 0 < w.totalWeight)) := by
  refine ⟨(List.perm_ext_iff_of_nodup w.minerWeights.keys_nodup (List.nodup_dedup _)).mpr fun a => ?_,
    fun a ha => ?_, valueSumMinerWeights w, fun hs => ⟨fun s h => shareWeightPos w (hs s h),
      totalWeightGeCount w hs, fun hne => ?_⟩⟩
  · exact (memMinerWeights w a).trans List.mem_dedup.symm
  · rw [minerWeightsLookup, if_pos ((memMinerWeights w a).mp ha)]; rfl
  · have := totalWeightGeCount w hs
    have : 0 < w.shareCount := List.length_pos.mpr hne
    omega

theorem minerWeightsAgreeWithTotalExample :
    let w : Window := ⟨[⟨default, some 4, "a"⟩, ⟨default, none, "b"⟩, ⟨default, some 0, "a"⟩], 8⟩
    (∀ s ∈ w.shares, TargetInRange w.maxTarget s.shareTarget) ∧ w.shares ≠ [] ∧
      ((w.shareCount : Int) ≤ w.totalWeight ∧ 0 < w.totalWeight) :=
  let w : Window := ⟨[⟨default, some 4, "a"⟩, ⟨default, none, "b"⟩, ⟨default, some 0, "a"⟩], 8⟩
  have hs : ∀ s ∈ w.shares, TargetInRange w.maxTarget s.shareTarget := by simp [w, TargetInRange]
  have hne : w.shares ≠ [] := by simp [w]
  ⟨hs, hne, ((minerWeightsAgreeWithTotal w).2.2.2 hs).2.1, ((minerWeightsAgreeWithTotal w).2.2.2 hs).2.2 hne⟩

theorem minerWeightsPerm {shares₁ shares₂ : List Share} (h : shares₁.Perm shares₂) (maxTarget : Int) :
    SameContents (Window.mk shares₁ maxTarget).minerWeights (Window.mk shares₂ maxTarget).minerWeights :=
  fun a => by
    have hw : (Window.mk shares₁ maxTarget).shareWeight = (Window.mk shares₂ maxTarget).shareWeight := rfl
    simp only [minerWeightsLookup, Window.weightOf, (h.map _).mem_iff, ((h.filter _).map _).sum_eq, hw]

theorem totalWeightPerm {shares₁ shares₂ : List Share} (h : shares₁.Perm shares₂) (maxTarget : Int) :
    (Window.mk shares₁ maxTarget).totalWeight = (Window.mk shares₂ maxTarget).totalWeight := by
  have hw : (Window.mk shares₁ maxTarget).shareWeight = (Window.mk shares₂ maxTarget).shareWeight := rfl
  simp only [totalWeightEq, (h.map _).sum_eq, hw]

end P2Pool.Pplns
