import P2Pool.Binary64
import P2Pool.Window

/-! `Calculator.CalculatePayouts` of `internal/pplns/pplns.go`, phase by phase: the proportional
split over the sorted addresses, the finder fee, the rounding remainder, dust consolidation and the
sorted result. Every `int64` addition and subtraction goes through `wrap`; `calculatePayouts`
takes Go's wrap-around. Each `range` over a map has its own order, and the two sorts are by total
orders on distinct keys, so any sorting algorithm returns the same list as insertion sort. -/
namespace P2Pool.Pplns
open Util Types Maps Binary64

/- `finderFeePercent` enters the code only through the fee it gives a reward, which is what a
`Calculator` holds; `newCalculator` computes it as Go does. -/
structure Calculator where
  finderFee : Int → Int
  dustThresholdSats : Int

/- `int64(float64(totalReward) * c.finderFeePercent / 100.0)`. -/
def finderFeeOf (finderFeePercent : Double) (totalReward : Int) : Int :=
  let reward := roundScaled (totalReward.natAbs <<< 1074) 1
  let product := reward.bind fun r => roundScaled (r * finderFeePercent.magnitude) (1 <<< 1074)
  let quotient := product.bind fun p => roundScaled (p <<< 1074) (100 <<< 1074)
  toInt64 (decide (totalReward < 0) != finderFeePercent.negative) quotient

def newCalculator (finderFeePercent : Double) (dustThresholdSats : Int) : Calculator :=
  ⟨finderFeeOf finderFeePercent, dustThresholdSats⟩

/- One iteration order for each `range` over a map in `CalculatePayouts`. -/
structure RangeOrders where
  addresses : MapOrder Int
  dust : MapOrder Int
  result : MapOrder Int

/- `sort.Strings` over the keys of `minerWeights`. -/
def sortedAddresses (order : MapOrder Int) (minerWeights : GoMap Int) : List String :=
  ((order.visit minerWeights.entries).map (·.1)).insertionSort (· ≤ ·)

/- The split loop's `payout`, set to `distributableReward` when it is not an `int64`. -/
def minerPayout (minerWeights : GoMap Int) (totalWeight distributableReward : Int) (addr : String) : Int :=
  let payout := distributableReward * index minerWeights addr / totalWeight
  if InInt64 payout then payout else distributableReward

def splitLoop (wrap : Int → Int) (minerWeights : GoMap Int) (totalWeight distributableReward : Int) :
    List String → GoMap Int × Int → GoMap Int × Int
  | [], acc => acc
  | addr :: rest, (payouts, distributed) =>
    let amount := minerPayout minerWeights totalWeight distributableReward addr
    splitLoop wrap minerWeights totalWeight distributableReward rest
      (if amount > 0 then (payouts.insert addr amount, wrap (distributed + amount)) else (payouts, distributed))

def addFinderFee (wrap : Int → Int) (finderAddress : String) (finderFee : Int) :
    GoMap Int × Int → GoMap Int × Int
  | (payouts, distributed) =>
    if finderAddress ≠ "" ∧ finderFee > 0 then
      (addTo wrap payouts finderAddress finderFee, wrap (distributed + finderFee))
    else (payouts, distributed)

def addRemainder (wrap : Int → Int) (totalReward : Int) (finderAddress : String) (addresses : List String) :
    GoMap Int × Int → GoMap Int
  | (payouts, distributed) =>
    let remainder := wrap (totalReward - distributed)
    if remainder > 0 then
      if finderAddress ≠ "" then addTo wrap payouts finderAddress remainder
      else match addresses with
        | addr :: _ => addTo wrap payouts addr remainder
        | [] => payouts
    else payouts

/- The scan for `dustTotal` and `dustAddresses`. -/
def dustScan (wrap : Int → Int) (threshold : Int) (finderAddress : String) :
    List (Entry Int) → Int × List String → Int × List String
  | [], acc => acc
  | e :: rest, (dustTotal, dustAddresses) =>
    dustScan wrap threshold finderAddress rest
      (if e.2 < threshold ∧ e.1 ≠ finderAddress then (wrap (dustTotal + e.2), dustAddresses ++ [e.1])
      else (dustTotal, dustAddresses))

def consolidateDust (wrap : Int → Int) (threshold : Int) (finderAddress : String) (addresses : List String)
    (order : MapOrder Int) (payouts : GoMap Int) : GoMap Int :=
  let (dustTotal, dustAddresses) := dustScan wrap threshold finderAddress (order.visit payouts.entries) (0, [])
  if dustAddresses.length < payouts.entries.length then
    let payouts := eraseAll payouts dustAddresses
    if dustTotal > 0 then
      if finderAddress ≠ "" then addTo wrap payouts finderAddress dustTotal
      else match addresses.find? (fun addr => addr ∈ payouts) with
        | some addr => addTo wrap payouts addr dustTotal
        | none => payouts
    else payouts
  else payouts

/- The comparator of the final `sort.Slice`: amount descending, then address ascending. -/
def PayoutBefore (a b : PayoutEntry) : Prop :=
  b.amount < a.amount ∨ (a.amount = b.amount ∧ a.address ≤ b.address)

instance : DecidableRel PayoutBefore := fun a b => by unfold PayoutBefore; infer_instance

def toPayoutEntry (e : Entry Int) : PayoutEntry := ⟨e.1, e.2⟩

def buildResult (order : MapOrder Int) (payouts : GoMap Int) : List PayoutEntry :=
  ((order.visit payouts.entries).map toPayoutEntry).insertionSort PayoutBefore

/- `nil` is the empty list. -/
def calculatePayoutsWith (wrap : Int → Int) (orders : RangeOrders) (c : Calculator) (window : Window)
    (totalReward : Int) (finderAddress : String) : List PayoutEntry :=
  if window.shareCount = 0 ∨ totalReward ≤ 0 then [] else
  let finderFee := c.finderFee totalReward
  let distributableReward := wrap (totalReward - finderFee)
  let minerWeights := window.minerWeights
  let totalWeight := window.totalWeight
  if totalWeight = 0 then [] else
  let addresses := sortedAddresses orders.addresses minerWeights
  let split := splitLoop wrap minerWeights totalWeight distributableReward addresses (∅, 0)
  let payouts := addRemainder wrap totalReward finderAddress addresses
    (addFinderFee wrap finderAddress finderFee split)
  buildResult orders.result (consolidateDust wrap c.dustThresholdSats finderAddress addresses orders.dust payouts)

def calculatePayouts : RangeOrders → Calculator → Window → Int → String → List PayoutEntry :=
  calculatePayoutsWith int64Wrap

/-! The comparator of the final sort is a total order on payout entries, so the sorted list of a
map's entries does not depend on the order they were gathered in. -/

instance : IsTotal PayoutEntry PayoutBefore := ⟨fun a b => by
  unfold PayoutBefore
  rcases lt_trichotomy a.amount b.amount with h | h | h
  · exact .inr (.inl h)
  · rcases le_total a.address b.address with h' | h'
    · exact .inl (.inr ⟨h, h'⟩)
    · exact .inr (.inr ⟨h.symm, h'⟩)
  · exact .inl (.inl h)⟩

instance : IsTrans PayoutEntry PayoutBefore := ⟨fun a b c hab hbc => by
  unfold PayoutBefore at *
  rcases hab with h | ⟨h, h'⟩ <;> rcases hbc with k | ⟨k, k'⟩
  · exact .inl (k.trans h)
  · exact .inl (k ▸ h)
  · exact .inl (h ▸ k)
  · exact .inr ⟨h.trans k, h'.trans k'⟩⟩

instance : IsAntisymm PayoutEntry PayoutBefore := ⟨fun a b hab hba => by
  unfold PayoutBefore at *
  rcases hab with h | ⟨h, h'⟩ <;> rcases hba with k | ⟨k, k'⟩
  · omega
  · omega
  · omega
  · cases a; cases b
    congr 1
    exact le_antisymm h' k'⟩

theorem sortedAddressesPerm (order : MapOrder Int) (m : GoMap Int) : (sortedAddresses order m).Perm m.keys :=
  (List.perm_insertionSort _ _).trans ((order.perm _).map _)

theorem sortedAddressesSame {m₁ m₂ : GoMap Int} (h : SameContents m₁ m₂) (o₁ o₂ : MapOrder Int) :
    sortedAddresses o₁ m₁ = sortedAddresses o₂ m₂ :=
  List.eq_of_perm_of_sorted
    ((sortedAddressesPerm o₁ m₁).trans ((keysPerm h).trans (sortedAddressesPerm o₂ m₂).symm))
    (List.sorted_insertionSort _ _) (List.sorted_insertionSort _ _)

theorem buildResultPerm (order : MapOrder Int) (m : GoMap Int) :
    (buildResult order m).Perm (m.entries.map toPayoutEntry) :=
  (List.perm_insertionSort _ _).trans ((order.perm _).map _)

theorem buildResultSame {m₁ m₂ : GoMap Int} (h : SameContents m₁ m₂) (o₁ o₂ : MapOrder Int) :
    buildResult o₁ m₁ = buildResult o₂ m₂ :=
  List.eq_of_perm_of_sorted
    ((buildResultPerm o₁ m₁).trans (((entriesPerm h).map _).trans (buildResultPerm o₂ m₂).symm))
    (List.sorted_insertionSort _ _) (List.sorted_insertionSort _ _)

/-! The split loop reads the weight map only through `minerWeights[addr]`. -/

theorem splitLoopCongr {m₁ m₂ : GoMap Int} (h : ∀ a, index m₁ a = index m₂ a) (wrap : Int → Int)
    (totalWeight distributableReward : Int) (l : List String) (acc : GoMap Int × Int) :
    splitLoop wrap m₁ totalWeight distributableReward l acc = splitLoop wrap m₂ totalWeight distributableReward l acc := by
  induction l generalizing acc with
  | nil => rfl
  | cons a rest ih => obtain ⟨p, d⟩ := acc; simp only [splitLoop, minerPayout, h a, ih]

/- The entries the dust scan picks, in the order it visits them. -/
def IsDust (threshold : Int) (finderAddress : String) (e : Entry Int) : Bool :=
  decide (e.2 < threshold ∧ e.1 ≠ finderAddress)

theorem dustScanEq (wrap : Int → Int) (threshold : Int) (finderAddress : String) (l : List (Entry Int))
    (dustTotal : Int) (dustAddresses : List String) :
    dustScan wrap threshold finderAddress l (dustTotal, dustAddresses) =
      ((l.filter (IsDust threshold finderAddress)).foldl (fun t e => wrap (t + e.2)) dustTotal,
        dustAddresses ++ (l.filter (IsDust threshold finderAddress)).map (·.1)) := by
  induction l generalizing dustTotal dustAddresses with
  | nil => simp [dustScan]
  | cons e rest ih =>
    by_cases hd : e.2 < threshold ∧ e.1 ≠ finderAddress
    · simp [dustScan, ih, hd, IsDust]
    · simp [dustScan, ih, hd, IsDust]

theorem int64WrapFoldl (l : List (Entry Int)) (t : Int) :
    l.foldl (fun acc e => int64Wrap (acc + e.2)) (int64Wrap t) = int64Wrap (t + (l.map (·.2)).sum) := by
  induction l generalizing t with
  | nil => simp
  | cons e rest ih => simp only [List.foldl_cons, int64WrapAddWrap, ih, List.map_cons, List.sum_cons, add_assoc]

/- With `int64` wrap-around the dust total is a sum modulo `2^64`, the same in every visiting
order; the dust addresses are the same set. -/
theorem consolidateDustSame {m₁ m₂ : GoMap Int} (h : SameContents m₁ m₂) (threshold : Int)
    (finderAddress : String) (addresses : List String) (o₁ o₂ : MapOrder Int) :
    SameContents (consolidateDust int64Wrap threshold finderAddress addresses o₁ m₁)
      (consolidateDust int64Wrap threshold finderAddress addresses o₂ m₂) := by
  have hl : ((o₁.visit m₁.entries).filter (IsDust threshold finderAddress)).Perm
      ((o₂.visit m₂.entries).filter (IsDust threshold finderAddress)) :=
    ((o₁.perm _).trans ((entriesPerm h).trans (o₂.perm _).symm)).filter _
  have h0 : (0 : Int) = int64Wrap 0 := rfl
  have htotal := (hl.map (·.2)).sum_eq
  have haddr := hl.map (·.1)
  have hlen : m₁.entries.length = m₂.entries.length := (entriesPerm h).length_eq
  have herase := h.eraseAll haddr
  have hfind : addresses.find? (fun addr => addr ∈ eraseAll m₁ (((o₁.visit m₁.entries).filter
      (IsDust threshold finderAddress)).map (·.1))) = addresses.find? (fun addr => addr ∈ eraseAll m₂
      (((o₂.visit m₂.entries).filter (IsDust threshold finderAddress)).map (·.1))) := by
    simp only [sameContentsMem herase]
  simp only [consolidateDust, dustScanEq, List.nil_append]
  rw [h0, int64WrapFoldl, int64WrapFoldl, htotal, haddr.length_eq, hlen, hfind]
  split_ifs
  · exact herase.addTo _ _ _
  · split
    · exact herase.addTo _ _ _
    · exact herase
  · exact herase
  · exact h

theorem calculatePayoutsWithSorted (wrap : Int → Int) (orders : RangeOrders) (c : Calculator) (window : Window)
    (totalReward : Int) (finderAddress : String) :
    (calculatePayoutsWith wrap orders c window totalReward finderAddress).Sorted PayoutBefore := by
  unfold calculatePayoutsWith
  dsimp only
  split_ifs
  · exact List.sorted_nil
  · exact List.sorted_nil
  · exact List.sorted_insertionSort _ _

/- Every node computes the same list: it does not depend on the order of the window's shares nor
on the order any map is visited in, and it is sorted by amount descending, then address. -/
theorem calculatePayoutsOrderIndependent (orders₁ orders₂ : RangeOrders) (c : Calculator)
    {shares₁ shares₂ : List Share} (hperm : shares₁.Perm shares₂) (maxTarget totalReward : Int)
    (finderAddress : String) :
    calculatePayouts orders₁ c ⟨shares₁, maxTarget⟩ totalReward finderAddress =
        calculatePayouts orders₂ c ⟨shares₂, maxTarget⟩ totalReward finderAddress ∧
      (calculatePayouts orders₁ c ⟨shares₁, maxTarget⟩ totalReward finderAddress).Sorted PayoutBefore := by
  refine ⟨?_, calculatePayoutsWithSorted _ _ _ _ _ _⟩
  have hw := minerWeightsPerm hperm maxTarget
  have hcount : (Window.mk shares₁ maxTarget).shareCount = (Window.mk shares₂ maxTarget).shareCount :=
    hperm.length_eq
  have hidx : ∀ a, index (Window.mk shares₁ maxTarget).minerWeights a =
      index (Window.mk shares₂ maxTarget).minerWeights a := fun a => by rw [index, index, hw a]
  simp only [calculatePayouts, calculatePayoutsWith, hcount, totalWeightPerm hperm,
    sortedAddressesSame hw orders₁.addresses orders₂.addresses, splitLoopCongr hidx]
  split_ifs
  · rfl
  · rfl
  · exact buildResultSame (consolidateDustSame (fun _ => rfl) _ _ _ _ _) _ _

theorem calculatePayoutsOrderIndependentExample :
    let inOrder : RangeOrders := ⟨⟨id, fun l => .refl l⟩, ⟨id, fun l => .refl l⟩, ⟨id, fun l => .refl l⟩⟩
    let reversed : RangeOrders :=
      ⟨⟨List.reverse, List.reverse_perm⟩, ⟨List.reverse, List.reverse_perm⟩, ⟨List.reverse, List.reverse_perm⟩⟩
    let c : Calculator := ⟨fun r => r / 200, 546⟩
    let s : Share := ⟨default, none, "a"⟩
    let t : Share := ⟨default, some 1, "b"⟩
    [s, t].Perm [t, s] ∧
      calculatePayouts inOrder c ⟨[s, t], 1⟩ 1000 "a" = calculatePayouts reversed c ⟨[t, s], 1⟩ 1000 "a" ∧
      (calculatePayouts inOrder c ⟨[s, t], 1⟩ 1000 "a").Sorted PayoutBefore :=
  ⟨List.Perm.swap _ _ _, calculatePayoutsOrderIndependent _ _ _ (List.Perm.swap _ _ _) _ _ _⟩

end P2Pool.Pplns
