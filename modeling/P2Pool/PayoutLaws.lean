import P2Pool.Payouts

/-! Conservation, the dust law and fairness of `CalculatePayouts`. Under the conservation law's
assumptions every intermediate `int64` value lies in `[0, totalReward]`, so the run with Go's
wrap-around is the run in exact arithmetic; the laws are proved of that run, phase by phase. -/
namespace P2Pool.Pplns
open Util Types Maps Binary64

/- What the payout laws assume of a run: a nonempty window of in-range targets, a reward below
`2^53` and a fee that is a nonnegative `int64`. -/
structure RunAssumptions (c : Calculator) (window : Window) (totalReward : Int) : Prop where
  nonempty : window.shares ≠ []
  targets : ∀ s ∈ window.shares, TargetInRange window.maxTarget s.shareTarget
  rewardPos : 0 < totalReward
  rewardLt : totalReward < 2 ^ 53
  feeNonneg : 0 ≤ c.finderFee totalReward
  feeLt : c.finderFee totalReward < 2 ^ 63

/- Conservation needs the fee to be at most the reward. -/
structure PayoutAssumptions (c : Calculator) (window : Window) (totalReward : Int)
    extends RunAssumptions c window totalReward : Prop where
  feeLe : c.finderFee totalReward ≤ totalReward

/- The amount an address receives in a payout list, 0 when it is absent. -/
def amountIn (out : List PayoutEntry) (addr : String) : Int :=
  ((out.filter (·.address = addr)).map (·.amount)).sum

/- A wrap that leaves every `int64` value alone: Go's, or exact arithmetic. -/
def FixesInt64 (wrap : Int → Int) : Prop := ∀ x, InInt64 x → wrap x = x

theorem int64WrapFixes : FixesInt64 int64Wrap := fun _ h => int64WrapOfInRange h

theorem idFixes : FixesInt64 id := fun _ _ => rfl

theorem sumEdivLe (l : List Int) {w : Int} (hw : 0 < w) : (l.map (· / w)).sum ≤ l.sum / w := by
  induction l with
  | nil => simp
  | cons x rest ih =>
    rw [List.map_cons, List.sum_cons, List.sum_cons]
    calc x / w + (rest.map (· / w)).sum ≤ x / w + rest.sum / w := by omega
      _ ≤ (x + rest.sum) / w := Int.le_ediv_of_mul_le hw (by
          rw [add_mul]; exact add_le_add (Int.ediv_mul_le x hw.ne') (Int.ediv_mul_le _ hw.ne'))

/-! The split loop, in exact arithmetic and under `wrap`. -/

section Split
variable (m : GoMap Int) (totalWeight distributableReward : Int)

theorem splitLoopId (l : List String) (payouts : GoMap Int) (distributed : Int)
    (hnn : ∀ a ∈ l, 0 ≤ minerPayout m totalWeight distributableReward a) :
    (splitLoop id m totalWeight distributableReward l (payouts, distributed)).2 =
        distributed + (l.map (minerPayout m totalWeight distributableReward)).sum ∧
      ∀ a, (splitLoop id m totalWeight distributableReward l (payouts, distributed)).1.lookup a =
        if a ∈ l ∧ 0 < minerPayout m totalWeight distributableReward a then
          some (minerPayout m totalWeight distributableReward a)
        else payouts.lookup a := by
  induction l generalizing payouts distributed with
  | nil => simp [splitLoop]
  | cons b rest ih =>
    have hrest : ∀ a ∈ rest, 0 ≤ minerPayout m totalWeight distributableReward a :=
      fun a ha => hnn a (List.mem_cons_of_mem _ ha)
    simp only [splitLoop, id]
    split_ifs with hpos
    · obtain ⟨ih2, ih1⟩ := ih (payouts.insert b _) (distributed + _) hrest
      refine ⟨by rw [ih2]; simp; ring, fun a => ?_⟩
      rw [ih1, lookupInsert]
      by_cases hab : a = b
      · subst hab; simp [hpos]
      · simp [hab]
    · obtain ⟨ih2, ih1⟩ := ih payouts distributed hrest
      have hb := hnn b (List.mem_cons_self _ _)
      refine ⟨by rw [ih2]; simp; omega, fun a => ?_⟩
      rw [ih1]
      by_cases hab : a = b
      · subst hab; simp [hpos]
      · simp [hab]

theorem splitLoopWrap {wrap : Int → Int} (hw : FixesInt64 wrap) (l : List String) (payouts : GoMap Int)
    (distributed : Int) (hnn : ∀ a ∈ l, 0 ≤ minerPayout m totalWeight distributableReward a)
    (hd : 0 ≤ distributed)
    (hb : distributed + (l.map (minerPayout m totalWeight distributableReward)).sum < 2 ^ 63) :
    splitLoop wrap m totalWeight distributableReward l (payouts, distributed) =
      splitLoop id m totalWeight distributableReward l (payouts, distributed) := by
  induction l generalizing payouts distributed with
  | nil => rfl
  | cons b rest ih =>
    have hb0 := hnn b (List.mem_cons_self _ _)
    have hrest : 0 ≤ (rest.map (minerPayout m totalWeight distributableReward)).sum :=
      List.sum_nonneg fun x hx => by
        obtain ⟨a, ha, rfl⟩ := List.mem_map.mp hx; exact hnn a (List.mem_cons_of_mem _ ha)
    simp only [List.map_cons, List.sum_cons] at hb
    simp only [splitLoop]
    split_ifs
    · rw [hw _ ⟨by omega, by omega⟩]
      exact ih _ _ (fun a ha => hnn a (List.mem_cons_of_mem _ ha)) (by omega) (by omega)
    · exact ih _ _ (fun a ha => hnn a (List.mem_cons_of_mem _ ha)) hd (by omega)

end Split

/-! The emitted list holds the map's entries, one per address. -/

theorem memBuildResult {order : MapOrder Int} {m : GoMap Int} {e : PayoutEntry} :
    e ∈ buildResult order m ↔ (⟨e.address, e.amount⟩ : Entry Int) ∈ m.entries := by
  rw [(buildResultPerm order m).mem_iff, List.mem_map]
  constructor
  · rintro ⟨x, hx, rfl⟩; exact hx
  · intro h; exact ⟨_, h, rfl⟩

theorem indexAddTo (m : GoMap Int) (k : String) (x : Int) (a : String) :
    index (addTo id m k x) a = if a = k then index m k + x else index m a := by
  simp [addTo]

theorem memAddTo {wrap : Int → Int} {m : GoMap Int} {k : String} {x : Int} {a : String} :
    a ∈ addTo wrap m k x ↔ a = k ∨ a ∈ m :=
  AList.mem_insert _

theorem indexNonneg {m : GoMap Int} (hpos : ∀ e ∈ m.entries, 0 < e.2) (k : String) : 0 ≤ index m k := by
  cases hk : m.lookup k with
  | none => simp [index, hk]
  | some v => have : 0 < v := hpos ⟨k, v⟩ (memEntries.mpr hk); simp [index, hk]; omega

theorem addToPos {m : GoMap Int} (hpos : ∀ e ∈ m.entries, 0 < e.2) (k : String) {x : Int} (hx : 0 < x) :
    ∀ e ∈ (addTo id m k x).entries, 0 < e.2 := fun e he => by
  rcases entriesInsert he with ⟨-, h⟩ | ⟨-, h⟩
  · have := indexNonneg hpos k; simp only [id] at h; omega
  · exact hpos e h

theorem addToWrap {wrap : Int → Int} (hw : FixesInt64 wrap) {m : GoMap Int} {k : String} {x : Int}
    (h : InInt64 (index m k + x)) : addTo wrap m k x = addTo id m k x := by
  rw [addTo, addTo, hw _ h]; rfl

theorem addToEmptyWrap {k : String} {x : Int} (hx : InInt64 x) : addTo int64Wrap ∅ k x = addTo id ∅ k x :=
  addToWrap int64WrapFixes (by rw [show index (∅ : GoMap Int) k = 0 from rfl, zero_add]; exact hx)

/- What the payouts map holds when dust consolidation starts: positive amounts summing to the
reward, every miner but the finder at its share, the finder at least at its share, and with no
finder only window addresses. -/
structure BeforeDust (totalReward : Int) (finderAddress : String) (addresses : List String)
    (pay : String → Int) (m : GoMap Int) : Prop where
  pos : ∀ e ∈ m.entries, 0 < e.2
  sum : valueSum m = totalReward
  others : finderAddress ≠ "" → ∀ a, a ≠ finderAddress → index m a = pay a
  finder : finderAddress ≠ "" → pay finderAddress ≤ index m finderAddress
  keys : finderAddress = "" → ∀ k ∈ m, k ∈ addresses

section Phases
variable {m : GoMap Int} {distributed finderFee totalReward : Int} {finderAddress : String}
  {addresses : List String} {pay : String → Int}

theorem finderFeeFacts (finderAddress : String) {p : GoMap Int × Int} (hidx : ∀ a, index p.1 a = pay a) (hpos : ∀ e ∈ p.1.entries, 0 < e.2)
    (hsum : valueSum p.1 = p.2) (hle : p.2 ≤ totalReward - finderFee) (hfee : 0 ≤ finderFee) :
    let r := addFinderFee id finderAddress finderFee p
    (∀ e ∈ r.1.entries, 0 < e.2) ∧ valueSum r.1 = r.2 ∧ r.2 ≤ totalReward ∧
      (∀ a, a ≠ finderAddress → index r.1 a = pay a) ∧ pay finderAddress ≤ index r.1 finderAddress ∧
      (finderAddress = "" → r = p) := by
  obtain ⟨m, distributed⟩ := p
  dsimp only at *
  simp only [addFinderFee]
  split_ifs with h
  · refine ⟨addToPos hpos _ h.2, by rw [valueSumAddTo, hsum]; rfl, by simp only [id]; omega,
      fun a ha => by rw [indexAddTo, if_neg ha, hidx], ?_, fun hf => absurd hf h.1⟩
    rw [indexAddTo, if_pos rfl, hidx]; omega
  · exact ⟨hpos, hsum, by omega, fun a _ => hidx a, (hidx _).ge, fun _ => rfl⟩

theorem remainderFacts {p : GoMap Int × Int} (hpos : ∀ e ∈ p.1.entries, 0 < e.2) (hsum : valueSum p.1 = p.2)
    (hle : p.2 ≤ totalReward) (hne : addresses ≠ [])
    (hothers : ∀ a, a ≠ finderAddress → index p.1 a = pay a) (hfinder : pay finderAddress ≤ index p.1 finderAddress)
    (hkeys : finderAddress = "" → ∀ k ∈ p.1, k ∈ addresses) :
    BeforeDust totalReward finderAddress addresses pay (addRemainder id totalReward finderAddress addresses p) := by
  obtain ⟨m, distributed⟩ := p
  dsimp only at *
  simp only [addRemainder, id]
  split_ifs with hr hf
  · refine ⟨addToPos hpos _ hr, by rw [valueSumAddTo, hsum]; ring, fun _ a ha => ?_, fun _ => ?_,
      fun h => absurd h hf⟩
    · rw [indexAddTo, if_neg ha, hothers a ha]
    · rw [indexAddTo, if_pos rfl]; omega
  · obtain ⟨a0, rest, rfl⟩ := List.exists_cons_of_ne_nil hne
    refine ⟨addToPos hpos _ hr, by rw [valueSumAddTo, hsum]; ring, fun h => absurd (not_not.mp hf) h,
      fun h => absurd (not_not.mp hf) h, fun _ k hk => ?_⟩
    rcases memAddTo.mp hk with rfl | hk
    · exact List.mem_cons_self _ _
    · exact hkeys (not_not.mp hf) k hk
  · exact ⟨hpos, by omega, fun _ => hothers, fun _ => hfinder, hkeys⟩

theorem addFinderFeeWrap {wrap : Int → Int} (hw : FixesInt64 wrap) {p : GoMap Int × Int}
    (hpos : ∀ e ∈ p.1.entries, 0 < e.2) (hsum : valueSum p.1 = p.2) (hle : p.2 + finderFee ≤ totalReward)
    (hR : totalReward < 2 ^ 63) :
    addFinderFee wrap finderAddress finderFee p = addFinderFee id finderAddress finderFee p := by
  obtain ⟨m, distributed⟩ := p
  dsimp only at *
  have h0 := indexNonneg hpos finderAddress
  have h1 := indexLeValueSum (fun e he => (hpos e he).le) finderAddress
  simp only [addFinderFee]
  split_ifs
  · rw [addToWrap hw ⟨by omega, by omega⟩, hw _ ⟨by omega, by omega⟩]; rfl
  · rfl

theorem addRemainderWrap {wrap : Int → Int} (hw : FixesInt64 wrap) {p : GoMap Int × Int}
    (hpos : ∀ e ∈ p.1.entries, 0 < e.2) (hsum : valueSum p.1 = p.2) (hle : p.2 ≤ totalReward)
    (hR : totalReward < 2 ^ 63) :
    addRemainder wrap totalReward finderAddress addresses p = addRemainder id totalReward finderAddress addresses p := by
  obtain ⟨m, distributed⟩ := p
  dsimp only at *
  have hd := valueSumPos fun e he => (hpos e he).le
  have hadd : ∀ k, addTo wrap m k (totalReward - distributed) = addTo id m k (totalReward - distributed) :=
    fun k => addToWrap hw ⟨by have := indexNonneg hpos k; omega,
      by have := indexLeValueSum (fun e he => (hpos e he).le) k; omega⟩
  simp only [addRemainder, hw _ (⟨by omega, by omega⟩ : InInt64 (totalReward - distributed)), id, hadd]

end Phases

/-! Dust consolidation. The dust is what the scan picks: the entries below the threshold that do
not belong to the finder, in whatever order the map is visited. -/

/- What holds once dust is consolidated: the amounts are still positive and still sum to the
reward; either no one but the finder is below the threshold or every entry is dust; every miner
but the finder keeps its amount or, when consolidation ran and it was dust, loses it; the finder
loses nothing. -/
structure AfterDust (totalReward threshold : Int) (finderAddress : String) (before after : GoMap Int) : Prop where
  pos : ∀ e ∈ after.entries, 0 < e.2
  sum : valueSum after = totalReward
  dust : (∀ e ∈ after.entries, e.1 ≠ finderAddress → threshold ≤ e.2) ∨
    (∀ e ∈ after.entries, e.2 < threshold ∧ e.1 ≠ finderAddress)
  others : finderAddress ≠ "" → ∃ consolidated : Bool, ∀ a, a ≠ finderAddress →
    index after a = if consolidated ∧ index before a < threshold then 0 else index before a
  finder : finderAddress ≠ "" → index before finderAddress ≤ index after finderAddress

theorem foldlWrapSum {wrap : Int → Int} (hw : FixesInt64 wrap) (l : List (Entry Int)) (t : Int)
    (hnn : ∀ e ∈ l, 0 ≤ e.2) (ht : 0 ≤ t) (hb : t + (l.map (·.2)).sum < 2 ^ 63) :
    l.foldl (fun acc e => wrap (acc + e.2)) t = t + (l.map (·.2)).sum := by
  induction l generalizing t with
  | nil => simp
  | cons e rest ih =>
    have he := hnn e (List.mem_cons_self _ _)
    have hrest : 0 ≤ (rest.map (·.2)).sum := List.sum_nonneg fun x hx => by
      obtain ⟨e', he', rfl⟩ := List.mem_map.mp hx; exact hnn e' (List.mem_cons_of_mem _ he')
    simp only [List.map_cons, List.sum_cons] at hb ⊢
    rw [List.foldl_cons, hw _ ⟨by omega, by omega⟩,
      ih _ (fun e' he' => hnn e' (List.mem_cons_of_mem _ he')) (by omega) (by omega)]
    ring

section Dust
variable (threshold : Int) (finderAddress : String) (order : MapOrder Int) (m : GoMap Int)

theorem dustEntries {e : Entry Int} (he : e ∈ (order.visit m.entries).filter (IsDust threshold finderAddress)) :
    e ∈ m.entries ∧ e.2 < threshold ∧ e.1 ≠ finderAddress := by
  obtain ⟨hv, hd⟩ := List.mem_filter.mp he
  exact ⟨(order.perm _).subset hv, by simpa [IsDust] using hd⟩

theorem dustAddressesNodup : (((order.visit m.entries).filter (IsDust threshold finderAddress)).map (·.1)).Nodup :=
  ((List.filter_sublist _).map _).nodup (((order.perm _).map _).nodup_iff.mpr m.keys_nodup)

theorem memDustAddresses (a : String) :
    a ∈ ((order.visit m.entries).filter (IsDust threshold finderAddress)).map (·.1) ↔
      a ∈ m ∧ index m a < threshold ∧ a ≠ finderAddress := by
  constructor
  · rintro h
    obtain ⟨e, he, rfl⟩ := List.mem_map.mp h
    obtain ⟨hm, hlt, hne⟩ := dustEntries threshold finderAddress order m he
    exact ⟨AList.mem_keys.mpr (List.mem_keys_of_mem hm), by rwa [indexOfMem hm], hne⟩
  · rintro ⟨hm, hlt, hne⟩
    obtain ⟨v, hv⟩ := Option.isSome_iff_exists.mp (memIffLookup.mp hm)
    have hv' : index m a = v := by simp [index, hv]
    refine List.mem_map.mpr ⟨⟨a, v⟩, List.mem_filter.mpr ⟨(order.perm _).symm.subset (memEntries.mpr hv), ?_⟩, rfl⟩
    simp [IsDust, ← hv', hlt, hne]

theorem dustSum : (((order.visit m.entries).filter (IsDust threshold finderAddress)).map (·.2)).sum =
    ((((order.visit m.entries).filter (IsDust threshold finderAddress)).map (·.1)).map (index m)).sum := by
  rw [List.map_map]
  exact congrArg List.sum (List.map_congr_left fun e he =>
    (indexOfMem (dustEntries threshold finderAddress order m he).1).symm)

theorem allDust (h : ¬ (((order.visit m.entries).filter (IsDust threshold finderAddress)).map (·.1)).length <
      m.entries.length) : ∀ e ∈ m.entries, e.2 < threshold ∧ e.1 ≠ finderAddress := by
  have hall : ∀ e ∈ order.visit m.entries, IsDust threshold finderAddress e := by
    refine List.filter_length_eq_length.mp (le_antisymm (List.filter_sublist _).length_le ?_)
    rw [(order.perm _).length_eq]; simpa using h
  intro e he
  simpa [IsDust] using hall e ((order.perm _).symm.subset he)

theorem someKept (h : (((order.visit m.entries).filter (IsDust threshold finderAddress)).map (·.1)).length <
      m.entries.length) :
    ∃ k ∈ m, k ∉ ((order.visit m.entries).filter (IsDust threshold finderAddress)).map (·.1) := by
  by_contra hno
  push_neg at hno
  have hsub := (m.keys_nodup.subperm fun k hk => hno k (AList.mem_keys.mpr hk)).length_le
  simp only [AList.keys, List.keys, List.length_map] at hsub h
  omega

theorem eraseDustFacts (hpos : ∀ e ∈ m.entries, 0 < e.2) :
    let dust := ((order.visit m.entries).filter (IsDust threshold finderAddress)).map (·.1)
    valueSum m = (((order.visit m.entries).filter (IsDust threshold finderAddress)).map (·.2)).sum +
        valueSum (eraseAll m dust) ∧
      (∀ e ∈ (eraseAll m dust).entries, 0 < e.2 ∧ (e.1 ≠ finderAddress → threshold ≤ e.2)) ∧
      ∀ a, index (eraseAll m dust) a = if index m a < threshold ∧ a ≠ finderAddress then 0 else index m a := by
  intro dust
  refine ⟨by rw [valueSumEraseAll m (dustAddressesNodup threshold finderAddress order m), dustSum], ?_, ?_⟩
  · intro e he
    obtain ⟨hm, hnd⟩ := entriesEraseAll he
    refine ⟨hpos e hm, fun hne => ?_⟩
    by_contra hlt
    exact hnd ((memDustAddresses threshold finderAddress order m e.1).mpr
      ⟨AList.mem_keys.mpr (List.mem_keys_of_mem hm), by rw [indexOfMem hm]; omega, hne⟩)
  · intro a
    have hiff := memDustAddresses threshold finderAddress order m a
    rw [indexEraseAll]
    by_cases hm : a ∈ m
    · by_cases hd : index m a < threshold ∧ a ≠ finderAddress
      · rw [if_pos (hiff.mpr ⟨hm, hd⟩), if_pos hd]
      · rw [if_neg fun h => hd (hiff.mp h).2, if_neg hd]
    · have hz : index m a = 0 := by rw [index, AList.lookup_eq_none.mpr hm]; rfl
      rw [if_neg fun h => hm (hiff.mp h).1, hz]; split_ifs <;> rfl

/- The dust total is the plain sum of the dust amounts, which is nonnegative: no addition of the
scan wraps while the payouts sum below `2^63`. -/
theorem dustFoldSum {wrap : Int → Int} (hw : FixesInt64 wrap) (hpos : ∀ e ∈ m.entries, 0 < e.2)
    (hb : valueSum m < 2 ^ 63) :
    ((order.visit m.entries).filter (IsDust threshold finderAddress)).foldl (fun t e => wrap (t + e.2)) 0 =
        (((order.visit m.entries).filter (IsDust threshold finderAddress)).map (·.2)).sum ∧
      0 ≤ (((order.visit m.entries).filter (IsDust threshold finderAddress)).map (·.2)).sum := by
  obtain ⟨hsplit, hkept, -⟩ := eraseDustFacts threshold finderAddress order m hpos
  have hnn : ∀ e ∈ (order.visit m.entries).filter (IsDust threshold finderAddress), 0 ≤ e.2 :=
    fun e he => (hpos e (dustEntries threshold finderAddress order m he).1).le
  have herased := valueSumPos fun e he => (hkept e he).1.le
  have hT0 := List.sum_nonneg fun x hx => by
    obtain ⟨e, he, rfl⟩ := List.mem_map.mp hx
    exact hnn e he
  exact ⟨by rw [foldlWrapSum hw _ 0 hnn le_rfl (by omega), zero_add], hT0⟩

end Dust

theorem consolidateDustFacts {totalReward : Int} {finderAddress : String} {addresses : List String}
    {pay : String → Int} {m : GoMap Int} (hb : BeforeDust totalReward finderAddress addresses pay m)
    (hR : totalReward < 2 ^ 63) (threshold : Int) (order : MapOrder Int) :
    AfterDust totalReward threshold finderAddress m
      (consolidateDust id threshold finderAddress addresses order m) := by
  obtain ⟨hsplit, hkept, hidx⟩ := eraseDustFacts threshold finderAddress order m hb.pos
  obtain ⟨hT, hT0⟩ := dustFoldSum threshold finderAddress order m idFixes hb.pos (hb.sum ▸ hR)
  simp only [consolidateDust, dustScanEq, List.nil_append, hT]
  set dust := (order.visit m.entries).filter (IsDust threshold finderAddress)
  set erased := eraseAll m (dust.map (·.1))
  rw [hb.sum] at hsplit
  have hfinder : index erased finderAddress = index m finderAddress := by rw [hidx]; simp
  have hleft : ∀ k, (k = finderAddress ∨ k ∈ erased) → ∀ e ∈ (addTo id erased k (dust.map (·.2)).sum).entries,
      e.1 ≠ finderAddress → threshold ≤ e.2 := fun k hk e he hne => by
    rcases entriesInsert he with ⟨rfl, h⟩ | ⟨-, h⟩
    · obtain ⟨v, hv⟩ := Option.isSome_iff_exists.mp (memIffLookup.mp (hk.resolve_left hne))
      have hv' : threshold ≤ v := (hkept ⟨e.1, v⟩ (memEntries.mpr hv)).2 hne
      have hi : index erased e.1 = v := by simp [index, hv]
      simp only [id, hi] at h; omega
    · exact (hkept e h).2 hne
  split_ifs with hcons hpos hf
  · refine ⟨addToPos (fun e he => (hkept e he).1) _ hpos, by rw [valueSumAddTo]; omega,
      .inl (hleft _ (.inl rfl)), fun _ => ⟨true, fun a ha => ?_⟩, fun _ => ?_⟩
    · rw [indexAddTo, if_neg ha, hidx]; simp [ha]
    · rw [indexAddTo, if_pos rfl, hfinder]; omega
  · have hf : finderAddress = "" := not_not.mp hf
    split
    · rename_i a ha
      have hmem : a ∈ erased := by simpa using List.find?_some ha
      exact ⟨addToPos (fun e he => (hkept e he).1) _ hpos, by rw [valueSumAddTo]; omega,
        .inl (hleft _ (.inr hmem)), fun h => absurd hf h, fun h => absurd hf h⟩
    · rename_i hnone
      obtain ⟨k, hk, hkd⟩ := someKept threshold finderAddress order m hcons
      exact absurd (memEraseAll.mpr ⟨hkd, hk⟩) (by simpa using List.find?_eq_none.mp hnone k (hb.keys hf k hk))
  · refine ⟨fun e he => (hkept e he).1, by omega, .inl fun e he => (hkept e he).2,
      fun _ => ⟨true, fun a ha => by rw [hidx]; simp [ha]⟩, fun _ => hfinder.ge⟩
  · exact ⟨hb.pos, hb.sum, .inr (allDust threshold finderAddress order m hcons),
      fun _ => ⟨false, fun a _ => by simp⟩, fun _ => le_rfl⟩

theorem consolidateDustWrap {wrap : Int → Int} (hw : FixesInt64 wrap) {m : GoMap Int}
    (hpos : ∀ e ∈ m.entries, 0 < e.2) (hb : valueSum m < 2 ^ 63) (threshold : Int) (finderAddress : String)
    (addresses : List String) (order : MapOrder Int) :
    consolidateDust wrap threshold finderAddress addresses order m =
      consolidateDust id threshold finderAddress addresses order m := by
  obtain ⟨hsplit, hkept, -⟩ := eraseDustFacts threshold finderAddress order m hpos
  obtain ⟨hT, hT0⟩ := dustFoldSum threshold finderAddress order m hw hpos hb
  simp only [consolidateDust, dustScanEq, List.nil_append, hT,
    (dustFoldSum threshold finderAddress order m idFixes hpos hb).1]
  set dust := (order.visit m.entries).filter (IsDust threshold finderAddress)
  set erased := eraseAll m (dust.map (·.1))
  have hadd : ∀ k, addTo wrap erased k (dust.map (·.2)).sum = addTo id erased k (dust.map (·.2)).sum := fun k =>
    addToWrap hw ⟨by have := indexNonneg (fun e he => (hkept e he).1) k; omega,
      by have := indexLeValueSum (fun e he => (hkept e he).1.le) k; omega⟩
  simp only [hadd]

/-! Bounds under the assumptions: every weight is at least 1, so the total is positive and each
miner's share of `distributableReward` lies in `[0, distributableReward]`. -/

section Assumptions
variable {c : Calculator} {window : Window} {totalReward : Int}

theorem totalWeightPos (hp : RunAssumptions c window totalReward) : 0 < window.totalWeight := by
  rw [totalWeightEq]
  obtain ⟨s, rest, hs⟩ := List.exists_cons_of_ne_nil hp.nonempty
  have h1 := shareWeightPos window (hp.targets s (by simp [hs]))
  have h2 : 0 ≤ (rest.map window.shareWeight).sum := List.sum_nonneg fun x hx => by
    obtain ⟨t, ht, rfl⟩ := List.mem_map.mp hx
    exact le_trans zero_le_one (shareWeightPos window (hp.targets t (by simp [hs, ht])))
  rw [hs, List.map_cons, List.sum_cons]; omega

theorem indexMinerWeightsBounds (hp : RunAssumptions c window totalReward) (a : String) :
    0 ≤ index window.minerWeights a ∧ index window.minerWeights a ≤ window.totalWeight := by
  rw [indexMinerWeights, totalWeightEq]
  refine ⟨weightOfNonneg window hp.targets a, ((List.filter_sublist _).map _).sum_le_sum fun x hx => ?_⟩
  obtain ⟨t, ht, rfl⟩ := List.mem_map.mp hx
  exact le_trans zero_le_one (shareWeightPos window (hp.targets t ht))

def minerShare (c : Calculator) (window : Window) (totalReward : Int) (addr : String) : Int :=
  (totalReward - c.finderFee totalReward) * index window.minerWeights addr / window.totalWeight

theorem minerShareBounds (hp : PayoutAssumptions c window totalReward) (a : String) :
    0 ≤ minerShare c window totalReward a ∧ minerShare c window totalReward a ≤ totalReward - c.finderFee totalReward := by
  have hW := totalWeightPos hp.1
  obtain ⟨h0, hle⟩ := indexMinerWeightsBounds hp.1 a
  have hD : 0 ≤ totalReward - c.finderFee totalReward := by have := hp.feeLe; omega
  refine ⟨Int.ediv_nonneg (mul_nonneg hD h0) hW.le, ?_⟩
  calc minerShare c window totalReward a
      ≤ (totalReward - c.finderFee totalReward) * window.totalWeight / window.totalWeight :=
        Int.ediv_le_ediv hW (mul_le_mul_of_nonneg_left hle hD)
    _ = totalReward - c.finderFee totalReward := Int.mul_ediv_cancel _ hW.ne'

/- Under the assumptions the split loop's `payout` is an `int64`, so no clamp applies. -/
theorem minerPayoutEq (hp : PayoutAssumptions c window totalReward) (a : String) :
    minerPayout window.minerWeights window.totalWeight (totalReward - c.finderFee totalReward) a =
      minerShare c window totalReward a := by
  have := minerShareBounds hp a
  have hlt := hp.rewardLt
  have hfee := hp.feeNonneg
  exact if_pos ⟨by unfold minerShare at this; omega, by unfold minerShare at this; omega⟩

theorem minerPayoutNonneg (hp : PayoutAssumptions c window totalReward) (a : String) :
    0 ≤ minerPayout window.minerWeights window.totalWeight (totalReward - c.finderFee totalReward) a :=
  (minerPayoutEq hp a).symm ▸ (minerShareBounds hp a).1

theorem minerPayoutsSumLe (hp : PayoutAssumptions c window totalReward) (order : MapOrder Int) :
    let reward := totalReward - c.finderFee totalReward
    ((sortedAddresses order window.minerWeights).map
      (minerPayout window.minerWeights window.totalWeight reward)).sum ≤ reward := by
  intro reward
  have hW := totalWeightPos hp.1
  have hkeys := valueSumKeys window.minerWeights (sortedAddressesPerm order window.minerWeights)
  rw [valueSumMinerWeights] at hkeys
  rw [List.map_congr_left fun a _ => minerPayoutEq hp a]
  calc ((sortedAddresses order window.minerWeights).map
          fun a => reward * index window.minerWeights a / window.totalWeight).sum
      ≤ ((sortedAddresses order window.minerWeights).map
          fun a => reward * index window.minerWeights a).sum / window.totalWeight := by
        simpa only [List.map_map] using
          sumEdivLe ((sortedAddresses order window.minerWeights).map
            fun a => reward * index window.minerWeights a) hW
    _ = reward := by rw [List.sum_map_mul_left, ← hkeys, Int.mul_ediv_cancel _ hW.ne']

theorem sortedAddressesNodup (order : MapOrder Int) (m : GoMap Int) : (sortedAddresses order m).Nodup :=
  (sortedAddressesPerm order m).nodup_iff.mpr m.keys_nodup

theorem memSortedAddresses (order : MapOrder Int) (m : GoMap Int) (a : String) :
    a ∈ sortedAddresses order m ↔ a ∈ m :=
  ((sortedAddressesPerm order m).mem_iff).trans AList.mem_keys.symm

theorem splitFacts (hp : PayoutAssumptions c window totalReward) (order : MapOrder Int) {split : GoMap Int}
    {distributed : Int}
    (hs : splitLoop id window.minerWeights window.totalWeight (totalReward - c.finderFee totalReward)
      (sortedAddresses order window.minerWeights) (∅, 0) = (split, distributed)) :
    (∀ a, index split a =
        minerPayout window.minerWeights window.totalWeight (totalReward - c.finderFee totalReward) a) ∧
      (∀ e ∈ split.entries, 0 < e.2) ∧ valueSum split = distributed ∧
      distributed ≤ totalReward - c.finderFee totalReward ∧
      ∀ k ∈ split, k ∈ sortedAddresses order window.minerWeights := by
  set reward := totalReward - c.finderFee totalReward
  set addresses := sortedAddresses order window.minerWeights
  have hnn : ∀ a ∈ addresses, 0 ≤ minerPayout window.minerWeights window.totalWeight reward a :=
    fun a _ => minerPayoutNonneg hp a
  obtain ⟨h2, h1⟩ := splitLoopId window.minerWeights window.totalWeight reward addresses ∅ 0 hnn
  rw [hs] at h1 h2
  simp only [zero_add] at h2
  have hkeys : ∀ k ∈ split, k ∈ addresses ∧ 0 < minerPayout window.minerWeights window.totalWeight reward k :=
    fun k hk => by
      have := memIffLookup.mp hk
      rw [h1] at this
      split_ifs at this with h
      · exact h
      · simp [AList.lookup_empty] at this
  have hindex : ∀ a, index split a = minerPayout window.minerWeights window.totalWeight reward a := fun a => by
    rw [index, h1]
    split_ifs with h
    · rfl
    · by_cases ha : a ∈ addresses
      · have := hnn a ha; have := not_and.mp h ha; simp [AList.lookup_empty]; omega
      · have hz : index window.minerWeights a = 0 := by
          rw [index, AList.lookup_eq_none.mpr ((memSortedAddresses _ _ a).not.mp ha)]; rfl
        rw [minerPayoutEq hp a, minerShare, hz]; simp [AList.lookup_empty]
  refine ⟨hindex, fun e he => ?_, ?_, ?_, fun k hk => (hkeys k hk).1⟩
  · have := (hkeys e.1 (AList.mem_keys.mpr (List.mem_keys_of_mem he))).2
    rwa [← hindex, indexOfMem he] at this
  · rw [valueSumCover split (sortedAddressesNodup _ _) fun k hk => (hkeys k hk).1, h2]
    exact congrArg List.sum (List.map_congr_left fun a _ => hindex a)
  · rw [h2]; exact minerPayoutsSumLe hp order

theorem addressesNonempty (hp : RunAssumptions c window totalReward) (order : MapOrder Int) :
    sortedAddresses order window.minerWeights ≠ [] := by
  obtain ⟨s, rest, hs⟩ := List.exists_cons_of_ne_nil hp.nonempty
  have : s.minerAddress ∈ sortedAddresses order window.minerWeights := by
    rw [memSortedAddresses, memMinerWeights, hs]; exact List.mem_map_of_mem _ (List.mem_cons_self _ _)
  exact List.ne_nil_of_mem this

theorem beforeDustFacts (hp : PayoutAssumptions c window totalReward) (order : MapOrder Int)
    (finderAddress : String) :
    let reward := totalReward - c.finderFee totalReward
    let addresses := sortedAddresses order window.minerWeights
    BeforeDust totalReward finderAddress addresses (minerPayout window.minerWeights window.totalWeight reward)
      (addRemainder id totalReward finderAddress addresses
        (addFinderFee id finderAddress (c.finderFee totalReward)
          (splitLoop id window.minerWeights window.totalWeight reward addresses (∅, 0)))) := by
  obtain ⟨hidx, hpos, hsum, hle, hkeys⟩ := splitFacts hp order Prod.mk.eta.symm
  obtain ⟨pos2, sum2, le2, others2, finder2, empty2⟩ :=
    finderFeeFacts finderAddress hidx hpos hsum hle hp.feeNonneg
  exact remainderFacts pos2 sum2 le2 (addressesNonempty hp.1 order) others2 finder2
    fun hf k hk => hkeys k (by rw [empty2 hf] at hk; exact hk)

/- Under the assumptions no `int64` operation of the run wraps: any wrap that fixes the `int64`
range, Go's among them, gives the run in exact arithmetic. -/
theorem calculatePayoutsExact {wrap : Int → Int} (hw : FixesInt64 wrap)
    (hp : PayoutAssumptions c window totalReward) (orders : RangeOrders) (finderAddress : String) :
    calculatePayoutsWith wrap orders c window totalReward finderAddress =
      calculatePayoutsWith id orders c window totalReward finderAddress := by
  have hR := hp.rewardLt
  have hF := hp.feeLe
  have hF0 := hp.feeNonneg
  have hW := (totalWeightPos hp.1).ne'
  have hcount : window.shareCount ≠ 0 := fun h => hp.nonempty (List.length_eq_zero.mp h)
  have hD : wrap (totalReward - c.finderFee totalReward) = totalReward - c.finderFee totalReward :=
    hw _ ⟨by omega, by omega⟩
  simp only [calculatePayoutsWith, hcount, hp.rewardPos.not_le, or_self, if_false, hD, hW]
  obtain ⟨-, hpos, hsum, hle, -⟩ := splitFacts hp orders.addresses Prod.mk.eta.symm
  obtain ⟨pos2, sum2, le2, -⟩ :=
    finderFeeFacts finderAddress (fun _ => rfl) hpos hsum hle hF0
  have hb := beforeDustFacts hp orders.addresses finderAddress
  have hle' : (splitLoop id window.minerWeights window.totalWeight (totalReward - c.finderFee totalReward)
      (sortedAddresses orders.addresses window.minerWeights) (∅, 0)).2 + c.finderFee totalReward ≤ totalReward := by
    omega
  rw [splitLoopWrap _ _ _ hw _ _ _ (fun a _ => minerPayoutNonneg hp a)
      le_rfl (by have := minerPayoutsSumLe hp orders.addresses; omega),
    addFinderFeeWrap hw hpos hsum hle' (by omega), addRemainderWrap hw pos2 sum2 le2 (by omega),
    consolidateDustWrap hw hb.pos (by rw [hb.sum]; omega)]
  rfl

/- The run in exact arithmetic: the map before and after dust consolidation, and the emitted list. -/
theorem calculatePayoutsRun (hp : PayoutAssumptions c window totalReward) (orders : RangeOrders)
    (finderAddress : String) :
    ∃ before after, BeforeDust totalReward finderAddress (sortedAddresses orders.addresses window.minerWeights)
        (minerPayout window.minerWeights window.totalWeight (totalReward - c.finderFee totalReward)) before ∧
      AfterDust totalReward c.dustThresholdSats finderAddress before after ∧
      calculatePayouts orders c window totalReward finderAddress = buildResult orders.result after := by
  have hcount : window.shareCount ≠ 0 := fun h => hp.nonempty (List.length_eq_zero.mp h)
  have hb := beforeDustFacts hp orders.addresses finderAddress
  refine ⟨_, _, hb, consolidateDustFacts hb (by have := hp.rewardLt; omega) c.dustThresholdSats orders.dust, ?_⟩
  rw [calculatePayouts, calculatePayoutsExact int64WrapFixes hp]
  simp only [calculatePayoutsWith, hcount, hp.rewardPos.not_le, or_self, if_false, (totalWeightPos hp.1).ne']
  rfl

/-! A fee above the reward leaves nothing to split: the finder, or with no finder the first
address, is all the map holds before consolidation. -/

theorem minerPayoutNonpos {m : GoMap Int} {totalWeight distributableReward : Int} (hW : 0 < totalWeight)
    (hD : distributableReward ≤ 0) (hm : ∀ a, 0 ≤ index m a) (a : String) :
    minerPayout m totalWeight distributableReward a ≤ 0 := by
  unfold minerPayout
  dsimp only
  split_ifs
  · exact (Int.ediv_le_ediv hW (mul_nonpos_of_nonpos_of_nonneg hD (hm a))).trans_eq (Int.zero_ediv _)
  · exact hD

theorem splitLoopNonpos (wrap : Int → Int) (m : GoMap Int) (totalWeight distributableReward : Int)
    (h : ∀ a, minerPayout m totalWeight distributableReward a ≤ 0) :
    ∀ (l : List String) (acc : GoMap Int × Int), splitLoop wrap m totalWeight distributableReward l acc = acc
  | [], _ => rfl
  | a :: rest, (p, d) => by
    simp only [splitLoop, gt_iff_lt, not_lt.mpr (h a), if_false]
    exact splitLoopNonpos wrap m totalWeight distributableReward h rest (p, d)

theorem beforeDustSingleton {total : Int} {finderAddress k : String} {addresses : List String} (hpos : 0 < total)
    (hk : finderAddress ≠ "" → k = finderAddress) (hkeys : finderAddress = "" → k ∈ addresses) :
    BeforeDust total finderAddress addresses (fun _ => 0) (addTo id ∅ k total) := by
  have hempty : ∀ a, index (∅ : GoMap Int) a = 0 := fun _ => rfl
  refine ⟨addToPos (fun e he => absurd he (List.not_mem_nil e)) k hpos, by rw [valueSumAddTo]; exact zero_add total,
    fun hf a ha => ?_, fun hf => ?_, fun hf a ha => ?_⟩
  · rw [indexAddTo, if_neg (hk hf ▸ ha), hempty]
  · rw [hk hf, indexAddTo, if_pos rfl, hempty]; omega
  · rw [memAddTo.mp ha |>.resolve_right (AList.not_mem_empty a)]
    exact hkeys hf

theorem calculatePayoutsOverFee (hp : RunAssumptions c window totalReward)
    (hF : totalReward < c.finderFee totalReward) (orders : RangeOrders) (finderAddress : String) :
    ∃ total before, total < 2 ^ 63 ∧
      BeforeDust total finderAddress (sortedAddresses orders.addresses window.minerWeights) (fun _ => 0) before ∧
      calculatePayouts orders c window totalReward finderAddress = buildResult orders.result
        (consolidateDust id c.dustThresholdSats finderAddress (sortedAddresses orders.addresses window.minerWeights)
          orders.dust before) := by
  have hR := hp.rewardPos
  have hFl := hp.feeLt
  have hW := totalWeightPos hp
  have hcount : window.shareCount ≠ 0 := fun h => hp.nonempty (List.length_eq_zero.mp h)
  have hD : int64Wrap (totalReward - c.finderFee totalReward) = totalReward - c.finderFee totalReward :=
    int64WrapOfInRange ⟨by omega, by omega⟩
  have hsplit := splitLoopNonpos int64Wrap window.minerWeights window.totalWeight
    (totalReward - c.finderFee totalReward) (minerPayoutNonpos hW (by omega) fun a => (indexMinerWeightsBounds hp a).1)
  simp only [calculatePayouts, calculatePayoutsWith, hcount, hR.not_le, or_self, if_false, hD, hW.ne', hsplit]
  set addresses := sortedAddresses orders.addresses window.minerWeights
  -- the map holds one entry: the reward at the first address, or the fee at the finder
  obtain ⟨k, total, hT0, hT, hk, hkeys, hm⟩ : ∃ k total, 0 < total ∧ total < 2 ^ 63 ∧
      (finderAddress ≠ "" → k = finderAddress) ∧ (finderAddress = "" → k ∈ addresses) ∧
      addRemainder int64Wrap totalReward finderAddress addresses
        (addFinderFee int64Wrap finderAddress (c.finderFee totalReward) (∅, 0)) = addTo id ∅ k total := by
    by_cases hf : finderAddress = ""
    · obtain ⟨a0, rest, hadd⟩ : ∃ a0 rest, addresses = a0 :: rest :=
        List.exists_cons_of_ne_nil (addressesNonempty hp orders.addresses)
      refine ⟨a0, totalReward, hR, by omega, fun h => absurd hf h, fun _ => hadd ▸ List.mem_cons_self a0 rest, ?_⟩
      simp only [addFinderFee, hf, ne_eq, not_true_eq_false, false_and, if_false, addRemainder, sub_zero, hadd,
        int64WrapOfInRange (⟨by omega, by omega⟩ : InInt64 totalReward), gt_iff_lt, hR, if_true]
      exact addToEmptyWrap ⟨by omega, by omega⟩
    · refine ⟨finderAddress, _, by omega, hFl, fun _ => rfl, fun h => absurd h hf, ?_⟩
      rw [addFinderFee, if_pos ⟨hf, by omega⟩, zero_add, int64WrapOfInRange ⟨by omega, by omega⟩,
        addToEmptyWrap ⟨by omega, by omega⟩]
      simp only [addRemainder, hD, gt_iff_lt, sub_pos, not_lt.mpr hF.le, if_false]
  have hb := beforeDustSingleton hT0 hk hkeys
  exact ⟨total, _, hT, hb, by rw [hm, consolidateDustWrap int64WrapFixes hb.pos (by rw [hb.sum]; omega)]⟩

theorem calculatePayoutsDust (hp : RunAssumptions c window totalReward) (orders : RangeOrders)
    (finderAddress : String) :
    ∃ total before after, AfterDust total c.dustThresholdSats finderAddress before after ∧
      calculatePayouts orders c window totalReward finderAddress = buildResult orders.result after := by
  by_cases hle : c.finderFee totalReward ≤ totalReward
  · obtain ⟨before, after, -, ha, hout⟩ := calculatePayoutsRun ⟨hp, hle⟩ orders finderAddress
    exact ⟨_, before, after, ha, hout⟩
  · obtain ⟨total, before, hT, hb, hout⟩ := calculatePayoutsOverFee hp (not_le.mp hle) orders finderAddress
    exact ⟨total, before, _, consolidateDustFacts hb hT _ _, hout⟩

end Assumptions

section Laws
variable {c : Calculator} {window : Window} {totalReward : Int}

/- At a finder fee of 100% the fee on `8102387193716409` is one more than the reward: the product
`float64(R) * 100` rounds up by 60, and its quotient by 100 rounds up to `R + 1`. The finder is paid
that and the window's miner nothing, so the payouts sum past the reward. -/
set_option maxRecDepth 4000 in
theorem fullFeeOverpaysFinder :
    let orders : RangeOrders := ⟨⟨id, fun l => .refl l⟩, ⟨id, fun l => .refl l⟩, ⟨id, fun l => .refl l⟩⟩
    let c := newCalculator ⟨false, 100, 0, by decide, by decide, by decide⟩ 0
    let window : Window := ⟨[⟨default, none, "b"⟩], 1⟩
    (∀ s ∈ window.shares, TargetInRange window.maxTarget s.shareTarget) ∧
      c.finderFee 8102387193716409 = 8102387193716409 + 1 ∧
      calculatePayouts orders c window 8102387193716409 "a" = [⟨"a", 8102387193716409 + 1⟩] :=
  ⟨by simp [TargetInRange], by decide, by decide⟩

theorem dustLaw (hp : RunAssumptions c window totalReward) (orders : RangeOrders) (finderAddress : String) :
    let out := calculatePayouts orders c window totalReward finderAddress
    (∀ e ∈ out, e.address ≠ finderAddress → c.dustThresholdSats ≤ e.amount) ∨
      (∀ e ∈ out, e.amount < c.dustThresholdSats ∧ e.address ≠ finderAddress) := by
  obtain ⟨_, _, after, ha, hout⟩ := calculatePayoutsDust hp orders finderAddress
  simp only [hout, memBuildResult]
  exact ha.dust.imp (fun h e he => h _ he) (fun h e he => h _ he)

theorem dustLawExample :
    let orders : RangeOrders := ⟨⟨id, fun l => .refl l⟩, ⟨id, fun l => .refl l⟩, ⟨id, fun l => .refl l⟩⟩
    let c := newCalculator ⟨false, 100, 0, by decide, by decide, by decide⟩ 546
    let window : Window := ⟨[⟨default, none, "a"⟩, ⟨default, some 1, "b"⟩], 1⟩
    RunAssumptions c window 8102387193716409 ∧
      let out := calculatePayouts orders c window 8102387193716409 "c"
      (∀ e ∈ out, e.address ≠ "c" → c.dustThresholdSats ≤ e.amount) ∨
        (∀ e ∈ out, e.amount < c.dustThresholdSats ∧ e.address ≠ "c") :=
  have hp : RunAssumptions (newCalculator ⟨false, 100, 0, by decide, by decide, by decide⟩ 546)
      ⟨[⟨default, none, "a"⟩, ⟨default, some 1, "b"⟩], 1⟩ 8102387193716409 :=
    ⟨List.cons_ne_nil _ _, by simp [TargetInRange], by norm_num, by norm_num, by decide, by decide⟩
  ⟨hp, dustLaw hp _ _⟩

/- At the input where the fee is `R + 1`, the window's miner `b` receives nothing while its
share of `R - F = -1` rounds down to `-1`. -/
set_option maxRecDepth 4000 in
theorem fullFeeNonFinderAboveShare :
    let orders : RangeOrders := ⟨⟨id, fun l => .refl l⟩, ⟨id, fun l => .refl l⟩, ⟨id, fun l => .refl l⟩⟩
    let c := newCalculator ⟨false, 100, 0, by decide, by decide, by decide⟩ 0
    let window : Window := ⟨[⟨default, none, "b"⟩], 1⟩
    (∀ s ∈ window.shares, TargetInRange window.maxTarget s.shareTarget) ∧
      amountIn (calculatePayouts orders c window 8102387193716409 "a") "b" = 0 ∧
      (8102387193716409 - c.finderFee 8102387193716409) * index window.minerWeights "b" / window.totalWeight = -1 :=
  ⟨by simp [TargetInRange], by decide, by decide⟩

end Laws

end P2Pool.Pplns
