import P2Pool.Maps
import P2Pool.Template

/-! The job generator of the work path: the template's txids turned into the internal-order
hashes the merkle branches are built from, the link from a job it built to the pre-submit
check of `VerifyMerkleRoot`, and the cache of recent jobs that `storeJob` keeps for `GetJob`. -/
namespace P2Pool.Generator
open Util Hex Merkle Types Template Maps

/- `extractTxHashes` drops the decoding error: an invalid txid contributes the bytes decoded
before the bad digit. -/
def extractTxHashes (tmpl : BlockTemplate) : List String :=
  tmpl.transactions.map fun tx => encodeToString (reverseBytes (decode tx.txID.toList).1)

def internalTxids (tmpl : BlockTemplate) : List Bytes :=
  tmpl.transactions.map fun tx => reverseBytes (decode tx.txID.toList).1

theorem extractTxHashesEq (tmpl : BlockTemplate) :
    extractTxHashes tmpl = (internalTxids tmpl).map encodeToString := by
  simp [extractTxHashes, internalTxids]

/- A block assembled from a job whose branches come from the template passes the pre-submit check:
the branch fold in the header and the full tree of `VerifyMerkleRoot` reach the same root. -/
theorem presubmitAcceptsOwnWork {sha : DoubleSHA256} {tmpl : BlockTemplate} {job : JobData}
    {version extranonce1 extranonce2 ntime nonce : String} {header coinbase : Bytes}
    (htx : ∀ tx ∈ tmpl.transactions, ∃ b, decodeString tx.txID = .ok b)
    (hbranches : computeMerkleBranches sha.sum (extractTxHashes tmpl) = .ok job.merkleBranches)
    (h : reconstructHeader sha job version extranonce1 extranonce2 ntime nonce = .ok (header, coinbase)) :
    verifyMerkleRoot sha header coinbase tmpl = .ok () := by
  obtain ⟨hlen, hroot⟩ := reconstructHeaderRoot h
  rw [extractTxHashesEq, computeMerkleBranchesEncoded] at hbranches
  rw [← Except.ok.inj hbranches, branchesReachFullRoot, ← computeFullMerkleRootCons] at hroot
  exact verifyMerkleRootOk.mpr ⟨by omega, internalTxids tmpl, decodeTxidsOfValid 0 htx, (Except.ok.inj hroot).symm⟩

set_option maxRecDepth 4000 in
theorem presubmitAcceptsOwnWorkExample :
    let sha : DoubleSHA256 := ⟨fun b => (List.range 32).map fun i =>
      b.foldl (fun acc x => acc * 31 + (x ^^^ UInt8.ofNat i)) 0, fun _ => by simp⟩
    let tmpl : BlockTemplate :=
      { transactions := [{ txID := "202122232425262728292a2b2c2d2e2f303132333435363738393a3b3c3d3e3f" },
          { txID := "404142434445464748494a4b4c4d4e4f505152535455565758595a5b5c5d5e5f" }] }
    let job : JobData :=
      { id := "", seq := 0, prevBlockHash := "1c1d1e1f18191a1b14151617101112130c0d0e0f08090a0b0405060700010203",
        coinbase1 := "aa", coinbase2 := "bb",
        merkleBranches := ["3f3e3d3c3b3a393837363534333231302f2e2d2c2b2a29282726252423222120",
          "e020e020e020e020e020e020e020e020e020e020e020e020e020e020e020e020"],
        nBits := "1d00ffff" }
    (∀ tx ∈ tmpl.transactions, ∃ b, decodeString tx.txID = .ok b) ∧
      computeMerkleBranches sha.sum (extractTxHashes tmpl) = .ok job.merkleBranches ∧
      ∃ header coinbase, reconstructHeader sha job "20000000" "01" "02" "5f5e1000" "0000abcd" = .ok (header, coinbase) ∧
        verifyMerkleRoot sha header coinbase tmpl = .ok () := by
  intro sha tmpl job
  have htx : ∀ tx ∈ tmpl.transactions, ∃ b, decodeString tx.txID = .ok b := by
    simp only [tmpl, List.mem_cons, List.not_mem_nil, or_false, forall_eq_or_imp, forall_eq]
    exact ⟨⟨_, rfl⟩, ⟨_, rfl⟩⟩
  have hbranches : computeMerkleBranches sha.sum (extractTxHashes tmpl) = .ok job.merkleBranches := by
    rw [extractTxHashesEq, computeMerkleBranchesEncoded]
    simp only [tmpl, internalTxids, List.map_cons, List.map_nil, branchesLoop, pairLevel]
    rfl
  obtain ⟨header, coinbase, h⟩ : ∃ header coinbase,
      reconstructHeader sha job "20000000" "01" "02" "5f5e1000" "0000abcd" = .ok (header, coinbase) := ⟨_, _, rfl⟩
  exact ⟨htx, hbranches, header, coinbase, h, presubmitAcceptsOwnWork htx hbranches h⟩

def maxStoredJobs : Nat := 20

/- One entry of the eviction scan `for id, j := range g.jobs`; an empty `oldestID` stands for
none found yet. -/
def oldestStep (acc : String × Nat) (e : Entry JobData) : String × Nat :=
  if acc.1 = "" ∨ e.2.seq < acc.2 then (e.1, e.2.seq) else acc

/- `for len(g.jobs) > maxStoredJobs`: round `k` scans the map in the order `orders k` and deletes
the oldest job it found. -/
def evictLoop (orders : Nat → MapOrder JobData) : Nat → Nat → GoMap JobData → GoMap JobData
  | 0, _, jobs => jobs
  | fuel + 1, k, jobs =>
    if maxStoredJobs < jobs.entries.length then
      evictLoop orders fuel (k + 1) (jobs.erase (((orders k).visit jobs.entries).foldl oldestStep ("", 0)).1)
    else jobs

/- `Generator.storeJob`. Each round deletes a key, so the map's size is enough fuel for the loop
to stop by its own condition (`evictLoopSize`). -/
def storeJob (orders : Nat → MapOrder JobData) (jobs : GoMap JobData) (job : JobData) : GoMap JobData :=
  let jobs := jobs.insert job.id job
  evictLoop orders jobs.entries.length 0 jobs

def getJob (jobs : GoMap JobData) (id : String) : Option JobData := jobs.lookup id

/- `storeJob` calls in arrival order; call `i` scans with the orders `orders i`. -/
def storeJobs (orders : Nat → Nat → MapOrder JobData) : GoMap JobData → List JobData → GoMap JobData
  | jobs, [] => jobs
  | jobs, job :: rest => storeJobs (fun i => orders (i + 1)) (storeJob (orders 0) jobs job) rest

def newerCount (jobs : List JobData) (j : JobData) : Nat := (jobs.filter fun j' => j.seq < j'.seq).length

/- `j` is among the `maxStoredJobs` most recent of `jobs` by sequence number. -/
def IsRecent (jobs : List JobData) (j : JobData) : Prop := newerCount jobs j < maxStoredJobs

instance (jobs : List JobData) (j : JobData) : Decidable (IsRecent jobs j) :=
  inferInstanceAs (Decidable (_ < _))

theorem oldestStepKey (acc : String × Nat) (l : List (Entry JobData)) :
    (l.foldl oldestStep acc).1 = acc.1 ∨ ∃ e ∈ l, (l.foldl oldestStep acc).1 = e.1 := by
  induction l generalizing acc with
  | nil => exact .inl rfl
  | cons e l ih =>
    rw [List.foldl_cons]
    rcases ih (oldestStep acc e) with h | ⟨e', he', h⟩
    · rw [h]; unfold oldestStep; split_ifs
      · exact .inr ⟨e, List.mem_cons_self _ _, rfl⟩
      · exact .inl rfl
    · exact .inr ⟨e', List.mem_cons_of_mem _ he', h⟩

theorem oldestScanKey {l : List (Entry JobData)} (hl : l ≠ []) :
    ∃ e ∈ l, (l.foldl oldestStep ("", 0)).1 = e.1 := by
  obtain ⟨e, l, rfl⟩ := List.exists_cons_of_ne_nil hl
  have hfirst : oldestStep ("", 0) e = (e.1, e.2.seq) := if_pos (.inl rfl)
  rcases oldestStepKey (oldestStep ("", 0) e) l with h | ⟨e', he', h⟩
  · exact ⟨e, List.mem_cons_self _ _, by rw [List.foldl_cons, h, hfirst]⟩
  · exact ⟨e', List.mem_cons_of_mem _ he', h⟩

/- With no empty key the scan is a minimum: it ends on the accumulator or an entry, below all. -/
theorem oldestStepMin (l : List (Entry JobData)) (acc : String × Nat) (hacc : acc.1 ≠ "")
    (hl : ∀ e ∈ l, e.1 ≠ "") :
    (l.foldl oldestStep acc = acc ∨ ∃ e ∈ l, l.foldl oldestStep acc = (e.1, e.2.seq)) ∧
      (l.foldl oldestStep acc).2 ≤ acc.2 ∧ ∀ e ∈ l, (l.foldl oldestStep acc).2 ≤ e.2.seq := by
  induction l generalizing acc with
  | nil => exact ⟨.inl rfl, le_refl _, by simp⟩
  | cons e l ih =>
    have hstep : oldestStep acc e = if e.2.seq < acc.2 then (e.1, e.2.seq) else acc := by
      simp [oldestStep, hacc]
    have hacc' : (oldestStep acc e).1 ≠ "" := by
      rw [hstep]; split_ifs
      · exact hl e (List.mem_cons_self _ _)
      · exact hacc
    have hle' : (oldestStep acc e).2 ≤ acc.2 ∧ (oldestStep acc e).2 ≤ e.2.seq := by
      rw [hstep]; split_ifs <;> simp <;> omega
    obtain ⟨hmem, hle, hall⟩ := ih (oldestStep acc e) hacc' fun e' h => hl e' (List.mem_cons_of_mem _ h)
    simp only [List.foldl_cons]
    refine ⟨?_, hle.trans hle'.1, fun e' he' => ?_⟩
    · rcases hmem with h | ⟨e', he', h⟩
      · rw [h, hstep]; split_ifs
        · exact .inr ⟨e, List.mem_cons_self _ _, rfl⟩
        · exact .inl rfl
      · exact .inr ⟨e', List.mem_cons_of_mem _ he', h⟩
    · rcases List.mem_cons.mp he' with rfl | he'
      · exact hle.trans hle'.2
      · exact hall e' he'

theorem oldestScanMin {l : List (Entry JobData)} (hne : l ≠ []) (hl : ∀ e ∈ l, e.1 ≠ "") :
    ∃ e ∈ l, l.foldl oldestStep ("", 0) = (e.1, e.2.seq) ∧ ∀ e' ∈ l, e.2.seq ≤ e'.2.seq := by
  obtain ⟨e, l, rfl⟩ := List.exists_cons_of_ne_nil hne
  have hfirst : oldestStep ("", 0) e = (e.1, e.2.seq) := if_pos (.inl rfl)
  obtain ⟨hmem, hle, hall⟩ := oldestStepMin l (e.1, e.2.seq) (hl e (List.mem_cons_self _ _))
    fun e' h => hl e' (List.mem_cons_of_mem _ h)
  rw [List.foldl_cons, hfirst]
  rcases hmem with h | ⟨e', he', h⟩
  · refine ⟨e, List.mem_cons_self _ _, h, fun e' he' => ?_⟩
    rcases List.mem_cons.mp he' with rfl | he'
    · exact le_refl _
    · simpa [h] using hall e' he'
  · refine ⟨e', List.mem_cons_of_mem _ he', h, fun e'' he'' => ?_⟩
    rcases List.mem_cons.mp he'' with rfl | he''
    · simpa [h] using hle
    · simpa [h] using hall e'' he''

theorem evictLoopOfLe (orders : Nat → MapOrder JobData) (fuel k : Nat) {m : GoMap JobData}
    (h : m.entries.length ≤ maxStoredJobs) : evictLoop orders fuel k m = m := by
  cases fuel <;> simp [evictLoop, Nat.not_lt.mpr h]

theorem eraseLength {m : GoMap JobData} {k : String} (hk : k ∈ m) :
    (m.erase k).entries.length + 1 = m.entries.length := by
  obtain ⟨b, hb⟩ := Option.isSome_iff_exists.mp (memIffLookup.mp hk)
  simpa using (entriesPermErase hb).length_eq.symm

theorem evictLoopSize (orders : Nat → MapOrder JobData) :
    ∀ (fuel k : Nat) (m : GoMap JobData), m.entries.length ≤ fuel + maxStoredJobs →
      (evictLoop orders fuel k m).entries.length ≤ maxStoredJobs
  | 0, k, m, h => by rw [evictLoopOfLe orders 0 k (by omega)]; omega
  | fuel + 1, k, m, h => by
    by_cases hs : maxStoredJobs < m.entries.length
    · rw [evictLoop, if_pos hs]
      have hne : (orders k).visit m.entries ≠ [] := fun h0 => by
        have := ((orders k).perm m.entries).length_eq
        rw [h0] at this; simp at this; omega
      obtain ⟨e, he, hkey⟩ := oldestScanKey hne
      have hmem : e.1 ∈ m := List.mem_keys_of_mem (((orders k).perm _).subset he)
      have := eraseLength (hkey ▸ hmem)
      exact evictLoopSize orders fuel (k + 1) _ (by omega)
    · rw [evictLoop, if_neg hs]; omega

/- Whatever is stored, the cache never holds more than `maxStoredJobs` jobs. -/
theorem storeJobSize (orders : Nat → MapOrder JobData) (jobs : GoMap JobData) (job : JobData) :
    (storeJob orders jobs job).entries.length ≤ maxStoredJobs :=
  evictLoopSize orders _ 0 _ (by omega)

theorem newerAppend (S : List JobData) (x y : JobData) :
    newerCount (S ++ [x]) y = newerCount S y + if y.seq < x.seq then 1 else 0 := by
  simp only [newerCount, List.filter_append, List.length_append, List.filter_cons, List.filter_nil]
  split_ifs <;> simp_all

theorem newerLtOfOlder {T : List JobData} {y j : JobData} (hj : j ∈ T) (h : y.seq < j.seq) :
    newerCount T j < newerCount T y := by
  have hsub : List.Sublist (T.filter fun j' => j.seq < j'.seq) (T.filter fun j' => y.seq < j'.seq) :=
    List.monotone_filter_right T fun a ha => by simp at ha ⊢; omega
  have hin : j ∈ T.filter fun j' => y.seq < j'.seq := List.mem_filter.mpr ⟨hj, by simpa using h⟩
  have hout : j ∉ T.filter fun j' => j.seq < j'.seq := by simp
  exact lt_of_le_of_ne hsub.length_le fun he => hout ((hsub.eq_of_length he) ▸ hin)

theorem newerLtLength {T : List JobData} {j : JobData} (hj : j ∈ T) : newerCount T j < T.length :=
  List.length_filter_lt_length_iff_exists.mpr ⟨j, hj, by simp⟩

theorem minFilterGe {A B : List Nat} {a : Nat} (hA : A.Nodup) (hsub : A ⊆ B) (ha : a ∈ A)
    (hmin : ∀ b ∈ A, a ≤ b) : A.length - 1 ≤ (B.filter (a < ·)).length := by
  have hall : (A.erase a).filter (a < ·) = A.erase a := List.filter_eq_self.mpr fun b hb => by
    have := hA.mem_erase_iff.mp hb
    simpa using lt_of_le_of_ne (hmin b this.2) (Ne.symm this.1)
  have hperm := ((List.perm_cons_erase ha).filter (a < ·)).length_eq
  rw [List.filter_cons_of_neg (by simp), hall, List.length_erase_of_mem ha] at hperm
  rw [← hperm]
  exact ((List.subperm_of_subset hA hsub).filter _).length_le

theorem newerCountSeqs (T : List JobData) (j : JobData) :
    newerCount T j = ((T.map (·.seq)).filter (j.seq < ·)).length := by
  rw [newerCount, List.filter_map, List.length_map]; rfl

/- The cache after the stores of `S`: exactly the recent jobs of `S`, each under its ID, as many as
`S` has up to `maxStoredJobs`. -/
structure Holds (S : List JobData) (m : GoMap JobData) : Prop where
  lookup : ∀ id j, m.lookup id = some j ↔ j ∈ S ∧ j.id = id ∧ IsRecent S j
  size : m.entries.length = min maxStoredJobs S.length

section
variable {S : List JobData} {m : GoMap JobData} {x : JobData}

theorem insertLookup (hm : Holds S m) (hxS : ∀ j ∈ S, j.id ≠ x.id) (id : String) (j : JobData) :
    (m.insert x.id x).lookup id = some j ↔ j ∈ S ++ [x] ∧ j.id = id ∧ (j ∈ S → IsRecent S j) := by
  rw [lookupInsert]
  split_ifs with h
  · subst h
    constructor
    · rintro ⟨⟩; exact ⟨by simp, rfl, fun hj => absurd rfl (hxS _ hj)⟩
    · rintro ⟨hj, hjid, -⟩
      rcases List.mem_append.mp hj with hj | hj
      · exact absurd hjid (hxS j hj)
      · rw [List.mem_singleton.mp hj]
  · rw [hm.lookup]
    constructor
    · rintro ⟨hj, hjid, hr⟩; exact ⟨List.mem_append_left _ hj, hjid, fun _ => hr⟩
    · rintro ⟨hj, hjid, hr⟩
      rcases List.mem_append.mp hj with hj | hj
      · exact ⟨hj, hjid, hr hj⟩
      · rw [List.mem_singleton.mp hj] at hjid; exact absurd hjid.symm h

theorem insertFresh (hm : Holds S m) (hxS : ∀ j ∈ S, j.id ≠ x.id) : x.id ∉ m := fun hx => by
  obtain ⟨j, hj⟩ := Option.isSome_iff_exists.mp (memIffLookup.mp hx)
  obtain ⟨hjS, hjid, -⟩ := (hm.lookup _ _).mp hj
  exact hxS j hjS hjid

theorem recentOfAppend {j : JobData} (h : IsRecent (S ++ [x]) j) : IsRecent S j := by
  have := newerAppend S x j
  unfold IsRecent at *; split_ifs at this <;> omega

theorem storeJobBelowCap (order : Nat → MapOrder JobData) (hm : Holds S m) (hxS : ∀ j ∈ S, j.id ≠ x.id)
    (hS : S.length < maxStoredJobs) : Holds (S ++ [x]) (storeJob order m x) := by
  have hsize : (m.insert x.id x).entries.length = S.length + 1 := by
    rw [AList.insert_entries_of_neg (insertFresh hm hxS), List.length_cons, hm.size, min_eq_right hS.le]
  have hstore : storeJob order m x = m.insert x.id x := evictLoopOfLe _ _ _ (by omega)
  rw [hstore]
  refine ⟨fun id j => (insertLookup hm hxS id j).trans ⟨fun ⟨hj, hjid, _⟩ => ⟨hj, hjid, ?_⟩,
    fun ⟨hj, hjid, _⟩ => ⟨hj, hjid, fun h => lt_of_lt_of_le (newerLtLength h) hS.le⟩⟩, ?_⟩
  · have := newerLtLength hj
    simp only [List.length_append, List.length_singleton] at this
    unfold IsRecent; omega
  · rw [hsize, List.length_append, List.length_singleton]; omega

/- At one job over the cap the loop runs a single round, deleting the job of least sequence number. -/
theorem evictOnce (order : Nat → MapOrder JobData) {M : GoMap JobData} (hsize : M.entries.length = maxStoredJobs + 1)
    (hkeys : ∀ e ∈ M.entries, e.1 ≠ "") :
    ∃ e ∈ M.entries, (∀ e' ∈ M.entries, e.2.seq ≤ e'.2.seq) ∧
      evictLoop order (maxStoredJobs + 1) 0 M = M.erase e.1 ∧ (M.erase e.1).entries.length = maxStoredJobs := by
  have hperm := (order 0).perm M.entries
  have hvne : (order 0).visit M.entries ≠ [] := fun h0 => by
    have := hperm.length_eq; rw [h0] at this; simp at this; omega
  obtain ⟨e, he, hscan, hmin⟩ := oldestScanMin hvne fun e he => hkeys e (hperm.subset he)
  have heM := hperm.subset he
  have herase : (M.erase e.1).entries.length = maxStoredJobs := by
    have := eraseLength (List.mem_keys_of_mem heM : e.1 ∈ M); omega
  refine ⟨e, heM, fun e' he' => hmin e' (hperm.mem_iff.mpr he'), ?_, herase⟩
  rw [evictLoop, if_pos (by omega), hscan, evictLoopOfLe _ _ _ herase.le]

theorem oldestNewerCount {M : GoMap JobData} {T : List JobData} (hentry : ∀ e ∈ M.entries, e.2 ∈ T ∧ e.2.id = e.1)
    (hseq : ∀ a ∈ T, ∀ b ∈ T, a.seq = b.seq → a = b) {e : Entry JobData} (he : e ∈ M.entries)
    (hmin : ∀ e' ∈ M.entries, e.2.seq ≤ e'.2.seq) : M.entries.length - 1 ≤ newerCount T e.2 := by
  have hnd : (M.entries.map (·.2.seq)).Nodup := M.nodupKeys.nodup.map_on fun a ha b hb hab => by
    have hv := hseq _ (hentry a ha).1 _ (hentry b hb).1 hab
    exact Sigma.ext (by rw [← (hentry a ha).2, ← (hentry b hb).2, hv]) (heq_of_eq hv)
  have hge := minFilterGe hnd (B := T.map (·.seq))
    (fun a ha => by
      obtain ⟨e', he', rfl⟩ := List.mem_map.mp ha
      exact List.mem_map_of_mem _ (hentry e' he').1)
    (List.mem_map_of_mem _ he) fun b hb => by
      obtain ⟨e', he', rfl⟩ := List.mem_map.mp hb
      exact hmin e' he'
  rwa [List.length_map, ← newerCountSeqs] at hge

/- A job newer than a kept one stays among the most recent when `x` arrives: the kept one is `x`
and the job was recent before, or the kept one was recent before. -/
theorem recentOfNewerThanKept {y j : JobData} (hj : j ∈ S ++ [x]) (hlt : y.seq < j.seq)
    (hy : (y = x ∧ IsRecent S j) ∨ IsRecent S y) : IsRecent (S ++ [x]) j := by
  have hj' := newerAppend S x j
  unfold IsRecent at *
  rcases hy with ⟨rfl, hr⟩ | hr
  · rw [if_neg (by omega)] at hj'; omega
  · have h1 := newerLtOfOlder hj hlt
    have h2 := newerAppend S x y
    split_ifs at h2 <;> omega

/- At the cap the new job joins the twenty kept ones and the scan evicts the oldest of the
twenty-one: what remains are the twenty most recent. -/
theorem storeJobAtCap (order : Nat → MapOrder JobData) (hm : Holds S m) (hxS : ∀ j ∈ S, j.id ≠ x.id)
    (hseq : ∀ a ∈ S ++ [x], ∀ b ∈ S ++ [x], a.seq = b.seq → a = b) (hne : ∀ j ∈ S ++ [x], j.id ≠ "")
    (hS : maxStoredJobs ≤ S.length) : Holds (S ++ [x]) (storeJob order m x) := by
  have hsize : (m.insert x.id x).entries.length = maxStoredJobs + 1 := by
    rw [AList.insert_entries_of_neg (insertFresh hm hxS), List.length_cons, hm.size, min_eq_left hS]
  have hlook := insertLookup hm hxS
  have hstore : storeJob order m x =
      evictLoop order (m.insert x.id x).entries.length 0 (m.insert x.id x) := rfl
  rw [hstore]
  generalize m.insert x.id x = M at hsize hlook
  have hentry : ∀ e ∈ M.entries, e.2 ∈ S ++ [x] ∧ e.2.id = e.1 ∧ (e.2 ∈ S → IsRecent S e.2) :=
    fun e he => (hlook e.1 e.2).mp (AList.mem_lookup_iff.mpr he)
  obtain ⟨e, heM, hmin, hloop, herase⟩ := evictOnce order hsize fun e he => by
    obtain ⟨hT, hid, -⟩ := hentry e he
    exact hid ▸ hne _ hT
  obtain ⟨heT, heid, heRec⟩ := hentry e heM
  rw [hsize, hloop]
  refine ⟨fun id j => ?_, by rw [herase, List.length_append, List.length_singleton]; omega⟩
  rw [lookupErase]
  split_ifs with hid
  · subst hid
    simp only [reduceCtorEq, false_iff, not_and]
    intro hj hjid hrec
    have hje : e.2 = j := Option.some.inj ((AList.mem_lookup_iff.mpr heM).symm.trans
      ((hlook e.1 j).mpr ⟨hj, hjid, fun _ => recentOfAppend hrec⟩))
    have h20 := oldestNewerCount (fun e' he' => ⟨(hentry e' he').1, (hentry e' he').2.1⟩) hseq heM hmin
    rw [hsize, hje] at h20
    unfold IsRecent at hrec
    omega
  · rw [hlook]
    refine ⟨fun ⟨hj, hjid, hrS⟩ => ⟨hj, hjid, ?_⟩, fun ⟨hj, hjid, hrec⟩ => ⟨hj, hjid, fun _ => recentOfAppend hrec⟩⟩
    have hjM : (⟨id, j⟩ : Entry JobData) ∈ M.entries :=
      AList.mem_lookup_iff.mp ((hlook id j).mpr ⟨hj, hjid, hrS⟩)
    have hlt : e.2.seq < j.seq := lt_of_le_of_ne (hmin _ hjM) fun h =>
      hid (by rw [← hjid, ← hseq _ heT _ hj h, heid])
    by_cases hex : e.2 = x
    · refine recentOfNewerThanKept hj hlt (.inl ⟨hex, hrS ((List.mem_append.mp hj).resolve_right fun h => ?_)⟩)
      exact hid (by rw [← hjid, List.mem_singleton.mp h, ← hex, heid])
    · exact recentOfNewerThanKept hj hlt (.inr (heRec ((List.mem_append.mp heT).resolve_right (by simpa using hex))))

end

theorem storeJobsHolds (orders : Nat → Nat → MapOrder JobData) :
    ∀ (rest S : List JobData) (m : GoMap JobData), Holds S m → ((S ++ rest).map (·.id)).Nodup →
      ((S ++ rest).map (·.seq)).Nodup → (∀ j ∈ S ++ rest, j.id ≠ "") → Holds (S ++ rest) (storeJobs orders m rest)
  | [], S, m, h, _, _, _ => by simpa using h
  | x :: rest, S, m, h, hid, hseq, hne => by
    have hsplit : S ++ x :: rest = S ++ [x] ++ rest := by simp
    rw [hsplit] at hid hseq hne ⊢
    have hsub : (S ++ [x]).Sublist (S ++ [x] ++ rest) := List.sublist_append_left _ _
    have hid' := (hsub.map (·.id)).nodup hid
    have hxS : ∀ j ∈ S, j.id ≠ x.id := fun j hj hjx => by
      rw [List.map_append, List.map_singleton] at hid'
      exact List.disjoint_of_nodup_append hid' (List.mem_map_of_mem _ hj) (by simp [hjx])
    have hseq' := List.inj_on_of_nodup_map ((hsub.map (·.seq)).nodup hseq)
    have hstep : Holds (S ++ [x]) (storeJob (orders 0) m x) := by
      rcases lt_or_le S.length maxStoredJobs with hS | hS
      · exact storeJobBelowCap (orders 0) h hxS hS
      · exact storeJobAtCap (orders 0) h hxS hseq' (fun j hj => hne j (hsub.subset hj)) hS
    exact storeJobsHolds (fun i => orders (i + 1)) rest (S ++ [x]) _ hstep hid hseq hne

/- The job cache keeps exactly the twenty most recent jobs by sequence number, whatever order
they arrive in and whatever order each eviction scan visits the map, provided the IDs are
distinct and not empty and the sequence numbers distinct: `GetJob` finds a job exactly when it
is one of them. -/
theorem jobCacheKeepsRecent (orders : Nat → Nat → MapOrder JobData) (jobs : List JobData)
    (hid : (jobs.map (·.id)).Nodup) (hseq : (jobs.map (·.seq)).Nodup) (hne : ∀ j ∈ jobs, j.id ≠ "") :
    (∀ id j, (storeJobs orders ∅ jobs).lookup id = some j ↔ j ∈ jobs ∧ j.id = id ∧ IsRecent jobs j) ∧
      (storeJobs orders ∅ jobs).entries.length = min maxStoredJobs jobs.length ∧
      ∀ id, (getJob (storeJobs orders ∅ jobs) id).isSome ↔ ∃ j ∈ jobs, j.id = id ∧ IsRecent jobs j := by
  have hempty : Holds [] (∅ : GoMap JobData) := ⟨fun id j => by simp [AList.lookup_empty], rfl⟩
  have h := storeJobsHolds orders jobs [] ∅ hempty hid hseq hne
  simp only [List.nil_append] at h
  refine ⟨h.lookup, h.size, fun id => ?_⟩
  rw [getJob, Option.isSome_iff_exists]
  exact ⟨fun ⟨j, hj⟩ => ⟨j, (h.lookup id j).mp hj⟩, fun ⟨j, hj, hjid, hr⟩ => ⟨j, (h.lookup id j).mpr ⟨hj, hjid, hr⟩⟩⟩

theorem jobCacheKeepsRecentExample :
    let job (id : String) (seq : Nat) : JobData := ⟨id, seq, "", "", "", [], ""⟩
    let jobs := [job "b" 2, job "a" 1, job "c" 3, job "d" 4, job "e" 5, job "f" 6, job "g" 7, job "h" 8,
      job "i" 9, job "j" 10, job "k" 11, job "l" 12, job "m" 13, job "n" 14, job "o" 15, job "p" 16,
      job "q" 17, job "r" 18, job "s" 19, job "t" 20, job "u" 21]
    let orders : Nat → Nat → MapOrder JobData := fun _ _ => ⟨List.reverse, List.reverse_perm⟩
    (jobs.map (·.id)).Nodup ∧ (jobs.map (·.seq)).Nodup ∧ (∀ j ∈ jobs, j.id ≠ "") ∧
      ((∀ id j, (storeJobs orders ∅ jobs).lookup id = some j ↔ j ∈ jobs ∧ j.id = id ∧ IsRecent jobs j) ∧
        (storeJobs orders ∅ jobs).entries.length = min maxStoredJobs jobs.length ∧
        ∀ id, (getJob (storeJobs orders ∅ jobs) id).isSome ↔ ∃ j ∈ jobs, j.id = id ∧ IsRecent jobs j) :=
  ⟨by decide, by decide, by decide, jobCacheKeepsRecent _ _ (by decide) (by decide) (by decide)⟩

/- An empty ID collides with the scan's not-found marker. Stored last with the smallest `Seq`, the
job with ID "" is taken as the oldest and then replaced by the next entry scanned, so the oldest
of the twenty others is evicted although it is among the twenty most recent, and "" stays. -/
theorem emptyIdEvictsRecentJob :
    let job (id : String) (seq : Nat) : JobData := ⟨id, seq, "", "", "", [], ""⟩
    let jobs := [job "a" 1, job "b" 2, job "c" 3, job "d" 4, job "e" 5, job "f" 6, job "g" 7, job "h" 8,
      job "i" 9, job "j" 10, job "k" 11, job "l" 12, job "m" 13, job "n" 14, job "o" 15, job "p" 16,
      job "q" 17, job "r" 18, job "s" 19, job "t" 20, job "" 0]
    let cache := storeJobs (fun _ _ => ⟨fun l => l, List.Perm.refl⟩) ∅ jobs
    (jobs.map (·.id)).Nodup ∧ (jobs.map (·.seq)).Nodup ∧
      (getJob cache "").isSome ∧ ¬ IsRecent jobs (job "" 0) ∧ (getJob cache "a").isNone ∧ IsRecent jobs (job "a" 1) := by
  decide

end P2Pool.Generator
