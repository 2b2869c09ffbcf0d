import P2Pool.Assembly
import P2Pool.Generator

/-! The generator's polling loop of `internal/bitcoin`: `GenerateJob`, `fetchTemplate`,
`backoffDuration` and `pollLoop`, as a machine stepped by the loop's ticks. A tick brings what the
loop reads from outside: the RPC's answer, the clock readings, the payout and sharechain callbacks,
whether the job channel has room, and the orders the cache's eviction scans visit the map in. -/
namespace P2Pool.Generator
open Util Hex Merkle Types Template Maps

/- `PollInterval`, `JobRefreshInterval` and the backoff cap, in nanoseconds. -/
def pollInterval : Int := 5 * 10 ^ 9

def jobRefreshInterval : Int := 30 * 10 ^ 9

def maxBackoff : Int := 60 * 10 ^ 9

/- `fmt.Sprintf("%x", seq)`: lowercase hex digits without leading zeros. -/
def hexId (n : Nat) : String := (Nat.toDigits 16 n).asString

/- The `fmt.Errorf` texts of `GenerateJob`: "no block template available" and "build job: %w". -/
inductive GenerateError (ε : Type) where
  | noTemplate
  | buildJob (err : BuildJobError ε)

/- The generator's fields that change: the current template, `jobCounter` (an `atomic.Uint64`),
the job cache, and `lastJobTime`, whose zero value is `none`. -/
structure GenState where
  currentTemplate : Option RpcTemplate
  jobCounter : Nat
  jobs : GoMap JobData
  lastJobTime : Option Int

def GenState.init : GenState := ⟨none, 0, ∅, none⟩

/- What one `GenerateJob` reads from outside: `payoutsFn()`, `prevShareHashFn()`, and the orders of
the eviction scans of its `storeJob`. -/
structure JobInputs where
  payouts : List PayoutEntry
  prevShareHash : Hash32
  orders : Nat → MapOrder JobData

def templateData (network : String) (tmpl : RpcTemplate) : BlockTemplateData :=
  ⟨tmpl.height, tmpl.previousBlockHash, tmpl.bits, tmpl.defaultWitnessCommitment, network,
    extractTxHashes tmpl.toBlockTemplate⟩

/- What `fetchTemplate` did after a successful RPC: nothing, a logged `GenerateJob` failure, or a
job with its `CleanJobs` flag, delivered on `jobCh` or dropped because the channel was full. -/
inductive FetchOutcome (ε : Type) where
  | idle
  | generateFailed (err : GenerateError ε)
  | generated (job : JobData) (clean delivered : Bool)

def isNewBlock (current : Option RpcTemplate) (tmpl : RpcTemplate) : Bool :=
  match current with
  | none => true
  | some old => tmpl.previousBlockHash != old.previousBlockHash

/- `needsRefresh` without the `!newBlock`: `time.Since(g.lastJobTime)` is at least the refresh
interval, which always holds for the zero time. -/
def refreshDue (lastJobTime : Option Int) (now : Int) : Bool :=
  match lastJobTime with
  | none => true
  | some t => decide (jobRefreshInterval ≤ now - t)

/- One `fetchTemplate` call: the RPC's answer, the clock when `time.Since(g.lastJobTime)` is read
and when the job is sent, and whether `jobCh` has room. -/
structure FetchInputs (ρ : Type) extends JobInputs where
  template : Except ρ RpcTemplate
  checkTime : Int
  sendTime : Int
  room : Bool

structure PollState where
  gen : GenState
  failures : Nat
  lastFailureTime : Int

def PollState.init : PollState := ⟨GenState.init, 0, 0⟩

/- One pass of the loop, with the clock at the backoff check and after a failed fetch. The fetch
before the loop is a tick too: with no failure yet its check always passes. -/
structure Tick (ρ : Type) extends FetchInputs ρ where
  guardTime : Int
  failTime : Int

inductive TickOutcome (ρ ε : Type) where
  | backedOff
  | rpcFailed (err : ρ)
  | fetched (outcome : FetchOutcome ε)

variable {ε ρ : Type} (sha : DoubleSHA256) (builder : CoinbaseBuilder ε) (network : String)
  (extranonceSize : Nat)

/- `GenerateJob`: `jobCounter.Add(1)` advances the counter before the build, so a failed build
still uses up its sequence number; `none` is a panic of the build. -/
def generateJob (g : GenState) (inp : JobInputs) : Option (GenState × Except (GenerateError ε) JobData) :=
  match g.currentTemplate with
  | none => some (g, .error .noTemplate)
  | some tmpl =>
    let seq := (g.jobCounter + 1) % 2 ^ 64
    let g := { g with jobCounter := seq }
    (buildJobFromTemplate sha builder (hexId seq) (templateData network tmpl) inp.payouts inp.prevShareHash
        extranonceSize).map fun
      | .error e => (g, .error (.buildJob e))
      | .ok job =>
        let job := { job with seq := seq }
        ({ g with jobs := storeJob inp.orders g.jobs job }, .ok job)

/- `fetchTemplate`. The log line of a new block slices `PreviousBlockHash[:16]`, which panics on a
shorter string. Only an RPC failure is returned as an error. -/
def fetchTemplate (g : GenState) (inp : FetchInputs ρ) : Option (GenState × Except ρ (FetchOutcome ε)) :=
  match inp.template with
  | .error e => some (g, .error e)
  | .ok tmpl =>
    let newBlock := isNewBlock g.currentTemplate tmpl
    if newBlock ∧ tmpl.previousBlockHash.utf8ByteSize < 16 then none else
    let g := { g with currentTemplate := some tmpl }
    let needsRefresh := !newBlock && refreshDue g.lastJobTime inp.checkTime
    if newBlock || needsRefresh then
      (generateJob sha builder network extranonceSize g inp.toJobInputs).map fun
        | (g, .error e) => (g, .ok (.generateFailed e))
        | (g, .ok job) =>
          if inp.room then ({ g with lastJobTime := some inp.sendTime }, .ok (.generated job newBlock true))
          else (g, .ok (.generated job newBlock false))
    else some (g, .ok .idle)

def backoffLoop : Nat → Int → Int
  | 0, d => d
  | k + 1, d => if maxBackoff < 2 * d then maxBackoff else backoffLoop k (2 * d)

def backoffDuration (failures : Int) : Int :=
  if failures ≤ 0 then pollInterval else backoffLoop (failures - 1).toNat pollInterval

/- One tick of `pollLoop`: skipped while the backoff since the last failure runs, otherwise a fetch
that counts a failure or clears the count. -/
def pollTick (ps : PollState) (t : Tick ρ) : Option (PollState × TickOutcome ρ ε) :=
  if 0 < ps.failures ∧ t.guardTime - ps.lastFailureTime < backoffDuration ps.failures then some (ps, .backedOff)
  else (fetchTemplate sha builder network extranonceSize ps.gen t.toFetchInputs).map fun
    | (g, .error e) => (⟨g, ps.failures + 1, t.failTime⟩, .rpcFailed e)
    | (g, .ok o) => (⟨g, 0, ps.lastFailureTime⟩, .fetched o)

def pollRun : PollState → List (Tick ρ) → Option (PollState × List (TickOutcome ρ ε))
  | ps, [] => some (ps, [])
  | ps, t :: ts =>
    match pollTick sha builder network extranonceSize ps t with
    | none => none
    | some (ps', o) => (pollRun ps' ts).map fun (ps'', os) => (ps'', o :: os)

def FetchOutcome.job : FetchOutcome ε → Option JobData
  | .generated job _ _ => some job
  | _ => none

def TickOutcome.job : TickOutcome ρ ε → Option JobData
  | .fetched fo => fo.job
  | _ => none

def generatedJobs (outcomes : List (TickOutcome ρ ε)) : List JobData := outcomes.filterMap TickOutcome.job

/-! Job IDs: `%x` of distinct sequence numbers gives distinct, nonempty IDs. -/

theorem toDigitsCoreSucc (f m : Nat) (ds : List Char) :
    Nat.toDigitsCore 16 (f + 1) m ds = if m / 16 = 0 then Nat.digitChar (m % 16) :: ds
      else Nat.toDigitsCore 16 f (m / 16) (Nat.digitChar (m % 16) :: ds) := rfl

theorem toDigitsCoreAppend (f m : Nat) (ds : List Char) :
    Nat.toDigitsCore 16 f m ds = Nat.toDigitsCore 16 f m [] ++ ds := by
  induction f generalizing m ds with
  | zero => rfl
  | succ f ih =>
    rw [toDigitsCoreSucc, toDigitsCoreSucc]
    split_ifs
    · rfl
    · rw [ih, ih _ [_], List.append_assoc]
      rfl

theorem toDigitsCoreFuel {f f' m : Nat} (ds : List Char) (hf : m < f) (hf' : m < f') :
    Nat.toDigitsCore 16 f m ds = Nat.toDigitsCore 16 f' m ds := by
  induction f generalizing f' m ds with
  | zero => omega
  | succ f ih =>
    obtain ⟨k, rfl⟩ : ∃ k, f' = k + 1 := ⟨f' - 1, by omega⟩
    rw [toDigitsCoreSucc, toDigitsCoreSucc]
    split_ifs
    · rfl
    · exact ih _ (by omega) (by omega)

/- The last digit comes off first: `%x` of `n` is `%x` of `n / 16`, unless that is zero, followed by
the digit of `n % 16`. -/
theorem toDigitsSnoc (n : Nat) :
    Nat.toDigits 16 n = (if n / 16 = 0 then [] else Nat.toDigits 16 (n / 16)) ++ [Nat.digitChar (n % 16)] := by
  show Nat.toDigitsCore 16 (n + 1) n [] = _
  rw [toDigitsCoreSucc]
  split_ifs
  · rfl
  · rw [toDigitsCoreAppend, toDigitsCoreFuel [] (by omega) (Nat.lt_succ_self _)]
    rfl

def hexDigitValue (c : Char) : Nat := if c.toNat < 58 then c.toNat - 48 else c.toNat - 87

def hexValue (ds : List Char) : Nat := ds.foldl (fun acc c => 16 * acc + hexDigitValue c) 0

theorem hexDigitValueDigitChar {d : Nat} (h : d < 16) : hexDigitValue (Nat.digitChar d) = d := by
  interval_cases d <;> rfl

theorem hexValueToDigits (n : Nat) : hexValue (Nat.toDigits 16 n) = n := by
  induction n using Nat.strong_induction_on with
  | _ n ih =>
    have hd := hexDigitValueDigitChar (Nat.mod_lt n (by norm_num : 16 > 0))
    rw [toDigitsSnoc]
    split_ifs with h
    · simp only [hexValue, List.nil_append, List.foldl_cons, List.foldl_nil, hd]
      omega
    · have := ih (n / 16) (by omega)
      simp only [hexValue, List.foldl_append, List.foldl_cons, List.foldl_nil] at this ⊢
      rw [this, hd]
      omega

theorem hexIdInjective {a b : Nat} (h : hexId a = hexId b) : a = b := by
  have hl : Nat.toDigits 16 a = Nat.toDigits 16 b := congrArg String.data h
  rw [← hexValueToDigits a, hl, hexValueToDigits]

theorem hexIdNe (n : Nat) : hexId n ≠ "" := fun h => by
  have hl : Nat.toDigits 16 n = [] := congrArg String.data h
  rw [toDigitsSnoc] at hl
  simp at hl

/-! The backoff schedule: five seconds, doubled for each further failure, at most a minute. -/

theorem backoffLoopEq : ∀ (k : Nat) {d : Int}, 0 ≤ d → d ≤ maxBackoff →
    backoffLoop k d = min (d * 2 ^ k) maxBackoff
  | 0, d, _, hd => by rw [backoffLoop, pow_zero, mul_one, min_eq_left hd]
  | k + 1, d, h0, hd => by
    have hpow : (1 : Int) ≤ 2 ^ k := one_le_pow₀ (by norm_num)
    rw [backoffLoop]
    split_ifs with h
    · have : 2 * d ≤ d * 2 ^ (k + 1) := by rw [pow_succ]; nlinarith
      rw [min_eq_right (by omega)]
    · rw [backoffLoopEq k (by omega) (by omega), pow_succ]
      congr 1
      ring

theorem backoffDurationEq {k : Nat} (hk : 0 < k) :
    backoffDuration k = min (pollInterval * 2 ^ (k - 1)) maxBackoff := by
  rw [backoffDuration, if_neg (by omega), backoffLoopEq _ (by decide) (by decide)]
  congr
  omega

/-! What each step can do. -/

section
variable {sha : DoubleSHA256} {builder : CoinbaseBuilder ε} {network : String} {extranonceSize : Nat}

theorem generateJobCases {g g' : GenState} {inp : JobInputs} {r : Except (GenerateError ε) JobData}
    (h : generateJob sha builder network extranonceSize g inp = some (g', r)) :
    (g.currentTemplate = none ∧ g' = g ∧ r = .error .noTemplate) ∨
    (∃ e, g' = { g with jobCounter := (g.jobCounter + 1) % 2 ^ 64 } ∧ r = .error (.buildJob e)) ∨
    ∃ tmpl built, g.currentTemplate = some tmpl ∧
      buildJobFromTemplate sha builder (hexId ((g.jobCounter + 1) % 2 ^ 64)) (templateData network tmpl)
        inp.payouts inp.prevShareHash extranonceSize = some (.ok built) ∧
      r = .ok { built with seq := (g.jobCounter + 1) % 2 ^ 64 } ∧
      g' = { g with
        jobCounter := (g.jobCounter + 1) % 2 ^ 64
        jobs := storeJob inp.orders g.jobs { built with seq := (g.jobCounter + 1) % 2 ^ 64 } } := by
  unfold generateJob at h
  split at h
  · cases h
    exact .inl ⟨‹_›, rfl, rfl⟩
  rename_i tmpl htmpl
  obtain ⟨b, hb, h⟩ := Option.map_eq_some'.mp h
  split at h
  · cases h
    exact .inr (.inl ⟨_, rfl, rfl⟩)
  · cases h
    exact .inr (.inr ⟨tmpl, _, htmpl, hb, rfl, rfl⟩)

theorem generateJobSome (hb : builder.KeepsPlaceholder extranonceSize) (g : GenState) (inp : JobInputs) :
    (generateJob sha builder network extranonceSize g inp).isSome := by
  unfold generateJob
  split
  · rfl
  · rw [Option.isSome_map']
    exact buildJobFromTemplateSome hb

theorem fetchTemplateCases {g g' : GenState} {inp : FetchInputs ρ} {r : Except ρ (FetchOutcome ε)}
    (h : fetchTemplate sha builder network extranonceSize g inp = some (g', r)) :
    (∃ e, inp.template = .error e ∧ g' = g ∧ r = .error e) ∨
    ∃ tmpl, inp.template = .ok tmpl ∧
      (((isNewBlock g.currentTemplate tmpl || refreshDue g.lastJobTime inp.checkTime) = false ∧
          g' = { g with currentTemplate := some tmpl } ∧ r = .ok .idle) ∨
      (isNewBlock g.currentTemplate tmpl || refreshDue g.lastJobTime inp.checkTime) = true ∧
        ((∃ e, generateJob sha builder network extranonceSize { g with currentTemplate := some tmpl }
              inp.toJobInputs = some (g', .error e) ∧ r = .ok (.generateFailed e)) ∨
          ∃ g2 job, generateJob sha builder network extranonceSize { g with currentTemplate := some tmpl }
              inp.toJobInputs = some (g2, .ok job) ∧
            r = .ok (.generated job (isNewBlock g.currentTemplate tmpl) inp.room) ∧
            g' = if inp.room then { g2 with lastJobTime := some inp.sendTime } else g2)) := by
  unfold fetchTemplate at h
  split at h
  · cases h
    exact .inl ⟨_, ‹_›, rfl, rfl⟩
  rename_i tmpl htmpl
  refine .inr ⟨tmpl, htmpl, ?_⟩
  dsimp only at h
  have hshort : ¬ (isNewBlock g.currentTemplate tmpl = true ∧ tmpl.previousBlockHash.utf8ByteSize < 16) :=
    fun hs => by rw [if_pos hs] at h; cases h
  have hneed : (isNewBlock g.currentTemplate tmpl || (!isNewBlock g.currentTemplate tmpl &&
      refreshDue g.lastJobTime inp.checkTime)) = (isNewBlock g.currentTemplate tmpl || refreshDue g.lastJobTime inp.checkTime) := by
    cases isNewBlock g.currentTemplate tmpl <;> rfl
  rw [if_neg hshort, hneed] at h
  by_cases hjob : (isNewBlock g.currentTemplate tmpl || refreshDue g.lastJobTime inp.checkTime) = true
  · rw [if_pos hjob] at h
    obtain ⟨⟨g2, gr⟩, hgen, h⟩ := Option.map_eq_some'.mp h
    refine .inr ⟨hjob, ?_⟩
    cases gr with
    | error e =>
      cases h
      exact .inl ⟨e, hgen, rfl⟩
    | ok job =>
      refine .inr ⟨g2, job, hgen, ?_⟩
      cases hroom : inp.room <;> simp only [hroom] at h <;> cases h <;> simp
  · rw [if_neg hjob] at h
    cases h
    exact .inl ⟨by simpa using hjob, rfl, rfl⟩

theorem pollTickCases {ps ps' : PollState} {t : Tick ρ} {o : TickOutcome ρ ε}
    (h : pollTick sha builder network extranonceSize ps t = some (ps', o)) :
    (0 < ps.failures ∧ t.guardTime - ps.lastFailureTime < backoffDuration ps.failures ∧ ps' = ps ∧ o = .backedOff) ∨
    ¬ (0 < ps.failures ∧ t.guardTime - ps.lastFailureTime < backoffDuration ps.failures) ∧
      ((∃ g e, fetchTemplate sha builder network extranonceSize ps.gen t.toFetchInputs = some (g, .error e) ∧
          ps' = ⟨g, ps.failures + 1, t.failTime⟩ ∧ o = .rpcFailed e) ∨
        ∃ g fo, fetchTemplate sha builder network extranonceSize ps.gen t.toFetchInputs = some (g, .ok fo) ∧
          ps' = ⟨g, 0, ps.lastFailureTime⟩ ∧ o = .fetched fo) := by
  unfold pollTick at h
  split_ifs at h with hb
  · cases h
    exact .inl ⟨hb.1, hb.2, rfl, rfl⟩
  · obtain ⟨⟨g, r⟩, hf, h⟩ := Option.map_eq_some'.mp h
    refine .inr ⟨hb, ?_⟩
    cases r with
    | error e => cases h; exact .inl ⟨g, e, hf, rfl, rfl⟩
    | ok fo => cases h; exact .inr ⟨g, fo, hf, rfl, rfl⟩

theorem pollRunCons {ps ps'' : PollState} {t : Tick ρ} {ts : List (Tick ρ)} {os : List (TickOutcome ρ ε)} :
    pollRun sha builder network extranonceSize ps (t :: ts) = some (ps'', os) ↔
      ∃ ps' o rest, pollTick sha builder network extranonceSize ps t = some (ps', o) ∧
        pollRun sha builder network extranonceSize ps' ts = some (ps'', rest) ∧ os = o :: rest := by
  simp only [pollRun]
  split
  · simp_all
  · rename_i ps' o hp
    simp only [Option.map_eq_some', Prod.mk.injEq, hp, Option.some.injEq]
    constructor
    · rintro ⟨⟨p, rest⟩, hr, rfl, rfl⟩
      exact ⟨ps', o, rest, ⟨rfl, rfl⟩, hr, rfl⟩
    · rintro ⟨_, _, rest, ⟨rfl, rfl⟩, hr, rfl⟩
      exact ⟨(ps'', rest), hr, rfl, rfl⟩

/-! The job cache over a run. -/

theorem generatedJobsCons (o : TickOutcome ρ ε) (rest : List (TickOutcome ρ ε)) :
    generatedJobs (o :: rest) = o.job.toList ++ generatedJobs rest := by
  unfold generatedJobs
  rw [List.filterMap_cons]
  cases o.job <;> rfl

/- What the generator keeps about the jobs `S` it generated so far: the cache holds the twenty most
recent, every ID is `%x` of the job's sequence number, and the sequence numbers increase, none
above the counter. -/
structure Tracks (S : List JobData) (g : GenState) : Prop where
  cache : Holds S g.jobs
  ids : ∀ j ∈ S, j.id = hexId j.seq
  seqs : ∀ j ∈ S, 0 < j.seq ∧ j.seq ≤ g.jobCounter
  sorted : (S.map (·.seq)).Sorted (· < ·)

theorem tracksInit : Tracks [] GenState.init :=
  ⟨⟨fun id j => by simp [GenState.init, AList.lookup_empty], rfl⟩, by simp, by simp, List.sorted_nil⟩

theorem storeJobHolds {S : List JobData} {m : GoMap JobData} {x : JobData} (order : Nat → MapOrder JobData)
    (hm : Holds S m) (hxS : ∀ j ∈ S, j.id ≠ x.id) (hseq : ∀ a ∈ S ++ [x], ∀ b ∈ S ++ [x], a.seq = b.seq → a = b)
    (hne : ∀ j ∈ S ++ [x], j.id ≠ "") : Holds (S ++ [x]) (storeJob order m x) := by
  rcases lt_or_le S.length maxStoredJobs with hS | hS
  · exact storeJobBelowCap order hm hxS hS
  · exact storeJobAtCap order hm hxS hseq hne hS

theorem Tracks.congr {S : List JobData} {g g' : GenState} (h : Tracks S g) (hj : g'.jobs = g.jobs)
    (hc : g'.jobCounter = g.jobCounter) : Tracks S g' :=
  ⟨hj ▸ h.cache, h.ids, hc ▸ h.seqs, h.sorted⟩

theorem Tracks.counter {S : List JobData} {g : GenState} (h : Tracks S g) {k : Nat} (hk : g.jobCounter ≤ k) :
    Tracks S { g with jobCounter := k } :=
  ⟨h.cache, h.ids, fun j hj => ⟨(h.seqs j hj).1, le_trans (h.seqs j hj).2 hk⟩, h.sorted⟩

theorem Tracks.store {S : List JobData} {g : GenState} (h : Tracks S g) (order : Nat → MapOrder JobData)
    {x : JobData} (hid : x.id = hexId x.seq) (hgt : g.jobCounter < x.seq) :
    Tracks (S ++ [x]) { g with jobCounter := x.seq, jobs := storeJob order g.jobs x } := by
  have hsorted : ((S ++ [x]).map (·.seq)).Sorted (· < ·) := by
    rw [List.map_append, List.map_singleton]
    refine List.pairwise_append.mpr ⟨h.sorted, List.pairwise_singleton _ _, fun a ha b hb => ?_⟩
    obtain ⟨j, hj, rfl⟩ := List.mem_map.mp ha
    rw [List.mem_singleton.mp hb]
    exact lt_of_le_of_lt (h.seqs j hj).2 hgt
  have hcache := storeJobHolds order h.cache
    (fun j hj hjx => by
      have := hexIdInjective ((h.ids j hj).symm.trans (hjx.trans hid))
      have := (h.seqs j hj).2
      omega)
    (List.inj_on_of_nodup_map hsorted.nodup)
    (fun j hj => by
      rcases List.mem_append.mp hj with hj | hj
      · rw [h.ids j hj]; exact hexIdNe _
      · rw [List.mem_singleton.mp hj, hid]; exact hexIdNe _)
  refine ⟨hcache, fun j hj => ?_, fun j hj => ?_, hsorted⟩
  · rcases List.mem_append.mp hj with hj | hj
    · exact h.ids j hj
    · rw [List.mem_singleton.mp hj]; exact hid
  · rcases List.mem_append.mp hj with hj | hj
    · have := h.seqs j hj; exact ⟨this.1, by simp only; omega⟩
    · rw [List.mem_singleton.mp hj]; exact ⟨by omega, le_refl _⟩

theorem Tracks.generate {S : List JobData} {g g' : GenState} {inp : JobInputs}
    {r : Except (GenerateError ε) JobData} (h : Tracks S g) (hc : g.jobCounter + 1 < 2 ^ 64)
    (hg : generateJob sha builder network extranonceSize g inp = some (g', r)) :
    Tracks (S ++ r.toOption.toList) g' ∧ g'.jobCounter ≤ g.jobCounter + 1 := by
  have hmod : (g.jobCounter + 1) % 2 ^ 64 = g.jobCounter + 1 := Nat.mod_eq_of_lt hc
  rcases generateJobCases hg with ⟨-, rfl, rfl⟩ | ⟨e, rfl, rfl⟩ | ⟨tmpl, built, -, hbuilt, rfl, rfl⟩
  · exact ⟨by simpa [Except.toOption] using h, by omega⟩
  · rw [hmod]
    exact ⟨by simpa [Except.toOption] using h.counter (Nat.le_succ _), le_refl _⟩
  · obtain ⟨-, -, -, -, -, -, hid, -, -⟩ := buildJobFromTemplateOk hbuilt
    rw [hmod] at hid ⊢
    exact ⟨h.store inp.orders hid (Nat.lt_succ_self _), le_refl _⟩

theorem Tracks.fetch {S : List JobData} {g g' : GenState} {inp : FetchInputs ρ}
    {r : Except ρ (FetchOutcome ε)} (h : Tracks S g) (hc : g.jobCounter + 1 < 2 ^ 64)
    (hf : fetchTemplate sha builder network extranonceSize g inp = some (g', r)) :
    Tracks (S ++ (r.toOption.bind FetchOutcome.job).toList) g' ∧ g'.jobCounter ≤ g.jobCounter + 1 := by
  rcases fetchTemplateCases hf with ⟨e, -, rfl, rfl⟩ | ⟨tmpl, -, ⟨-, rfl, rfl⟩ | ⟨-, ⟨e, hg, rfl⟩ | ⟨g2, job, hg, rfl, rfl⟩⟩⟩
  · exact ⟨by simpa [Except.toOption] using h, by omega⟩
  · exact ⟨by simpa [Except.toOption, FetchOutcome.job] using
      (h.congr rfl rfl : Tracks S { g with currentTemplate := some tmpl }), by simp⟩
  · simpa [Except.toOption, FetchOutcome.job] using
      (h.congr rfl rfl : Tracks S { g with currentTemplate := some tmpl }).generate hc hg
  · obtain ⟨h2, hc2⟩ := (h.congr rfl rfl : Tracks S { g with currentTemplate := some tmpl }).generate hc hg
    simp only [Except.toOption, Option.toList, Option.some_bind, FetchOutcome.job] at h2 ⊢
    split
    · exact ⟨h2.congr rfl rfl, hc2⟩
    · exact ⟨h2, hc2⟩

theorem Tracks.tick {S : List JobData} {ps ps' : PollState} {t : Tick ρ} {o : TickOutcome ρ ε}
    (h : Tracks S ps.gen) (hc : ps.gen.jobCounter + 1 < 2 ^ 64)
    (ht : pollTick sha builder network extranonceSize ps t = some (ps', o)) :
    Tracks (S ++ o.job.toList) ps'.gen ∧ ps'.gen.jobCounter ≤ ps.gen.jobCounter + 1 := by
  rcases pollTickCases ht with ⟨-, -, rfl, rfl⟩ | ⟨-, ⟨g, e, hf, rfl, rfl⟩ | ⟨g, fo, hf, rfl, rfl⟩⟩
  · exact ⟨by simpa [TickOutcome.job] using h, by omega⟩
  · simpa [Except.toOption, TickOutcome.job] using h.fetch hc hf
  · simpa [Except.toOption, TickOutcome.job] using h.fetch hc hf

theorem Tracks.run : ∀ (ticks : List (Tick ρ)) {S : List JobData} {ps ps' : PollState}
    {os : List (TickOutcome ρ ε)}, Tracks S ps.gen → ps.gen.jobCounter + ticks.length < 2 ^ 64 →
    pollRun sha builder network extranonceSize ps ticks = some (ps', os) → Tracks (S ++ generatedJobs os) ps'.gen
  | [], S, ps, ps', os, h, _, hr => by
    simp only [pollRun, Option.some.injEq, Prod.mk.injEq] at hr
    obtain ⟨rfl, rfl⟩ := hr
    simpa [generatedJobs] using h
  | t :: ts, S, ps, ps', os, h, hc, hr => by
    obtain ⟨ps1, o, rest, ht, hrest, rfl⟩ := pollRunCons.mp hr
    obtain ⟨h1, hc1⟩ := h.tick (by simp at hc; omega) ht
    have := Tracks.run ts h1 (by simp at hc; omega) hrest
    rwa [generatedJobsCons, ← List.append_assoc]

/-! When the loop panics: only on a new block whose hash is shorter than the log line's slice, or
when the builder puts the placeholder past the end of its coinbase. -/

theorem fetchTemplateSome (hb : builder.KeepsPlaceholder extranonceSize) (g : GenState) {inp : FetchInputs ρ}
    (hhash : ∀ tmpl, inp.template = .ok tmpl → 16 ≤ tmpl.previousBlockHash.utf8ByteSize) :
    (fetchTemplate sha builder network extranonceSize g inp).isSome := by
  unfold fetchTemplate
  split
  · rfl
  rename_i tmpl htmpl
  rw [if_neg fun h => absurd h.2 (not_lt.mpr (hhash tmpl htmpl))]
  dsimp only
  split
  · rw [Option.isSome_map']
    exact generateJobSome hb _ _
  · rfl

theorem pollTickSome (hb : builder.KeepsPlaceholder extranonceSize) (ps : PollState) {t : Tick ρ}
    (hhash : ∀ tmpl, t.template = .ok tmpl → 16 ≤ tmpl.previousBlockHash.utf8ByteSize) :
    (pollTick sha builder network extranonceSize ps t).isSome := by
  unfold pollTick
  split_ifs
  · rfl
  · rw [Option.isSome_map']
    exact fetchTemplateSome hb _ hhash

theorem pollRunSome (hb : builder.KeepsPlaceholder extranonceSize) : ∀ (ps : PollState) (ticks : List (Tick ρ)),
    (∀ t ∈ ticks, ∀ tmpl, t.template = .ok tmpl → 16 ≤ tmpl.previousBlockHash.utf8ByteSize) →
    (pollRun sha builder network extranonceSize ps ticks).isSome
  | _, [], _ => rfl
  | ps, t :: ts, hhash => by
    obtain ⟨⟨ps', o⟩, ht⟩ := Option.isSome_iff_exists.mp (pollTickSome hb ps (hhash t (List.mem_cons_self _ _)))
    rw [pollRun, ht, Option.isSome_map']
    exact pollRunSome hb ps' ts fun t' h' => hhash t' (List.mem_cons_of_mem _ h')

theorem recentIffDrop : ∀ (S : List JobData), (S.map (·.seq)).Sorted (· < ·) → ∀ j,
    (j ∈ S ∧ IsRecent S j ↔ j ∈ S.drop (S.length - maxStoredJobs))
  | [], _, j => by simp
  | a :: T, hs, j => by
    rw [List.map_cons, List.sorted_cons] at hs
    have hgt : ∀ b ∈ T, a.seq < b.seq := fun b hb => hs.1 _ (List.mem_map_of_mem _ hb)
    by_cases hlen : (a :: T).length ≤ maxStoredJobs
    · rw [Nat.sub_eq_zero_of_le hlen, List.drop_zero]
      exact ⟨And.left, fun hj => ⟨hj, lt_of_lt_of_le (newerLtLength hj) hlen⟩⟩
    have hdrop : (a :: T).drop ((a :: T).length - maxStoredJobs) = T.drop (T.length - maxStoredJobs) := by
      rw [List.length_cons, Nat.succ_sub (by simp only [List.length_cons] at hlen; omega)]
      rfl
    rw [hdrop, ← recentIffDrop T hs.2 j]
    by_cases hjT : j ∈ T
    · have hnewer : newerCount (a :: T) j = newerCount T j := by
        have := hgt j hjT
        simp only [newerCount, List.filter_cons, decide_eq_true_eq, if_neg (by omega : ¬ j.seq < a.seq)]
      simp only [IsRecent, hnewer, List.mem_cons, hjT, or_true, true_and]
    · simp only [hjT, false_and, iff_false, not_and]
      intro hj hrec
      rcases List.mem_cons.mp hj with rfl | hj
      · have hall : newerCount (j :: T) j = T.length := by
          simp only [newerCount, List.filter_cons, lt_irrefl, decide_False, Bool.false_eq_true, if_false]
          rw [List.filter_eq_self.mpr fun b hb => decide_eq_true (hgt b hb)]
        simp only [IsRecent, hall] at hrec
        simp only [List.length_cons] at hlen
        omega
      · exact hjT hj

/- Over any run of the loop from a fresh generator, the job cache holds exactly the last twenty jobs
the run generated, sent to miners or dropped, each under the ID %x of its sequence number, and the
sequence numbers increase. The run does not panic when the builder keeps the placeholder inside its
coinbase and the node's block hashes have 16 bytes, and the counter does not wrap in fewer than
2^64 ticks. -/
theorem pollLoopKeepsLastJobs (hb : builder.KeepsPlaceholder extranonceSize) (ticks : List (Tick ρ))
    (hlen : ticks.length < 2 ^ 64)
    (hhash : ∀ t ∈ ticks, ∀ tmpl, t.template = .ok tmpl → 16 ≤ tmpl.previousBlockHash.utf8ByteSize) :
    ∃ ps outcomes, pollRun sha builder network extranonceSize PollState.init ticks = some (ps, outcomes) ∧
      (∀ j ∈ generatedJobs outcomes, j.id = hexId j.seq) ∧ ((generatedJobs outcomes).map (·.seq)).Sorted (· < ·) ∧
      ∀ id j, getJob ps.gen.jobs id = some j ↔
        j ∈ (generatedJobs outcomes).drop ((generatedJobs outcomes).length - maxStoredJobs) ∧ j.id = id := by
  obtain ⟨⟨ps, os⟩, hr⟩ := Option.isSome_iff_exists.mp (pollRunSome hb PollState.init ticks hhash)
  have h := tracksInit.run ticks (by simpa [PollState.init, GenState.init] using hlen) hr
  rw [List.nil_append] at h
  refine ⟨ps, os, hr, h.ids, h.sorted, fun id j => ?_⟩
  rw [getJob, h.cache.lookup, ← recentIffDrop _ h.sorted]
  tauto

/- Twenty-one ticks thirty seconds apart each send a job, one past the cache's size: the first job
is evicted and the second kept. -/
set_option maxRecDepth 8000 in
theorem pollLoopKeepsLastJobsPastCap :
    let sha : DoubleSHA256 := ⟨fun _ => List.replicate 32 0, fun _ => rfl⟩
    let builder : CoinbaseBuilder Unit := ⟨fun _ => [], fun _ _ _ _ _ n => .ok (List.replicate n 0, 0)⟩
    let tmpl : RpcTemplate := ⟨"000102030405060708090a0b0c0d0e0f101112131415161718191a1b1c1d1e1f", [], "1d00ffff", 0, ""⟩
    let ticks : List (Tick Unit) := (List.range 21).map fun i =>
      ⟨⟨⟨[], default, fun _ => ⟨fun l => l, List.Perm.refl⟩⟩, .ok tmpl, jobRefreshInterval * i,
        jobRefreshInterval * i, true⟩, 0, 0⟩
    builder.KeepsPlaceholder 4 ∧ ticks.length < 2 ^ 64 ∧
      (∀ t ∈ ticks, ∀ tmpl, t.template = .ok tmpl → 16 ≤ tmpl.previousBlockHash.utf8ByteSize) ∧
      (pollRun sha builder "" 4 PollState.init ticks).map (fun r => ((generatedJobs r.2).length,
        (getJob r.1.gen.jobs "1").isSome, (getJob r.1.gen.jobs "2").isSome)) = some (21, false, true) ∧
      ∃ ps outcomes, pollRun sha builder "" 4 PollState.init ticks = some (ps, outcomes) ∧
        (∀ j ∈ generatedJobs outcomes, j.id = hexId j.seq) ∧ ((generatedJobs outcomes).map (·.seq)).Sorted (· < ·) ∧
        ∀ id j, getJob ps.gen.jobs id = some j ↔
          j ∈ (generatedJobs outcomes).drop ((generatedJobs outcomes).length - maxStoredJobs) ∧ j.id = id := by
  intro sha builder tmpl ticks
  have hb : builder.KeepsPlaceholder 4 := fun _ _ _ _ _ _ _ h => by cases h; simp
  have hhash : ∀ t ∈ ticks, ∀ tmpl, t.template = .ok tmpl → 16 ≤ tmpl.previousBlockHash.utf8ByteSize := by
    intro t ht tmpl' htmpl
    obtain ⟨i, -, rfl⟩ := List.mem_map.mp ht
    cases htmpl
    decide
  have hlen : ticks.length < 2 ^ 64 := by decide
  exact ⟨hb, hlen, hhash, by decide, pollLoopKeepsLastJobs hb ticks hlen hhash⟩

end


/-! The submit path of a generated job: its branches are those of the template the tick fetched
and its prevhash that template's, so whatever a miner submits for it and `ReconstructHeader`
accepts extends the template's block and passes the pre-submit check against that template. -/

section
variable {sha : DoubleSHA256} {builder : CoinbaseBuilder ε} {network : String} {extranonceSize : Nat}

theorem generateJobBuilt {g g' : GenState} {inp : JobInputs} {job : JobData}
    (h : generateJob sha builder network extranonceSize g inp = some (g', .ok job)) :
    ∃ tmpl built, g.currentTemplate = some tmpl ∧
      buildJobFromTemplate sha builder (hexId ((g.jobCounter + 1) % 2 ^ 64)) (templateData network tmpl) inp.payouts
        inp.prevShareHash extranonceSize = some (.ok built) ∧ job = { built with seq := (g.jobCounter + 1) % 2 ^ 64 } := by
  rcases generateJobCases h with ⟨-, -, hr⟩ | ⟨_, -, hr⟩ | ⟨tmpl, built, htmpl, hbuilt, hr, -⟩
  · cases hr
  · cases hr
  · cases hr
    exact ⟨tmpl, built, htmpl, hbuilt, rfl⟩

theorem pollTickJobBuilt {ps ps' : PollState} {t : Tick ρ} {job : JobData} {clean delivered : Bool}
    (h : pollTick sha builder network extranonceSize ps t = some (ps', .fetched (.generated job clean delivered))) :
    ∃ tmpl, t.template = .ok tmpl ∧ ∃ built,
      buildJobFromTemplate sha builder (hexId ((ps.gen.jobCounter + 1) % 2 ^ 64)) (templateData network tmpl)
        t.payouts t.prevShareHash extranonceSize = some (.ok built) ∧
      job = { built with seq := (ps.gen.jobCounter + 1) % 2 ^ 64 } := by
  rcases pollTickCases h with ⟨-, -, -, ho⟩ | ⟨-, ⟨_, _, -, -, ho⟩ | ⟨g, fo, hf, -, ho⟩⟩
  · cases ho
  · cases ho
  cases ho
  rcases fetchTemplateCases hf with ⟨_, -, -, hr⟩ |
    ⟨tmpl, htmpl, ⟨-, -, hr⟩ | ⟨-, ⟨_, -, hr⟩ | ⟨g2, job', hg, hr, -⟩⟩⟩
  · cases hr
  · cases hr
  · cases hr
  cases hr
  obtain ⟨tmpl', built, htmpl', hbuilt, rfl⟩ := generateJobBuilt hg
  cases htmpl'
  exact ⟨tmpl, htmpl, built, hbuilt, rfl⟩

/- Every job a tick of the loop generates, from any state: for every submission that
`ReconstructHeader` accepts, the header's prevhash is the fetched template's previous block hash in
internal order, its bits are the template's, and `VerifyMerkleRoot` accepts the header and coinbase
against that template whenever the template's txids are hex. -/
theorem generatedJobPassesPresubmit {ps ps' : PollState} {t : Tick ρ} {job : JobData} {clean delivered : Bool}
    (h : pollTick sha builder network extranonceSize ps t = some (ps', .fetched (.generated job clean delivered)))
    {version extranonce1 extranonce2 ntime nonce : String} {header coinbase : Bytes}
    (hsub : reconstructHeader sha job version extranonce1 extranonce2 ntime nonce = .ok (header, coinbase)) :
    ∃ tmpl, t.template = .ok tmpl ∧
      (∃ prev, decodeString tmpl.previousBlockHash = .ok prev ∧ (header.drop 4).take 32 = reverseBytes prev) ∧
      (∃ bits, decodeString tmpl.bits = .ok bits ∧ (header.drop 72).take 4 = reverseBytes bits) ∧
      ((∀ tx ∈ tmpl.transactions, ∃ b, decodeString tx.txID = .ok b) →
        verifyMerkleRoot sha header coinbase tmpl.toBlockTemplate = .ok ()) := by
  obtain ⟨tmpl, htmpl, built, hbuilt, rfl⟩ := pollTickJobBuilt h
  obtain ⟨-, -, -, -, hbranches, hdisp, -, -, hbits⟩ := buildJobFromTemplateOk hbuilt
  obtain ⟨root, vb, pb, tb, bb, nb, -, hroot, hvb, hpb, htb, hbb, hnb, hheader⟩ := reconstructHeaderOk hsub
  obtain ⟨prev, hprev, -, hpb'⟩ := prevHashRoundTrip hdisp
  obtain ⟨bits, hdbits, -, hbb'⟩ := hexBEToLEOk (hbits ▸ hbb)
  have lv := hexBEToLELength hvb
  have lp := stratumPrevHashToInternalLength hpb
  have lr := computeMerkleRootLength sha hroot (sha.sumLength _)
  have lt := hexBEToLELength htb
  have hprevField : (header.drop 4).take 32 = pb := by
    rw [hheader, show vb ++ pb ++ root ++ tb ++ bb ++ nb = vb ++ (pb ++ (root ++ tb ++ bb ++ nb)) by simp,
      List.drop_left' lv, List.take_left' lp]
  have hbitsField : (header.drop 72).take 4 = bb := by
    rw [hheader, show vb ++ pb ++ root ++ tb ++ bb ++ nb = (vb ++ pb ++ root ++ tb) ++ (bb ++ nb) by simp,
      List.drop_left' (by simp [lv, lp, lr, lt]), List.take_left' (hexBEToLELength hbb)]
  rw [hpb', Except.ok.injEq] at hpb
  refine ⟨tmpl, htmpl, ⟨prev, hprev, hprevField.trans hpb.symm⟩, ⟨bits, hdbits, hbitsField.trans hbb'⟩,
    fun htx => ?_⟩
  have hroot' := (reconstructHeaderRoot hsub).2
  rw [show (templateData network tmpl).txHashes = extractTxHashes tmpl.toBlockTemplate from rfl, extractTxHashesEq,
    computeMerkleBranchesEncoded] at hbranches
  rw [← Except.ok.inj hbranches, branchesReachFullRoot, ← computeFullMerkleRootCons] at hroot'
  exact verifyMerkleRootOk.mpr ⟨by simp [(reconstructHeaderRoot hsub).1], internalTxids tmpl.toBlockTemplate,
    decodeTxidsOfValid 0 (by simpa [RpcTemplate.toBlockTemplate] using htx), (Except.ok.inj hroot').symm⟩

set_option maxRecDepth 4000 in
theorem generatedJobPassesPresubmitFirstJob :
    let sha : DoubleSHA256 := ⟨fun b => (List.range 32).map fun i =>
      b.foldl (fun acc x => acc * 31 + (x ^^^ UInt8.ofNat i)) 0, fun _ => by simp⟩
    let builder : CoinbaseBuilder Unit := ⟨fun _ => [], fun _ _ _ _ _ n => .ok ([0xaa] ++ List.replicate n 0 ++ [0xbb], 1)⟩
    let tmpl : RpcTemplate := ⟨"000102030405060708090a0b0c0d0e0f101112131415161718191a1b1c1d1e1f",
      [⟨⟨"202122232425262728292a2b2c2d2e2f303132333435363738393a3b3c3d3e3f"⟩, "00"⟩,
        ⟨⟨"404142434445464748494a4b4c4d4e4f505152535455565758595a5b5c5d5e5f"⟩, "11"⟩], "1d00ffff", 0, ""⟩
    let t : Tick Unit := ⟨⟨⟨[], default, fun _ => ⟨fun l => l, List.Perm.refl⟩⟩, .ok tmpl, 0, 0, true⟩, 0, 0⟩
    let job : JobData := ⟨"1", 1, "1c1d1e1f18191a1b14151617101112130c0d0e0f08090a0b0405060700010203", "aa", "bb",
      ["3f3e3d3c3b3a393837363534333231302f2e2d2c2b2a29282726252423222120",
        "e020e020e020e020e020e020e020e020e020e020e020e020e020e020e020e020"], "1d00ffff"⟩
    ∃ ps', pollTick sha builder "" 2 PollState.init t = some (ps', .fetched (.generated job true true)) ∧
      ∃ header coinbase, reconstructHeader sha job "20000000" "01" "02" "5f5e1000" "0000abcd" = .ok (header, coinbase) ∧
        ∃ tmpl, t.template = .ok tmpl ∧
          (∃ prev, decodeString tmpl.previousBlockHash = .ok prev ∧ (header.drop 4).take 32 = reverseBytes prev) ∧
          (∃ bits, decodeString tmpl.bits = .ok bits ∧ (header.drop 72).take 4 = reverseBytes bits) ∧
          ((∀ tx ∈ tmpl.transactions, ∃ b, decodeString tx.txID = .ok b) →
            verifyMerkleRoot sha header coinbase tmpl.toBlockTemplate = .ok ()) := by
  intro sha builder tmpl t job
  have hbr : computeMerkleBranches sha.sum (templateData "" tmpl).txHashes = .ok job.merkleBranches := by
    rw [templateData, extractTxHashesEq, computeMerkleBranchesEncoded]
    simp only [tmpl, internalTxids, RpcTemplate.toBlockTemplate, List.map_cons, List.map_nil, branchesLoop, pairLevel]
    rfl
  have hbuilt : buildJobFromTemplate sha builder (hexId ((0 + 1) % 2 ^ 64)) (templateData "" tmpl) [] default 2 =
      some (.ok { job with seq := 0 }) := by
    unfold buildJobFromTemplate
    rw [hbr]
    rfl
  have h : pollTick sha builder "" 2 PollState.init t =
      some (⟨⟨some tmpl, 1, storeJob t.orders ∅ job, some 0⟩, 0, 0⟩, .fetched (.generated job true true)) := by
    simp only [pollTick, fetchTemplate, generateJob, PollState.init, GenState.init, t, isNewBlock, hbuilt]
    rfl
  obtain ⟨header, coinbase, hsub⟩ : ∃ header coinbase,
      reconstructHeader sha job "20000000" "01" "02" "5f5e1000" "0000abcd" = .ok (header, coinbase) := ⟨_, _, rfl⟩
  exact ⟨_, h, header, coinbase, hsub, generatedJobPassesPresubmit h hsub⟩

end

end P2Pool.Generator
