import P2Pool.Poller

/-! What the polling loop keeps between ticks is what it has seen. The current template, the time
of the last job sent, the count of failed RPC calls, the time of the last failure and the job
counter are each read off the run's history, the ticks with what each did. Each tick's choice is
then stated against the history before it: when the loop waits out a backoff, when it sends a
clean job or a refresh, and which number the job gets. -/
namespace P2Pool.Generator
open Util Types Template Maps

variable {ε ρ : Type}

abbrev History (ρ ε : Type) := List (Tick ρ × TickOutcome ρ ε)

/- Whether a tick called the RPC, whether the call failed, and whether a job went out on the
channel. -/
def TickOutcome.attempted : TickOutcome ρ ε → Bool
  | .backedOff => false
  | .rpcFailed _ => true
  | .fetched _ => true

def TickOutcome.failed : TickOutcome ρ ε → Bool
  | .backedOff => false
  | .rpcFailed _ => true
  | .fetched _ => false

def FetchOutcome.delivered : FetchOutcome ε → Bool
  | .idle => false
  | .generateFailed _ => false
  | .generated _ _ delivered => delivered

def TickOutcome.delivered : TickOutcome ρ ε → Bool
  | .backedOff => false
  | .rpcFailed _ => false
  | .fetched fo => fo.delivered

/- Whether `GenerateJob` got as far as `jobCounter.Add(1)`: it had a template, and built a job or
failed to. -/
def FetchOutcome.built : FetchOutcome ε → Bool
  | .idle => false
  | .generateFailed .noTemplate => false
  | .generateFailed (.buildJob _) => true
  | .generated _ _ _ => true

def TickOutcome.built : TickOutcome ρ ε → Bool
  | .backedOff => false
  | .rpcFailed _ => false
  | .fetched fo => fo.built

/- What one tick shows: the template it fetched, the send time of the job it delivered, the time
its call failed. -/
def fetchedTemplate (e : Tick ρ × TickOutcome ρ ε) : Option RpcTemplate :=
  match e.2 with
  | .backedOff => none
  | .rpcFailed _ => none
  | .fetched _ => e.1.template.toOption

def deliveredAt (e : Tick ρ × TickOutcome ρ ε) : Option Int := if e.2.delivered then some e.1.sendTime else none

def failedAt (e : Tick ρ × TickOutcome ρ ε) : Option Int := if e.2.failed then some e.1.failTime else none

def lastFetched (hist : History ρ ε) : Option RpcTemplate := (hist.filterMap fetchedTemplate).getLast?

def lastDelivered (hist : History ρ ε) : Option Int := (hist.filterMap deliveredAt).getLast?

def lastFailure (hist : History ρ ε) : Option Int := (hist.filterMap failedAt).getLast?

/- The failed calls since the last call that succeeded; a tick that backed off made no call. -/
def failureStreak (outcomes : List (TickOutcome ρ ε)) : Nat :=
  ((outcomes.filter TickOutcome.attempted).reverse.takeWhile TickOutcome.failed).length

def buildCount (outcomes : List (TickOutcome ρ ε)) : Nat := (outcomes.filter TickOutcome.built).length

theorem getLastFilterMapSnoc {α β : Type} (f : α → Option β) (l : List α) (x : α) :
    ((l ++ [x]).filterMap f).getLast? = (f x).or (l.filterMap f).getLast? := by
  rw [List.filterMap_append]
  cases h : f x <;> simp [h]

@[simp] theorem lastFetchedSnoc (hist : History ρ ε) (e : Tick ρ × TickOutcome ρ ε) :
    lastFetched (hist ++ [e]) = (fetchedTemplate e).or (lastFetched hist) := getLastFilterMapSnoc _ _ _

@[simp] theorem lastDeliveredSnoc (hist : History ρ ε) (e : Tick ρ × TickOutcome ρ ε) :
    lastDelivered (hist ++ [e]) = (deliveredAt e).or (lastDelivered hist) := getLastFilterMapSnoc _ _ _

@[simp] theorem lastFailureSnoc (hist : History ρ ε) (e : Tick ρ × TickOutcome ρ ε) :
    lastFailure (hist ++ [e]) = (failedAt e).or (lastFailure hist) := getLastFilterMapSnoc _ _ _

@[simp] theorem failureStreakSnoc (os : List (TickOutcome ρ ε)) (o : TickOutcome ρ ε) :
    failureStreak (os ++ [o]) = if o.attempted then (if o.failed then failureStreak os + 1 else 0)
      else failureStreak os := by
  cases o <;> simp [failureStreak, TickOutcome.attempted, TickOutcome.failed, List.filter_append]

@[simp] theorem buildCountSnoc (os : List (TickOutcome ρ ε)) (o : TickOutcome ρ ε) :
    buildCount (os ++ [o]) = buildCount os + if o.built then 1 else 0 := by
  cases h : o.built <;> simp [buildCount, List.filter_append, h]

/- What the loop keeps agrees with its history: the current template is the last one fetched,
`lastJobTime` the send time of the last job delivered, `consecutiveFailures` the failed calls since
the last success, while that is positive `lastFailureTime` is when the last call failed, and
`jobCounter` is the number of builds attempted, modulo 2^64. -/
structure Remembers (hist : History ρ ε) (ps : PollState) : Prop where
  template : ps.gen.currentTemplate = lastFetched hist
  jobTime : ps.gen.lastJobTime = lastDelivered hist
  failures : ps.failures = failureStreak (hist.map Prod.snd)
  failureTime : 0 < ps.failures → lastFailure hist = some ps.lastFailureTime
  counter : ps.gen.jobCounter = buildCount (hist.map Prod.snd) % 2 ^ 64

theorem remembersInit : Remembers ([] : History ρ ε) PollState.init :=
  ⟨rfl, rfl, rfl, fun h => absurd h (lt_irrefl 0), rfl⟩

/- A tick is skipped exactly while the backoff of the current streak runs since its last failure. -/
theorem Remembers.backoffIff {hist : History ρ ε} {ps : PollState} (h : Remembers hist ps) (now : Int) :
    (0 < ps.failures ∧ now - ps.lastFailureTime < backoffDuration ps.failures) ↔
      0 < failureStreak (hist.map Prod.snd) ∧ ∃ tf, lastFailure hist = some tf ∧
        now - tf < min (pollInterval * 2 ^ (failureStreak (hist.map Prod.snd) - 1)) maxBackoff := by
  rw [← h.failures]
  constructor
  · rintro ⟨hp, hlt⟩
    exact ⟨hp, ps.lastFailureTime, h.failureTime hp, by rwa [← backoffDurationEq hp]⟩
  · rintro ⟨hp, tf, htf, hlt⟩
    rw [h.failureTime hp] at htf
    cases htf
    exact ⟨hp, by rwa [backoffDurationEq hp]⟩

section
variable {sha : DoubleSHA256} {builder : CoinbaseBuilder ε} {network : String} {extranonceSize : Nat}

/- A failed call leaves the generator as it was; a successful one stores the template, records the
send time when a job went out, and advances the counter when a build was attempted. -/
theorem fetchTemplateError {g g' : GenState} {inp : FetchInputs ρ} {e : ρ}
    (h : fetchTemplate sha builder network extranonceSize g inp = some (g', .error e)) :
    inp.template = .error e ∧ g' = g := by
  rcases fetchTemplateCases h with ⟨e', he, rfl, hr⟩ | ⟨_, -, ⟨-, -, hr⟩ | ⟨-, ⟨_, -, hr⟩ | ⟨_, _, -, hr, -⟩⟩⟩
  · cases hr
    exact ⟨he, rfl⟩
  all_goals cases hr

theorem fetchTemplateOk {g g' : GenState} {inp : FetchInputs ρ} {fo : FetchOutcome ε}
    (h : fetchTemplate sha builder network extranonceSize g inp = some (g', .ok fo)) :
    ∃ tmpl, inp.template = .ok tmpl ∧ g'.currentTemplate = some tmpl ∧
      g'.lastJobTime = (if fo.delivered then some inp.sendTime else g.lastJobTime) ∧
      g'.jobCounter = if fo.built then (g.jobCounter + 1) % 2 ^ 64 else g.jobCounter := by
  rcases fetchTemplateCases h with ⟨_, -, -, hr⟩ | ⟨tmpl, htmpl, ⟨-, rfl, hr⟩ | ⟨-, ⟨e, hg, hr⟩ | ⟨g2, job, hg, hr, rfl⟩⟩⟩
  · cases hr
  · cases hr
    exact ⟨tmpl, htmpl, rfl, rfl, rfl⟩
  · cases hr
    rcases generateJobCases hg with ⟨hnone, -, -⟩ | ⟨e', rfl, hr'⟩ | ⟨_, _, -, -, hr', -⟩
    · cases hnone
    · cases hr'
      exact ⟨tmpl, htmpl, rfl, rfl, rfl⟩
    · cases hr'
  · cases hr
    rcases generateJobCases hg with ⟨-, -, hr'⟩ | ⟨_, -, hr'⟩ | ⟨_, _, -, -, -, rfl⟩
    · cases hr'
    · cases hr'
    refine ⟨tmpl, htmpl, ?_⟩
    cases inp.room <;> simp [FetchOutcome.delivered, FetchOutcome.built]

theorem Remembers.tick {hist : History ρ ε} {ps ps' : PollState} {t : Tick ρ} {o : TickOutcome ρ ε}
    (h : Remembers hist ps) (ht : pollTick sha builder network extranonceSize ps t = some (ps', o)) :
    Remembers (hist ++ [(t, o)]) ps' := by
  rcases pollTickCases ht with ⟨-, -, rfl, rfl⟩ | ⟨-, ⟨g, e, hf, rfl, rfl⟩ | ⟨g, fo, hf, rfl, rfl⟩⟩
  · exact ⟨by simp [fetchedTemplate, h.template], by simp [deliveredAt, TickOutcome.delivered, h.jobTime],
      by simp [TickOutcome.attempted, h.failures], fun hp => by simp [failedAt, TickOutcome.failed, h.failureTime hp],
      by simp [TickOutcome.built, h.counter]⟩
  · obtain ⟨-, rfl⟩ := fetchTemplateError hf
    exact ⟨by simp [fetchedTemplate, h.template], by simp [deliveredAt, TickOutcome.delivered, h.jobTime],
      by simp [TickOutcome.attempted, TickOutcome.failed, h.failures], fun _ => by simp [failedAt, TickOutcome.failed],
      by simp [TickOutcome.built, h.counter]⟩
  · obtain ⟨tmpl, htmpl, hcur, hjob, hcount⟩ := fetchTemplateOk hf
    refine ⟨by simp [fetchedTemplate, htmpl, Except.toOption, hcur], ?_,
      by simp [TickOutcome.attempted, TickOutcome.failed], fun hp => absurd hp (lt_irrefl 0), ?_⟩
    · rw [hjob, lastDeliveredSnoc, ← h.jobTime]
      cases hd : fo.delivered <;> simp [deliveredAt, TickOutcome.delivered, hd]
    · rw [hcount, h.counter]
      cases hb : fo.built <;> simp [TickOutcome.built, hb, Nat.add_mod]

theorem Remembers.run : ∀ (ticks : List (Tick ρ)) {hist : History ρ ε} {ps ps' : PollState}
    {os : List (TickOutcome ρ ε)}, Remembers hist ps →
    pollRun sha builder network extranonceSize ps ticks = some (ps', os) → Remembers (hist ++ ticks.zip os) ps'
  | [], hist, ps, ps', os, h, hr => by
    simp only [pollRun, Option.some.injEq, Prod.mk.injEq] at hr
    obtain ⟨rfl, rfl⟩ := hr
    simpa using h
  | t :: ts, hist, ps, ps', os, h, hr => by
    obtain ⟨ps1, o, rest, ht, hrest, rfl⟩ := pollRunCons.mp hr
    simpa using Remembers.run ts (h.tick ht) hrest

theorem pollRunAppend : ∀ {ps ps'' : PollState} (xs : List (Tick ρ)) {ys : List (Tick ρ)}
    {os : List (TickOutcome ρ ε)}, pollRun sha builder network extranonceSize ps (xs ++ ys) = some (ps'', os) →
      ∃ ps' os₁ os₂, pollRun sha builder network extranonceSize ps xs = some (ps', os₁) ∧
        pollRun sha builder network extranonceSize ps' ys = some (ps'', os₂) ∧ os = os₁ ++ os₂
  | ps, _, [], _, os, h => ⟨ps, [], os, rfl, h, rfl⟩
  | _, _, _ :: xs, _, _, h => by
    obtain ⟨ps1, o, rest, ht, hrest, rfl⟩ := pollRunCons.mp h
    obtain ⟨ps', os₁, os₂, h1, h2, rfl⟩ := pollRunAppend xs hrest
    exact ⟨ps', o :: os₁, os₂, pollRunCons.mpr ⟨ps1, o, os₁, ht, h1, rfl⟩, h2, rfl⟩

theorem pollRunLength : ∀ {ps ps' : PollState} (ticks : List (Tick ρ)) {os : List (TickOutcome ρ ε)},
    pollRun sha builder network extranonceSize ps ticks = some (ps', os) → os.length = ticks.length
  | _, _, [], _, h => by
    simp only [pollRun, Option.some.injEq, Prod.mk.injEq] at h
    rw [← h.2]
    rfl
  | _, _, _ :: ts, _, h => by
    obtain ⟨_, _, rest, -, hrest, rfl⟩ := pollRunCons.mp h
    simp [pollRunLength ts hrest]

/- The tick at any position of a run from a fresh generator starts from a state that remembers
the history before it. -/
theorem pollRunAt {pre post : List (Tick ρ)} {t : Tick ρ} {ps : PollState} {osPre osPost : List (TickOutcome ρ ε)}
    {o : TickOutcome ρ ε}
    (hr : pollRun sha builder network extranonceSize PollState.init (pre ++ t :: post) = some (ps, osPre ++ o :: osPost))
    (hlen : osPre.length = pre.length) :
    ∃ psPre ps', Remembers (pre.zip osPre) psPre ∧ pollTick sha builder network extranonceSize psPre t = some (ps', o) := by
  obtain ⟨psPre, os₁, os₂, h1, h2, hos⟩ := pollRunAppend pre hr
  obtain ⟨rfl, rfl⟩ := List.append_inj hos (hlen.trans (pollRunLength pre h1).symm)
  obtain ⟨ps', o', rest, ht, -, ho⟩ := pollRunCons.mp h2
  obtain ⟨rfl, -⟩ := List.cons.inj ho
  exact ⟨psPre, ps', by simpa using remembersInit.run pre h1, ht⟩

/- The retry schedule of a run from a fresh generator. A tick makes no call exactly when some call
has failed since the last success and less than the backoff of that streak, five seconds doubled
for each further failure and at most a minute, has passed since the last failure; a tick that
calls fails exactly when the RPC does. -/
theorem pollLoopBacksOff {pre post : List (Tick ρ)} {t : Tick ρ} {ps : PollState}
    {osPre osPost : List (TickOutcome ρ ε)} {o : TickOutcome ρ ε}
    (hr : pollRun sha builder network extranonceSize PollState.init (pre ++ t :: post) = some (ps, osPre ++ o :: osPost))
    (hlen : osPre.length = pre.length) :
    (o = .backedOff ↔ 0 < failureStreak osPre ∧ ∃ tf, lastFailure (pre.zip osPre) = some tf ∧
        t.guardTime - tf < min (pollInterval * 2 ^ (failureStreak osPre - 1)) maxBackoff) ∧
      ∀ e, o = .rpcFailed e ↔ o ≠ .backedOff ∧ t.template = .error e := by
  obtain ⟨psPre, ps', hrem, ht⟩ := pollRunAt hr hlen
  have hiff := hrem.backoffIff t.guardTime
  rw [List.map_snd_zip _ _ hlen.le] at hiff
  rw [← hiff]
  rcases pollTickCases ht with ⟨hp, hlt, -, rfl⟩ | ⟨hno, ⟨g, e, hf, -, rfl⟩ | ⟨g, fo, hf, -, rfl⟩⟩
  · exact ⟨iff_of_true rfl ⟨hp, hlt⟩, fun e => by simp⟩
  · obtain ⟨htmpl, -⟩ := fetchTemplateError hf
    exact ⟨iff_of_false (by simp) hno, fun e' => by simp [htmpl, eq_comm]⟩
  · obtain ⟨tmpl, htmpl, -⟩ := fetchTemplateOk hf
    exact ⟨iff_of_false (by simp) hno, fun e => by simp [htmpl]⟩

theorem pollLoopBacksOffAfterFailure :
    let sha : DoubleSHA256 := ⟨fun _ => List.replicate 32 0, fun _ => rfl⟩
    let builder : CoinbaseBuilder Unit := ⟨fun _ => [], fun _ _ _ _ _ _ => .error ()⟩
    let tick (guard : Int) : Tick Unit :=
      ⟨⟨⟨[], default, fun _ => ⟨fun l => l, List.Perm.refl⟩⟩, .error (), 0, 0, true⟩, guard, 0⟩
    let osPre : List (TickOutcome Unit Unit) := [.rpcFailed ()]
    pollRun sha builder "" 0 PollState.init ([tick 0] ++ tick 1 :: []) =
        some (⟨GenState.init, 1, 0⟩, osPre ++ .backedOff :: []) ∧ osPre.length = [tick 0].length ∧
      ((TickOutcome.backedOff : TickOutcome Unit Unit) = .backedOff ↔ 0 < failureStreak osPre ∧ ∃ tf, lastFailure ([tick 0].zip osPre) = some tf ∧
          (tick 1).guardTime - tf < min (pollInterval * 2 ^ (failureStreak osPre - 1)) maxBackoff) ∧
        ∀ e, (TickOutcome.backedOff : TickOutcome Unit Unit) = .rpcFailed e ↔
          (TickOutcome.backedOff : TickOutcome Unit Unit) ≠ .backedOff ∧ (tick 1).template = .error e := by
  intro sha builder tick osPre
  have hr : pollRun sha builder "" 0 PollState.init ([tick 0] ++ tick 1 :: []) =
      some (⟨GenState.init, 1, 0⟩, osPre ++ .backedOff :: []) := rfl
  exact ⟨hr, rfl, pollLoopBacksOff hr rfl⟩

/- The jobs of a run from a fresh generator. A tick that fetched a template sends no job exactly
when the block is the one of the last template fetched and the refresh is not due: a job has gone
out on the channel less than thirty seconds before. A job is clean exactly when the block changed,
and it goes out exactly when the channel has room. -/
theorem pollLoopSendsJobs {pre post : List (Tick ρ)} {t : Tick ρ} {ps : PollState}
    {osPre osPost : List (TickOutcome ρ ε)} {o : TickOutcome ρ ε}
    (hr : pollRun sha builder network extranonceSize PollState.init (pre ++ t :: post) = some (ps, osPre ++ o :: osPost))
    (hlen : osPre.length = pre.length) :
    ∀ fo, o = .fetched fo → ∃ tmpl, t.template = .ok tmpl ∧
      (fo = .idle ↔
        (isNewBlock (lastFetched (pre.zip osPre)) tmpl || refreshDue (lastDelivered (pre.zip osPre)) t.checkTime) = false) ∧
      ∀ job clean delivered, fo = .generated job clean delivered →
        clean = isNewBlock (lastFetched (pre.zip osPre)) tmpl ∧ delivered = t.room := by
  obtain ⟨psPre, ps', hrem, ht⟩ := pollRunAt hr hlen
  rintro fo rfl
  rcases pollTickCases ht with ⟨-, -, -, ho⟩ | ⟨-, ⟨g, e, -, -, ho⟩ | ⟨g, fo', hf, -, ho⟩⟩
  · cases ho
  · cases ho
  cases ho
  rw [← hrem.template, ← hrem.jobTime]
  rcases fetchTemplateCases hf with ⟨_, -, -, hr'⟩ |
    ⟨tmpl, htmpl, ⟨hidle, -, hr'⟩ | ⟨hneed, ⟨e, -, hr'⟩ | ⟨g2, job, -, hr', -⟩⟩⟩
  · cases hr'
  · cases hr'
    exact ⟨tmpl, htmpl, iff_of_true rfl hidle, fun _ _ _ h => by cases h⟩
  · cases hr'
    exact ⟨tmpl, htmpl, iff_of_false (by simp) (by simp [hneed]), fun _ _ _ h => by cases h⟩
  · cases hr'
    exact ⟨tmpl, htmpl, iff_of_false (by simp) (by simp [hneed]), fun _ _ _ h => by cases h; exact ⟨rfl, rfl⟩⟩

set_option maxRecDepth 4000 in
theorem pollLoopSendsJobsRefresh :
    let sha : DoubleSHA256 := ⟨fun _ => List.replicate 32 0, fun _ => rfl⟩
    let builder : CoinbaseBuilder Unit := ⟨fun _ => [], fun _ _ _ _ _ n => .ok (List.replicate n 0, 0)⟩
    let tmpl : RpcTemplate := ⟨"000102030405060708090a0b0c0d0e0f101112131415161718191a1b1c1d1e1f", [], "1d00ffff", 0, ""⟩
    let tick (now : Int) (room : Bool) : Tick Unit :=
      ⟨⟨⟨[], default, fun _ => ⟨fun l => l, List.Perm.refl⟩⟩, .ok tmpl, now, now, room⟩, now, now⟩
    let pre := [tick 0 true]
    let t := tick jobRefreshInterval false
    ∃ ps job₀ job₁, let osPre : List (TickOutcome Unit Unit) := [.fetched (.generated job₀ true true)]
      pollRun sha builder "" 4 PollState.init (pre ++ t :: []) =
        some (ps, osPre ++ .fetched (.generated job₁ false false) :: []) ∧
      ∀ fo, (TickOutcome.fetched (.generated job₁ false false) : TickOutcome Unit Unit) = .fetched fo →
        ∃ tmpl', t.template = .ok tmpl' ∧
          (fo = .idle ↔
            (isNewBlock (lastFetched (pre.zip osPre)) tmpl' || refreshDue (lastDelivered (pre.zip osPre)) t.checkTime) =
              false) ∧
          ∀ job clean delivered, fo = .generated job clean delivered →
            clean = isNewBlock (lastFetched (pre.zip osPre)) tmpl' ∧ delivered = t.room := by
  intro sha builder tmpl tick pre t
  obtain ⟨ps, job₀, job₁, hr⟩ : ∃ ps job₀ job₁, pollRun sha builder "" 4 PollState.init (pre ++ t :: []) =
      some (ps, [(.fetched (.generated job₀ true true) : TickOutcome Unit Unit)] ++
        (.fetched (.generated job₁ false false) : TickOutcome Unit Unit) :: []) := ⟨_, _, _, rfl⟩
  exact ⟨ps, job₀, job₁, hr, pollLoopSendsJobs hr rfl⟩

/- The sequence numbers of a run from a fresh generator: the job a tick generates has number
k + 1 modulo 2^64, where k counts the earlier ticks whose `GenerateJob` reached the counter (a failed
build uses up its number too), and its ID is that number in hex. -/
theorem pollLoopNumbersJobs {pre post : List (Tick ρ)} {t : Tick ρ} {ps : PollState}
    {osPre osPost : List (TickOutcome ρ ε)} {o : TickOutcome ρ ε}
    (hr : pollRun sha builder network extranonceSize PollState.init (pre ++ t :: post) = some (ps, osPre ++ o :: osPost))
    (hlen : osPre.length = pre.length) :
    ∀ job clean delivered, o = .fetched (.generated job clean delivered) →
      job.seq = (buildCount osPre + 1) % 2 ^ 64 ∧ job.id = hexId job.seq := by
  obtain ⟨psPre, ps', hrem, ht⟩ := pollRunAt hr hlen
  rintro job clean delivered rfl
  obtain ⟨_, -, built, hbuilt, rfl⟩ := pollTickJobBuilt ht
  obtain ⟨-, -, -, -, -, -, hid, -, -⟩ := buildJobFromTemplateOk hbuilt
  have hseq : (psPre.gen.jobCounter + 1) % 2 ^ 64 = (buildCount osPre + 1) % 2 ^ 64 := by
    rw [hrem.counter, List.map_snd_zip _ _ hlen.le, Nat.add_mod, Nat.mod_mod, ← Nat.add_mod]
  exact ⟨hseq, hid⟩

/- A builder that fails on empty payouts: the first build fails and uses up number 1, the refresh
on the next tick gets number 2. -/
set_option maxRecDepth 2000 in
theorem pollLoopNumbersJobsAfterFailedBuild :
    let sha : DoubleSHA256 := ⟨fun _ => List.replicate 32 0, fun _ => rfl⟩
    let builder : CoinbaseBuilder Unit :=
      ⟨fun _ => [], fun _ _ _ payouts _ _ => if payouts = [] then .error () else .ok ([], 0)⟩
    let tmpl : RpcTemplate := ⟨"0000000000000000000000000000000000000000000000000000000000000000", [], "00000000", 0, ""⟩
    let orders : Nat → MapOrder JobData := fun _ => ⟨fun l => l, List.Perm.refl⟩
    let tick (payouts : List PayoutEntry) : Tick Unit := ⟨⟨⟨payouts, default, orders⟩, .ok tmpl, 0, 0, true⟩, 0, 0⟩
    let job : JobData := ⟨"2", 2, "0000000000000000000000000000000000000000000000000000000000000000", "", "", [],
      "00000000"⟩
    let osPre : List (TickOutcome Unit Unit) := [.fetched (.generateFailed (.buildJob (.buildCoinbase ())))]
    pollRun sha builder "" 0 PollState.init ([tick []] ++ tick [⟨"a", 1⟩] :: []) =
        some (⟨⟨some tmpl, 2, storeJob orders ∅ job, some 0⟩, 0, 0⟩, osPre ++ .fetched (.generated job false true) :: []) ∧
      osPre.length = [tick []].length ∧
      ∀ job' clean delivered, (TickOutcome.fetched (.generated job false true) : TickOutcome Unit Unit) =
          .fetched (.generated job' clean delivered) →
        job'.seq = (buildCount osPre + 1) % 2 ^ 64 ∧ job'.id = hexId job'.seq := by
  have hr : pollRun ⟨fun _ => List.replicate 32 0, fun _ => rfl⟩
      (⟨fun _ => [], fun _ _ _ payouts _ _ => if payouts = [] then .error () else .ok ([], 0)⟩ : CoinbaseBuilder Unit)
      "" 0 PollState.init
      ([(⟨⟨⟨[], default, fun _ => ⟨fun l => l, List.Perm.refl⟩⟩,
          .ok ⟨"0000000000000000000000000000000000000000000000000000000000000000", [], "00000000", 0, ""⟩, 0, 0, true⟩,
          0, 0⟩ : Tick Unit)] ++
        (⟨⟨⟨[⟨"a", 1⟩], default, fun _ => ⟨fun l => l, List.Perm.refl⟩⟩,
          .ok ⟨"0000000000000000000000000000000000000000000000000000000000000000", [], "00000000", 0, ""⟩, 0, 0, true⟩,
          0, 0⟩ : Tick Unit) :: []) =
      some (⟨⟨some ⟨"0000000000000000000000000000000000000000000000000000000000000000", [], "00000000", 0, ""⟩, 2,
          storeJob (fun _ => ⟨fun l => l, List.Perm.refl⟩) ∅
            ⟨"2", 2, "0000000000000000000000000000000000000000000000000000000000000000", "", "", [], "00000000"⟩,
          some 0⟩, 0, 0⟩,
        [.fetched (.generateFailed (.buildJob (.buildCoinbase ())))] ++
          .fetched (.generated ⟨"2", 2, "0000000000000000000000000000000000000000000000000000000000000000", "", "", [],
            "00000000"⟩ false true) :: []) := rfl
  exact ⟨hr, rfl, pollLoopNumbersJobs hr rfl⟩

end

end P2Pool.Generator
