import P2Pool.Share

/-! Share validation of `internal/sharechain`: `Validator.ValidateShare` and the text of its
`ValidationError`. The address codec, the coinbase parsers of `types` and the `ShareStore` are
outside the modelled sources, so the validator takes them as parameters. `TargetToCompact` of a
nil `ShareTarget` dereferences it and panics: the checks run in `ExceptT Reason Option`, where
`none` is that panic. -/
namespace P2Pool.Sharechain
open Util Hex Types Compact

def zeroHash : Hash32 := ⟨List.replicate 32 0, rfl⟩

/- `types.Share` with the fields only validation reads: the version, the sharechain link and the
coinbase. -/
structure ChainShare extends Share where
  shareVersion : UInt32
  prevShareHash : Hash32
  coinbaseTx : Bytes

/- `time.Duration` constants in nanoseconds, and the size limits. -/
def maxTimeFuture : Int := 2 * 60 * 10 ^ 9

def maxTimePast : Int := 10 * 60 * 10 ^ 9

def maxCoinbaseTxSize : Nat := 100 * 1024

def maxMinerAddressLen : Nat := 128

/- The `Reason` of each `ValidationError`, with the values its format string prints. -/
inductive Reason (ε : Type) where
  | unsupportedVersion (version : UInt32)
  | minerAddressTooLong (length : Nat)
  | coinbaseTxTooLarge (length : Nat)
  | missingMinerAddress
  | invalidMinerAddress (err : ε)
  | parentNotFound (hashStart : Bytes)
  | timestampInFuture (shareTime : Int)
  | timestampBehindParent
  | targetNotMet
  | targetMismatch (declaredBits expectedBits : UInt32)
  | commitmentExtractionFailed (err : ε)
  | commitmentMismatch (committed prevShareHash : Bytes)
  | outputParsingFailed (err : ε)
  | minerNotInOutputs (err : ε)
  | missingCoinbaseTx

/- `%08x` of a `uint32`: its four big-endian bytes in hex. -/
def hex08 (v : UInt32) : String := encodeToString (putUint32 v).reverse

variable {ε O : Type}

/- The reason as the format strings print it; an external error prints as `errText` says and a
`time.Time` as `timeText` says. -/
def Reason.text (errText : ε → String) (timeText : Int → String) : Reason ε → String
  | .unsupportedVersion v => "unsupported share version " ++ toString v ++ ", expected 1"
  | .minerAddressTooLong n => "miner address too long: " ++ toString n ++ " bytes"
  | .coinbaseTxTooLarge n => "coinbase tx too large: " ++ toString n ++ " bytes"
  | .missingMinerAddress => "missing miner address"
  | .invalidMinerAddress e => "invalid miner address: " ++ errText e
  | .parentNotFound h => "parent share " ++ encodeToString h ++ " not found"
  | .timestampInFuture t => "share timestamp " ++ timeText t ++ " is too far in the future"
  | .timestampBehindParent => "share timestamp is too far behind parent"
  | .targetNotMet => "share does not meet required target"
  | .targetMismatch d e => "share target mismatch: declared bits 0x" ++ hex08 d ++ ", expected 0x" ++ hex08 e
  | .commitmentExtractionFailed e => "coinbase commitment extraction failed: " ++ errText e
  | .commitmentMismatch c p =>
    "coinbase commitment " ++ encodeToString c ++ " does not match PrevShareHash " ++ encodeToString p
  | .outputParsingFailed e => "coinbase output parsing failed: " ++ errText e
  | .minerNotInOutputs e => "miner not in coinbase outputs: " ++ errText e
  | .missingCoinbaseTx => "missing coinbase transaction"

def Reason.error (errText : ε → String) (timeText : Int → String) (r : Reason ε) : String :=
  "share validation failed: " ++ r.text errText timeText

structure ShareStore where
  has : Hash32 → Bool
  get : Hash32 → Option ChainShare

/- The `types` functions validation calls, with their error type `ε` and parsed outputs `O`. -/
structure CoinbaseRules (ε O : Type) where
  validateAddress : String → String → Except ε Unit
  extractShareCommitment : Bytes → Except ε Hash32
  parseCoinbaseOutputs : Bytes → Except ε O
  validateMinerInOutputs : O → String → String → Except ε Unit

structure Validator where
  store : ShareStore
  targetFunc : Hash32 → Int
  network : String

abbrev Check (ε : Type) := ExceptT (Reason ε) Option

def require (c : Bool) (r : Reason ε) : Check ε Unit := if c then pure () else throw r

def wrap {α : Type} (x : Except ε α) (r : ε → Reason ε) : Check ε α :=
  match x with
  | .ok a => pure a
  | .error e => throw (r e)

/- Dereferencing a pointer: `nil` panics. -/
def deref {α : Type} (p : Option α) : Check ε α := ExceptT.lift p

/- Step 4's parent check: only a parent the store returns is compared. -/
def tooFarBehind (store : ShareStore) (share : ChainShare) : Bool :=
  share.prevShareHash ≠ zeroHash &&
    match store.get share.prevShareHash with
    | some parent => share.time < parent.time - maxTimePast
    | none => false

/- The body of `ValidateShare` in the groups of its numbered steps; `validateShare` runs them in
order. Steps 1–3: the version, the size limits and the miner address. -/
def checkHeader (v : Validator) (rules : CoinbaseRules ε O) (share : ChainShare) : Check ε Unit := do
  require (share.shareVersion = 1) (.unsupportedVersion share.shareVersion)
  require (share.minerAddress.utf8ByteSize ≤ maxMinerAddressLen)
    (.minerAddressTooLong share.minerAddress.utf8ByteSize)
  require (share.coinbaseTx.length ≤ maxCoinbaseTxSize) (.coinbaseTxTooLarge share.coinbaseTx.length)
  require (share.minerAddress ≠ "") .missingMinerAddress
  wrap (rules.validateAddress share.minerAddress v.network) .invalidMinerAddress

/- The parent lookup and step 4, the timestamp bounds at the clock reading `now` (nanoseconds). -/
def checkParent (v : Validator) (now : Int) (share : ChainShare) : Check ε Unit := do
  require (share.prevShareHash = zeroHash || v.store.has share.prevShareHash)
    (.parentNotFound (share.prevShareHash.bytes.take 8))
  require (share.time ≤ now + maxTimeFuture) (.timestampInFuture share.time)
  require (!tooFarBehind v.store share) .timestampBehindParent

/- Steps 5–7: the proof of work against the consensus target, and the declared target's bits. -/
def checkTarget (v : Validator) (sha : DoubleSHA256) (share : ChainShare) : Check ε Unit := do
  let expectedTarget := v.targetFunc share.prevShareHash
  require (share.meetsTarget sha expectedTarget) .targetNotMet
  let declared ← deref share.shareTarget
  let declaredBits := targetToCompact declared
  let expectedBits := targetToCompact expectedTarget
  require (declaredBits = expectedBits) (.targetMismatch declaredBits expectedBits)

/- Steps 8–9, under `len(share.CoinbaseTx) > 0` whose `else` is the missing-coinbase reason: the
coinbase commits to the parent and pays the miner. -/
def checkCoinbase (v : Validator) (rules : CoinbaseRules ε O) (share : ChainShare) : Check ε Unit := do
  require (share.coinbaseTx ≠ []) .missingCoinbaseTx
  let committedHash ← wrap (rules.extractShareCommitment share.coinbaseTx) .commitmentExtractionFailed
  require (committedHash = share.prevShareHash)
    (.commitmentMismatch (committedHash.bytes.take 8) (share.prevShareHash.bytes.take 8))
  let outputs ← wrap (rules.parseCoinbaseOutputs share.coinbaseTx) .outputParsingFailed
  wrap (rules.validateMinerInOutputs outputs share.minerAddress v.network) .minerNotInOutputs

def Validator.validateShare (v : Validator) (rules : CoinbaseRules ε O) (sha : DoubleSHA256) (now : Int)
    (share : ChainShare) : Check ε Unit := do
  checkHeader v rules share
  checkParent v now share
  checkTarget v sha share
  checkCoinbase v rules share

/-! Runs of the check helpers: a run succeeds when every step does, and panics only where a step
panics after the steps before it succeeded. -/

section
variable {α β : Type}

@[simp] theorem bindOk (m : Check ε α) (f : α → Check ε β) (b : β) :
    (m >>= f).run = some (.ok b) ↔ ∃ a, m.run = some (.ok a) ∧ (f a).run = some (.ok b) := by
  rcases hm : m.run with _ | e | a <;> simp [ExceptT.run_bind, hm, ExceptT.bindCont]

@[simp] theorem bindNone (m : Check ε α) (f : α → Check ε β) :
    (m >>= f).run = none ↔ m.run = none ∨ ∃ a, m.run = some (.ok a) ∧ (f a).run = none := by
  rcases hm : m.run with _ | e | a <;> simp [ExceptT.run_bind, hm, ExceptT.bindCont]

@[simp] theorem requireOk (c : Bool) (r : Reason ε) (u : Unit) : (require c r).run = some (.ok u) ↔ c = true := by
  cases c <;> simp [require]

@[simp] theorem requireNone (c : Bool) (r : Reason ε) : (require c r).run ≠ none := by
  cases c <;> simp [require]

@[simp] theorem wrapOk (x : Except ε α) (r : ε → Reason ε) (a : α) : (wrap x r).run = some (.ok a) ↔ x = .ok a := by
  cases x <;> simp [wrap]

@[simp] theorem wrapNone (x : Except ε α) (r : ε → Reason ε) : (wrap x r).run ≠ none := by
  cases x <;> simp [wrap]

@[simp] theorem derefOk (p : Option α) (a : α) : (deref p : Check ε α).run = some (.ok a) ↔ p = some a := by
  cases p <;> simp [deref, ExceptT.lift]

@[simp] theorem derefNone (p : Option α) : (deref p : Check ε α).run = none ↔ p = none := by
  cases p <;> simp [deref, ExceptT.lift]

end

/- Everything an accepted share satisfies, in the order `ValidateShare` checks it. -/
structure Accepts (v : Validator) (rules : CoinbaseRules ε O) (sha : DoubleSHA256) (now : Int)
    (share : ChainShare) : Prop where
  version : share.shareVersion = 1
  addressSize : share.minerAddress.utf8ByteSize ≤ maxMinerAddressLen
  coinbaseSize : share.coinbaseTx.length ≤ maxCoinbaseTxSize
  addressPresent : share.minerAddress ≠ ""
  addressValid : rules.validateAddress share.minerAddress v.network = .ok ()
  parentKnown : share.prevShareHash ≠ zeroHash → v.store.has share.prevShareHash = true
  notInFuture : share.time ≤ now + maxTimeFuture
  notBehindParent : tooFarBehind v.store share = false
  powMet : share.meetsTarget sha (v.targetFunc share.prevShareHash) = true
  declaredBits : ∃ t, share.shareTarget = some t ∧
    targetToCompact t = targetToCompact (v.targetFunc share.prevShareHash)
  coinbasePresent : share.coinbaseTx ≠ []
  committed : rules.extractShareCommitment share.coinbaseTx = .ok share.prevShareHash
  minerPaid : ∃ outputs, rules.parseCoinbaseOutputs share.coinbaseTx = .ok outputs ∧
    rules.validateMinerInOutputs outputs share.minerAddress v.network = .ok ()

section
variable {v : Validator} {rules : CoinbaseRules ε O} {sha : DoubleSHA256} {now : Int} {share : ChainShare}

theorem checkHeaderOk (u : Unit) : (checkHeader v rules share).run = some (.ok u) ↔
    share.shareVersion = 1 ∧ share.minerAddress.utf8ByteSize ≤ maxMinerAddressLen ∧
      share.coinbaseTx.length ≤ maxCoinbaseTxSize ∧ share.minerAddress ≠ "" ∧
      rules.validateAddress share.minerAddress v.network = .ok () := by
  simp [checkHeader, -ExceptT.run_bind]

theorem checkParentOk (u : Unit) : (checkParent v now share : Check ε Unit).run = some (.ok u) ↔
    (share.prevShareHash ≠ zeroHash → v.store.has share.prevShareHash = true) ∧
      share.time ≤ now + maxTimeFuture ∧ tooFarBehind v.store share = false := by
  simp [checkParent, -ExceptT.run_bind, or_iff_not_imp_left]

theorem checkTargetOk (u : Unit) : (checkTarget v sha share : Check ε Unit).run = some (.ok u) ↔
    share.meetsTarget sha (v.targetFunc share.prevShareHash) = true ∧
      ∃ t, share.shareTarget = some t ∧ targetToCompact t = targetToCompact (v.targetFunc share.prevShareHash) := by
  simp [checkTarget, -ExceptT.run_bind]

theorem checkCoinbaseOk (u : Unit) : (checkCoinbase v rules share).run = some (.ok u) ↔
    share.coinbaseTx ≠ [] ∧ rules.extractShareCommitment share.coinbaseTx = .ok share.prevShareHash ∧
      ∃ outputs, rules.parseCoinbaseOutputs share.coinbaseTx = .ok outputs ∧
        rules.validateMinerInOutputs outputs share.minerAddress v.network = .ok () := by
  cases u
  simp only [checkCoinbase, bindOk, requireOk, wrapOk, exists_const, decide_eq_true_eq]
  constructor
  · rintro ⟨hne, a, ha, rfl, o, ho, hm⟩
    exact ⟨hne, ha, o, ho, hm⟩
  · rintro ⟨hne, ha, o, ho, hm⟩
    exact ⟨hne, _, ha, rfl, o, ho, hm⟩

theorem checkHeaderNone : (checkHeader v rules share).run ≠ none := by
  simp [checkHeader, -ExceptT.run_bind]

theorem checkParentNone : (checkParent v now share : Check ε Unit).run ≠ none := by
  simp [checkParent, -ExceptT.run_bind]

theorem checkTargetNone : (checkTarget v sha share : Check ε Unit).run = none ↔
    share.meetsTarget sha (v.targetFunc share.prevShareHash) = true ∧ share.shareTarget = none := by
  simp [checkTarget, -ExceptT.run_bind]

theorem checkCoinbaseNone : (checkCoinbase v rules share).run ≠ none := by
  simp [checkCoinbase, -ExceptT.run_bind]

theorem validateShareOk :
    (v.validateShare rules sha now share).run = some (.ok ()) ↔ Accepts v rules sha now share := by
  simp only [Validator.validateShare, bindOk, checkHeaderOk, checkParentOk, checkTargetOk, checkCoinbaseOk,
    exists_const]
  exact ⟨fun ⟨⟨h1, h2, h3, h4, h5⟩, ⟨h6, h7, h8⟩, ⟨h9, h10⟩, h11, h12, h13⟩ =>
      ⟨h1, h2, h3, h4, h5, h6, h7, h8, h9, h10, h11, h12, h13⟩,
    fun ⟨h1, h2, h3, h4, h5, h6, h7, h8, h9, h10, h11, h12, h13⟩ =>
      ⟨⟨h1, h2, h3, h4, h5⟩, ⟨h6, h7, h8⟩, ⟨h9, h10⟩, h11, h12, h13⟩⟩

/- The one panic of `ValidateShare`: a share without a `ShareTarget` that passes every check
before step 7 reaches `TargetToCompact(nil)`. Every other share gets an answer. -/
theorem validateSharePanics :
    (v.validateShare rules sha now share).run = none ↔
      (checkHeader v rules share).run = some (.ok ()) ∧ (checkParent v now share : Check ε Unit).run = some (.ok ()) ∧
        share.meetsTarget sha (v.targetFunc share.prevShareHash) = true ∧ share.shareTarget = none := by
  simp only [Validator.validateShare, bindNone, checkHeaderNone, checkParentNone, checkTargetNone, checkCoinbaseNone,
    exists_const, false_or, and_false, or_false, Unique.exists_iff]

/- The clock enters only the bound on the future: a share accepted at one reading is accepted at
every later one. -/
theorem validateShareLater {now' : Int} (h : (v.validateShare rules sha now share).run = some (.ok ()))
    (hle : now ≤ now') : (v.validateShare rules sha now' share).run = some (.ok ()) := by
  rw [validateShareOk] at h ⊢
  exact { h with notInFuture := le_trans h.notInFuture (add_le_add_right hle _) }

theorem validateShareLaterGenesis :
    let v : Validator := ⟨⟨fun _ => true, fun _ => none⟩, fun _ => 1, ""⟩
    let rules : CoinbaseRules Unit Unit := ⟨fun _ _ => .ok (), fun _ => .ok zeroHash, fun _ => .ok (), fun _ _ _ => .ok ()⟩
    let sha : DoubleSHA256 := ⟨fun _ => List.replicate 32 0, fun _ => rfl⟩
    let share : ChainShare := ⟨⟨default, some 1, "a"⟩, 1, zeroHash, [0]⟩
    (v.validateShare rules sha 0 share).run = some (.ok ()) ∧ (0 : Int) ≤ 10 ^ 9 ∧
      (v.validateShare rules sha (10 ^ 9) share).run = some (.ok ()) := by
  intro v rules sha share
  have h : (v.validateShare rules sha 0 share).run = some (.ok ()) := validateShareOk.mpr
    { version := rfl, addressSize := by decide, coinbaseSize := by decide, addressPresent := by decide,
      addressValid := rfl, parentKnown := fun h => absurd rfl h, notInFuture := by decide,
      notBehindParent := by decide, powMet := by decide, declaredBits := ⟨1, rfl, rfl⟩,
      coinbasePresent := by decide, committed := rfl, minerPaid := ⟨(), rfl, rfl⟩ }
  exact ⟨h, by norm_num, validateShareLater h (by norm_num)⟩

/- Validation reads the store only at the parent's hash: stores that agree there give the same
answer. -/
theorem validateShareStoreLocal (store' : ShareStore)
    (hhas : store'.has share.prevShareHash = v.store.has share.prevShareHash)
    (hget : store'.get share.prevShareHash = v.store.get share.prevShareHash) :
    ({ v with store := store' } : Validator).validateShare rules sha now share = v.validateShare rules sha now share := by
  simp only [Validator.validateShare, checkParent, tooFarBehind, hhas, hget]
  rfl

theorem validateShareStoreLocalGenesis :
    let v : Validator := ⟨⟨fun h => decide (h = zeroHash), fun _ => none⟩, fun _ => 1, ""⟩
    let rules : CoinbaseRules Unit Unit := ⟨fun _ _ => .ok (), fun _ => .ok zeroHash, fun _ => .ok (), fun _ _ _ => .ok ()⟩
    let sha : DoubleSHA256 := ⟨fun _ => List.replicate 32 0, fun _ => rfl⟩
    let share : ChainShare := ⟨⟨default, some 1, "a"⟩, 1, zeroHash, [0]⟩
    let store' : ShareStore := ⟨fun _ => true, fun _ => none⟩
    store'.has share.prevShareHash = v.store.has share.prevShareHash ∧
      store'.get share.prevShareHash = v.store.get share.prevShareHash ∧
      ({ v with store := store' } : Validator).validateShare rules sha 0 share = v.validateShare rules sha 0 share := by
  intro v rules sha share store'
  have hhas : store'.has share.prevShareHash = v.store.has share.prevShareHash := by decide
  exact ⟨hhas, rfl, validateShareStoreLocal store' hhas rfl⟩

theorem derefSome {α : Type} (a : α) : (deref (some a) : Check ε α) = pure a := rfl

/- The declared target is checked only through its compact bits: any two declared targets with
the same bits give the same answer. -/
theorem validateShareDeclaredBits {t t' : Int} (ht : share.shareTarget = some t)
    (hbits : targetToCompact t' = targetToCompact t) :
    v.validateShare rules sha now { share with shareTarget := some t' } = v.validateShare rules sha now share := by
  simp only [Validator.validateShare, checkTarget, ht, derefSome, pure_bind, hbits]
  rfl

/- 2^24 and 2^24 + 1 differ only below the three bytes the compact form keeps. -/
theorem validateShareDeclaredBitsTruncated :
    let v : Validator := ⟨⟨fun _ => true, fun _ => none⟩, fun _ => 1, ""⟩
    let rules : CoinbaseRules Unit Unit := ⟨fun _ _ => .ok (), fun _ => .ok zeroHash, fun _ => .ok (), fun _ _ _ => .ok ()⟩
    let sha : DoubleSHA256 := ⟨fun _ => List.replicate 32 0, fun _ => rfl⟩
    let share : ChainShare := ⟨⟨default, some 16777217, "a"⟩, 1, zeroHash, [0]⟩
    share.shareTarget = some 16777217 ∧ targetToCompact 16777216 = targetToCompact 16777217 ∧
      v.validateShare rules sha 0 { share with shareTarget := some 16777216 } = v.validateShare rules sha 0 share := by
  intro v rules sha share
  have b0 : bigBytes 16777216 = [1, 0, 0, 0] := by simp [bigBytes]
  have b1 : bigBytes 16777217 = [1, 0, 0, 1] := by simp [bigBytes]
  have hbits : targetToCompact 16777216 = targetToCompact 16777217 := by
    rw [show (16777216 : Int) = ((16777216 : Nat) : Int) from rfl,
      show (16777217 : Int) = ((16777217 : Nat) : Int) from rfl, targetToCompactPos (by norm_num),
      targetToCompactPos (by norm_num), topMantissa, topMantissa, b0, b1]
    rfl
  exact ⟨rfl, hbits, validateShareDeclaredBits rfl hbits⟩

end

end P2Pool.Sharechain
