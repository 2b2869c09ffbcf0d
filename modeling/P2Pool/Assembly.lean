import P2Pool.Template
import P2Pool.VarInt

/-! Job and block assembly of `internal/work/template.go`: `BuildJobFromTemplate`, which turns a
block template into the job miners are sent, and `ReconstructBlock`, which serializes a solved
header with its transactions for `submitblock`. The coinbase builder of `types` and
`AddCoinbaseWitness` are outside the modelled sources and are parameters. -/
namespace P2Pool.Template
open Util Hex Merkle Types VarInt

/- `types.BuildShareCommitment` and `BuildCoinbase` of `NewCoinbaseBuilder(network)`: the
coinbase and the offset of its extranonce placeholder. -/
structure CoinbaseBuilder (ε : Type) where
  buildShareCommitment : Hash32 → Bytes
  buildCoinbase : String → Int → Bytes → List PayoutEntry → String → Nat → Except ε (Bytes × Nat)

/- The builder places the `extranonceSize` bytes of the placeholder inside the coinbase it
returns, which is what `SplitCoinbase` slices around. -/
def CoinbaseBuilder.KeepsPlaceholder {ε : Type} (builder : CoinbaseBuilder ε) (extranonceSize : Nat) : Prop :=
  ∀ network height commitment payouts witness coinbaseTx offset,
    builder.buildCoinbase network height commitment payouts witness extranonceSize = .ok (coinbaseTx, offset) →
      offset + extranonceSize ≤ coinbaseTx.length

/- The `fmt.Errorf` wrappings of `BuildJobFromTemplate`. -/
inductive BuildJobError (ε : Type) where
  | buildCoinbase (err : ε)
  | computeMerkleBranches (err : MerkleError)
  | convertPrevhash (err : PrevHashError)

variable {ε : Type}

/- `BuildJobFromTemplate`; `none` is the panic of `SplitCoinbase` on an offset past the coinbase.
`Seq` keeps its zero value: `GenerateJob` sets it. -/
def buildJobFromTemplate (sha : DoubleSHA256) (builder : CoinbaseBuilder ε) (jobID : String)
    (tmpl : BlockTemplateData) (payouts : List PayoutEntry) (prevShareHash : Hash32) (extranonceSize : Nat) :
    Option (Except (BuildJobError ε) JobData) :=
  match builder.buildCoinbase tmpl.network tmpl.height (builder.buildShareCommitment prevShareHash) payouts
      tmpl.witnessCommitment extranonceSize with
  | .error e => some (.error (.buildCoinbase e))
  | .ok (coinbaseTx, extranonceOffset) =>
    (splitCoinbase coinbaseTx extranonceOffset extranonceSize).map fun (coinbase1, coinbase2) =>
      match computeMerkleBranches sha.sum tmpl.txHashes with
      | .error e => .error (.computeMerkleBranches e)
      | .ok branches =>
        match displayToStratumPrevHash tmpl.prevBlockHash with
        | .error e => .error (.convertPrevhash e)
        | .ok prevHashStratum => .ok ⟨jobID, 0, prevHashStratum, coinbase1, coinbase2, branches, tmpl.bits⟩

/- "decode template tx %s: %w". -/
inductive BlockError where
  | decodeTemplateTx (txID : String) (err : HexError)
  deriving DecidableEq, Repr

/- The transaction loop of `ReconstructBlock`: each template transaction's data is decoded and
appended to the buffer; the first that is not hex ends the call. -/
def writeTxs : Bytes → List TemplateTx → Except BlockError Bytes
  | buf, [] => .ok buf
  | buf, tx :: rest =>
    match decodeString tx.data with
    | .error e => .error (.decodeTemplateTx tx.txID e)
    | .ok txBytes => writeTxs (buf ++ txBytes) rest

/- `ReconstructBlock`: the header, the transaction count as a varint, the coinbase with its
witness (`types.AddCoinbaseWitness`), then the template's transactions, as hex. -/
def reconstructBlock (addCoinbaseWitness : Bytes → Bytes) (header coinbase : Bytes) (tmpl : RpcTemplate) :
    Except BlockError String :=
  let txCount := 1 + tmpl.transactions.length
  let buf := header ++ writeVarInt (UInt64.ofNat txCount) ++ addCoinbaseWitness coinbase
  (writeTxs buf tmpl.transactions).map encodeToString

section
variable {sha : DoubleSHA256} {builder : CoinbaseBuilder ε} {jobID : String} {tmpl : BlockTemplateData}
  {payouts : List PayoutEntry} {prevShareHash : Hash32} {extranonceSize : Nat}

/- What a job built from a template carries: the split of the builder's coinbase, the branches of
the template's hashes, the prevhash in Stratum order, the ID it was given and the template's bits. -/
theorem buildJobFromTemplateOk {job : JobData}
    (h : buildJobFromTemplate sha builder jobID tmpl payouts prevShareHash extranonceSize = some (.ok job)) :
    ∃ coinbaseTx offset, builder.buildCoinbase tmpl.network tmpl.height (builder.buildShareCommitment prevShareHash)
        payouts tmpl.witnessCommitment extranonceSize = .ok (coinbaseTx, offset) ∧
      splitCoinbase coinbaseTx offset extranonceSize = some (job.coinbase1, job.coinbase2) ∧
      computeMerkleBranches sha.sum tmpl.txHashes = .ok job.merkleBranches ∧
      displayToStratumPrevHash tmpl.prevBlockHash = .ok job.prevBlockHash ∧
      job.id = jobID ∧ job.seq = 0 ∧ job.nBits = tmpl.bits := by
  unfold buildJobFromTemplate at h
  split at h
  · cases h
  rename_i coinbaseTx offset hcb
  obtain ⟨⟨c1, c2⟩, hsplit, h⟩ := Option.map_eq_some'.mp h
  dsimp only at h
  split at h
  · cases h
  rename_i branches hbr
  split at h
  · cases h
  rename_i prev hprev
  cases h
  exact ⟨coinbaseTx, offset, hcb, hsplit, hbr, hprev, rfl, rfl, rfl⟩

/- With a builder that keeps its placeholder inside the coinbase, building a job never panics. -/
theorem buildJobFromTemplateSome (hb : builder.KeepsPlaceholder extranonceSize) :
    (buildJobFromTemplate sha builder jobID tmpl payouts prevShareHash extranonceSize).isSome := by
  unfold buildJobFromTemplate
  split
  · rfl
  rename_i coinbaseTx offset hcb
  rw [Option.isSome_map', splitCoinbase, if_pos (hb _ _ _ _ _ _ _ hcb)]
  rfl

end

theorem writeTxsOk {buf out : Bytes} {txs : List TemplateTx} :
    writeTxs buf txs = .ok out ↔
      ∃ decoded, List.Forall₂ (fun tx b => decodeString tx.data = .ok b) txs decoded ∧ out = buf ++ decoded.flatten := by
  induction txs generalizing buf with
  | nil => simp [writeTxs, eq_comm]
  | cons tx rest ih =>
    simp only [writeTxs]
    split
    · rename_i e he
      simp only [reduceCtorEq, false_iff, not_exists, not_and]
      rintro _ (_ | ⟨hb, -⟩)
      rw [he] at hb
      cases hb
    · rename_i b hb
      rw [ih]
      simp only [List.forall₂_cons_left_iff, hb, Except.ok.injEq]
      constructor
      · rintro ⟨decoded, hd, rfl⟩
        exact ⟨b :: decoded, ⟨b, decoded, rfl, hd, rfl⟩, by simp⟩
      · rintro ⟨_, ⟨b', decoded, rfl, hd, rfl⟩, rfl⟩
        exact ⟨decoded, hd, by simp⟩

theorem writeTxsError {buf : Bytes} {txs : List TemplateTx} {e : BlockError} (h : writeTxs buf txs = .error e) :
    ∃ pre tx post err, txs = pre ++ tx :: post ∧ (∀ t ∈ pre, ∃ b, decodeString t.data = .ok b) ∧
      decodeString tx.data = .error err ∧ e = .decodeTemplateTx tx.txID err := by
  induction txs generalizing buf with
  | nil => cases h
  | cons tx rest ih =>
    simp only [writeTxs] at h
    split at h
    · rename_i err herr
      cases h
      exact ⟨[], tx, rest, err, rfl, by simp, herr, rfl⟩
    · rename_i b hb
      obtain ⟨pre, t, post, err, rfl, hpre, ht, rfl⟩ := ih h
      exact ⟨tx :: pre, t, post, err, rfl, List.forall_mem_cons.mpr ⟨⟨b, hb⟩, hpre⟩, ht, rfl⟩

/- `ReconstructBlock` writes the header, the transaction count `1 + n` as a varint, the witness
coinbase and the template's transactions decoded in order. Read back, the varint after the header
is that count. It fails exactly at the first transaction whose data is not hex, naming its txid. -/
theorem reconstructBlockLayout (addCoinbaseWitness : Bytes → Bytes) (header coinbase : Bytes) (tmpl : RpcTemplate) :
    (∀ s, reconstructBlock addCoinbaseWitness header coinbase tmpl = .ok s ↔
      ∃ decoded, List.Forall₂ (fun tx b => decodeString tx.data = .ok b) tmpl.transactions decoded ∧
        s = encodeToString (header ++ writeVarInt (UInt64.ofNat (1 + tmpl.transactions.length)) ++
          addCoinbaseWitness coinbase ++ decoded.flatten)) ∧
    (∀ s, reconstructBlock addCoinbaseWitness header coinbase tmpl = .ok s →
      ∃ block, decodeString s = .ok block ∧ block.take header.length = header ∧
        readVarInt (block.drop header.length) = .ok (UInt64.ofNat (1 + tmpl.transactions.length),
          (writeVarInt (UInt64.ofNat (1 + tmpl.transactions.length))).length)) ∧
    ∀ e, reconstructBlock addCoinbaseWitness header coinbase tmpl = .error e →
      ∃ pre tx post err, tmpl.transactions = pre ++ tx :: post ∧ (∀ t ∈ pre, ∃ b, decodeString t.data = .ok b) ∧
        decodeString tx.data = .error err ∧ e = .decodeTemplateTx tx.txID err := by
  unfold reconstructBlock
  dsimp only
  cases hw : writeTxs (header ++ writeVarInt (UInt64.ofNat (1 + tmpl.transactions.length)) ++
      addCoinbaseWitness coinbase) tmpl.transactions with
  | error e' =>
    refine ⟨fun s => ⟨fun hs => (by cases hs), ?_⟩, fun s hs => (by cases hs), fun e he => ?_⟩
    · rintro ⟨decoded, hd, -⟩
      rw [writeTxsOk.mpr ⟨decoded, hd, rfl⟩] at hw
      cases hw
    · cases he
      exact writeTxsError hw
  | ok out =>
    obtain ⟨decoded, hd, rfl⟩ := writeTxsOk.mp hw
    refine ⟨fun s => ⟨fun hs => ⟨decoded, hd, (Except.ok.inj hs).symm⟩, ?_⟩, fun s hs => ?_, fun e he => by cases he⟩
    · rintro ⟨decoded', hd', rfl⟩
      rw [writeTxsOk.mpr ⟨decoded', hd', rfl⟩] at hw
      rw [Except.ok.inj hw]
      rfl
    · cases hs
      refine ⟨_, decodeStringEncode _, by simp, ?_⟩
      simp only [List.append_assoc, List.drop_left]
      exact readWriteVarInt _ _

end P2Pool.Template
