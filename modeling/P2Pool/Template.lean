import P2Pool.Merkle
import P2Pool.Types

/-! Share-submission reconstruction of `internal/work/template.go`: the coinbase split carried by a
job, the Stratum prevhash conversions, and `ReconstructHeader`. Errors keep the wrapping of the
source's `fmt.Errorf` calls as constructors. -/
namespace P2Pool.Template
open Util Hex Merkle Types

structure JobData where
  id : String
  seq : Nat
  prevBlockHash : String
  coinbase1 : String
  coinbase2 : String
  merkleBranches : List String
  nBits : String

inductive FieldError where
  | invalidHex (hexStr : String) (err : HexError)
  | wrongLength (expected got : Nat)
  deriving DecidableEq, Repr

inductive PrevHashError where
  | invalidHex (err : HexError)
  | wrongLength (got : Nat)
  deriving DecidableEq, Repr

inductive ReconstructError where
  | decodeCoinbaseHex (err : HexError)
  | computeMerkleRoot (err : MerkleError)
  | decodeVersion (err : FieldError)
  | decodePrevhash (err : PrevHashError)
  | decodeNtime (err : FieldError)
  | decodeNbits (err : FieldError)
  | decodeNonce (err : FieldError)
  deriving DecidableEq, Repr

inductive VerifyError where
  | headerTooShort (len : Nat)
  | invalidTxid (index : Nat) (err : HexError)
  | merkleRootMismatch (header expected coinbaseTxid : String) (txCount : Nat)
  deriving DecidableEq, Repr

/- `coinbaseTx[:extranonceOffset]` and `coinbaseTx[extranonceOffset+extranonceSize:]`; the second
slice panics past the end of the coinbase. -/
def splitCoinbase (coinbaseTx : Bytes) (extranonceOffset extranonceSize : Nat) : Option (String × String) :=
  if extranonceOffset + extranonceSize ≤ coinbaseTx.length then
    some (encodeToString (coinbaseTx.take extranonceOffset),
      encodeToString (coinbaseTx.drop (extranonceOffset + extranonceSize)))
  else none

def hexBEToLE (hexStr : String) (expectedLen : Nat) : Except FieldError Bytes :=
  match decodeString hexStr with
  | .error e => .error (.invalidHex hexStr e)
  | .ok b => if b.length ≠ expectedLen then .error (.wrongLength expectedLen b.length) else .ok (reverseBytes b)

/- `swapWords4` byte-swaps each whole 4-byte word in place; a short tail is left alone. -/
def swapWords4 : Bytes → Bytes
  | a :: b :: c :: d :: rest => d :: c :: b :: a :: swapWords4 rest
  | rest => rest

def displayToStratumPrevHash (displayHex : String) : Except PrevHashError String :=
  match decodeString displayHex with
  | .error e => .error (.invalidHex e)
  | .ok b => if b.length ≠ 32 then .error (.wrongLength b.length) else .ok (encodeToString (swapWords4 (reverseBytes b)))

def stratumPrevHashToInternal (stratumHex : String) : Except PrevHashError Bytes :=
  match decodeString stratumHex with
  | .error e => .error (.invalidHex e)
  | .ok b => if b.length ≠ 32 then .error (.wrongLength b.length) else .ok (swapWords4 b)

def reconstructHeader (sha : DoubleSHA256) (job : JobData)
    (version extranonce1 extranonce2 ntime nonce : String) : Except ReconstructError (Bytes × Bytes) := do
  let coinbaseHex := job.coinbase1 ++ extranonce1 ++ extranonce2 ++ job.coinbase2
  let coinbaseBytes ← (decodeString coinbaseHex).mapError .decodeCoinbaseHex
  let coinbaseHash := sha.sum coinbaseBytes
  let merkleRoot ← (computeMerkleRoot sha.sum coinbaseHash job.merkleBranches).mapError .computeMerkleRoot
  let versionBytes ← (hexBEToLE version 4).mapError .decodeVersion
  let prevHashBytes ← (stratumPrevHashToInternal job.prevBlockHash).mapError .decodePrevhash
  let ntimeBytes ← (hexBEToLE ntime 4).mapError .decodeNtime
  let nbitsBytes ← (hexBEToLE job.nBits 4).mapError .decodeNbits
  let nonceBytes ← (hexBEToLE nonce 4).mapError .decodeNonce
  return (layHeader versionBytes prevHashBytes merkleRoot ntimeBytes nbitsBytes nonceBytes, coinbaseBytes)

/- The txid loop of `VerifyMerkleRoot`: each display-order txid is decoded and reversed to
internal order. -/
def decodeTxids : Nat → List TemplateTransaction → Except VerifyError (List Bytes)
  | _, [] => .ok []
  | i, tx :: rest =>
    match decodeString tx.txID with
    | .error e => .error (.invalidTxid i e)
    | .ok b => (decodeTxids (i + 1) rest).map (reverseBytes b :: ·)

def verifyMerkleRoot (sha : DoubleSHA256) (header coinbase : Bytes) (tmpl : BlockTemplate) :
    Except VerifyError Unit :=
  if header.length < 68 then .error (.headerTooShort header.length) else
  let headerMerkleRoot := (header.drop 36).take 32
  let cbHash := sha.sum coinbase
  match decodeTxids 0 tmpl.transactions with
  | .error e => .error e
  | .ok txids =>
    let expectedRoot := computeFullMerkleRoot sha.sum (cbHash :: txids)
    if headerMerkleRoot ≠ expectedRoot then
      .error (.merkleRootMismatch (encodeToString headerMerkleRoot) (encodeToString expectedRoot)
        (encodeToString cbHash) tmpl.transactions.length)
    else .ok ()

theorem bindOk {ε α β : Type} {x : Except ε α} {f : α → Except ε β} {r : β}
    (h : (x >>= f) = .ok r) : ∃ a, x = .ok a ∧ f a = .ok r := by
  cases x with
  | error e => cases h
  | ok a => exact ⟨a, rfl, h⟩

theorem mapErrorOk {ε ε' α : Type} {x : Except ε α} {g : ε → ε'} {a : α}
    (h : x.mapError g = .ok a) : x = .ok a := by
  cases x with
  | error e => cases h
  | ok b => cases h; rfl

/- A step `v, err := f(); if err != nil { return fmt.Errorf(...) }` of a run that succeeded. -/
theorem bindMapErrorOk {ε ε' α β : Type} {x : Except ε α} {g : ε → ε'} {f : α → Except ε' β} {r : β}
    (h : (x.mapError g >>= f) = .ok r) : ∃ a, x = .ok a ∧ f a = .ok r := by
  obtain ⟨a, ha, hf⟩ := bindOk h
  exact ⟨a, mapErrorOk ha, hf⟩

theorem hexBEToLEOk {s : String} {n : Nat} {b : Bytes} (h : hexBEToLE s n = .ok b) :
    ∃ d, decodeString s = .ok d ∧ d.length = n ∧ b = reverseBytes d := by
  unfold hexBEToLE at h
  split at h
  · cases h
  · split_ifs at h with hl
    cases h
    exact ⟨_, ‹_›, by omega, rfl⟩

theorem stratumPrevHashToInternalOk {s : String} {b : Bytes} (h : stratumPrevHashToInternal s = .ok b) :
    ∃ d, decodeString s = .ok d ∧ d.length = 32 ∧ b = swapWords4 d := by
  unfold stratumPrevHashToInternal at h
  split at h
  · cases h
  · split_ifs at h with hl
    cases h
    exact ⟨_, ‹_›, by omega, rfl⟩

theorem hexBEToLELength {s : String} {n : Nat} {b : Bytes} (h : hexBEToLE s n = .ok b) : b.length = n := by
  obtain ⟨d, -, hl, rfl⟩ := hexBEToLEOk h
  simpa [reverseBytes] using hl

@[simp] theorem swapWords4Length (b : Bytes) : (swapWords4 b).length = b.length := by
  induction b using swapWords4.induct <;> simp_all [swapWords4]

theorem stratumPrevHashToInternalLength {s : String} {b : Bytes} (h : stratumPrevHashToInternal s = .ok b) :
    b.length = 32 := by
  obtain ⟨d, -, hl, rfl⟩ := stratumPrevHashToInternalOk h
  simpa using hl

theorem computeMerkleRootLength (sha : DoubleSHA256) {c r : Bytes} {branches : List String}
    (h : computeMerkleRoot sha.sum c branches = .ok r) (hc : c.length = 32) : r.length = 32 := by
  induction branches generalizing c with
  | nil => cases h; exact hc
  | cons branch rest ih =>
    simp only [computeMerkleRoot, List.foldlM] at h
    obtain ⟨c', hstep, hrest⟩ := bindOk h
    split at hstep
    · cases hstep
    · cases hstep; exact ih hrest (sha.sumLength _)

/- Everything `ReconstructHeader` decoded on its way to a header, and the header laid out from it. -/
theorem reconstructHeaderOk {sha : DoubleSHA256} {job : JobData}
    {version extranonce1 extranonce2 ntime nonce : String} {header coinbase : Bytes}
    (h : reconstructHeader sha job version extranonce1 extranonce2 ntime nonce = .ok (header, coinbase)) :
    ∃ root versionBytes prevHashBytes ntimeBytes nbitsBytes nonceBytes,
      decodeString (job.coinbase1 ++ extranonce1 ++ extranonce2 ++ job.coinbase2) = .ok coinbase ∧
      computeMerkleRoot sha.sum (sha.sum coinbase) job.merkleBranches = .ok root ∧
      hexBEToLE version 4 = .ok versionBytes ∧
      stratumPrevHashToInternal job.prevBlockHash = .ok prevHashBytes ∧
      hexBEToLE ntime 4 = .ok ntimeBytes ∧ hexBEToLE job.nBits 4 = .ok nbitsBytes ∧
      hexBEToLE nonce 4 = .ok nonceBytes ∧
      header = versionBytes ++ prevHashBytes ++ root ++ ntimeBytes ++ nbitsBytes ++ nonceBytes := by
  simp only [reconstructHeader] at h
  obtain ⟨cb, hcb, h⟩ := bindMapErrorOk h
  obtain ⟨root, hroot, h⟩ := bindMapErrorOk h
  obtain ⟨vb, hvb, h⟩ := bindMapErrorOk h
  obtain ⟨pb, hpb, h⟩ := bindMapErrorOk h
  obtain ⟨tb, htb, h⟩ := bindMapErrorOk h
  obtain ⟨bb, hbb, h⟩ := bindMapErrorOk h
  obtain ⟨nb, hnb, h⟩ := bindMapErrorOk h
  obtain ⟨rfl, rfl⟩ := Prod.mk.inj (Except.ok.inj h)
  exact ⟨root, _, _, _, _, _, hcb, hroot, hvb, hpb, htb, hbb, hnb,
    layHeaderEq (hexBEToLELength hvb) (stratumPrevHashToInternalLength hpb)
      (computeMerkleRootLength sha hroot (sha.sumLength _)) (hexBEToLELength htb) (hexBEToLELength hbb)
      (hexBEToLELength hnb)⟩

/- Bytes 36..68 of a reconstructed header hold the root folded from the coinbase txid. -/
theorem reconstructHeaderRoot {sha : DoubleSHA256} {job : JobData}
    {version extranonce1 extranonce2 ntime nonce : String} {header coinbase : Bytes}
    (h : reconstructHeader sha job version extranonce1 extranonce2 ntime nonce = .ok (header, coinbase)) :
    header.length = 80 ∧
      computeMerkleRoot sha.sum (sha.sum coinbase) job.merkleBranches = .ok ((header.drop 36).take 32) := by
  obtain ⟨root, vb, pb, tb, bb, nb, -, hroot, hvb, hpb, htb, hbb, hnb, rfl⟩ := reconstructHeaderOk h
  have lv := hexBEToLELength hvb
  have lp := stratumPrevHashToInternalLength hpb
  have lr := computeMerkleRootLength sha hroot (sha.sumLength _)
  simp [lv, lp, lr, hexBEToLELength htb, hexBEToLELength hbb, hexBEToLELength hnb, hroot,
    List.drop_append_eq_append_drop, List.take_append_eq_append_take]

theorem decodeTxidsOfValid (i : Nat) {txs : List TemplateTransaction}
    (h : ∀ tx ∈ txs, ∃ b, decodeString tx.txID = .ok b) :
    decodeTxids i txs = .ok (txs.map fun tx => reverseBytes (decode tx.txID.toList).1) := by
  induction txs generalizing i with
  | nil => rfl
  | cons tx rest ih =>
    obtain ⟨b, hb⟩ := h tx (List.mem_cons_self _ _)
    rw [decodeTxids, hb, ih _ fun t ht => h t (List.mem_cons_of_mem _ ht), List.map_cons,
      decodeOfDecodeString hb]
    rfl

/- The pre-submit check passes exactly when the header is long enough, every txid decodes, and
bytes 36..68 of the header are the full-tree root over the coinbase txid and the template's. -/
theorem verifyMerkleRootOk {sha : DoubleSHA256} {header coinbase : Bytes} {tmpl : BlockTemplate} :
    verifyMerkleRoot sha header coinbase tmpl = .ok () ↔ 68 ≤ header.length ∧
      ∃ txids, decodeTxids 0 tmpl.transactions = .ok txids ∧
        (header.drop 36).take 32 = computeFullMerkleRoot sha.sum (sha.sum coinbase :: txids) := by
  unfold verifyMerkleRoot
  split_ifs with hl
  · simp only [reduceCtorEq, false_iff, not_and]; omega
  · split
    · rename_i e he
      simp only [reduceCtorEq, false_iff, not_and, not_exists]
      intro _ txids h; rw [he] at h; cases h
    · rename_i txids ht
      dsimp only
      split_ifs with hne
      · simp only [reduceCtorEq, false_iff, not_and, not_exists]
        intro _ txids' h; rw [ht] at h; cases h; exact hne
      · simp only [true_iff]
        exact ⟨by omega, txids, ht, not_not.mp hne⟩

theorem swapWords4Involutive (b : Bytes) : swapWords4 (swapWords4 b) = b := by
  induction b using swapWords4.induct with
  | case1 a b c d rest ih => simp [swapWords4, ih]
  | case2 rest h => rw [swapWords4.eq_2 _ h, swapWords4.eq_2 _ h]

/- Stratum's prevhash is the internal order with each word byte-swapped; swapping back undoes it. -/
theorem prevHashRoundTrip {d stratum : String} (h : displayToStratumPrevHash d = .ok stratum) :
    ∃ disp, decodeString d = .ok disp ∧ disp.length = 32 ∧
      stratumPrevHashToInternal stratum = .ok (reverseBytes disp) := by
  unfold displayToStratumPrevHash at h
  split at h
  · cases h
  · rename_i disp hd
    split_ifs at h with hl
    cases h
    have hlen : (swapWords4 (reverseBytes disp)).length = 32 := by simp [reverseBytes]; omega
    refine ⟨disp, hd, by omega, ?_⟩
    simp [stratumPrevHashToInternal, decodeStringEncode, hlen, swapWords4Involutive]

/- The `uint32` whose big-endian bytes a hex string spells: the value a header field written by
`hexBEToLE` carries. -/
def be32 (s : String) : UInt32 := UInt32.ofNat (readBE (decode s.toList).1)

theorem hexBEToLEBe32 {s : String} {b : Bytes} (h : hexBEToLE s 4 = .ok b) : putUint32 (be32 s) = b := by
  obtain ⟨d, hd, hl, rfl⟩ := hexBEToLEOk h
  rw [be32, decodeOfDecodeString hd]
  match d, hl with
  | [d0, d1, d2, d3], _ => exact putUint32ReadBE d0 d1 d2 d3

/- The header `ReconstructHeader` lays out is the serialization of the share header whose fields
are the submitted big-endian words, the display prevhash reversed, and the branch-folded root. -/
theorem reconstructHeaderIsShareHeader {sha : DoubleSHA256} {job : JobData} {d : String}
    {version extranonce1 extranonce2 ntime nonce : String} {header coinbase : Bytes}
    (hprev : displayToStratumPrevHash d = .ok job.prevBlockHash)
    (h : reconstructHeader sha job version extranonce1 extranonce2 ntime nonce = .ok (header, coinbase)) :
    ∃ (disp : Bytes) (prev root : Hash32),
      decodeString d = .ok disp ∧ prev.bytes = reverseBytes disp ∧
      stratumPrevHashToInternal job.prevBlockHash = .ok (reverseBytes disp) ∧
      computeMerkleRoot sha.sum (sha.sum coinbase) job.merkleBranches = .ok root.bytes ∧
      header = ShareHeader.serialize
        { version := int32OfUint32 (be32 version), prevBlockHash := prev, merkleRoot := root,
          timestamp := be32 ntime, bits := be32 job.nBits, nonce := be32 nonce } := by
  obtain ⟨root, vb, pb, tb, bb, nb, _, hroot, hvb, hpb, htb, hbb, hnb, rfl⟩ := reconstructHeaderOk h
  obtain ⟨disp, hd, hl, hs⟩ := prevHashRoundTrip hprev
  have hpb : pb = reverseBytes disp := Except.ok.inj (hpb.symm.trans hs)
  refine ⟨disp, ⟨reverseBytes disp, by simpa [reverseBytes] using hl⟩,
    ⟨root, computeMerkleRootLength sha hroot (sha.sumLength _)⟩, hd, rfl, hs, hroot, ?_⟩
  rw [serializeEq]
  simp only [uint32OfInt32, hexBEToLEBe32 hvb, hexBEToLEBe32 htb, hexBEToLEBe32 hbb,
    hexBEToLEBe32 hnb, hpb]

set_option maxRecDepth 4000 in
theorem reconstructHeaderIsShareHeaderExample :
    let sha : DoubleSHA256 := ⟨fun b => (List.range 32).map fun i =>
      b.foldl (fun acc x => acc * 31 + (x ^^^ UInt8.ofNat i)) 0, fun _ => by simp⟩
    let d := "000102030405060708090a0b0c0d0e0f101112131415161718191a1b1c1d1e1f"
    let job : JobData :=
      { id := "", seq := 0, prevBlockHash := "1c1d1e1f18191a1b14151617101112130c0d0e0f08090a0b0405060700010203",
        coinbase1 := "aa", coinbase2 := "bb",
        merkleBranches := ["202122232425262728292a2b2c2d2e2f303132333435363738393a3b3c3d3e3f"], nBits := "1d00ffff" }
    displayToStratumPrevHash d = .ok job.prevBlockHash ∧
      ∃ header coinbase, reconstructHeader sha job "20000000" "01" "02" "5f5e1000" "0000abcd" = .ok (header, coinbase) ∧
        ∃ (disp : Bytes) (prev root : Hash32),
          decodeString d = .ok disp ∧ prev.bytes = reverseBytes disp ∧
          stratumPrevHashToInternal job.prevBlockHash = .ok (reverseBytes disp) ∧
          computeMerkleRoot sha.sum (sha.sum coinbase) job.merkleBranches = .ok root.bytes ∧
          header = ShareHeader.serialize
            { version := int32OfUint32 (be32 "20000000"), prevBlockHash := prev, merkleRoot := root,
              timestamp := be32 "5f5e1000", bits := be32 job.nBits, nonce := be32 "0000abcd" } := by
  intro sha d job
  have hprev : displayToStratumPrevHash d = .ok job.prevBlockHash := rfl
  obtain ⟨header, coinbase, h⟩ : ∃ header coinbase,
      reconstructHeader sha job "20000000" "01" "02" "5f5e1000" "0000abcd" = .ok (header, coinbase) := ⟨_, _, rfl⟩
  exact ⟨hprev, header, coinbase, h, reconstructHeaderIsShareHeader hprev h⟩

theorem splitCoinbaseSome {cb : Bytes} {o k : Nat} {c1 c2 : String}
    (h : splitCoinbase cb o k = some (c1, c2)) :
    c1 = encodeToString (cb.take o) ∧ c2 = encodeToString (cb.drop (o + k)) := by
  unfold splitCoinbase at h
  split_ifs at h
  cases h
  exact ⟨rfl, rfl⟩

/- The coinbase `ReconstructHeader` decodes is the template's coinbase with the submitted
extranonce written over the reserved bytes. -/
theorem reconstructCoinbaseSplice {sha : DoubleSHA256} {job : JobData} {cb : Bytes} {o k : Nat}
    {version e1 e2 ntime nonce : String} {header coinbase : Bytes}
    (hsplit : splitCoinbase cb o k = some (job.coinbase1, job.coinbase2))
    (hlen : (e1 ++ e2).length = 2 * k) (hhex : ∀ c ∈ (e1 ++ e2).toList, IsHexDigit c)
    (h : reconstructHeader sha job version e1 e2 ntime nonce = .ok (header, coinbase)) :
    ∃ ext, decodeString (e1 ++ e2) = .ok ext ∧ ext.length = k ∧
      coinbase = cb.take o ++ ext ++ cb.drop (o + k) ∧ (ext = (cb.drop o).take k → coinbase = cb) := by
  obtain ⟨_, _, _, _, _, _, hcb, -⟩ := reconstructHeaderOk h
  obtain ⟨h1, h2⟩ := splitCoinbaseSome hsplit
  obtain ⟨ext, hext, hl⟩ := decodeOfHexDigits (e1 ++ e2).toList (by rw [toListLength]; omega) hhex
  have hall : decode (job.coinbase1 ++ e1 ++ e2 ++ job.coinbase2).toList =
      (cb.take o ++ ext ++ cb.drop (o + k), none) := by
    have hc2 := decodeEncodeAppend (cb.drop (o + k)) []
    rw [List.append_nil] at hc2
    rw [String.append_assoc, String.append_assoc, ← String.append_assoc e1, h1, h2, toListAppend,
      decodeEncodeAppend, toListAppend, decodeAppendOfOk hext, hc2]
    simp [decode]
  rw [decodeString, hall] at hcb
  cases hcb
  refine ⟨ext, decodeStringOfDecode hext, by rw [toListLength] at hl; omega, rfl, ?_⟩
  rintro rfl
  rw [List.append_assoc, ← List.drop_drop, List.take_append_drop, List.take_append_drop]

set_option maxRecDepth 2000 in
theorem reconstructCoinbaseSpliceExample :
    let sha : DoubleSHA256 := ⟨fun _ => List.replicate 32 0, fun _ => rfl⟩
    let job : JobData :=
      { id := "", seq := 0, prevBlockHash := "0000000000000000000000000000000000000000000000000000000000000000",
        coinbase1 := "01", coinbase2 := "03", merkleBranches := [], nBits := "00000000" }
    let cb : Bytes := [1, 2, 3]
    splitCoinbase cb 1 1 = some (job.coinbase1, job.coinbase2) ∧ ("a" ++ "b").length = 2 * 1 ∧
      (∀ c ∈ ("a" ++ "b").toList, IsHexDigit c) ∧
      reconstructHeader sha job "00000000" "a" "b" "00000000" "00000000" =
        .ok (List.replicate 80 0, [1, 0xab, 3]) ∧
      ∃ ext, decodeString ("a" ++ "b") = .ok ext ∧ ext.length = 1 ∧
        [1, 0xab, 3] = cb.take 1 ++ ext ++ cb.drop (1 + 1) ∧ (ext = (cb.drop 1).take 1 → [1, 0xab, 3] = cb) :=
  have hsplit : splitCoinbase [1, 2, 3] 1 1 = some ("01", "03") := rfl
  have hlen : ("a" ++ "b").length = 2 * 1 := rfl
  have hhex : ∀ c ∈ ("a" ++ "b").toList, IsHexDigit c := by decide
  have h : reconstructHeader ⟨fun _ => List.replicate 32 0, fun _ => rfl⟩
      { id := "", seq := 0, prevBlockHash := "0000000000000000000000000000000000000000000000000000000000000000", coinbase1 := "01",
        coinbase2 := "03", merkleBranches := [], nBits := "00000000" }
      "00000000" "a" "b" "00000000" "00000000" = .ok (List.replicate 80 0, [1, 0xab, 3]) := rfl
  ⟨hsplit, hlen, hhex, h, reconstructCoinbaseSplice hsplit hlen hhex h⟩

end P2Pool.Template
