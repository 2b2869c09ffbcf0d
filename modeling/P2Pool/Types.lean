import P2Pool.Util

/-! The share and payout records of `internal/types`, with the 80-byte header serialization, and
the block template of `internal/bitcoin`. Of each record only the fields the modelled code reads
are kept. -/
namespace P2Pool.Types
open Util

structure Hash32 where
  bytes : Bytes
  length : bytes.length = 32

instance : Inhabited Hash32 := ⟨⟨List.replicate 32 0, rfl⟩⟩

structure ShareHeader where
  version : Int
  prevBlockHash : Hash32
  merkleRoot : Hash32
  timestamp : UInt32
  bits : UInt32
  nonce : UInt32
  deriving Inhabited

/- Go's `uint32(h.Version)` keeps the low 32 bits of the `int32`. -/
def uint32OfInt (v : Int) : UInt32 := UInt32.ofNat (v % 2 ^ 32).toNat

def int32OfUint32 (x : UInt32) : Int := if x.toNat < 2 ^ 31 then x.toNat else x.toNat - 2 ^ 32

theorem uint32OfInt32 (x : UInt32) : uint32OfInt (int32OfUint32 x) = x := by
  apply UInt32.ext
  have hx := x.toNat_lt
  show ((int32OfUint32 x % 2 ^ 32).toNat) % 2 ^ 32 = x.toNat
  unfold int32OfUint32
  split_ifs <;> omega

/- `copy(dst[off:off+n], src)`: the first `min n (len src)` bytes of `src` land at `off`. -/
def copyAt (dst : Bytes) (off n : Nat) (src : Bytes) : Bytes :=
  dst.take off ++ src.take (min n src.length) ++ dst.drop (off + min n src.length)

/- The 80-byte buffer that `ShareHeader.Serialize` and step 5 of `ReconstructHeader` fill: six
`copy` calls into `make([]byte, 80)`. -/
def layHeader (versionBytes prevHashBytes merkleRoot ntimeBytes nbitsBytes nonceBytes : Bytes) : Bytes :=
  let header : Bytes := List.replicate 80 0
  let header := copyAt header 0 4 versionBytes
  let header := copyAt header 4 32 prevHashBytes
  let header := copyAt header 36 32 merkleRoot
  let header := copyAt header 68 4 ntimeBytes
  let header := copyAt header 72 4 nbitsBytes
  copyAt header 76 4 nonceBytes

/- Every `copy` and `PutUint32` of `ShareHeader.Serialize` fills its whole subslice: the hash
fields are `[32]byte`. -/
def ShareHeader.serialize (h : ShareHeader) : Bytes :=
  let buf : Bytes := List.replicate 80 0
  let buf := copyAt buf 0 4 (putUint32 (uint32OfInt h.version))
  let buf := copyAt buf 4 32 h.prevBlockHash.bytes
  let buf := copyAt buf 36 32 h.merkleRoot.bytes
  let buf := copyAt buf 68 4 (putUint32 h.timestamp)
  let buf := copyAt buf 72 4 (putUint32 h.bits)
  copyAt buf 76 4 (putUint32 h.nonce)

structure Share where
  header : ShareHeader
  shareTarget : Option Int
  minerAddress : String

/- Of `bitcoin.BlockTemplate` the work path reads only the transactions, and of each of them
only the display-order txid. -/
structure TemplateTransaction where
  txID : String

structure BlockTemplate where
  transactions : List TemplateTransaction

structure PayoutEntry where
  address : String
  amount : Int
  deriving DecidableEq, Repr

/- `bitcoin.TemplateTransaction` with the raw `Data` that block assembly writes. -/
structure TemplateTx extends TemplateTransaction where
  data : String

/- `bitcoin.BlockTemplate` with every field the generator and block assembly read; the work path's
`BlockTemplate` is its projection to the txids. -/
structure RpcTemplate where
  previousBlockHash : String
  transactions : List TemplateTx
  bits : String
  height : Int
  defaultWitnessCommitment : String

def RpcTemplate.toBlockTemplate (t : RpcTemplate) : BlockTemplate :=
  ⟨t.transactions.map (·.toTemplateTransaction)⟩

/- `types.BlockTemplateData`, with the fields `BuildJobFromTemplate` reads. -/
structure BlockTemplateData where
  height : Int
  prevBlockHash : String
  bits : String
  witnessCommitment : String
  network : String
  txHashes : List String

@[simp] theorem putUint32Length (v : UInt32) : (putUint32 v).length = 4 := rfl

theorem copyAtExact {dst src : Bytes} {off n : Nat} (h : src.length = n) :
    copyAt dst off n src = dst.take off ++ src ++ dst.drop (off + n) := by
  rw [copyAt, h, Nat.min_self, List.take_of_length_le (l := src) (by omega)]

theorem copyAtAppend {pre mid post src : Bytes} {off n : Nat} (hpre : pre.length = off) (hmid : mid.length = n)
    (hsrc : src.length = n) : copyAt (pre ++ (mid ++ post)) off n src = pre ++ src ++ post := by
  subst hpre hmid
  rw [copyAtExact hsrc, List.take_left, List.drop_append, List.drop_left]

/- Filled with fields of the right lengths, the buffer is their concatenation. -/
theorem layHeaderEq {versionBytes prevHashBytes merkleRoot ntimeBytes nbitsBytes nonceBytes : Bytes}
    (lv : versionBytes.length = 4) (lp : prevHashBytes.length = 32) (lr : merkleRoot.length = 32)
    (lt : ntimeBytes.length = 4) (lb : nbitsBytes.length = 4) (ln : nonceBytes.length = 4) :
    layHeader versionBytes prevHashBytes merkleRoot ntimeBytes nbitsBytes nonceBytes =
      versionBytes ++ prevHashBytes ++ merkleRoot ++ ntimeBytes ++ nbitsBytes ++ nonceBytes := by
  have zeros : (List.replicate 80 0 : Bytes) = [] ++ (List.replicate 4 0 ++ (List.replicate 32 0 ++
      (List.replicate 32 0 ++ (List.replicate 4 0 ++ (List.replicate 4 0 ++ (List.replicate 4 0 ++ [])))))) := rfl
  simp only [layHeader]
  rw [zeros, copyAtAppend List.length_nil (List.length_replicate _ _) lv,
    copyAtAppend (by simp [lv]) (List.length_replicate _ _) lp,
    copyAtAppend (by simp [lv, lp]) (List.length_replicate _ _) lr,
    copyAtAppend (by simp [lv, lp, lr]) (List.length_replicate _ _) lt,
    copyAtAppend (by simp [lv, lp, lr, lt]) (List.length_replicate _ _) lb,
    copyAtAppend (by simp [lv, lp, lr, lt, lb]) (List.length_replicate _ _) ln, List.nil_append, List.append_nil]

theorem serializeEq (h : ShareHeader) :
    h.serialize = putUint32 (uint32OfInt h.version) ++ h.prevBlockHash.bytes ++ h.merkleRoot.bytes ++
      putUint32 h.timestamp ++ putUint32 h.bits ++ putUint32 h.nonce :=
  layHeaderEq rfl h.prevBlockHash.length h.merkleRoot.length rfl rfl rfl

end P2Pool.Types
