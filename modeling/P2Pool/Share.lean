import P2Pool.Compact
import P2Pool.Types

/-! Share hashing and the proof-of-work checks of `internal/types`, with the hash helpers of
`pkg/util` they call. A hash meets a target when, read as a little-endian 256-bit number, it is at
most the target; its display form is the byte reversal in hex. -/
namespace P2Pool.Util
open Hex Types

def hashToHex (hash : Hash32) : String := encodeToString (reverseBytes hash.bytes)

/- `util.HexToHash`: decoding errors pass through, a decoded string of another length is
`hex.ErrLength`. -/
def hexToHash (s : String) : Except HexError Hash32 :=
  match decodeString s with
  | .error e => .error e
  | .ok b =>
    if h : b.length ≠ 32 then .error .errLength
    else .ok ⟨reverseBytes b, by rw [reverseBytes, List.length_reverse]; exact not_not.mp h⟩

/- `new(big.Int).SetBytes(ReverseBytes(hash[:]))`. -/
def hashValue (hash : Hash32) : Nat := readBE (reverseBytes hash.bytes)

def hashMeetsTarget (hash : Hash32) (target : Int) : Bool := decide ((hashValue hash : Int) ≤ target)

theorem hash32Ext {a b : Hash32} (h : a.bytes = b.bytes) : a = b := by
  cases a; cases b; cases h; rfl

instance : DecidableEq Hash32 := fun a b =>
  decidable_of_iff (a.bytes = b.bytes) ⟨hash32Ext, fun h => h ▸ rfl⟩

theorem hexToHashToHex (hash : Hash32) : hexToHash (hashToHex hash) = .ok hash := by
  have hl : (reverseBytes hash.bytes).length = 32 := by rw [reverseBytes, List.length_reverse, hash.length]
  simp only [hexToHash, hashToHex, decodeStringEncode, hl, ne_eq, not_true_eq_false, dite_false]
  exact congrArg Except.ok (hash32Ext (List.reverse_reverse _))

@[simp] theorem hashMeetsTargetIff (hash : Hash32) (target : Int) :
    hashMeetsTarget hash target = true ↔ (hashValue hash : Int) ≤ target := decide_eq_true_iff

end P2Pool.Util

namespace P2Pool.Types
open Util Compact

def ShareHeader.hash (sha : DoubleSHA256) (h : ShareHeader) : Hash32 :=
  ⟨sha.sum h.serialize, sha.sumLength _⟩

/- `Share.Hash` caches the header hash; the cache only ever holds that value. -/
def Share.hash (sha : DoubleSHA256) (s : Share) : Hash32 := s.header.hash sha

/- `Share.Time`: `time.Unix(int64(Timestamp), 0)`, in nanoseconds since the epoch. -/
def Share.time (s : Share) : Int := (s.header.timestamp.toNat : Int) * 10 ^ 9

def Share.meetsTarget (sha : DoubleSHA256) (s : Share) (target : Int) : Bool :=
  hashMeetsTarget (s.hash sha) target

def Share.meetsShareTarget (sha : DoubleSHA256) (s : Share) : Bool :=
  match s.shareTarget with
  | none => false
  | some t => s.meetsTarget sha t

def Share.meetsBitcoinTarget (sha : DoubleSHA256) (s : Share) : Bool :=
  s.meetsTarget sha (compactToTarget s.header.bits)

def Share.isBlock (sha : DoubleSHA256) (s : Share) : Bool := s.meetsBitcoinTarget sha

def Share.hashHex (sha : DoubleSHA256) (s : Share) : String := hashToHex (s.hash sha)

end P2Pool.Types
