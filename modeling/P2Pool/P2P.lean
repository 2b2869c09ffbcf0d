import P2Pool.Compact

/-! The byte form of big integers in the messages of `internal/p2p`: `BigIntToBytes` and
`BytesToBigInt`, with which `TipAnnounce` carries a chain's total work. `n.Bytes()` is the
big-endian form of the absolute value without leading zeros, which is `bigBytes`. -/
namespace P2Pool.P2P
open Util Compact

/- `BigIntToBytes`: no bytes for `nil`, else `n.Bytes()`. -/
def bigIntToBytes : Option Int → Bytes
  | none => []
  | some n => bigBytes n.natAbs

/- `BytesToBigInt`: zero for no bytes, else `SetBytes`, the bytes read big-endian as a
nonnegative number. -/
def bytesToBigInt (b : Bytes) : Int := if b.length = 0 then 0 else readBE b

theorem bytesToBigIntEq (b : Bytes) : bytesToBigInt b = readBE b := by
  unfold bytesToBigInt
  split_ifs with h
  · rw [List.length_eq_zero.mp h]
    rfl
  · rfl

theorem readBEZeroCons (b : Bytes) : readBE (0 :: b) = readBE b := by
  simp [readBE]

/- Leading zero bytes add nothing to the value. -/
theorem readBEDropZeros : ∀ b : Bytes, readBE (b.dropWhile (· == 0)) = readBE b
  | [] => rfl
  | x :: b => by
    by_cases hx : x = 0
    · subst hx
      rw [List.dropWhile_cons_of_pos (by decide), readBEDropZeros b, readBEZeroCons]
    · rw [List.dropWhile_cons_of_neg (by simpa using hx)]

theorem headDropZeros (b : Bytes) : ∀ x ∈ (b.dropWhile (· == 0)).head?, x ≠ 0 := by
  intro x hx h0
  have := List.head?_dropWhile_not (· == 0) b
  rw [Option.mem_def.mp hx] at this
  simp [h0] at this

/- Bytes without a leading zero are the big-endian digits of their value. -/
theorem bigBytesCanonical {c : Bytes} (hc : ∀ x ∈ c.head?, x ≠ 0) : bigBytes (readBE c) = c := by
  have hlt : ∀ a ∈ c, a.toNat < 256 := fun a _ => a.toNat_lt
  have hc' : c = ((c.reverse.map UInt8.toNat).map UInt8.ofNat).reverse := by
    simp [List.map_map, Function.comp_def, ofNatToNat]
  conv_lhs => rw [hc', readBEDigits _ (by simpa using hlt)]
  rw [bigBytes, Nat.digits_ofDigits _ (by norm_num) _ (by simpa using hlt) ?_, ← hc']
  intro hne
  have hc0 : c ≠ [] := by simpa using hne
  rw [List.getLast_map, List.getLast_reverse]
  exact fun h0 => hc _ (List.head?_eq_head hc0) (UInt8.toNat.inj h0)

/- The codec of `BigIntToBytes` and `BytesToBigInt`: a big integer comes back as its absolute
value, so a nonnegative one (a total work) round trips and a negative one loses its sign, and
`nil` comes back as zero; bytes come back without their leading zero bytes, so the encoding of a
number is the only byte string without them that decodes to it. -/
theorem bigIntBytesCodec :
    (∀ n : Int, bytesToBigInt (bigIntToBytes (some n)) = |n|) ∧ bytesToBigInt (bigIntToBytes none) = 0 ∧
      ∀ b : Bytes, bigIntToBytes (some (bytesToBigInt b)) = b.dropWhile (· == 0) := by
  refine ⟨fun n => ?_, rfl, fun b => ?_⟩
  · rw [bigIntToBytes, bytesToBigIntEq, readBEBigBytes, Int.natCast_natAbs]
  · rw [bytesToBigIntEq, bigIntToBytes, Int.natAbs_ofNat, ← readBEDropZeros, bigBytesCanonical (headDropZeros b)]

end P2Pool.P2P
