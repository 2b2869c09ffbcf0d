import Mathlib

/-! Byte primitives of `pkg/util`, with the parts of Go's `encoding/hex`, `encoding/binary`
and `int64` arithmetic that the work path and the payout code rely on. A `[]byte` is a list of
`UInt8`; a Go string of hex digits is a `String` holding one `Char` per byte. -/
namespace P2Pool.Util

abbrev Bytes := List UInt8

def reverseBytes (b : Bytes) : Bytes := b.reverse

/- `util.DoubleSHA256` is taken as given; the proofs use only its result type `[32]byte`. -/
structure DoubleSHA256 where
  sum : Bytes → Bytes
  sumLength : ∀ data, (sum data).length = 32

def readBE (b : Bytes) : Nat := b.foldl (fun acc v => acc * 256 + v.toNat) 0

/- `binary.LittleEndian.PutUint32`: byte `i` is `byte(v >> 8i)`. -/
def putUint32 (v : UInt32) : Bytes := [0, 1, 2, 3].map fun i => UInt8.ofNat (v.toNat / 256 ^ i)

theorem ofNatToNat (v : UInt8) : UInt8.ofNat v.toNat = v :=
  UInt8.ext (UInt8.toNat_ofNat_of_lt v.toNat_lt)

@[simp] theorem readBEAppendSingleton (b : Bytes) (v : UInt8) :
    readBE (b ++ [v]) = readBE b * 256 + v.toNat := by
  simp [readBE, List.foldl_append]

theorem readBEAppend (l r : Bytes) : readBE (l ++ r) = readBE l * 256 ^ r.length + readBE r := by
  induction r using List.reverseRecOn with
  | nil => simp [readBE]
  | append_singleton r v ih =>
    rw [← List.append_assoc, readBEAppendSingleton, readBEAppendSingleton, ih]
    simp only [List.length_append, List.length_singleton, pow_succ]
    ring

theorem uint8ToNatOfNat (n : Nat) : (UInt8.ofNat n).toNat = n % 256 := by
  simp [UInt8.toNat, UInt8.ofNat]

/- Little-endian output of a big-endian read is the byte reversal. -/
theorem putUint32ReadBE (a b c d : UInt8) :
    putUint32 (UInt32.ofNat (readBE [a, b, c, d])) = [d, c, b, a] := by
  have ha := a.toNat_lt
  have hb := b.toNat_lt
  have hc := c.toNat_lt
  have hd := d.toNat_lt
  have hn : (UInt32.ofNat (readBE [a, b, c, d])).toNat = readBE [a, b, c, d] :=
    Nat.mod_eq_of_lt (by simp [readBE]; omega)
  simp only [putUint32, hn, List.map_cons, List.map_nil, List.cons.injEq, and_true]
  refine ⟨?_, ?_, ?_, ?_⟩ <;> apply UInt8.ext <;> simp [readBE, uint8ToNatOfNat] <;> omega

theorem readBELt (b : Bytes) : readBE b < 256 ^ b.length := by
  induction b using List.reverseRecOn with
  | nil => simp [readBE]
  | append_singleton b v ih =>
    have hv := v.toNat_lt
    rw [readBEAppendSingleton, List.length_append, List.length_singleton, pow_succ]
    omega

/- `int64` addition and subtraction wrap around modulo `2^64`. -/
def int64Wrap (x : Int) : Int := (x + 2 ^ 63) % 2 ^ 64 - 2 ^ 63

def InInt64 (x : Int) : Prop := -2 ^ 63 ≤ x ∧ x < 2 ^ 63
instance (x : Int) : Decidable (InInt64 x) := by unfold InInt64; infer_instance

theorem int64WrapOfInRange {x : Int} (h : InInt64 x) : int64Wrap x = x := by
  unfold int64Wrap InInt64 at *; omega

theorem int64WrapAddWrap (x y : Int) : int64Wrap (int64Wrap x + y) = int64Wrap (x + y) := by
  unfold int64Wrap; omega

end P2Pool.Util

namespace P2Pool.Hex
open Util

inductive HexError where
  | invalidByte (c : Char)
  | errLength
  deriving DecidableEq, Repr

def hextable (n : Nat) : Char := if n < 10 then Char.ofNat (48 + n) else Char.ofNat (87 + n)

def encodeToString (b : Bytes) : String :=
  ⟨b.flatMap fun v => [hextable (v.toNat / 16), hextable (v.toNat % 16)]⟩

def fromHexChar (c : Char) : Option Nat :=
  if '0' ≤ c ∧ c ≤ '9' then some (c.toNat - 48)
  else if 'a' ≤ c ∧ c ≤ 'f' then some (c.toNat - 87)
  else if 'A' ≤ c ∧ c ≤ 'F' then some (c.toNat - 55)
  else none

/- `hex.Decode` stops at the first bad pair and reports the bytes decoded before it. -/
def decode : List Char → Bytes × Option HexError
  | [] => ([], none)
  | [p] => ([], some (if (fromHexChar p).isSome then .errLength else .invalidByte p))
  | p :: q :: rest =>
    match fromHexChar p, fromHexChar q with
    | some a, some b => let r := decode rest; (UInt8.ofNat (a * 16 + b) :: r.1, r.2)
    | none, _ => ([], some (.invalidByte p))
    | some _, none => ([], some (.invalidByte q))

def decodeString (s : String) : Except HexError Bytes :=
  match decode s.toList with
  | (b, none) => .ok b
  | (_, some e) => .error e

def IsHexDigit (c : Char) : Prop := (fromHexChar c).isSome
instance (c : Char) : Decidable (IsHexDigit c) := by unfold IsHexDigit; infer_instance

theorem fromHexCharHextable (n : Nat) (h : n < 16) : fromHexChar (hextable n) = some n := by
  have table : ∀ k : Fin 16, fromHexChar (hextable k) = some k.val := by decide
  exact table ⟨n, h⟩

@[simp] theorem encodeToStringToList (b : Bytes) :
    (encodeToString b).toList = b.flatMap fun v => [hextable (v.toNat / 16), hextable (v.toNat % 16)] :=
  rfl

theorem encodeToStringLength (b : Bytes) : (encodeToString b).length = 2 * b.length := by
  simp only [String.length, encodeToString, List.length_flatMap, List.length_cons, List.length_nil]
  induction b with
  | nil => rfl
  | cons v b ih => simp [ih]; omega

theorem decodeEncodeAppend (b : Bytes) (rest : List Char) :
    decode ((encodeToString b).toList ++ rest) = (b ++ (decode rest).1, (decode rest).2) := by
  induction b with
  | nil => rfl
  | cons v b ih =>
    have hi := fromHexCharHextable (v.toNat / 16) (by have := v.toNat_lt; omega)
    have lo := fromHexCharHextable (v.toNat % 16) (by omega)
    simp only [encodeToStringToList, List.flatMap_cons, List.cons_append, List.nil_append] at ih ⊢
    simp only [decode, hi, lo, ih, Nat.div_add_mod', ofNatToNat, List.cons_append]

theorem decodeStringEncode (b : Bytes) : decodeString (encodeToString b) = .ok b := by
  have h := decodeEncodeAppend b []
  rw [List.append_nil] at h
  unfold decodeString
  rw [h]
  simp [decode]

@[simp] theorem toListAppend (s t : String) : (s ++ t).toList = s.toList ++ t.toList := rfl

theorem toListLength (s : String) : s.toList.length = s.length := rfl

theorem decodeOfDecodeString {s : String} {b : Bytes} (h : decodeString s = .ok b) :
    decode s.toList = (b, none) := by
  unfold decodeString at h
  split at h
  · cases h; rename_i h; exact h
  · cases h

theorem decodeStringOfDecode {s : String} {b : Bytes} (h : decode s.toList = (b, none)) :
    decodeString s = .ok b := by
  rw [decodeString, h]

theorem decodeAppendOfOk {cs : List Char} {bs : Bytes} (h : decode cs = (bs, none))
    (rest : List Char) : decode (cs ++ rest) = (bs ++ (decode rest).1, (decode rest).2) := by
  induction cs using decode.induct generalizing bs with
  | case1 => cases h; rfl
  | case2 p => simp [decode] at h
  | case3 p q rest' a b hq hp ih =>
    simp only [decode, hp, hq, Prod.mk.injEq] at h
    obtain ⟨rfl, hr⟩ := h
    simp only [List.cons_append, decode, hp, hq, List.append_eq, ih (Prod.ext rfl hr)]
  | case4 p q rest' hp => simp [decode, hp] at h
  | case5 p q rest' a hq hp => simp [decode, hp, hq] at h

theorem decodeOfHexDigits (cs : List Char) (even : cs.length % 2 = 0) (digits : ∀ c ∈ cs, IsHexDigit c) :
    ∃ bs, decode cs = (bs, none) ∧ cs.length = 2 * bs.length := by
  induction cs using decode.induct with
  | case1 => exact ⟨[], rfl, rfl⟩
  | case2 p => simp at even
  | case3 p q rest a b hq hp ih =>
    obtain ⟨bs, hd, hl⟩ := ih (by simp at even; omega) (fun c hc => digits c (by simp [hc]))
    refine ⟨UInt8.ofNat (a * 16 + b) :: bs, ?_, ?_⟩
    · simp [decode, hp, hq, hd]
    · simp [hl]; omega
  | case4 p q rest hp =>
    have := digits p (by simp); simp [IsHexDigit, hp] at this
  | case5 p q rest a hq hp =>
    have := digits q (by simp); simp [IsHexDigit, hq] at this

end P2Pool.Hex
