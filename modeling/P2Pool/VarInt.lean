import P2Pool.Util

/-! Bitcoin variable-length integers of `pkg/util`: `WriteVarInt` and `ReadVarInt`, and the script
push prefix `WriteScriptLen`. Each long form is a marker byte followed by a fixed-width
little-endian payload (`binary.LittleEndian`), so the payload codec is stated once and every marker
reuses it. Bytes are compared by their values. -/
namespace P2Pool.VarInt
open Util

/- `binary.LittleEndian.PutUintN`: the `w` low bytes of `n`, least significant first. -/
def putUintLE : Nat → Nat → Bytes
  | 0, _ => []
  | w + 1, n => UInt8.ofNat (n % 256) :: putUintLE w (n / 256)

/- `binary.LittleEndian.UintN` of a slice of the payload's width. -/
def uintLE : Bytes → Nat
  | [] => 0
  | b :: bs => b.toNat + 256 * uintLE bs

def writeVarInt (val : UInt64) : Bytes :=
  if val.toNat < 0xfd then [UInt8.ofNat val.toNat]
  else if val.toNat ≤ 0xffff then 0xfd :: putUintLE 2 (val.toNat % 2 ^ 16)
  else if val.toNat ≤ 0xffffffff then 0xfe :: putUintLE 4 (val.toNat % 2 ^ 32)
  else 0xff :: putUintLE 8 val.toNat

/- The `fmt.Errorf` texts: "empty data" and "insufficient data for uint<bits> varint". -/
inductive VarIntError where
  | emptyData
  | insufficientData (bits : Nat)
  deriving DecidableEq, Repr

/- One marker branch of `ReadVarInt`: the `w` payload bytes after the marker, or the error when
fewer than `w + 1` bytes are there. -/
def readPayload (data : Bytes) (w : Nat) : Except VarIntError (UInt64 × Nat) :=
  if data.length < w + 1 then .error (.insufficientData (8 * w))
  else .ok (UInt64.ofNat (uintLE ((data.drop 1).take w)), w + 1)

def readVarInt : Bytes → Except VarIntError (UInt64 × Nat)
  | [] => .error .emptyData
  | d0 :: rest =>
    if d0.toNat < 0xfd then .ok (d0.toUInt64, 1)
    else if d0.toNat = 0xfd then readPayload (d0 :: rest) 2
    else if d0.toNat = 0xfe then readPayload (d0 :: rest) 4
    else readPayload (d0 :: rest) 8

@[simp] theorem putUintLELength (w n : Nat) : (putUintLE w n).length = w := by
  induction w generalizing n with
  | zero => rfl
  | succ w ih => simp [putUintLE, ih]

theorem uintLEPutUintLE (w n : Nat) : uintLE (putUintLE w n) = n % 256 ^ w := by
  induction w generalizing n with
  | zero => simp [putUintLE, uintLE, Nat.mod_one]
  | succ w ih =>
    have hb : (UInt8.ofNat (n % 256)).toNat = n % 256 := by
      rw [UInt8.toNat_ofNat_of_lt (by have := Nat.mod_lt n (by norm_num : 256 > 0); simpa using this)]
    rw [putUintLE, uintLE, hb, ih, pow_succ', Nat.mod_mul]

theorem readPayloadPut (m : UInt8) (w n : Nat) (rest : Bytes) :
    readPayload (m :: (putUintLE w n ++ rest)) w = .ok (UInt64.ofNat (n % 256 ^ w), w + 1) := by
  have hlen : ¬ (m :: (putUintLE w n ++ rest)).length < w + 1 := by simp
  rw [readPayload, if_neg hlen, List.drop_one, List.tail_cons,
    List.take_left' (putUintLELength w n), uintLEPutUintLE]

theorem readPayloadOk {data : Bytes} {w : Nat} {x : UInt64} {n : Nat} (h : readPayload data w = .ok (x, n)) :
    n = w + 1 ∧ n ≤ data.length := by
  unfold readPayload at h
  split_ifs at h with hl
  cases h
  exact ⟨rfl, by omega⟩

theorem uint64OfNatToNat (v : UInt64) {n : Nat} (h : n = v.toNat) : UInt64.ofNat n = v :=
  UInt64.toNat.inj (by rw [h, UInt64.toNat_ofNat_of_lt v.toNat_lt_size])

theorem writeVarIntLength (v : UInt64) :
    (writeVarInt v).length =
      if v.toNat < 0xfd then 1 else if v.toNat ≤ 0xffff then 3 else if v.toNat ≤ 0xffffffff then 5 else 9 := by
  unfold writeVarInt
  split_ifs <;> simp

theorem readWriteVarInt (v : UInt64) (rest : Bytes) :
    readVarInt (writeVarInt v ++ rest) = .ok (v, (writeVarInt v).length) := by
  have hv : v.toNat < 2 ^ 64 := v.toNat_lt_size
  unfold writeVarInt
  split_ifs with h1 h2 h3
  · have hb : (UInt8.ofNat v.toNat).toNat = v.toNat := UInt8.toNat_ofNat_of_lt (by show v.toNat < 256; omega)
    simp only [List.singleton_append, readVarInt, hb, if_pos h1, List.length_singleton]
    exact congrArg (fun x => Except.ok (x, 1)) (UInt64.toNat.inj hb)
  all_goals
    simp only [List.cons_append, readVarInt, List.length_cons, putUintLELength, readPayloadPut]
    norm_num
    exact uint64OfNatToNat v (by simp at *; omega)

theorem readVarIntConsumed {data : Bytes} {x : UInt64} {n : Nat} (h : readVarInt data = .ok (x, n)) :
    (n = 1 ∨ n = 3 ∨ n = 5 ∨ n = 9) ∧ n ≤ data.length := by
  match data, h with
  | d0 :: rest, h =>
    simp only [readVarInt] at h
    split_ifs at h
    · cases h; simp
    all_goals
      obtain ⟨rfl, hle⟩ := readPayloadOk h
      simpa using hle

/- The codec of `WriteVarInt`/`ReadVarInt`: every `u64` reads back from its encoding with any
suffix, the encoding has the length of its form, and a read never consumes past the end. -/
theorem varIntCodec :
    (∀ (v : UInt64) (rest : Bytes), readVarInt (writeVarInt v ++ rest) = .ok (v, (writeVarInt v).length)) ∧
      (∀ v : UInt64, (writeVarInt v).length =
        if v.toNat < 0xfd then 1 else if v.toNat ≤ 0xffff then 3 else if v.toNat ≤ 0xffffffff then 5 else 9) ∧
      ∀ data : Bytes, (∃ e, readVarInt data = .error e) ∨
        ∃ x n, readVarInt data = .ok (x, n) ∧ (n = 1 ∨ n = 3 ∨ n = 5 ∨ n = 9) ∧ n ≤ data.length := by
  refine ⟨readWriteVarInt, writeVarIntLength, fun data => ?_⟩
  match h : readVarInt data with
  | .error e => exact .inl ⟨e, rfl⟩
  | .ok (x, n) => exact .inr ⟨x, n, rfl, readVarIntConsumed h⟩

/-! Script push prefixes. -/

/- `WriteScriptLen`: the opcode of a push of `length` bytes, the length itself below
`OP_PUSHDATA1`, else `OP_PUSHDATA1`, `OP_PUSHDATA2` or `OP_PUSHDATA4` followed by the length in one,
two or four little-endian bytes. `byte(length)` keeps the low byte of a negative length and
`uint32(length)` the low four bytes of a large one. -/
def writeScriptLen (length : Int) : Bytes :=
  if length < 0x4c then [UInt8.ofNat (length % 256).toNat]
  else if length ≤ 0xff then [0x4c, UInt8.ofNat length.toNat]
  else if length ≤ 0xffff then 0x4d :: putUintLE 2 (length % 2 ^ 16).toNat
  else 0x4e :: putUintLE 4 (length % 2 ^ 32).toNat

/- How a script reader takes the length of a push: an opcode below `OP_PUSHDATA1` is the length,
`OP_PUSHDATA1`, `OP_PUSHDATA2` and `OP_PUSHDATA4` are followed by it in one, two or four
little-endian bytes, and any other opcode is no push. The length, and how many bytes the prefix
took. -/
def readPushLength : Bytes → Option (Nat × Nat)
  | [] => none
  | op :: rest =>
    if op.toNat < 0x4c then some (op.toNat, 1)
    else if op.toNat = 0x4c ∧ 1 ≤ rest.length then some (uintLE (rest.take 1), 2)
    else if op.toNat = 0x4d ∧ 2 ≤ rest.length then some (uintLE (rest.take 2), 3)
    else if op.toNat = 0x4e ∧ 4 ≤ rest.length then some (uintLE (rest.take 4), 5)
    else none

theorem putUintLEOne (n : Nat) : putUintLE 1 n = [UInt8.ofNat n] :=
  congrArg (· :: []) (UInt8.toNat.inj (by rw [uint8ToNatOfNat, uint8ToNatOfNat, Nat.mod_mod]))

theorem readPushLengthPut (op : UInt8) (w n : Nat) (rest : Bytes) (hop : 0x4c ≤ op.toNat)
    (hw : (op.toNat = 0x4c ∧ w = 1) ∨ (op.toNat = 0x4d ∧ w = 2) ∨ (op.toNat = 0x4e ∧ w = 4)) :
    readPushLength (op :: (putUintLE w n ++ rest)) = some (n % 256 ^ w, w + 1) := by
  have hlen : w ≤ (putUintLE w n ++ rest).length := by simp
  have htake : (putUintLE w n ++ rest).take w = putUintLE w n := List.take_left' (putUintLELength w n)
  rw [readPushLength, if_neg (not_lt.mpr hop)]
  rcases hw with ⟨h, rfl⟩ | ⟨h, rfl⟩ | ⟨h, rfl⟩ <;> simp [h, hlen, htake, uintLEPutUintLE]

/- The push prefixes of `WriteScriptLen`: every length below 2^32 reads back from its prefix with
any suffix, in the shortest form that holds it (one byte below `OP_PUSHDATA1`, two up to 0xff,
three up to 0xffff, else five), and a length of 2^32 or more is read back modulo 2^32. -/
theorem scriptLenCodec :
    (∀ (length : Int) (rest : Bytes), 0 ≤ length → length < 2 ^ 32 →
      readPushLength (writeScriptLen length ++ rest) = some (length.toNat, (writeScriptLen length).length)) ∧
    (∀ length : Int, 0 ≤ length → (writeScriptLen length).length =
      if length < 0x4c then 1 else if length ≤ 0xff then 2 else if length ≤ 0xffff then 3 else 5) ∧
    ∀ (length : Int) (rest : Bytes), 2 ^ 32 ≤ length →
      readPushLength (writeScriptLen length ++ rest) = some ((length % 2 ^ 32).toNat, 5) := by
  refine ⟨fun length rest h0 hlt => ?_, fun length _ => ?_, fun length rest hge => ?_⟩
  · unfold writeScriptLen
    split_ifs with h1 h2 h3
    · have hb : (UInt8.ofNat (length % 256).toNat).toNat = length.toNat := by
        rw [uint8ToNatOfNat]
        omega
      simp only [List.singleton_append, readPushLength, hb, List.length_singleton]
      rw [if_pos (by omega)]
    · rw [← putUintLEOne, List.cons_append, readPushLengthPut 0x4c 1 _ rest (by decide) (.inl ⟨rfl, rfl⟩)]
      simp only [List.length_cons, putUintLELength]
      congr 2
      omega
    · rw [List.cons_append, readPushLengthPut 0x4d 2 _ rest (by decide) (.inr (.inl ⟨rfl, rfl⟩))]
      simp only [List.length_cons, putUintLELength]
      congr 2
      omega
    · rw [List.cons_append, readPushLengthPut 0x4e 4 _ rest (by decide) (.inr (.inr ⟨rfl, rfl⟩))]
      simp only [List.length_cons, putUintLELength]
      congr 2
      omega
  · unfold writeScriptLen
    split_ifs <;> simp
  · have h1 : ¬ length < 0x4c := by omega
    have h2 : ¬ length ≤ 0xff := by omega
    have h3 : ¬ length ≤ 0xffff := by omega
    rw [writeScriptLen, if_neg h1, if_neg h2, if_neg h3, List.cons_append,
      readPushLengthPut 0x4e 4 _ rest (by decide) (.inr (.inr ⟨rfl, rfl⟩))]
    congr 2
    omega

end P2Pool.VarInt
