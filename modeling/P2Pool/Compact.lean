import P2Pool.Util

/-! Bitcoin compact (nBits) targets of `pkg/util`, over the integers a `big.Int` holds.
Go's shifts and masks act on `Nat` here: every intermediate of the source fits its `uint32`,
and the final `uint32` is `UInt32.ofNat` of it. -/
namespace P2Pool.Compact
open Util

def compactToTarget (compact : UInt32) : Int :=
  let c := compact.toNat
  let exponent := c >>> 24
  let mantissa := c &&& 0x007fffff
  let target : Nat :=
    if exponent ≤ 3 then mantissa >>> (8 * (3 - exponent)) else mantissa <<< (8 * (exponent - 3))
  if c &&& 0x00800000 ≠ 0 then -(target : Int) else target

/- `big.Int.Bytes`: the absolute value, big-endian, without leading zeros. -/
def bigBytes (n : Nat) : Bytes := ((Nat.digits 256 n).map UInt8.ofNat).reverse

/- The `size <= 3` loop `mantissa |= uint32(v) << uint(8*(2-uint32(i)-(3-size)))`. -/
def sizeMantissa (size : Nat) : Nat → Bytes → Nat → Nat
  | _, [], mantissa => mantissa
  | i, v :: b, mantissa =>
    sizeMantissa size (i + 1) b (mantissa ||| v.toNat <<< (8 * (2 - i - (3 - size))))

def targetToCompact (target : Int) : UInt32 :=
  if target = 0 then 0 else
  let isNegative := target < 0
  let b := bigBytes target.natAbs
  let size := b.length
  let mantissa :=
    if size ≤ 3 then sizeMantissa size 0 b 0
    else (b.getD 0 0).toNat <<< 16 ||| (b.getD 1 0).toNat <<< 8 ||| (b.getD 2 0).toNat
  let (mantissa, size) :=
    if mantissa &&& 0x00800000 ≠ 0 then (mantissa >>> 8, size + 1) else (mantissa, size)
  let compact := size <<< 24 ||| (mantissa &&& 0x007fffff)
  UInt32.ofNat (if isNegative then compact ||| 0x00800000 else compact)

/- The compact round trip the retargeting code applies to every target it returns. -/
def compactRoundTrip (target : Int) : Int := compactToTarget (targetToCompact target)

theorem shiftOrOfLt {a b k : Nat} (h : b < 2 ^ k) : a <<< k ||| b = a * 2 ^ k + b := by
  rw [Nat.shiftLeft_eq, Nat.mul_comm, Nat.mul_add_lt_is_or h]

theorem signBitSet (m : Nat) : m &&& 0x00800000 ≠ 0 ↔ m / 2 ^ 23 % 2 = 1 := by
  rw [← decide_eq_true_iff (p := m / 2 ^ 23 % 2 = 1), ← Nat.testBit_to_div_mod]
  constructor
  · intro h
    by_contra hb
    exact h (Nat.eq_of_testBit_eq fun i => by
      rw [show (0x00800000 : Nat) = 2 ^ 23 from rfl, Nat.testBit_and, Nat.testBit_two_pow]
      by_cases hi : 23 = i
      · subst hi; simp [hb]
      · simp [hi])
  · intro h h0
    have := congrArg (Nat.testBit · 23) h0
    simp only [Nat.testBit_and, h, Nat.zero_testBit] at this
    exact absurd this (by decide)

theorem lowBits (m : Nat) : m &&& 0x007fffff = m % 2 ^ 23 := Nat.and_pow_two_sub_one_eq_mod m 23

theorem compactToTargetOfFields {e m : Nat} (he : e < 256) (hm : m < 2 ^ 23) :
    compactToTarget (UInt32.ofNat (e * 2 ^ 24 + m)) =
      if e ≤ 3 then ((m / 256 ^ (3 - e) : Nat) : Int) else ((m * 256 ^ (e - 3) : Nat) : Int) := by
  have hc : (UInt32.ofNat (e * 2 ^ 24 + m)).toNat = e * 2 ^ 24 + m := by
    show (e * 2 ^ 24 + m) % 2 ^ 32 = _
    exact Nat.mod_eq_of_lt (by omega)
  have hexp : (e * 2 ^ 24 + m) >>> 24 = e := by rw [Nat.shiftRight_eq_div_pow]; omega
  have hsign : ¬ (e * 2 ^ 24 + m) &&& 0x00800000 ≠ 0 := by rw [signBitSet]; omega
  have hlow : (e * 2 ^ 24 + m) % 2 ^ 23 = m := by omega
  simp only [compactToTarget, hc, hexp, lowBits, hlow, hsign, if_false, Nat.shiftRight_eq_div_pow,
    Nat.shiftLeft_eq, pow_mul]
  split_ifs <;> rfl

theorem readBEDigits (l : List Nat) (h : ∀ d ∈ l, d < 256) :
    readBE (l.map UInt8.ofNat).reverse = Nat.ofDigits 256 l := by
  induction l with
  | nil => rfl
  | cons d l ih =>
    rw [List.map_cons, List.reverse_cons, readBEAppendSingleton, ih (fun x hx => h x (by simp [hx])),
      Nat.ofDigits_cons, UInt8.toNat_ofNat_of_lt (h d (by simp))]
    ring

theorem readBEBigBytes (n : Nat) : readBE (bigBytes n) = n := by
  rw [bigBytes, readBEDigits _ (fun d hd => Nat.digits_lt_base (by norm_num) hd), Nat.ofDigits_digits]

theorem ltPowLength (n : Nat) : n < 256 ^ (bigBytes n).length := by
  simpa [bigBytes] using Nat.lt_base_pow_length_digits (b := 256) (m := n) (by norm_num)

theorem powLengthLe {n : Nat} (hn : 0 < n) : 256 ^ ((bigBytes n).length - 1) ≤ n := by
  have h := Nat.base_pow_length_digits_le 256 n (by norm_num) hn.ne'
  obtain ⟨k, hk⟩ : ∃ k, (bigBytes n).length = k + 1 :=
    ⟨_, (Nat.succ_pred_eq_of_pos (Nat.pos_of_ne_zero fun h0 => by
      have := ltPowLength n; rw [h0] at this; omega)).symm⟩
  have hd : (Nat.digits 256 n).length = k + 1 := by simpa [bigBytes] using hk
  rw [hd, pow_succ, Nat.mul_comm 256 n] at h
  rw [hk, Nat.add_sub_cancel]
  exact Nat.le_of_mul_le_mul_right h (by norm_num)

theorem lengthLe {n k : Nat} (h : n < 256 ^ k) : (bigBytes n).length ≤ k := by
  rcases Nat.eq_zero_or_pos n with rfl | hn
  · simp [bigBytes]
  by_contra hk
  have := Nat.pow_le_pow_right (by norm_num : 0 < 256) (by omega : k ≤ (bigBytes n).length - 1)
  have := powLengthLe hn
  omega

theorem lengthMono {m n : Nat} (h : m ≤ n) : (bigBytes m).length ≤ (bigBytes n).length := by
  simpa [bigBytes] using Nat.le_digits_len_le 256 m n h

theorem readBETake (b : Bytes) (k : Nat) :
    readBE (b.take k) = readBE b / 256 ^ (b.length - k) := by
  have h := readBEAppend (b.take k) (b.drop k)
  rw [List.take_append_drop, List.length_drop] at h
  rw [h, Nat.add_comm, Nat.add_mul_div_right _ _ (by positivity),
    Nat.div_eq_of_lt (by simpa using readBELt (b.drop k)), Nat.zero_add]

theorem topBytes (b : Bytes) (h : 3 ≤ b.length) :
    (b.getD 0 0).toNat <<< 16 ||| (b.getD 1 0).toNat <<< 8 ||| (b.getD 2 0).toNat = readBE (b.take 3) := by
  match b, h with
  | v0 :: v1 :: v2 :: rest, _ =>
    have h0 := v0.toNat_lt
    have h1 := v1.toNat_lt
    have h2 := v2.toNat_lt
    simp only [List.getD_cons_zero, List.getD_cons_succ, List.take, readBE, List.foldl]
    rw [Nat.or_assoc, shiftOrOfLt (by omega : v2.toNat < 2 ^ 8), shiftOrOfLt (by omega)]
    omega

theorem sizeMantissaReadBE (b : Bytes) (h : b.length ≤ 3) : sizeMantissa b.length 0 b 0 = readBE b := by
  match b, h with
  | [], _ => rfl
  | [v0], _ => simp [sizeMantissa, readBE]
  | [v0, v1], _ =>
    have h1 := v1.toNat_lt
    simp only [sizeMantissa, List.length, readBE, List.foldl]
    rw [Nat.zero_or, Nat.shiftLeft_zero, shiftOrOfLt (by omega : v1.toNat < 2 ^ 8)]
    omega
  | [v0, v1, v2], _ =>
    have h1 := v1.toNat_lt
    have h2 := v2.toNat_lt
    simp only [sizeMantissa, List.length, readBE, List.foldl]
    rw [Nat.zero_or, Nat.shiftLeft_zero, Nat.or_assoc, shiftOrOfLt (by omega : v2.toNat < 2 ^ 8),
      shiftOrOfLt (by omega)]
    omega

/- The three most significant bytes of a positive target, as `TargetToCompact` reads them. -/
def topMantissa (n : Nat) : Nat :=
  if (bigBytes n).length ≤ 3 then n else n / 256 ^ ((bigBytes n).length - 3)

theorem topMantissaEq (n : Nat) :
    (if (bigBytes n).length ≤ 3 then sizeMantissa (bigBytes n).length 0 (bigBytes n) 0
      else ((bigBytes n).getD 0 0).toNat <<< 16 ||| ((bigBytes n).getD 1 0).toNat <<< 8 |||
        ((bigBytes n).getD 2 0).toNat) = topMantissa n := by
  unfold topMantissa
  split_ifs with h
  · rw [sizeMantissaReadBE _ h, readBEBigBytes]
  · rw [topBytes _ (by omega), readBETake _ 3, readBEBigBytes]

theorem topMantissaLt (n : Nat) : topMantissa n < 2 ^ 24 := by
  have hn := ltPowLength n
  unfold topMantissa
  split_ifs with h
  · calc n < 256 ^ (bigBytes n).length := hn
      _ ≤ 256 ^ 3 := Nat.pow_le_pow_right (by norm_num) h
      _ = 2 ^ 24 := by norm_num
  · apply Nat.div_lt_of_lt_mul
    calc n < 256 ^ (bigBytes n).length := hn
      _ = 256 ^ ((bigBytes n).length - 3) * 2 ^ 24 := by
        rw [show (2 : Nat) ^ 24 = 256 ^ 3 by norm_num, ← pow_add]; congr 1; omega

theorem targetToCompactPos {n : Nat} (hn : 0 < n) :
    targetToCompact n = UInt32.ofNat (if 2 ^ 23 ≤ topMantissa n
      then ((bigBytes n).length + 1) * 2 ^ 24 + topMantissa n / 256
      else (bigBytes n).length * 2 ^ 24 + topMantissa n) := by
  have hm := topMantissaLt n
  have h0 : (n : Int) ≠ 0 := by omega
  have hneg : ¬ (n : Int) < 0 := by omega
  simp only [targetToCompact, h0, hneg, if_false, Int.natAbs_ofNat, topMantissaEq, signBitSet]
  split_ifs with h1 h2 h2
  · rw [Nat.shiftRight_eq_div_pow, lowBits, Nat.mod_eq_of_lt (by omega), shiftOrOfLt (by omega)]
  · omega
  · omega
  · rw [lowBits, Nat.mod_eq_of_lt (by omega), shiftOrOfLt (by omega)]

theorem oneByteTargetDecodesToZero :
    targetToCompact 1 = 0x01000001 ∧ compactToTarget 0x01000001 = 0 ∧ targetToCompact 0 = 0 := by
  refine ⟨?_, by decide, by simp [targetToCompact]⟩
  rw [show (1 : Int) = ((1 : Nat) : Int) from rfl, targetToCompactPos (by norm_num)]
  simp [topMantissa, bigBytes]

theorem roundTripZero : compactRoundTrip 0 = 0 := by
  simp [compactRoundTrip, targetToCompact]; rfl

theorem roundTripSmall {n : Nat} (hn : 0 < n) (hs : (bigBytes n).length ≤ 2) :
    compactRoundTrip n = ((n / 256 ^ (3 - (bigBytes n).length) : Nat) : Int) := by
  have hlt : n < 2 ^ 16 := calc
    n < 256 ^ (bigBytes n).length := ltPowLength n
    _ ≤ 256 ^ 2 := Nat.pow_le_pow_right (by norm_num) hs
    _ = 2 ^ 16 := by norm_num
  have htop : topMantissa n = n := if_pos (by omega)
  rw [compactRoundTrip, targetToCompactPos hn, htop, if_neg (by omega),
    compactToTargetOfFields (by omega) (by omega), if_pos (by omega)]

/- From three bytes on, the round trip floors a target to a multiple of `256 ^ gridExp n`. -/
def gridExp (n : Nat) : Nat :=
  if 2 ^ 23 * 256 ^ ((bigBytes n).length - 3) ≤ n then (bigBytes n).length - 2
  else (bigBytes n).length - 3

theorem topMantissaOfLarge {n : Nat} (hs : 3 ≤ (bigBytes n).length) :
    topMantissa n = n / 256 ^ ((bigBytes n).length - 3) := by
  unfold topMantissa
  split_ifs with h
  · rw [show (bigBytes n).length - 3 = 0 by omega, pow_zero, Nat.div_one]
  · rfl

theorem roundTripGrid {n : Nat} (hs : 3 ≤ (bigBytes n).length) (hs' : (bigBytes n).length < 255) :
    compactRoundTrip n = ((n / 256 ^ gridExp n * 256 ^ gridExp n : Nat) : Int) := by
  have hn : 0 < n := by
    rcases Nat.eq_zero_or_pos n with rfl | h
    · simp [bigBytes] at hs
    · exact h
  have hm := topMantissaLt n
  have htop := topMantissaOfLarge hs
  have hbit : 2 ^ 23 ≤ topMantissa n ↔ 2 ^ 23 * 256 ^ ((bigBytes n).length - 3) ≤ n := by
    rw [htop, Nat.le_div_iff_mul_le (by positivity)]
  rw [compactRoundTrip, targetToCompactPos hn, gridExp]
  by_cases hb : 2 ^ 23 ≤ topMantissa n
  · rw [if_pos hb, compactToTargetOfFields (by omega) (by omega), if_neg (by omega), if_pos (hbit.mp hb),
      htop, Nat.div_div_eq_div_mul, ← pow_succ, show (bigBytes n).length + 1 - 3 = (bigBytes n).length - 2 by omega,
      show (bigBytes n).length - 3 + 1 = (bigBytes n).length - 2 by omega]
  · rw [if_neg hb, compactToTargetOfFields (by omega) (by omega), if_neg (mt hbit.mpr hb), htop]
    split_ifs with h3
    · have hs3 : (bigBytes n).length = 3 := by omega
      simp [hs3]
    · rfl

theorem roundTripNonneg (n : Nat) (hs : (bigBytes n).length < 255) : 0 ≤ compactRoundTrip n := by
  rcases Nat.eq_zero_or_pos n with rfl | hn
  · simp [roundTripZero]
  · by_cases h3 : 3 ≤ (bigBytes n).length
    · rw [roundTripGrid h3 hs]; positivity
    · rw [roundTripSmall hn (by omega)]; positivity

theorem roundTripLe (n : Nat) (hs : (bigBytes n).length < 255) : compactRoundTrip n ≤ n := by
  rcases Nat.eq_zero_or_pos n with rfl | hn
  · simp [roundTripZero]
  · by_cases h3 : 3 ≤ (bigBytes n).length
    · rw [roundTripGrid h3 hs]; exact_mod_cast Nat.div_mul_le_self _ _
    · rw [roundTripSmall hn (by omega)]; exact_mod_cast Nat.div_le_self _ _

theorem floorGe {b n g : Nat} (hg : 0 < g) (hd : g ∣ b) (hb : b ≤ n) : b ≤ n / g * g := by
  obtain ⟨c, rfl⟩ := hd
  rw [Nat.mul_comm]
  exact Nat.mul_le_mul_right g ((Nat.le_div_iff_mul_le hg).mpr (by rw [Nat.mul_comm]; exact hb))

theorem gridDvd {n : Nat} (hs : 3 ≤ (bigBytes n).length) :
    256 ^ gridExp n ∣ 256 ^ ((bigBytes n).length - 1) ∧
      (gridExp n = (bigBytes n).length - 2 → 256 ^ gridExp n ∣ 2 ^ 23 * 256 ^ ((bigBytes n).length - 3)) := by
  refine ⟨Nat.pow_dvd_pow _ (by unfold gridExp; split_ifs <;> omega), fun hk => ?_⟩
  rw [hk, show (bigBytes n).length - 2 = (bigBytes n).length - 3 + 1 by omega, pow_succ]
  exact ⟨2 ^ 15, by ring⟩

theorem roundTripGeLength {n : Nat} (hs : 3 ≤ (bigBytes n).length) (hs' : (bigBytes n).length < 255) :
    ((256 ^ ((bigBytes n).length - 1) : Nat) : Int) ≤ compactRoundTrip n := by
  rw [roundTripGrid hs hs']
  exact_mod_cast floorGe (by positivity) (gridDvd hs).1 (powLengthLe (by
    rcases Nat.eq_zero_or_pos n with rfl | h
    · simp [bigBytes] at hs
    · exact h))

theorem roundTripMono {m n : Nat} (hmn : m ≤ n) (hs : (bigBytes n).length < 255) :
    compactRoundTrip m ≤ compactRoundTrip n := by
  have hlen := lengthMono hmn
  rcases Nat.eq_zero_or_pos m with rfl | hm
  · rw [Nat.cast_zero, roundTripZero]; exact roundTripNonneg n hs
  have hmlt := ltPowLength m
  rcases Nat.lt_or_ge (bigBytes m).length (bigBytes n).length with hlt | hge
  · by_cases h3 : 3 ≤ (bigBytes n).length
    · have key : m < 256 ^ ((bigBytes n).length - 1) :=
        lt_of_lt_of_le hmlt (Nat.pow_le_pow_right (by norm_num) (by omega))
      have h1 := roundTripLe m (by omega)
      have h2 := roundTripGeLength h3 hs
      have : (m : Int) < ((256 ^ ((bigBytes n).length - 1) : Nat) : Int) := by exact_mod_cast key
      omega
    · rw [roundTripSmall hm (by omega),
        Nat.div_eq_of_lt (lt_of_lt_of_le hmlt (Nat.pow_le_pow_right (by norm_num) (by omega)))]
      exact roundTripNonneg n hs
  · have hsame : (bigBytes m).length = (bigBytes n).length := by omega
    by_cases h3 : 3 ≤ (bigBytes n).length
    · have h3m : 3 ≤ (bigBytes m).length := by omega
      rw [roundTripGrid h3m (by omega), roundTripGrid h3 hs]
      unfold gridExp
      rw [hsame]
      split_ifs with hbm hbn hbn
      · exact_mod_cast Nat.mul_le_mul_right _ (Nat.div_le_div_right hmn)
      · omega
      · have hk : gridExp n = (bigBytes n).length - 2 := by unfold gridExp; rw [if_pos hbn]
        have hB := floorGe (by positivity) ((gridDvd h3).2 hk) hbn
        rw [hk] at hB
        exact_mod_cast le_trans (Nat.div_mul_le_self _ _) (le_trans (Nat.le_of_lt (Nat.lt_of_not_le hbm)) hB)
      · exact_mod_cast Nat.mul_le_mul_right _ (Nat.div_le_div_right hmn)
    · rw [roundTripSmall hm (by omega), roundTripSmall (by omega) (by omega), hsame]
      exact_mod_cast Nat.div_le_div_right hmn

theorem lengthLt255 {n : Nat} (h : n < 2 ^ 256) : (bigBytes n).length < 255 := by
  have := lengthLe (n := n) (k := 32) (by simpa using h)
  omega

theorem roundTripBounds {x : Int} (hx : 0 ≤ x) (h : x < 2 ^ 256) : 0 ≤ compactRoundTrip x ∧ compactRoundTrip x ≤ x := by
  lift x to Nat using hx
  exact ⟨roundTripNonneg x (lengthLt255 (by exact_mod_cast h)), roundTripLe x (lengthLt255 (by exact_mod_cast h))⟩

theorem roundTripMonotone {x y : Int} (hx : 0 ≤ x) (hxy : x ≤ y) (h : y < 2 ^ 256) :
    compactRoundTrip x ≤ compactRoundTrip y := by
  lift x to Nat using hx
  lift y to Nat using (by omega)
  exact roundTripMono (by exact_mod_cast hxy) (lengthLt255 (by exact_mod_cast h))

end P2Pool.Compact
