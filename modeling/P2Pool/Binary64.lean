import P2Pool.Util

/-! The `float64` arithmetic of the finder fee. Go's `float64(n)`, `*` and `/` round the exact
result to the nearest double, ties to even, and `int64(x)` truncates toward zero. Every finite
double is an integer multiple of `2^-1074`, the least subnormal, and its magnitude is kept here as
that integer, so that rounding is a quotient of natural numbers. -/
namespace P2Pool.Binary64
open Util

/- A finite `float64`, `±significand * 2^exponent`. -/
structure Double where
  negative : Bool
  significand : Nat
  exponent : Int
  significandLt : significand < 2 ^ 53
  exponentGe : -1074 ≤ exponent
  exponentLe : exponent ≤ 971

def Double.magnitude (x : Double) : Nat := x.significand <<< (x.exponent + 1074).toNat

/- `⌊log2 n⌋` for `n < 2^(2^k)`, halving the range of exponents `k` times. -/
def log2Below : Nat → Nat → Nat
  | 0, _ => 0
  | k + 1, n =>
    if 1 <<< (1 <<< k) ≤ n then (1 <<< k) + log2Below k (n >>> (1 <<< k)) else log2Below k n

/- Exact below `2^8192`, past the product of two magnitudes. -/
def log2 (n : Nat) : Nat := log2Below 13 n

/- `a / d` to the nearest integer, ties to even. -/
def rne (a d : Nat) : Nat :=
  if 2 * (a % d) < d then a / d
  else if d < 2 * (a % d) then a / d + 1
  else if a / d % 2 = 0 then a / d else a / d + 1

/- The exponent of the last place in the binade of `a / d`: 0 for the subnormals and the least
normal binade, `⌊log2 (a / d)⌋ - 52` above them. -/
def ulpExp (a d : Nat) : Nat :=
  let p := log2 a - (log2 d + 52)
  if 0 < p ∧ a < d <<< (p + 52) then p - 1 else p

/- The multiple of the last place of `a / d`'s binade nearest `a / d`. -/
def nearest (a d : Nat) : Nat := rne a (d <<< ulpExp a d) <<< ulpExp a d

/- The double nearest `a / d`, or `none` from `2^1024` on, where the result is an infinity. -/
def roundScaled (a d : Nat) : Option Nat :=
  if nearest a d < 1 <<< 2098 then some (nearest a d) else none

/- `int64(x)`. Go leaves a value outside `int64` to the platform; amd64 gives `math.MinInt64`,
for an infinity too. -/
def toInt64 (negative : Bool) : Option Nat → Int
  | none => -2 ^ 63
  | some m =>
    let t : Int := if negative then -((m >>> 1074 : Nat) : Int) else ((m >>> 1074 : Nat) : Int)
    if InInt64 t then t else -2 ^ 63

end P2Pool.Binary64
