/-!
Binary floating point numbers of 64 bits, by their encoding: a sign, eleven bits of exponent and
fifty-two bits of fraction. A rational number is taken to the nearest of them, and of two equally
near ones to the one with the even encoding. All arithmetic is on natural numbers and exact.
-/

namespace TokenGrammar

structure Binary64 where
  bits : UInt64
  deriving DecidableEq, Repr, Inhabited

namespace Binary64

def zero : Binary64 := ⟨0⟩

def pow2 (n : Nat) : Nat := Nat.pow 2 n

def pow10 (n : Nat) : Nat := Nat.pow 10 n

def infinity : Nat := 0x7ff * pow2 52

-- The quotient rounded to the nearest natural number, a half to the even neighbour.
def roundDiv (num den : Nat) : Nat :=
  let quotient := num / den
  let twice := 2 * (num % den)
  if den < twice || (twice = den && quotient % 2 = 1) then quotient + 1 else quotient

/--
The exponent of the leading bit of a positive quotient: the `e` with `2 ^ e ≤ num / den < 2 ^ (e +
1)`.
-/
def leadingExponent (num den : Nat) : Int :=
  let e : Int := (num.log2 : Int) - (den.log2 : Int)
  if num * pow2 (-e).toNat < den * pow2 e.toNat then e - 1 else e

/--
The encoding of the magnitude nearest to a quotient. The fraction is rounded in steps of `2 ^ step`;
since the encodings of magnitudes are in order without a gap, a fraction that is rounded up to the
next power of two runs over into the exponent, and one past the largest magnitude is infinity.
-/
def magnitude (num den : Nat) : Nat :=
  if num = 0 then 0
  else
    let step := max (leadingExponent num den - 52) (-1074)
    let fraction := roundDiv (num * pow2 (-step).toNat) (den * pow2 step.toNat)
    min ((step + 1074).toNat * pow2 52 + fraction) infinity

def ofRatio (num den : Nat) : Binary64 :=
  ⟨(magnitude num den).toUInt64⟩

def ofDecimal (digits places : Nat) : Binary64 :=
  ofRatio digits (pow10 places)

def ofInt : Int → Binary64
  | .ofNat n => ofRatio n 1
  | .negSucc n => ⟨(pow2 63 + magnitude (n + 1) 1).toUInt64⟩

end Binary64

end TokenGrammar
