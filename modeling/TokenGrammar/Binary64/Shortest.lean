import TokenGrammar.Binary64
import TokenGrammar.Text.Padded

/-!
The decimal text of a `Binary64`: the fewest digits that read back as the same number, of those the
nearest to it, always written without an exponent.

The numbers that read back as `m * 2 ^ q` fill an interval around it, whose ends belong to it when `m`
is even. The grids of multiples of `10 ^ k` are tried from coarse to fine. If a grid has a point in the
interval then one of the two grid points next to the number is in it, so the first grid on which one
of these two is found has the fewest digits.
-/

namespace TokenGrammar

structure Decimal where
  digits : Nat
  exponent : Int
  deriving DecidableEq, Repr

namespace Decimal

def text (d : Decimal) : String :=
  if 0 ≤ d.exponent then d.digits.repr ++ Text.fill d.exponent.toNat '0'
  else
    let places := (-d.exponent).toNat
    let digits := d.digits.repr.toList
    let digits := List.replicate (places + 1 - digits.length) '0' ++ digits
    let whole := digits.length - places
    String.ofList (digits.take whole ++ '.' :: digits.drop whole)

end Decimal

namespace Binary64

structure Interval where
  low : Nat
  value : Nat
  high : Nat
  den : Nat
  closed : Bool

/--
The interval around a finite positive number with these exponent and fraction fields. Its ends are
half way to the neighbours, and the neighbour below a power of two is only half as far away.
-/
def interval (exponent fraction : Nat) : Interval :=
  let m := if exponent = 0 then fraction else pow2 52 + fraction
  let quarter : Int := max exponent 1 - 1077
  let unit := pow2 quarter.toNat
  let below := if fraction = 0 && 1 < exponent then 1 else 2
  ⟨(4 * m - below) * unit, 4 * m * unit, (4 * m + 2) * unit, pow2 (-quarter).toNat, m % 2 = 0⟩

namespace Interval

def nearest? (i : Interval) (k : Int) : Option Decimal :=
  let scale := pow10 (-k).toNat
  let grid := i.den * pow10 k.toNat
  let value := i.value * scale
  let floor := value / grid
  let holds (point : Nat) : Bool :=
    if i.closed then i.low * scale ≤ point && point ≤ i.high * scale
    else i.low * scale < point && point < i.high * scale
  match holds (floor * grid), holds ((floor + 1) * grid) with
  | true, true => some ⟨if grid ≤ 2 * (value % grid) then floor + 1 else floor, k⟩
  | true, false => some ⟨floor, k⟩
  | false, true => some ⟨floor + 1, k⟩
  | false, false => none

def search (i : Interval) (k : Int) : Nat → Decimal
  | 0 => ⟨0, 0⟩
  | grids + 1 =>
    match i.nearest? k with
    | some d => d
    | none => i.search (k - 1) grids

/--
The shortest decimal in the interval. The search starts on a grid coarser than the number and may go
on to `10 ^ -1074`, of which every finite number is a multiple.
-/
def shortest (i : Interval) : Decimal :=
  let start := (i.value / i.den).log2 / 3 + 1
  i.search start (start + 1075)

end Interval

def text (x : Binary64) : String :=
  let code := x.bits.toNat
  let sign := if code < pow2 63 then "" else "-"
  let exponent := code / pow2 52 % pow2 11
  let fraction := code % pow2 52
  if exponent = 0x7ff then if fraction = 0 then sign ++ "inf" else "NaN"
  else if exponent = 0 && fraction = 0 then sign ++ "0"
  else sign ++ (interval exponent fraction).shortest.text

end Binary64

end TokenGrammar
