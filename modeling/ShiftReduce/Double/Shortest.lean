import ShiftReduce.Double

/-!
# Double/Shortest — the fewest digits that read back

A positive number is written with the fewest decimal digits whose value rounds to it, and among
those with the digits nearest to it.  Each digit count fixes a decimal grid, on which only the two
neighbours of the number need to be tried: if any point of the grid rounds to the number, one of
these does.  `Layout` says how the digits are laid out on the line.
-/

namespace ShiftReduce.Double

/-- A positive decimal `coefficient · 10 ^ scale`. -/
structure Decimal where
  coefficient : Nat
  scale : Int
deriving DecidableEq, Repr

/-- The exponent of the leading digit of the positive quotient `num / den`. -/
def leadingExponent (num den : Nat) : Int :=
  if den ≤ num then Int.ofNat (Nat.toDigits 10 (num / den)).length - 1
  else match (List.range 400).find? fun t => den ≤ num * Nat.pow 10 t with
    | some t => -Int.ofNat t
    | none => -400

/-- The point of the grid `10 ^ scale` nearest to `significand · 2 ^ exponent`, if it or the other
neighbour rounds to that number.  A tie goes to the larger one. -/
def onGrid? (significand : Nat) (exponent scale : Int) : Option Decimal :=
  -- in quarters of the last place, the number and the two ends of what rounds to it
  let here := 4 * significand
  let low :=
    if significand = fullSignificand ∧ leastExponent < exponent then here - 1 else here - 2
  let high := here + 2
  let num := Nat.pow 10 (-scale).toNat <<< (exponent - 2).toNat
  let den := Nat.pow 10 scale.toNat <<< (2 - exponent).toNat
  let inside (n : Nat) : Bool :=
    if significand % 2 = 0 then low * num ≤ n * den && n * den ≤ high * num
    else low * num < n * den && n * den < high * num
  let below := here * num / den
  let above := below + 1
  let nearerAbove := above * den - here * num ≤ here * num - below * den
  if inside below && !(inside above && nearerAbove) then some ⟨below, scale⟩
  else if inside above then some ⟨above, scale⟩
  else none

/-- The decimal with the fewest digits that reads back as the positive number
`significand · 2 ^ exponent`; seventeen digits always do. -/
def shortest (significand : Nat) (exponent : Int) : Decimal :=
  let first := leadingExponent (significand <<< exponent.toNat) (1 <<< (-exponent).toNat)
  match (List.range 17).findSome? fun count =>
      onGrid? significand exponent (first - Int.ofNat count) with
  | some decimal => decimal
  | none => ⟨0, 0⟩

/-- Which numbers are written positionally: those whose leading digit stands at an exponent from
`least` on and below `limit`. -/
structure Layout where
  least : Int
  limit : Int

/-- The digits of a decimal without trailing zeros. -/
def Decimal.digits (d : Decimal) : List Char :=
  ((Nat.toDigits 10 d.coefficient).reverse.dropWhile (· == '0')).reverse

/-- The exponent of the leading digit. -/
def Decimal.leading (d : Decimal) : Int :=
  d.scale + Int.ofNat (Nat.toDigits 10 d.coefficient).length - 1

/-- A positive decimal as text.  Positional notation always has a digit on each side of the point;
scientific notation has a point only where digits follow it. -/
def Decimal.render (layout : Layout) (d : Decimal) : String :=
  let ds := d.digits
  let e := d.leading
  if layout.least ≤ e && e < layout.limit then
    if 0 ≤ e then
      let n := e.toNat + 1
      let whole := ds.take n ++ List.replicate (n - ds.length) '0'
      let fraction := if ds.length ≤ n then ['0'] else ds.drop n
      String.ofList (whole ++ '.' :: fraction)
    else
      String.ofList ('0' :: '.' :: List.replicate ((-e).toNat - 1) '0' ++ ds)
  else
    let fraction := if ds.length ≤ 1 then [] else '.' :: ds.drop 1
    String.ofList (ds.take 1 ++ fraction) ++ "e" ++ toString e

/-- A number as text. -/
def render (layout : Layout) : Double → String
  | .nan => "NaN"
  | .infinity negative => if negative then "-inf" else "inf"
  | .finite negative significand exponent =>
    let sign := if negative then "-" else ""
    if significand = 0 then sign ++ "0.0"
    else sign ++ (shortest significand exponent).render layout

end ShiftReduce.Double
