/-!
# Double — binary floating point numbers of 64 bits

A finite number is `± significand · 2 ^ exponent` with a significand of at most 53 bits, kept at the
least exponent that holds it: the significand has all 53 bits, or the exponent is the smallest one.
`ofRatio` rounds a quotient to the nearest such number, a tie going to the even significand, and
`ofText?` reads a decimal and rounds it once.
-/

namespace ShiftReduce

/-- A binary floating point number of 64 bits; all NaNs are one. -/
inductive Double where
  | nan
  | infinity (negative : Bool)
  | finite (negative : Bool) (significand : Nat) (exponent : Int)
deriving DecidableEq, Repr

namespace Double

/-- The exponent of the numbers nearest to zero. -/
def leastExponent : Int := -1074

/-- The exponent of the largest numbers. -/
def greatestExponent : Int := 971

/-- Significands are below this bound. -/
def significandBound : Nat := 0x20000000000000

/-- A significand from here on has all its bits. -/
def fullSignificand : Nat := 0x10000000000000

/-- Zero, of either sign. -/
def zero (negative : Bool) : Double := .finite negative 0 leastExponent

/-- The integer nearest to `num / den`; a tie goes to the even one. -/
def roundRatio (num den : Nat) : Nat :=
  let q := num / den
  let r := num % den
  if den < 2 * r || (2 * r == den && q % 2 == 1) then q + 1 else q

/-- The number nearest to `num / den`, for a positive `den`. -/
def ofRatio (negative : Bool) (num den : Nat) : Double :=
  if num = 0 then zero negative
  else
    -- the quotient lies between the powers of two at `high - 1` and `high + 1`
    let high : Int := Int.ofNat num.log2 - Int.ofNat den.log2
    let magnitude :=
      if num <<< (-high).toNat < den <<< high.toNat then high - 1 else high
    let exponent := max (magnitude - 52) leastExponent
    let significand := roundRatio (num <<< (-exponent).toNat) (den <<< exponent.toNat)
    let carried := significand == significandBound
    let exponent := if carried then exponent + 1 else exponent
    if greatestExponent < exponent then .infinity negative
    else .finite negative (if carried then fullSignificand else significand) exponent

/-- The number nearest to `± digits · 10 ^ scale`.  A magnitude far outside the range of the format
is answered at once, so that no power of an absurd size is computed. -/
def ofDecimal (negative : Bool) (digits : Nat) (scale : Int) : Double :=
  let magnitude : Int := Int.ofNat (Nat.toDigits 10 digits).length + scale
  if digits = 0 || magnitude < -400 then zero negative
  else if 400 < magnitude then .infinity negative
  else ofRatio negative (digits * Nat.pow 10 scale.toNat) (Nat.pow 10 (-scale).toNat)

/-- The number that a run of decimal digits denotes. -/
def natOfDigits (ds : List Char) : Nat :=
  ds.foldl (fun n d => 10 * n + (d.toNat - '0'.toNat)) 0

/-- The exponent at the end of a decimal: nothing, or a mark, a sign and at least one digit. -/
def exponentOf? : List Char → Option Int
  | [] => some 0
  | mark :: rest =>
    let (negative, ds) := match rest with
      | '-' :: ds => (true, ds)
      | '+' :: ds => (false, ds)
      | ds => (false, ds)
    if (mark == 'e' || mark == 'E') && !ds.isEmpty && ds.all Char.isDigit then
      let n : Int := Int.ofNat (natOfDigits ds)
      some (if negative then -n else n)
    else none

/-- An unsigned decimal: digits with at most one point among them, at least one digit, and an
optional exponent. -/
def unsignedOf? (negative : Bool) (s : List Char) : Option Double :=
  let whole := s.takeWhile Char.isDigit
  let rest := s.dropWhile Char.isDigit
  let (fraction, rest) := match rest with
    | '.' :: r => (r.takeWhile Char.isDigit, r.dropWhile Char.isDigit)
    | r => ([], r)
  let digits := whole ++ fraction
  if digits.isEmpty then none
  else (exponentOf? rest).map fun e =>
    ofDecimal negative (natOfDigits digits) (e - Int.ofNat fraction.length)

/-- Reads a decimal with an optional sign, or the name of a special value in any case. -/
def ofText? (s : String) : Option Double :=
  let (negative, body) := match s.toList with
    | '-' :: r => (true, r)
    | '+' :: r => (false, r)
    | r => (false, r)
  let name := String.ofList (body.map Char.toLower)
  if name = "nan" then some .nan
  else if name = "inf" || name = "infinity" then some (.infinity negative)
  else unsignedOf? negative body

end Double
end ShiftReduce
