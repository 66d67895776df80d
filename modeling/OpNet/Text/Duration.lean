/-!
Lengths of time for people to read. Whole microseconds stand as they are; longer times are
divided as binary floating-point numbers and shown with three decimals.
-/
namespace OpNet.Text

def divRound (num den : Nat) : Nat :=
  let whole := num / den
  let rest := num % den
  if 2 * rest < den || (2 * rest = den && whole % 2 = 0) then whole else whole + 1

def significantBits : Nat := 53

/-- The binary float nearest to `num / den`, a tie to the even significand, as a fraction. The
quotient is at least one and within the float's range. -/
def nearestFloat (num den : Nat) : Nat × Nat :=
  let exponent := Nat.log2 (num / den)
  if exponent < significantBits then
    let scale := Nat.pow 2 (significantBits - 1 - exponent)
    (divRound (num * scale) den, scale)
  else
    let scale := Nat.pow 2 (exponent + 1 - significantBits)
    (divRound num (den * scale) * scale, 1)

def padLeft (width : Nat) (fill : Char) (text : String) : String :=
  String.ofList (List.replicate (width - text.length) fill) ++ text

def threeDecimals (value : Nat × Nat) : String :=
  let thousandths := divRound (value.1 * 1000) value.2
  s!"{thousandths / 1000}." ++ padLeft 3 '0' s!"{thousandths % 1000}"

def inUnits (microseconds unit : Nat) : String :=
  let value := nearestFloat microseconds 1
  threeDecimals (nearestFloat value.1 (value.2 * unit))

def duration (nanoseconds : Nat) : String :=
  let microseconds := nanoseconds / 1000
  if 1000000 ≤ microseconds then inUnits microseconds 1000000 ++ "s"
  else if 1000 ≤ microseconds then inUnits microseconds 1000 ++ "ms"
  else s!"{microseconds}us"

end OpNet.Text
