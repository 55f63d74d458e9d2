import CipherFlow.Number.Binary64

/-!
# Decimal text of floating-point numbers

Two ways to write a number: with the fewest digits that read back as the
same number, and with a fixed count of decimal places. Both are computed on
the exact value and written positionally, never with an exponent.
-/

namespace CipherFlow.Decimal

/-- `digits * 10 ^ exponent`. -/
structure Digits where
  digits : Nat
  exponent : Int
deriving Repr, DecidableEq

/-- A positive binary value `mantissa * 2 ^ exponent`. Right at a power of
two the gap below is half the gap above. -/
structure Magnitude where
  mantissa : Nat
  exponent : Int
deriving Repr, DecidableEq

/-- Whether the value below lies half as far away as the value above. -/
def Magnitude.narrowBelow (x : Magnitude) : Bool :=
  x.mantissa == Nat.pow 2 52 && decide (-1074 < x.exponent)

/-- Compares `a * 10 ^ i` with `n * 2 ^ j` exactly. -/
def compareScaled (a : Nat) (i : Int) (n : Nat) (j : Int) : Ordering :=
  compare (a * Nat.pow 10 i.toNat * Nat.pow 2 (-j).toNat)
    (n * Nat.pow 2 j.toNat * Nat.pow 10 (-i).toNat)

/-- Whether a decimal lies among the reals that round to a value: halfway to
either neighbour, the ends included when the mantissa is even. -/
def Magnitude.readsBack (x : Magnitude) (d : Digits) : Bool :=
  let low := if x.narrowBelow then 4 * x.mantissa - 1 else 4 * x.mantissa - 2
  let high := 4 * x.mantissa + 2
  let closed := x.mantissa % 2 == 0
  let toLow := compareScaled d.digits d.exponent low (x.exponent - 2)
  let toHigh := compareScaled d.digits d.exponent high (x.exponent - 2)
  (toLow == .gt || (closed && toLow == .eq)) &&
    (toHigh == .lt || (closed && toHigh == .eq))

/-- The value divided by `10 ^ exponent`, rounded down. -/
def Magnitude.onGrid (x : Magnitude) (exponent : Int) : Nat :=
  x.mantissa * Nat.pow 2 x.exponent.toNat * Nat.pow 10 (-exponent).toNat /
    (Nat.pow 2 (-x.exponent).toNat * Nat.pow 10 exponent.toNat)

/-- Whether the upper of two neighbours on a decimal grid is at least as
close as the lower one. -/
def Magnitude.upperIsCloser (x : Magnitude) (lower : Nat) (exponent : Int) : Bool :=
  compareScaled (2 * lower + 1) exponent (2 * x.mantissa) x.exponent != .gt

/-- The neighbour on the grid of `10 ^ exponent` that reads back, the closer
one if both do and the upper one of a tie. -/
def Magnitude.gridPoint? (x : Magnitude) (exponent : Int) : Option Digits :=
  let n := x.onGrid exponent
  let lower : Digits := ⟨n, exponent⟩
  let upper : Digits := ⟨n + 1, exponent⟩
  match x.readsBack lower, x.readsBack upper with
  | true, true => some (if x.upperIsCloser n exponent then upper else lower)
  | true, false => some lower
  | false, true => some upper
  | false, false => none

/-- Tries finer and finer grids, `fuel` of them, and falls back to the exact
value, which every finite binary value has in decimal. -/
def Magnitude.search (x : Magnitude) : (fuel : Nat) → (exponent : Int) → Digits
  | 0, _ =>
    ⟨x.mantissa * Nat.pow 2 x.exponent.toNat * Nat.pow 5 (-x.exponent).toNat, min x.exponent 0⟩
  | fuel + 1, exponent =>
    match x.gridPoint? exponent with
    | some d => d
    | none => x.search fuel (exponent - 1)

/-- An exponent `k` with `value < 10 ^ k`: a binary digit is less than
`0.302` of a decimal one. -/
def Magnitude.scale (x : Magnitude) : Int :=
  ((x.mantissa.log2 : Int) + 1 + x.exponent) * 302 / 1000 + 1

/-- The decimal of fewest digits that reads back. The grids start above the
value and reach past the seventeen digits that always suffice. -/
def Magnitude.shortest (x : Magnitude) : Digits :=
  x.search 40 x.scale

/-! ## Layout -/

/-- Writes a whole number with a point before its last `places` digits. -/
def pointed (n places : Nat) : String :=
  if places = 0 then toString n
  else
    let whole := n / Nat.pow 10 places
    let fraction := toString (n % Nat.pow 10 places)
    let zeros := String.ofList (List.replicate (places - fraction.length) '0')
    s!"{whole}." ++ zeros ++ fraction

/-- Drops trailing zeros after the point. -/
def Digits.trim : (fuel : Nat) → Digits → Digits
  | 0, d => d
  | fuel + 1, d =>
    if d.exponent < 0 ∧ d.digits % 10 = 0 then
      trim fuel ⟨d.digits / 10, d.exponent + 1⟩
    else d

/-- Positional text without trailing zeros after the point. -/
def Digits.text (d : Digits) : String :=
  let d := d.trim (-d.exponent).toNat
  pointed (d.digits * Nat.pow 10 d.exponent.toNat) (-d.exponent).toNat

/-- The text of the numbers that have no decimal digits. -/
def special (x : Binary64.Value) (finite : Bool → Nat → Int → String) : String :=
  match x with
  | .nan => "NaN"
  | .infinite negative => if negative then "-inf" else "inf"
  | .finite negative mantissa exponent => finite negative mantissa exponent

/-- The shortest text that reads back, in positional notation; whole numbers
carry no point. -/
def shortest (x : Float) : String :=
  special (Binary64.value x) fun negative mantissa exponent =>
    let digits := if mantissa = 0 then "0" else (Magnitude.shortest ⟨mantissa, exponent⟩).text
    if negative then "-" ++ digits else digits

/-- A quotient rounded to the nearest whole number, ties to the even one. -/
def divToEven (n d : Nat) : Nat :=
  let q := n / d
  let r := n % d
  if d < 2 * r ∨ (d = 2 * r ∧ q % 2 = 1) then q + 1 else q

/-- The exact value rounded to `places` decimal places. -/
def fixed (places : Nat) (x : Float) : String :=
  special (Binary64.value x) fun negative mantissa exponent =>
    let n := divToEven (mantissa * Nat.pow 2 exponent.toNat * Nat.pow 10 places)
      (Nat.pow 2 (-exponent).toNat)
    if negative then "-" ++ pointed n places else pointed n places

end CipherFlow.Decimal
