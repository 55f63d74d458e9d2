import CipherFlow.Slots.Packing

/-!
# Fourier transforms

An encoder takes its transforms from elsewhere; all it relies on is that they keep
the number of entries and that nothing comes of nothing. For lists of `2 ^ k` complex
numbers a transform by halving is given: the even and the odd entries are transformed
apart and joined with roots of unity. The numbers may be of any type with sums and
products, given a function for the roots.
-/

namespace CipherFlow.Fourier

/-- Transforms of lists of any length `n`. Entry `t` of the forward one is the sum of
the entries `x j` times the root of unity at `-j * t / n` of a full turn, but for
rounding; the inverse one turns the other way and is not normalised. -/
structure Transforms where
  forward : (xs : List (Slot Float)) → { ys : List (Slot Float) // ys.length = xs.length }
  inverse : (xs : List (Slot Float)) → { ys : List (Slot Float) // ys.length = xs.length }
  forward_zeros : ∀ xs, (∀ z ∈ xs, z.isZero = true) → ∀ z ∈ (forward xs).1, z.isZero = true

/-! ## Transforms by halving -/

/-- The entries at even and at odd positions. -/
def split : List α → List α × List α
  | x :: y :: rest =>
    let (evens, odds) := split rest
    (x :: evens, y :: odds)
  | [x] => ([x], [])
  | [] => ([], [])

/-- The `n`-th roots of unity `root n 0`, `root n 1`, … of the first half. -/
def halfRoots (root : Nat → Nat → α) (n : Nat) : List α :=
  (List.range (n / 2)).map (root n)

/-- The transform of `2 ^ k` values: entry `t` is the sum of the values
`x j` times `root (2 ^ k) (j * t)`. -/
def transform [Add α] [Sub α] [Mul α] (root : Nat → Nat → α) : (k : Nat) → List α → List α
  | 0, xs => xs
  | k + 1, xs =>
    let (evens, odds) := split xs
    let even := transform root k evens
    let odd := List.zipWith (· * ·) (halfRoots root (Nat.pow 2 (k + 1))) (transform root k odds)
    List.zipWith (· + ·) even odd ++ List.zipWith (· - ·) even odd

/-- The transform of `2 ^ k` values at the odd powers of a root of twice that
order: entry `t` is the sum of the values `x j` times
`root (2 ^ (k + 1)) (j * (2 * t + 1))`. The value `x j` takes its odd share
`root (2 ^ (k + 1)) j` first, and what is left is a transform of `2 ^ k`
values. -/
def transformOdd [Add α] [Sub α] [Mul α] (root : Nat → Nat → α) (k : Nat) (xs : List α) :
    List α :=
  transform root k (List.zipWith (· * ·) xs (halfRoots root (Nat.pow 2 (k + 1))))

/-- Takes entries of two lists in turn. -/
def interleave : (evens odds : List α) → List α
  | x :: evens, y :: odds => x :: y :: interleave evens odds
  | _, _ => []

/-- The transform of `2 ^ (k + 1)` values: entry `t` is the sum of the values `x j`
times `root (2 ^ (k + 1)) (j * t)`. The two halves of the list are joined first: at
even places their sum counts, at odd places their difference. -/
def transformHalves [Add α] [Sub α] [Mul α] (root : Nat → Nat → α) (k : Nat) (xs : List α) :
    List α :=
  let low := xs.take (Nat.pow 2 k)
  let high := xs.drop (Nat.pow 2 k)
  interleave (transform root k (List.zipWith (· + ·) low high))
    (transformOdd root k (List.zipWith (· - ·) low high))

/-! ## Floating-point roots -/

/-- Half of the number pi. -/
def quarterTurn : Float := 1.5707963267948966

/-- Cosine and sine of `part / whole` of a quarter turn. Past the middle the
complement is used, so that no angle exceeds an eighth of a turn; at the start and
in the middle they are known. -/
def cosSin (part whole : Nat) : Slot Float :=
  if part = 0 then ⟨1, 0⟩
  else if 2 * part = whole then ⟨Float.sqrt 0.5, Float.sqrt 0.5⟩
  else if 2 * part < whole then
    let angle := quarterTurn * (Float.ofNat part / Float.ofNat whole)
    ⟨Float.cos angle, Float.sin angle⟩
  else
    let angle := quarterTurn * (Float.ofNat (whole - part) / Float.ofNat whole)
    ⟨Float.sin angle, Float.cos angle⟩

/-- The root of unity at `j / n` of a full turn. -/
def unitRoot (n j : Nat) : Slot Float :=
  let z := cosSin (4 * j % n) n
  match 4 * j / n % 4 with
  | 0 => z
  | 1 => ⟨-z.im, z.re⟩
  | 2 => ⟨-z.re, -z.im⟩
  | _ => ⟨z.im, -z.re⟩

/-- A transform where it keeps the number of entries; else nothing is changed. -/
def keepLength (f : List α → List α) (xs : List α) : { ys : List α // ys.length = xs.length } :=
  if h : (f xs).length = xs.length then ⟨f xs, h⟩ else ⟨xs, rfl⟩

/-- Transforms by halving, of lists whose length is a power of two. Zeros need no
work. The inverse one starts with the two halves, so that numbers that are not finite
in the first half meet a root of unity even if there is nothing but zeros in the
second. -/
def halving : Transforms where
  forward xs :=
    if ∀ z ∈ xs, z.isZero = true then ⟨xs, rfl⟩
    else keepLength (fun xs => transform (fun n j => (unitRoot n j).conj) xs.length.log2 xs) xs
  inverse := keepLength fun xs => transformHalves unitRoot (xs.length.log2 - 1) xs
  forward_zeros xs zeros := by
    rw [if_pos zeros]
    exact zeros

end CipherFlow.Fourier
