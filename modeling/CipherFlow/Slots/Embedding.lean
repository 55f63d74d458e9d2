import CipherFlow.Arith.Modular
import CipherFlow.Number.Decimal
import CipherFlow.Primitives

/-!
# The canonical embedding

A real polynomial of degree below `n` is determined by its values at half of
the odd powers of a `2n`-th root of unity: slot `j` is the value at the power
`5 ^ j`, and the conjugate power carries the conjugate value. Encoding
interpolates scaled slots and rounds the coefficients; decoding evaluates.
-/

namespace CipherFlow.Slots

/-- What an encoding can be refused for. -/
inductive Error where
  /-- A scale that is not finite and positive. -/
  | scale (given : Float)
  /-- A slot value that is not finite. -/
  | slot (given : Slot Float)
  /-- Another number of coefficients than the degree. -/
  | coefficientCount (expected given : Nat)
  | ringDegree (degree : Nat)
  | inputTooLong (got max : Nat)
  /-- A coefficient beyond all numbers. -/
  | coefficientOutOfRange (value : Float)
  | fault (f : Fault)
deriving Repr

/-- A number's text with a sign of its own for negative ones. -/
def magnitudeText (x : Float) : String :=
  Decimal.shortest (if x < 0 then 0 - x else x)

/-- A complex number as the sum of its parts. -/
def complexText (z : Slot Float) : String :=
  (if z.re < 0 then "-" else "") ++ magnitudeText z.re ++
    (if z.im < 0 then "-" else "+") ++ magnitudeText z.im ++ "i"

/-- The wording of an error. -/
def Error.message : Error → String
  | .scale given =>
    s!"Invalid input: scale must be finite and positive, got {Decimal.shortest given}"
  | .slot given => s!"Invalid input: slot value {complexText given} is not finite"
  | .coefficientCount expected given =>
    s!"Invalid input: expected {expected} coefficients, got {given}"
  | .ringDegree degree => s!"Ring degree {degree} not supported"
  | .inputTooLong got max => s!"Input too long: got {got}, max {max}"
  | .coefficientOutOfRange value => s!"Coefficient {Decimal.shortest value} out of range"
  | .fault _ => ""

instance : ToString Error := ⟨Error.message⟩

instance : MonadLift (Except Fault) (Except Error) := ⟨fun r => r.mapError .fault⟩

/-- The bytes of a slot: two numbers. -/
def slotWidth : Nat := 16

/-- Lays lanes out over slots, if there is room for them. A single lane fills
all slots, so that many have to fit into memory. -/
def layOut {α : Type} [OfNat α 0] (packing : Packing) (lanes : List α) (slots : Nat) :
    Except Error (List (Slot α)) := do
  let capacity ← packing.capacity? slots
  if capacity < lanes.length then throw (.inputTooLong lanes.length capacity)
  if lanes.length = 1 then Fault.reserve slotWidth slots
  return packing.slotsOf lanes slots

/-- The slots of a batch of numbers. -/
def pack (packing : Packing) (lanes : List Float) (slots : Nat) :
    Except Error (List (Slot Float)) :=
  layOut packing lanes slots

/-- An encoder for the ring of a degree, with the transforms it uses. -/
structure Embedding where
  degree : Nat
  transforms : Fourier.Transforms

namespace Embedding

/-- The encoder of a degree that is a power of two from four on. The root has
an order of twice the degree, and every slot a position. -/
def ofDegree [Primitives] (degree : Nat) : Except Error Embedding := do
  if degree < 4 ∨ degree ≠ Nat.pow 2 degree.log2 then throw (.ringDegree degree)
  let _ ← Fault.checkSize (2 * degree)
  Fault.reserve 8 (degree / 2)
  return ⟨degree, Primitives.transforms⟩

/-- The number of slots. -/
def slotCount (e : Embedding) : Nat :=
  e.degree / 2

/-- A one-line description of an encoder. -/
def describe (e : Embedding) : String :=
  "RustFftEncoder \x7b degree: " ++ toString e.degree ++ ", slots: " ++
    toString e.slotCount ++ " \x7d"

/-- The powers of the root that carry the slots: `5 ^ j` modulo `2n`. -/
def positions (degree : Nat) : List Nat :=
  (List.range (degree / 2)).map fun j => Modular.pow 5 j (2 * degree)

/-- The values at all powers of the root: given ones at the positions of the
slots, their conjugates at the opposite powers, zero elsewhere. -/
def spectrum {α : Type} (zero : α) (conj : α → α) (degree : Nat) (values : List α) :
    List α :=
  let size := 2 * degree
  let place (acc : Array α) (gv : Nat × α) : Array α :=
    (acc.setIfInBounds gv.1 gv.2).setIfInBounds (size - gv.1) (conj gv.2)
  (((positions degree).zip values).foldl place (Array.replicate size zero)).toList

/-- Requires finite parts. -/
def checkSlot (z : Slot Float) : Except Error Unit :=
  if Binary64.isFinite z.re && Binary64.isFinite z.im then .ok () else .error (.slot z)

/-- The nearest integer to a coefficient, if it is finite. -/
def roundCoefficient (x : Float) : Except Error Int :=
  match Binary64.round? x with
  | some n => .ok n
  | none => .error (.coefficientOutOfRange x)

/-- The rounded coefficients of the polynomial with given slots, each scaled.
Slots that are not given are zero. -/
def encode (e : Embedding) (slots : List (Slot Float)) (scale : Float) :
    Except Error (List Int) := do
  if e.slotCount < slots.length then throw (.inputTooLong slots.length e.slotCount)
  if !Binary64.isPositive scale then throw (.scale scale)
  slots.forM checkSlot
  let values := spectrum ⟨0, 0⟩ Slot.conj e.degree (slots.map (·.scaleBy scale))
  let sums := (e.transforms.forward values).1
  let norm := 1 / Float.ofNat e.degree
  (sums.take e.degree).mapM fun z => roundCoefficient (z.re * norm)

/-- The slots of a polynomial, each divided by the scale: its values at the powers
of the root that carry them. The coefficients are followed by zeros up to the order
of the root. -/
def decode (e : Embedding) (coeffs : List Float) (scale : Float) :
    Except Error (List (Slot Float)) :=
  if coeffs.length ≠ e.degree then
    .error (.coefficientCount e.degree coeffs.length)
  else
    let padded := coeffs.map (⟨·, 0⟩) ++ List.replicate e.degree ⟨0, 0⟩
    let values := (e.transforms.inverse padded).1.toArray
    .ok ((positions e.degree).map fun g => (values.getD g ⟨0, 0⟩).divideBy scale)

end Embedding

end CipherFlow.Slots
