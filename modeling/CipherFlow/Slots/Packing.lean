import CipherFlow.Fault

/-!
# Lanes in slots

A batch of real lanes is laid out over complex slots. Real packing puts one
lane into each slot; complex packing puts two, one into each part.
-/

namespace CipherFlow

/-- The complex number that a slot holds. -/
structure Slot (α : Type) where
  re : α
  im : α
deriving Repr, DecidableEq

namespace Slot

variable {α : Type}

instance [Add α] : Add (Slot α) := ⟨fun x y => ⟨x.re + y.re, x.im + y.im⟩⟩

instance [Sub α] : Sub (Slot α) := ⟨fun x y => ⟨x.re - y.re, x.im - y.im⟩⟩

instance [Add α] [Sub α] [Mul α] : Mul (Slot α) :=
  ⟨fun x y => ⟨x.re * y.re - x.im * y.im, x.re * y.im + x.im * y.re⟩⟩

/-- The complex conjugate. -/
def conj [Neg α] (x : Slot α) : Slot α :=
  ⟨x.re, -x.im⟩

/-- The product with a real number. -/
def scaleBy [Mul α] (x : Slot α) (r : α) : Slot α :=
  ⟨x.re * r, x.im * r⟩

/-- The quotient by a real number. -/
def divideBy [Div α] (x : Slot α) (r : α) : Slot α :=
  ⟨x.re / r, x.im / r⟩

/-- Both parts are zero, of either sign. -/
def isZero (z : Slot Float) : Bool :=
  z.re == 0 && z.im == 0

end Slot

/-- How lanes are laid out over slots. -/
inductive Packing where
  /-- One lane to a slot. -/
  | real
  /-- Two lanes to a slot, in its real and imaginary part. -/
  | complex
deriving Repr, DecidableEq

namespace Packing

/-- The name of a packing. -/
def name : Packing → String
  | real => "real"
  | complex => "complex"

/-- The packing that a flag asks for. -/
def ofFlag (isComplex : Bool) : Packing :=
  if isComplex then complex else real

/-- Whether two lanes share a slot. -/
def isComplex : Packing → Bool
  | real => false
  | complex => true

/-- The number of lanes in a slot. -/
def lanesPerSlot : Packing → Nat
  | real => 1
  | complex => 2

/-- The number of lanes in a given number of slots. -/
def capacity (packing : Packing) (slots : Nat) : Nat :=
  slots * packing.lanesPerSlot

/-- The number of lanes in any number of slots; a fault where it does not
fit a machine word. -/
def capacity? (packing : Packing) (slots : Nat) : Except Fault Nat :=
  Fault.checkSize (packing.capacity slots)

variable {α : Type} [OfNat α 0]

/-- Puts neighbouring lanes together; a last one without a neighbour gets a
zero. -/
def pairs : List α → List (Slot α)
  | x :: y :: rest => ⟨x, y⟩ :: pairs rest
  | [x] => [⟨x, 0⟩]
  | [] => []

/-- The slots of a list of lanes within the capacity. A single lane stands
for as many equal ones as there is room for. -/
def slotsOf (packing : Packing) (lanes : List α) (slots : Nat) : List (Slot α) :=
  match packing, lanes with
  | real, [x] => List.replicate slots ⟨x, 0⟩
  | complex, [x] => List.replicate slots ⟨x, x⟩
  | real, lanes => lanes.map (⟨·, 0⟩)
  | complex, lanes => pairs lanes

omit [OfNat α 0] in
/-- The first `count` lanes of a list of slots. -/
def lanesOf (packing : Packing) (slots : List (Slot α)) (count : Nat) : List α :=
  match packing with
  | real => (slots.map (·.re)).take count
  | complex => (slots.flatMap fun z => [z.re, z.im]).take count

end Packing

end CipherFlow
