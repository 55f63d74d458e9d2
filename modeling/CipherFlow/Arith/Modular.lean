import CipherFlow.Fault

/-!
# Residues

Arithmetic modulo a positive number, and the passage between a residue and
its centred representative. Residues are natural numbers; an operation on
residues below the modulus answers with a residue below the modulus.
-/

namespace CipherFlow.Modular

/-- The residue of a product. -/
def mul (a b m : Nat) : Nat :=
  a * b % m

/-- The residue of a sum of two residues, by at most one subtraction. -/
def add (a b m : Nat) : Nat :=
  let s := a + b
  if m ≤ s then s - m else s

/-- The residue of a difference of two residues, by at most one addition. -/
def sub (a b m : Nat) : Nat :=
  if b ≤ a then a - b else a + m - b

/-- The residue of an opposite. -/
def neg (a m : Nat) : Nat :=
  if a = 0 then 0 else m - a

/-- Square-and-multiply over the lowest `width` binary digits of the
exponent: `acc * base ^ exponent` modulo `m`. -/
def powLoop (m : Nat) : (width acc base exponent : Nat) → Nat
  | 0, acc, _, _ => acc
  | width + 1, acc, base, exponent =>
    let acc := if exponent % 2 = 1 then mul acc base m else acc
    powLoop m width acc (mul base base m) (exponent / 2)

/-- The residue of a power. -/
def pow (base exponent m : Nat) : Nat :=
  powLoop m (exponent.log2 + 1) (1 % m) (base % m) exponent

/-- The inverse modulo a prime, by Fermat's little theorem. It inverts
exactly the values that the prime does not divide. -/
def inv (a p : Nat) : Nat :=
  pow (a % p) (p - 2) p

/-- The representative of a residue in `(-q/2, q/2]`. -/
def centre (residue q : Nat) : Int :=
  if q / 2 < residue then -((q - residue : Nat) : Int) else residue

/-- The residue of a signed integer. -/
def ofInt (value : Int) (q : Nat) : Nat :=
  (value % (q : Int)).toNat

/-! ## The same operations for arguments that nobody has checked -/

/-- A product modulo any number; a fault modulo zero. -/
def mul? (a b m : Nat) : Except Fault Nat :=
  if m = 0 then .error .zeroModulus else .ok (mul a b m)

/-- A power modulo any number; a fault modulo zero. -/
def pow? (base exponent m : Nat) : Except Fault Nat :=
  if m = 0 then .error .zeroModulus else .ok (pow base exponent m)

/-- An inverse modulo a prime; a fault where there is none. -/
def inv? (a p : Nat) : Except Fault Nat :=
  if p = 0 then .error .zeroModulus
  else if a % p = 0 then .error (.noInverse a p)
  else .ok (inv a p)

/-- A centred representative; a fault for a number above the modulus. The
modulus itself stands for zero. -/
def centre? (residue q : Nat) : Except Fault Int :=
  if q < residue then .error (.aboveModulus residue q) else .ok (centre residue q)

/-- The residue of a signed integer modulo any number; a fault modulo zero. -/
def ofInt? (value : Int) (q : Nat) : Except Fault Nat :=
  if q = 0 then .error .zeroModulus else .ok (ofInt value q)

end CipherFlow.Modular
