import CipherFlow.Fault
import CipherFlow.Number.Binary64

/-!
# Coins

Random choices are drawn from coins: a tape of outcomes, read one after the
other. Which generator fills the tape is left open, so what holds for all coins
holds for every generator, and for every order in which parties that share one
take their turns. What is drawn is passed on as a value, so that keys and
ciphertexts are plain functions of their samples.
-/

namespace CipherFlow

/-- A tape of random outcomes and the place where reading goes on. At each place
stand a number, for a choice among finitely many, and a real number of the normal
distribution. -/
structure Coins where
  place : Nat
  numbers : Nat → Nat
  normals : Nat → Float

/-- Coins that fall on zero all the time. -/
instance : Inhabited Coins := ⟨⟨0, fun _ => 0, fun _ => 0⟩⟩

/-- A value that takes coins to make. -/
abbrev Draw := StateM Coins

/-- A draw within an operation that may also be refused. -/
instance [Monad m] : MonadLift Draw (StateT Coins m) := ⟨fun d c => pure (d.run c)⟩

namespace Coins

/-- The coins that are left when one place has been read. -/
def rest (c : Coins) : Coins :=
  { c with place := c.place + 1 }

/-- A number below a positive bound. -/
def below (bound : Nat) : Draw Nat := fun c =>
  (c.numbers c.place % bound, c.rest)

/-- A normally distributed number. -/
def normal : Draw Float := fun c =>
  (c.normals c.place, c.rest)

/-- Draws a given number of values. -/
def repeated (draw : Draw α) : Nat → Draw (List α)
  | 0 => return []
  | n + 1 => do
    let x ← draw
    let xs ← repeated draw n
    return x :: xs

/-- Uniform residues. -/
def residues (degree modulus : Nat) : Draw (List Nat) :=
  repeated (below modulus) degree

/-- Rounded normal integers of a standard deviation. -/
def gaussian (degree : Nat) (deviation : Float) : Draw (List Int) :=
  repeated (do return Binary64.nearestWord (deviation * (← normal))) degree

/-- Coefficients in `-1, 0, 1` with exactly `weight` nonzero ones among
`degree`, provided that there are so many: each place is taken with the
chance that makes all choices of places equally likely. -/
def ternary : (degree weight : Nat) → Draw (List Int)
  | 0, _ => return []
  | degree + 1, weight => do
    if (← below (degree + 1)) < weight then
      let sign ← below 2
      let rest ← ternary degree (weight - 1)
      return (if sign = 0 then 1 else -1) :: rest
    else
      let rest ← ternary degree weight
      return 0 :: rest

/-! ## Draws with arguments that nobody has checked -/

/-- Uniform residues; a fault modulo zero. -/
def residues? (degree modulus : Nat) : Except Fault (Draw (List Nat)) := do
  if modulus = 0 then throw .zeroModulus
  Fault.reserve 8 degree
  return residues degree modulus

/-- Rounded normal integers; a fault unless the deviation is finite and
positive. -/
def gaussian? (degree : Nat) (deviation : Float) : Except Fault (Draw (List Int)) := do
  if !Binary64.isPositive deviation then throw .deviation
  Fault.reserve 8 degree
  return gaussian degree deviation

/-- Ternary coefficients; a fault if there are fewer than the weight. -/
def ternary? (degree weight : Nat) : Except Fault (Draw (List Int)) := do
  if degree < weight then throw (.excessWeight weight degree)
  Fault.reserve 8 degree
  return ternary degree weight

end Coins

end CipherFlow
