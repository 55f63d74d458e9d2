import CipherFlow.Scheme.Key
import CipherFlow.Scheme.Params
import CipherFlow.Slots.Embedding

/-!
# Plaintexts and ciphertexts

The two kinds of scaled ring elements that the scheme computes with, the
errors of the scheme, and the conditions under which operands go together.
-/

namespace CipherFlow

open CipherFlow.Ring (Poly)

namespace Scheme

/-- Key material that an evaluator cannot be built from. -/
inductive Foreign where
  | publicKey
  | relinKey
deriving Repr, DecidableEq

/-- What an operation of the scheme can be refused for. -/
inductive Error where
  | invalidParameter (p : Params.Problem)
  /-- Keys that belong to another modulus chain. -/
  | foreignKey (k : Foreign)
  | encoding (e : Slots.Error)
  | ring (e : Ring.Error)
  | key (e : Key.Error)
  | prime (e : Prime.Error)
  | scaleMismatch (expected actual : Float)
  | levelMismatch (expected actual : Nat)
  | invalidLevel (level top : Nat)
  | modulusChainExhausted
  | unsupportedSize (size : Nat)
  | fault (f : Fault)
deriving Repr

/-- The wording of an error. -/
def Error.message : Error → String
  | .invalidParameter p => s!"Invalid parameter: {p.message}"
  | .foreignKey .publicKey =>
    "Invalid parameter: public key does not belong to this context"
  | .foreignKey .relinKey =>
    "Invalid parameter: relinearization key does not belong to this context"
  | .encoding e => s!"Encoding failed: {e.message}"
  | .ring e => s!"Ring operation failed: {e.message}"
  | .key e => s!"Key operation failed: {e.message}"
  | .prime e => s!"Modulus chain construction failed: {e.message}"
  | .scaleMismatch expected actual =>
    s!"Scale mismatch: expected {Decimal.fixed 2 expected}, got {Decimal.fixed 2 actual}"
  | .levelMismatch expected actual => s!"Level mismatch: expected {expected}, got {actual}"
  | .invalidLevel level top => s!"Level {level} outside the modulus chain (top level {top})"
  | .modulusChainExhausted => "Modulus chain exhausted: cannot rescale below level 0"
  | .unsupportedSize size => s!"Ciphertext of size {size} not supported here (expected 2)"
  | .fault _ => ""

instance : ToString Error := ⟨Error.message⟩

instance : MonadLift (Except Slots.Error) (Except Error) := ⟨fun r => r.mapError .encoding⟩

instance (priority := 1200) : MonadLift (Except Ring.Error) (Except Error) :=
  ⟨fun r => r.mapError .ring⟩

instance : MonadLift (Except Key.Error) (Except Error) := ⟨fun r => r.mapError .key⟩

instance : MonadLift (Except Prime.Error) (Except Error) := ⟨fun r => r.mapError .prime⟩

/-- Passes parameters on that meet their conditions. -/
def checkParams (p : Params) : Except Error Params :=
  match p.problem? with
  | some problem => .error (.invalidParameter problem)
  | none => .ok p

/-- An operation of the scheme that takes coins. -/
abbrev Sampling := StateT Coins (Except Error)

end Scheme

/-- An encoded message: a ring element that stands for slots times a scale. -/
structure Plaintext where
  poly : Poly
  scale : Binary64
  level : Nat
deriving Repr, BEq

/-- An encrypted message. Under a secret `s` it decrypts to
`c₀ + c₁ s + c₂ s² + …`. -/
structure Ciphertext where
  components : List Poly
  scale : Binary64
  level : Nat
deriving Repr, BEq

namespace Ciphertext

/-- The number of components. -/
def size (c : Ciphertext) : Nat :=
  c.components.length

/-- The ring degree, zero without components. -/
def degree (c : Ciphertext) : Nat :=
  match c.components with
  | [] => 0
  | p :: _ => p.degree

end Ciphertext

namespace Scheme

/-- The larger of two numbers. -/
def larger (x y : Float) : Float :=
  if x < y then y else x

/-- Whether two scales are equal up to the rounding errors they pick up. -/
def scalesMatch (a b : Float) : Bool :=
  (a - b).abs ≤ 1e-9 * larger a.abs b.abs

/-- Requires matching scales. -/
def checkScale (expected actual : Float) : Except Error Unit :=
  if scalesMatch expected actual then .ok () else .error (.scaleMismatch expected actual)

/-- Requires equal levels. -/
def checkLevel (expected actual : Nat) : Except Error Unit :=
  if expected = actual then .ok () else .error (.levelMismatch expected actual)

end Scheme

end CipherFlow
