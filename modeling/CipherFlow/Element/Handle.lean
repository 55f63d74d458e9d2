import CipherFlow.Scheme.Ciphertext
import CipherFlow.Tensor.Shape

/-!
# Elements

One element of a tensor: plain lanes, or a ciphertext of lanes. A ciphertext
that is known to encrypt zero is not held as one; it only records the scale
and the level that it stands for.
-/

namespace CipherFlow

/-! ## Plain lanes -/

namespace Lanes

variable {α β γ : Type}

/-- A lane. A single lane stands for all lanes; otherwise a lane that is not
there is a fault. -/
def lane (lanes : List α) (i : Nat) : Except Fault α :=
  match lanes with
  | [x] => .ok x
  | lanes => Fault.entry lanes i

/-- Combines lane by lane; a single lane on either side goes with every lane
of the other. Other lengths that differ are a fault. -/
def zipWith (f : α → β → γ) (xs : List α) (ys : List β) : Except Fault (List γ) :=
  if xs.length = ys.length then .ok (List.zipWith f xs ys)
  else
    match xs, ys with
    | [x], y :: rest => .ok ((y :: rest).map (f x))
    | x :: rest, [y] => .ok ((x :: rest).map (f · y))
    | xs, ys => .error (.lengthMismatch xs.length ys.length)

/-- Whether no lane differs from zero. -/
def isAllZero (lanes : List Float) : Bool :=
  lanes.all (· == 0)

/-- The value that all lanes share. -/
def uniform? (lanes : List Float) : Option Float :=
  match lanes with
  | [] => none
  | x :: rest => if rest.all (· == x) then some x else none

end Lanes

/-! ## Encrypted lanes -/

/-- What is known of an encrypted element. -/
inductive CipherState where
  /-- Zero, in place of a ciphertext of this scale and level. -/
  | zero (scale : Binary64) (level : Nat)
  | encrypted (ct : Ciphertext)
deriving Repr, BEq

/-- An encrypted element and how its lanes are packed. -/
structure Handle where
  packing : Packing
  state : CipherState
deriving Repr, BEq

namespace Handle

/-- An element that is known to be zero. -/
def zero (packing : Packing) (scale : Binary64) (level : Nat) : Handle :=
  ⟨packing, .zero scale level⟩

/-- An element held as a ciphertext. -/
def ofCiphertext (ct : Ciphertext) (packing : Packing) : Handle :=
  ⟨packing, .encrypted ct⟩

/-- Whether the element is known to be zero. -/
def isZero (h : Handle) : Bool :=
  match h.state with
  | .zero .. => true
  | .encrypted _ => false

/-- The ciphertext, if there is one. -/
def ciphertext? (h : Handle) : Option Ciphertext :=
  match h.state with
  | .zero .. => none
  | .encrypted ct => some ct

/-- The scale. -/
def scale (h : Handle) : Binary64 :=
  match h.state with
  | .zero scale _ => scale
  | .encrypted ct => ct.scale

/-- The level. -/
def level (h : Handle) : Nat :=
  match h.state with
  | .zero _ level => level
  | .encrypted ct => ct.level

end Handle

/-- One element of a tensor. -/
inductive Element where
  | plain (lanes : List Float)
  | cipher (h : Handle)
deriving Repr, BEq

namespace Element

/-- Whether the element is encrypted. -/
def isCipher : Element → Bool
  | plain _ => false
  | cipher _ => true

/-- Operations that complex packing does not admit. -/
inductive Unsupported where
  /-- The product of two ciphertexts would mix the lanes of a slot. -/
  | cipherProduct
  /-- So would the product with different lanes. -/
  | mixedPlain
deriving Repr, DecidableEq

/-- The name of an operation. -/
def Unsupported.name : Unsupported → String
  | cipherProduct => "ciphertext-ciphertext multiply"
  | mixedPlain => "multiply by a non-uniform plaintext"

/-- What an operation on elements can be refused for. -/
inductive Error where
  | lengthMismatch (arg out : Nat)
  | shape (p : Shape.Problem)
  | packingMismatch (left right : Packing)
  | unsupportedPacking (packing : Packing) (operation : Unsupported)
  | scheme (e : Scheme.Error)
  | fault (f : Fault)
deriving Repr

/-- The wording of an error. -/
def Error.message : Error → String
  | .lengthMismatch arg out =>
    s!"Length mismatch: argument has {arg} elements, output has {out}"
  | .shape p => s!"Shape mismatch: {p.message}"
  | .packingMismatch left right => s!"Packing mismatch: {left.name} vs {right.name}"
  | .unsupportedPacking packing operation =>
    s!"Unsupported under {packing.name} packing: {operation.name}"
  | .scheme e => e.message
  | .fault _ => ""

instance : ToString Error := ⟨Error.message⟩

instance : MonadLift (Except Scheme.Error) (Except Error) := ⟨fun r => r.mapError .scheme⟩

instance : MonadLift (Except Shape.Problem) (Except Error) := ⟨fun r => r.mapError .shape⟩

instance (priority := 1300) : MonadLift (Except Fault) (Except Error) :=
  ⟨fun r => r.mapError .fault⟩

/-- A computation on elements, which may take coins for encryptions. -/
abbrev Compute := StateT Coins (Except Error)

instance : MonadLift Scheme.Sampling Compute := ⟨fun x c => (x.run c).mapError .scheme⟩

end Element

end CipherFlow
