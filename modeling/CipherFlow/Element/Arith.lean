import CipherFlow.Element.Handle
import CipherFlow.Scheme.Evaluator

/-!
# Sums and products of elements

Elements of both kinds are added and multiplied with one another. Where an
operand is known to be zero, the result follows without touching a
ciphertext; else it is what the evaluator computes.
-/

namespace CipherFlow.Element

/-- The scale at which plain factors are encoded at a level: the prime that
the next rescaling divides by, so that the product comes back to its scale. -/
def plainScale (ctx : Context) (level : Nat) : Binary64 :=
  match ctx.rescaleModulus level with
  | some q => .ofNat q
  | none => ctx.defaultScale

/-- Requires encrypted operands of one packing, one level and matching
scales. -/
def checkOperands (a b : Handle) : Except Error Unit :=
  if a.packing ≠ b.packing then .error (.packingMismatch a.packing b.packing)
  else do
    Scheme.checkLevel a.level b.level
    Scheme.checkScale a.scale b.scale

/-! ## Sums -/

/-- The sum of an encrypted element and plain lanes. -/
def addPlain (ev : Evaluator) (c : Handle) (p : List Float) : Compute Handle := do
  if Lanes.isAllZero p then return c
  match c.state with
  | .zero scale level =>
    let ct ← ev.encrypt p c.packing scale level
    return .ofCiphertext ct c.packing
  | .encrypted ct =>
    let encoded ← ev.context.encode p c.packing ct.scale ct.level
    let sum ← ev.addPlain ct encoded
    return .ofCiphertext sum c.packing

/-- The sum of two encrypted elements. -/
def addCipher (ev : Evaluator) (x y : Handle) : Except Error Handle := do
  checkOperands x y
  match x.state, y.state with
  | .zero .., _ => return y
  | _, .zero .. => return x
  | .encrypted l, .encrypted r =>
    let sum ← ev.add l r
    return .ofCiphertext sum x.packing

/-- The sum of two elements. -/
def add (ev : Evaluator) : (a b : Element) → Compute Element
  | .plain x, .plain y => do return .plain (← Lanes.zipWith (· + ·) x y)
  | .cipher c, .plain p => do return .cipher (← addPlain ev c p)
  | .plain p, .cipher c => do return .cipher (← addPlain ev c p)
  | .cipher x, .cipher y => do return .cipher (← addCipher ev x y)

/-! ## Products -/

/-- The lanes by which a ciphertext can be multiplied, encoded in real slots:
any under real packing; under complex packing equal ones, as one factor. -/
def factorLanes (packing : Packing) (p : List Float) : Except Error (List Float) :=
  match packing with
  | .real => .ok p
  | .complex =>
    match Lanes.uniform? p with
    | some r => .ok [r]
    | none => .error (.unsupportedPacking .complex .mixedPlain)

/-- The product of an encrypted element and plain lanes. -/
def multiplyPlain (ev : Evaluator) (c : Handle) (p : List Float) : Except Error Handle :=
  let factorScale := plainScale ev.context c.level
  let zero := Handle.zero c.packing (c.scale * factorScale) c.level
  match c.state with
  | .zero .. => .ok zero
  | .encrypted ct =>
    if Lanes.isAllZero p then .ok zero
    else do
      let lanes ← factorLanes c.packing p
      let encoded ← ev.context.encode lanes .real factorScale ct.level
      let product ← ev.multiplyPlain ct encoded
      return .ofCiphertext product c.packing

/-- The product of two encrypted elements. -/
def multiplyCipher (ev : Evaluator) (x y : Handle) : Except Error Handle := do
  if x.packing.isComplex || y.packing.isComplex then
    throw (.unsupportedPacking .complex .cipherProduct)
  checkOperands x y
  match x.state, y.state with
  | .encrypted l, .encrypted r =>
    let product ← ev.multiply l r
    return .ofCiphertext product x.packing
  | _, _ => return .zero x.packing (x.scale * y.scale) x.level

/-- The product of two elements. -/
def multiply (ev : Evaluator) : (a b : Element) → Compute Element
  | .plain x, .plain y => do return .plain (← Lanes.zipWith (· * ·) x y)
  | .cipher c, .plain p => do return .cipher (← multiplyPlain ev c p)
  | .plain p, .cipher c => do return .cipher (← multiplyPlain ev c p)
  | .cipher x, .cipher y => do return .cipher (← multiplyCipher ev x y)

/-! ## Rescaling -/

/-- Rescales an encrypted element; one that is known to be zero only moves to
the scale and the level of the result. -/
def rescaleHandle (ev : Evaluator) (h : Handle) : Except Error Handle :=
  match h.state with
  | .zero scale level =>
    match ev.context.rescaleModulus level with
    | some q => .ok (.zero h.packing (scale / .ofNat q) (level - 1))
    | none => .error (.scheme .modulusChainExhausted)
  | .encrypted ct => do
    let ct ← ev.rescale ct
    return .ofCiphertext ct h.packing

/-- Rescales an element; plain lanes carry no scale and stay. -/
def rescale (ev : Evaluator) : Element → Except Error Element
  | .plain p => .ok (.plain p)
  | .cipher h => do return .cipher (← rescaleHandle ev h)

/-- Requires as many arguments as places for results, which have to fit into
memory. -/
def checkRoom (width arguments places : Nat) : Except Error Unit := do
  Fault.reserve width places
  if arguments ≠ places then throw (.lengthMismatch arguments places)

/-- The bytes of a place for plain lanes. -/
def lanesWidth : Nat := 24

/-- Rescales encrypted elements into a given number of places. -/
def rescaleHandles (ev : Evaluator) (hs : List Handle) (places : Nat) :
    Except Error (List Handle) := do
  checkRoom Shape.elementWidth hs.length places
  hs.mapM (rescaleHandle ev)

/-- Rescales plain elements into a given number of places: they stay. -/
def rescalePlain (ps : List (List Float)) (places : Nat) : Except Error (List (List Float)) := do
  checkRoom lanesWidth ps.length places
  return ps

end CipherFlow.Element
