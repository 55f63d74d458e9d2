import CipherFlow.Scheme.Encryption

/-!
# Computing on ciphertexts

An evaluator holds a context and public key material only. It adds and
multiplies ciphertexts and plaintexts, brings products back to two
components, and moves down the modulus chain.
-/

namespace CipherFlow

open CipherFlow.Ring (Poly)

/-- The keys of a party. -/
structure KeySet where
  secret : SecretKey
  publicKey : PublicKey
  relinKey : RelinKey
deriving Repr

namespace KeySet

/-- The keys for given samples. -/
def ofSamples (ctx : Context) (secret : List Int) (pk : Poly × List Int)
    (relin : List (Poly × List Int)) : Except Scheme.Error KeySet := do
  let s := SecretKey.ofCoefficients ctx.topBasis secret
  let publicKey ← PublicKey.ofSamples s pk.1 pk.2
  let relinKey ← RelinKey.ofSamples s relin
  return ⟨s, publicKey, relinKey⟩

/-- Draws keys over the top basis of a context. -/
def draw (ctx : Context) : Key.Sampling KeySet := do
  let s ← SecretKey.generate ctx.topBasis ctx.params.hammingWeight
  let publicKey ← PublicKey.generate s ctx.params.errorStd
  let relinKey ← RelinKey.generate s ctx.params.errorStd
  return ⟨s, publicKey, relinKey⟩

/-- The keys of a seed. -/
def generate (ctx : Context) (coins : Coins) : Except Scheme.Error (KeySet × Coins) := do
  (draw ctx).run coins

end KeySet

/-- Public key material for one context. -/
structure Evaluator where
  context : Context
  publicKey : PublicKey
  relinKey : RelinKey

namespace Evaluator

/-- The evaluator of a context and keys over its primes. -/
def ofKeys (ctx : Context) (publicKey : PublicKey) (relinKey : RelinKey) :
    Except Scheme.Error Evaluator :=
  if publicKey.basis.primes ≠ ctx.primes then .error (.foreignKey .publicKey)
  else if relinKey.digits.length ≠ ctx.primes.length then .error (.foreignKey .relinKey)
  else .ok ⟨ctx, publicKey, relinKey⟩

/-- A fresh encryption of lanes. -/
def encrypt (ev : Evaluator) (lanes : List Float) (packing : Packing) (scale : Binary64)
    (level : Nat) : Scheme.Sampling Ciphertext := do
  let p ← ev.context.encode lanes packing scale level
  p.encrypt ev.context ev.publicKey

/-! ## Sums -/

/-- Adds the components of a shorter list to those of a longer one. -/
def addComponents : (long short : List Poly) → Except Ring.Error (List Poly)
  | x :: long, y :: short => do
    let z ← x.add y
    let rest ← addComponents long short
    return z :: rest
  | long, _ => .ok long

/-- The sum of two ciphertexts of one level and matching scales. -/
def add (_ev : Evaluator) (a b : Ciphertext) : Except Scheme.Error Ciphertext := do
  Scheme.checkLevel a.level b.level
  Scheme.checkScale a.scale b.scale
  let components ←
    if b.size ≤ a.size then addComponents a.components b.components
    else addComponents b.components a.components
  return ⟨components, a.scale, a.level⟩

/-- The sum of a ciphertext and a plaintext of one level and matching
scales; a fault for a ciphertext without components. -/
def addPlain (_ev : Evaluator) (a : Ciphertext) (p : Plaintext) :
    Except Scheme.Error Ciphertext := do
  Scheme.checkLevel a.level p.level
  Scheme.checkScale a.scale p.scale
  match a.components with
  | [] => throw (.fault (.outOfRange 0 0))
  | c :: rest =>
    let c ← c.add p.poly
    return ⟨c :: rest, a.scale, a.level⟩

/-! ## Products -/

/-- Adds the digits of `d` times the samples of a key, counting from a
channel on, to a pair of components. -/
def switchKey (d : Poly) : (index : Nat) → (samples : List (Poly × Poly)) →
    (c0 c1 : Poly) → Except Ring.Error (Poly × Poly)
  | _, [], c0, c1 => .ok (c0, c1)
  | index, (b, a) :: samples, c0, c1 => do
    let digit ← d.digit index
    let db ← digit.mul b
    let c0 ← c0.add db
    let da ← digit.mul a
    let c1 ← c1.add da
    switchKey d (index + 1) samples c0 c1

/-- Replaces the component at the square of the secret. -/
def relinearise (ev : Evaluator) (d0 d1 d2 : Poly) : Except Scheme.Error (Poly × Poly) := do
  let samples ← ev.relinKey.digitsAt d2.basis
  switchKey d2 0 samples d0 d1

/-- The product of two ciphertexts of two components, of one level and
matching scales. -/
def multiply (ev : Evaluator) (a b : Ciphertext) : Except Scheme.Error Ciphertext := do
  Scheme.checkLevel a.level b.level
  Scheme.checkScale a.scale b.scale
  match a.components, b.components with
  | [a0, a1], [b0, b1] =>
    let d0 ← a0.mul b0
    let cross ← a0.mul b1
    let cross' ← a1.mul b0
    let d1 ← cross.add cross'
    let d2 ← a1.mul b1
    let (c0, c1) ← ev.relinearise d0 d1 d2
    return ⟨[c0, c1], a.scale * b.scale, a.level⟩
  | _, _ => throw (.unsupportedSize (max a.size b.size))

/-- The product of a ciphertext and a plaintext of one level. -/
def multiplyPlain (_ev : Evaluator) (a : Ciphertext) (p : Plaintext) :
    Except Scheme.Error Ciphertext := do
  Scheme.checkLevel a.level p.level
  let components ← a.components.mapM (·.mul p.poly)
  return ⟨components, a.scale * p.scale, a.level⟩

/-! ## Down the chain -/

/-- Divides by the last prime of the level and goes one level down. -/
def rescale (ev : Evaluator) (a : Ciphertext) : Except Scheme.Error Ciphertext := do
  match ev.context.rescaleModulus a.level with
  | none => throw .modulusChainExhausted
  | some q =>
    let target ← ev.context.basis (a.level - 1)
    let components ← a.components.mapM (·.divideByLast target)
    return ⟨components, a.scale / .ofNat q, a.level - 1⟩

/-- Leaves primes out down to a level; the message and its scale stay. -/
def switchTo (ev : Evaluator) (a : Ciphertext) (level : Nat) :
    Except Scheme.Error Ciphertext := do
  if a.level < level then throw (.levelMismatch a.level level)
  let target ← ev.context.basis level
  let components ← a.components.mapM (·.dropTo target)
  return ⟨components, a.scale, level⟩

end Evaluator

end CipherFlow
