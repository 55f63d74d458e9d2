import CipherFlow.Scheme.Context

/-!
# Encryption and decryption

Encryption under a public key `(b, a)` with a ternary `u` and small errors
gives `(b u + e₀ + m, a u + e₁)`; decryption evaluates the components at the
secret.
-/

namespace CipherFlow

open CipherFlow.Ring (Poly)

/-- The random choices of one encryption, as coefficients. -/
structure Ephemeral where
  u : List Int
  e0 : List Int
  e1 : List Int
deriving Repr, DecidableEq

namespace Plaintext

/-- The ciphertext that decrypts to a message under every key. It hides
nothing. -/
def trivial (p : Plaintext) : Ciphertext :=
  ⟨[p.poly, Poly.zero p.poly.basis], p.scale, p.level⟩

/-- Encrypts with given choices, at the level of the message. -/
def encryptWith (p : Plaintext) (ctx : Context) (key : PublicKey) (r : Ephemeral) :
    Except Scheme.Error Ciphertext := do
  let basis ← ctx.basis p.level
  let (b, a) ← key.atBasis basis
  let u := Poly.ofInts basis r.u
  let bu ← Poly.promised (b.mul u)
  let c0 ← bu.add (Poly.ofInts basis r.e0)
  let c0 ← c0.add p.poly
  let au ← Poly.promised (a.mul u)
  let c1 ← au.add (Poly.ofInts basis r.e1)
  return ⟨[c0, c1], p.scale, p.level⟩

/-- Encrypts with fresh coins. -/
def encrypt (p : Plaintext) (ctx : Context) (key : PublicKey) : Scheme.Sampling Ciphertext := do
  let u ← Coins.ternary ctx.degree ctx.params.hammingWeight
  let e0 ← Coins.gaussian ctx.degree ctx.params.errorStd
  let e1 ← Coins.gaussian ctx.degree ctx.params.errorStd
  p.encryptWith ctx key ⟨u, e0, e1⟩

end Plaintext

namespace Ciphertext

/-- The value of the components at a secret, by Horner's rule. -/
def evaluateAt (s : Poly) : (components : List Poly) → Except Ring.Error Poly
  | [] => .ok (Poly.zero s.basis)
  | c :: rest => do
    let higher ← evaluateAt s rest
    let product ← higher.mul s
    product.add c

/-- The message under a secret, with the noise it picked up. -/
def decrypt (c : Ciphertext) (key : SecretKey) : Except Scheme.Error Plaintext := do
  match c.components with
  | [] => throw (.unsupportedSize 0)
  | first :: _ =>
    let s ← key.atBasis first.basis
    let poly ← evaluateAt s c.components
    return ⟨poly, c.scale, c.level⟩

end Ciphertext

end CipherFlow
