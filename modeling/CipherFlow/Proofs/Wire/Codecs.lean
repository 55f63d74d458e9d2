import CipherFlow.Proofs.Session.Contents

/-!
# Readers and writers that belong together

Parameters and keys come from a peer, as bytes that the peer chose. Their
readers accept exactly what their writers give: a reader either refuses its
bytes, with an error and not with a fault, or takes from the front what is
written for a value that meets the conditions on such values; and every such
value is written, and read back whatever follows it.

`codecs_exact` states it for all three. A `Codec` comes from a reader that accepts
what is written and returns in any case (`Accepts.codec`); what is accepted is put
together field by field, as in `CipherFlow.Proofs.Wire.Ciphertext`.
-/

namespace CipherFlow.Wire

open Returning
open CipherFlow.Ring (Basis)

variable {α : Type} {read : Reader α} {write : α → Except Error Bytes} {P : α → Prop}

/-- A reader and a writer belong together on the values with a property. -/
structure Codec (read : Reader α) (write : α → Except Error Bytes) (P : α → Prop) : Prop where
  reads : ∀ bytes, (∃ e, read.run bytes = .error e ∧ Faulty.isFault e = false) ∨
    ∃ x written rest, read.run bytes = .ok (x, rest) ∧ P x ∧ write x = .ok written ∧
      bytes = written ++ rest
  writes : ∀ x, P x → ∃ written, write x = .ok written ∧
    ∀ rest, read.run (written ++ rest) = .ok (x, rest)

/-- They do if the reader accepts what is written, and returns in any case. -/
theorem Accepts.codec {bytesOf : α → Bytes} (accepts : Accepts read bytesOf P)
    (returns : Returns read P) (written : ∀ x, P x → write x = .ok (bytesOf x)) :
    Codec read write P where
  reads bytes := by
    cases eq : read.run bytes with
    | error e => exact .inl ⟨e, rfl, error_of_returns (returns bytes) eq⟩
    | ok r =>
      obtain ⟨x, rest⟩ := r
      obtain ⟨hx, split⟩ := (accepts bytes x rest).mp eq
      exact .inr ⟨x, bytesOf x, rest, rfl, hx, written x hx, split⟩
  writes x hx := ⟨bytesOf x, written x hx, fun _ => (accepts _ _ _).mpr ⟨hx, rfl⟩⟩

/-! ## Keys -/

section Keys

variable {ctx : Context} (sound : ctx.Sound) (sized : ctx.Sized) (distinct : ctx.DistinctIds)

include sound sized distinct in
theorem readPublicKey_accepts :
    Accepts (readPublicKey ctx) (fun k => topBytes ctx ++ pairBytes (k.b, k.a))
      (PublicKey.IsOver ctx.topBasis) := by
  intro bytes k rest
  rw [readPublicKey_run sound sized, readTopLevel_accepts sound distinct bytes _ _,
    List.append_assoc]
  simp only [true_and]

include sound sized distinct in
theorem readRelinKey_accepts :
    Accepts (readRelinKey ctx)
      (fun k => topBytes ctx ++ wordBytes k.digits.length ++ k.digits.flatMap pairBytes)
      (RelinKey.IsOver ctx.topBasis) := by
  intro bytes k rest
  rw [readRelinKey_run sound sized, readTopLevel_accepts sound distinct bytes _ _,
    List.append_assoc, List.append_assoc]
  simp only [true_and]

include sound in
theorem publicKeyBytes_ok (k : PublicKey) :
    publicKeyBytes ctx k = .ok (topBytes ctx ++ pairBytes (k.b, k.a)) := by
  rw [publicKeyBytes, topLevelBytes_ok sound]
  rfl

include sound in
theorem relinKeyBytes_ok (k : RelinKey) :
    relinKeyBytes ctx k =
      .ok (topBytes ctx ++ wordBytes k.digits.length ++ k.digits.flatMap pairBytes) := by
  rw [relinKeyBytes, topLevelBytes_ok sound]
  rfl

end Keys

/-- Parameters that meet their conditions, and keys over the top basis of a
context that tells its levels apart, are read from exactly the bytes that are
written for them. -/
theorem codecs_exact [Primitives] {params : Params} {ctx : Context}
    (ofParams : Context.ofParams params = .ok ctx) (distinct : ctx.DistinctIds) :
    Codec readParams (fun p => .ok (paramsBytes p)) (·.problem? = none) ∧
    Codec (readPublicKey ctx) (publicKeyBytes ctx) (PublicKey.IsOver ctx.topBasis) ∧
    Codec (readRelinKey ctx) (relinKeyBytes ctx) (RelinKey.IsOver ctx.topBasis) := by
  have sound := Context.sound_of_ofParams ofParams
  have sized := Context.sized_of_ofParams ofParams
  refine ⟨?_, ?_, ?_⟩
  · exact readParams_accepts.codec readParams_returns fun _ _ => rfl
  · exact (readPublicKey_accepts sound sized distinct).codec
      (readPublicKey_returns sound sized) fun k _ => publicKeyBytes_ok sound k
  · exact (readRelinKey_accepts sound sized distinct).codec
      (readRelinKey_returns sound sized) fun k _ => relinKeyBytes_ok sound k

attribute [local instance] Primitives.coarse

/-- The parameters of the tiny context before another byte, and the keys that
can be sent for it. -/
theorem codecs_exact_tiny :
    Context.ofParams Context.tiny.params = .ok Context.tiny ∧ Context.tiny.DistinctIds ∧
      readParams.run (paramsBytes Context.tiny.params ++ [7]) = .ok (Context.tiny.params, [7]) ∧
      Codec (readPublicKey Context.tiny) (publicKeyBytes Context.tiny)
        (PublicKey.IsOver Context.tiny.topBasis) ∧
      Codec (readRelinKey Context.tiny) (relinKeyBytes Context.tiny)
        (RelinKey.IsOver Context.tiny.topBasis) := by
  have distinct : Context.tiny.DistinctIds := by decide +kernel
  have accepted : Context.tiny.params.problem? = none := by decide +kernel
  obtain ⟨forParams, forPublic, forRelin⟩ := codecs_exact Context.ofParams_tiny distinct
  obtain ⟨written, bytes, reads⟩ := forParams.writes _ accepted
  obtain rfl := Except.ok.inj bytes
  exact ⟨Context.ofParams_tiny, distinct, reads [7], forPublic, forRelin⟩

end CipherFlow.Wire
