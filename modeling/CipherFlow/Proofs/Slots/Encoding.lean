import CipherFlow.Proofs.Fault
import CipherFlow.Slots.Embedding

/-!
# The length of an encoding

A message is encoded as many coefficients as the degree of the ring: the spectrum
has twice as many entries, and transforms keep the length of a list.
-/

namespace CipherFlow.Slots.Embedding

theorem length_spectrum {α : Type} (zero : α) (conj : α → α) (degree : Nat) (values : List α) :
    (spectrum zero conj degree values).length = 2 * degree := by
  have size : ∀ (places : List (Nat × α)) (acc : Array α),
      (places.foldl (fun (acc : Array α) (gv : Nat × α) =>
        (acc.setIfInBounds gv.1 gv.2).setIfInBounds (2 * degree - gv.1) (conj gv.2)) acc).size =
        acc.size := by
    intro places
    induction places with
    | nil => exact fun _ => rfl
    | cons gv places ih =>
      intro acc
      rw [List.foldl_cons, ih, Array.size_setIfInBounds, Array.size_setIfInBounds]
  rw [spectrum, Array.length_toList, size, Array.size_replicate]

/-- An encoding has as many coefficients as the degree. -/
theorem length_of_encode {e : Embedding} {slots : List (Slot Float)} {scale : Float}
    {coeffs : List Int}
    (h : e.encode slots scale = .ok coeffs) : coeffs.length = e.degree := by
  unfold encode at h
  by_cases long : e.slotCount < slots.length
  · rw [if_pos long] at h
    exact nomatch h
  rw [if_neg long] at h
  by_cases positive : (!Binary64.isPositive scale) = true
  · rw [if_pos positive] at h
    exact nomatch h
  rw [if_neg positive] at h
  obtain ⟨_, -, h⟩ := exists_of_bind_eq_ok h
  rw [length_of_mapM_eq_ok h, List.length_take, (e.transforms.forward _).2, length_spectrum]
  omega

end CipherFlow.Slots.Embedding
