import CipherFlow.Proofs.Fault
import CipherFlow.Proofs.Graph.Sound

/-!
# Inferred shapes

What the types that the building functions infer say of the shapes of
operands and results.
-/

namespace CipherFlow

namespace Shape

theorem images_eq_ok {s : Shape} {i : Images} (h : images s = .ok i) : s = i.shape := by
  unfold images at h
  split at h
  · rw [← Except.ok.inj h]
    rfl
  · exact nomatch h

end Shape

namespace TensorType

variable {a b t : TensorType} {strides window : Nat × Nat}

/-- A contraction drops the axes that it sums over. -/
theorem dot_eq_ok (h : dot a b = .ok t) : ∃ (lead : Shape) (k : Nat) (rest : Shape),
    a.shape = lead ++ [k] ∧ b.shape = k :: rest ∧ t = ⟨a.elementType, lead ++ rest⟩ := by
  obtain ⟨_, -, h⟩ := exists_of_bind_eq_ok h
  split at h
  · rename_i k k' rest last first
    split at h
    · rename_i same
      subst same
      exact ⟨_, k, rest, (List.dropLast_append_getLast? k last).symm, first, (Except.ok.inj h).symm⟩
    · exact nomatch h
  · exact nomatch h

theorem images_eq_ok {i : Shape.Images} (h : a.images = .ok i) : a.shape = i.shape :=
  Shape.images_eq_ok (eq_ok_of_mapError h)

theorem windows_eq_ok {i : Shape.Images} {channels : Nat}
    (h : windows a i channels window strides = .ok t) : ∃ out,
    Shape.windowImages i.batch channels (i.height, i.width) window strides = .ok out ∧
      t = ⟨a.elementType, out.shape⟩ := by
  obtain ⟨out, hout, h⟩ := exists_of_bind_eq_ok h
  exact ⟨out, eq_ok_of_mapError hout, (Except.ok.inj h).symm⟩

/-- A convolution makes one channel of each filter. -/
theorem convolution_eq_ok (h : convolution strides a b = .ok t) : ∃ d f out : Shape.Images,
    a.shape = d.shape ∧ b.shape = f.shape ∧ f.channels = d.channels ∧
      Shape.windowImages d.batch f.batch (d.height, d.width) (f.height, f.width) strides =
        .ok out ∧ t = ⟨a.elementType, out.shape⟩ := by
  obtain ⟨_, -, h⟩ := exists_of_bind_eq_ok h
  obtain ⟨d, hd, h⟩ := exists_of_bind_eq_ok h
  obtain ⟨f, hf, h⟩ := exists_of_bind_eq_ok h
  split at h
  · exact nomatch h
  · rename_i channels
    obtain ⟨out, hout, eq⟩ := windows_eq_ok h
    exact ⟨d, f, out, images_eq_ok hd, images_eq_ok hf, (Classical.not_not.mp channels).symm,
      hout, eq⟩

/-- Averages keep the channels. -/
theorem averagePool_eq_ok (h : averagePool window strides a = .ok t) :
    ∃ d out : Shape.Images, a.shape = d.shape ∧
      Shape.windowImages d.batch d.channels (d.height, d.width) window strides = .ok out ∧
        t = ⟨a.elementType, out.shape⟩ := by
  obtain ⟨d, hd, h⟩ := exists_of_bind_eq_ok h
  obtain ⟨out, hout, eq⟩ := windows_eq_ok h
  exact ⟨d, out, images_eq_ok hd, hout, eq⟩

theorem broadcast_eq_ok {shape : Shape} (h : a.broadcast shape = .ok t) :
    a.shape.canBroadcast shape ∧ t = ⟨a.elementType, shape⟩ := by
  unfold broadcast at h
  split at h
  · exact ⟨‹_›, (Except.ok.inj h).symm⟩
  · exact nomatch h

end TensorType

end CipherFlow
