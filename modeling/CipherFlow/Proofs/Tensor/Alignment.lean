import CipherFlow.Proofs.Tensor.Contraction

/-!
# Which shapes are repeated

A shape can be repeated to fill another if, aligned at the right, it has no axis
too many and no extent but 1 and that of the other. A repetition is refused for
nothing else, except that its data have to be counted before. Where the output
can be held, it has at each place the datum at the aligned coordinates.

`broadcast_aligns` has both halves; `broadcast_refused_for_size` shows that counting
and memory cannot be left out.

How the proof goes. The check walks along both shapes from the left once they have
the same length, and `Misfits` says of coordinates what it finds
(`canBroadcast_iff_not_misfits`). That an accepted repetition has the data in place
is `CipherFlow.Proofs.Tensor.Broadcast`.
-/

namespace CipherFlow

namespace Shape

variable {s t : Shape} {d u : Nat}

/-- What keeps a shape from being repeated to fill another: an axis too many,
or an extent that is neither 1 nor that of the axis it is aligned with. -/
def Misfits (s t : Shape) : Prop :=
  t.length < s.length ∨ ∃ axis d u,
    s[axis]? = some d ∧ t[t.length - s.length + axis]? = some u ∧ d ≠ 1 ∧ d ≠ u

/-- A leading axis that the source lacks misfits nothing. -/
theorem misfits_cons_of_le (le : s.length ≤ t.length) (u : Nat) :
    s.Misfits (u :: t) ↔ s.Misfits t := by
  have short : ¬ t.length < s.length := Nat.not_lt.mpr le
  have shorter : ¬ t.length + 1 < s.length := by omega
  have skip (axis : Nat) :
      (u :: t)[t.length + 1 - s.length + axis]? = t[t.length - s.length + axis]? := by
    rw [Nat.succ_sub le, Nat.succ_add, List.getElem?_cons_succ]
  simp [Misfits, short, shorter, skip]

theorem misfits_cons_cons (length : s.length = t.length) (d u : Nat) :
    Misfits (d :: s) (u :: t) ↔ (d ≠ 1 ∧ d ≠ u) ∨ s.Misfits t := by
  constructor
  · rintro (longer | ⟨axis, e, v, he, hv, misfit⟩)
    · simp [length] at longer
    · cases axis with
      | zero =>
        simp only [List.length_cons, length, Nat.sub_self, Nat.add_zero, List.getElem?_cons_zero,
          Option.some.injEq] at he hv
        exact .inl (he ▸ hv ▸ misfit)
      | succ axis =>
        simp only [List.length_cons, length, Nat.sub_self, Nat.zero_add,
          List.getElem?_cons_succ] at he hv
        exact .inr (.inr ⟨axis, e, v, he, by simpa [length] using hv, misfit⟩)
  · rintro (misfit | longer | ⟨axis, e, v, he, hv, misfit⟩)
    · exact .inr ⟨0, d, u, rfl, by simp [length], misfit⟩
    · exact absurd longer (by simp [length])
    · exact .inr ⟨axis + 1, e, v, he, by simpa [length] using hv, misfit⟩

theorem canBroadcast_iff_not_misfits : s.canBroadcast t = true ↔ ¬ s.Misfits t := by
  induction t generalizing s with
  | nil =>
    cases s with
    | nil => simp [canBroadcast, Misfits]
    | cons d s => simp [canBroadcast, Misfits]
  | cons u t ih =>
    rcases Nat.lt_trichotomy s.length (u :: t).length with shorter | same | longer
    · have le : s.length ≤ t.length := Nat.le_of_lt_succ shorter
      rw [canBroadcast_cons_of_le le, misfits_cons_of_le le, ih]
    · cases s with
      | nil => exact absurd same (Nat.zero_ne_add_one t.length)
      | cons d s =>
        have same : s.length = t.length := Nat.succ.inj same
        rw [canBroadcast_cons_cons same, misfits_cons_cons same, Bool.and_eq_true, ih]
        simp [not_or, imp_iff_not_or]
    · have refused : ¬ s.canBroadcast (u :: t) = true := fun can =>
        absurd (length_le_of_canBroadcast can) (Nat.not_le.mpr longer)
      have misfits : s.Misfits (u :: t) := .inl longer
      simp [refused, misfits]

end Shape

namespace Tensor

open Answering Refusing
open CipherFlow.Element (Error)

variable {α : Type} {values : List α} {source target : Shape} {total : Nat} {c : Coins}

/-- Data that fill a shape miss its count exactly if the shape cannot be
counted. -/
theorem size?_eq_none_iff (count : values.length = source.prod) :
    source.size? = none ↔ values.length ≠ source.size := by
  rw [← Option.not_isSome_iff_eq_none]
  refine not_congr ⟨fun counted => ?_, fun eq => ?_⟩
  · rw [count, Shape.size_eq_prod counted]
  · exact Shape.isSome_size?_of_size_eq (eq.symm.trans count)

theorem fails_broadcast_of_count (miscount : values.length ≠ source.size) :
    Fails (broadcast values source target)
      (.shape (.elementCount values.length source)) := by
  have refused : checkCount values source =
      .error (.shape (.elementCount values.length source)) := if_neg miscount
  unfold broadcast
  rw [refused]
  exact fun _ => rfl

theorem fails_broadcast_of_misfits (count : values.length = source.size)
    (misfits : source.Misfits target) :
    Fails (broadcast values source target) (.shape (.broadcast source target)) := by
  have refused : source.canBroadcast target = false := by
    rw [← Bool.not_eq_true, Shape.canBroadcast_iff_not_misfits]
    exact not_not_intro misfits
  unfold broadcast
  rw [checkCount_ok count, lift_bind, refused]
  exact fun _ => rfl

/-- Data of a shape that can be counted and fits are repeated, or the output is
too large. -/
theorem broadcast_repeats (count : values.length = source.size) (counted : source.size?.isSome)
    (fit : ¬ source.Misfits target) (sized : target.size?.isSome) :
    Settles (Fits target.size) outOfMemory (IsBroadcast values source target)
      (broadcast values source target) := by
  have can : source.canBroadcast target := Shape.canBroadcast_iff_not_misfits.mpr fit
  have settles := broadcast_settles (P := fun _ : α => True) (fun _ _ => trivial) can counted sized
    count
  refine ⟨fun fits => ?_, settles.2⟩
  obtain ⟨out, must, -⟩ := settles.1 fits
  exact ⟨out, must, isBroadcast_of_may ⟨default, _, must default⟩ sized⟩

/-- A repetition is refused for its shapes exactly if the data cannot be
counted or their shape cannot be aligned with the other. Otherwise, where the
output can be held, it has at each place the datum at the aligned
coordinates. -/
theorem broadcast_aligns (count : values.length = source.prod)
    (sized : target.size? = some total) (c : Coins) :
    ((∃ p, (broadcast values source target).run c = .error (.shape p)) ↔
      source.size? = none ∨ source.Misfits target) ∧
    (source.size?.isSome → ¬ source.Misfits target → Fits total →
      ∃ out, (broadcast values source target).run c = .ok (out, c) ∧ out.length = total ∧
        ∀ index, target.Within index → ∃ x, out[target.position index]? = some x ∧
          values[source.position (source.align index)]? = some x) := by
  have size : target.size = total := by rw [Shape.size, sized]; rfl
  have sized : target.size?.isSome := sized ▸ rfl
  by_cases miscount : values.length = source.size
  · have counted : source.size?.isSome := Option.isSome_iff_ne_none.mpr fun none =>
      (size?_eq_none_iff count).mp none miscount
    have counts : source.size? ≠ none := Option.isSome_iff_ne_none.mp counted
    by_cases misfits : source.Misfits target
    · have fails := fails_broadcast_of_misfits miscount misfits c
      exact ⟨iff_of_true ⟨_, fails⟩ (.inr misfits), fun _ fit => absurd misfits fit⟩
    · have repeats := broadcast_repeats miscount counted misfits sized
      rw [size] at repeats
      refine ⟨iff_of_false ?_ (not_or.mpr ⟨counts, misfits⟩), fun _ _ fits => ?_⟩
      · rintro ⟨p, refused⟩
        by_cases fits : Fits total
        · obtain ⟨out, must, -⟩ := repeats.1 fits
          cases (must c).symm.trans refused
        · cases (repeats.2 fits c).symm.trans refused
      · obtain ⟨out, must, placed⟩ := repeats.1 fits
        have length : out.length = target.prod := placed.length
        refine ⟨out, must c, ?_, fun index within => ?_⟩
        · rw [length, ← Shape.size_eq_prod sized, size]
        · have lt : target.position index < out.length := length ▸ Shape.position_lt within
          refine ⟨out[target.position index], List.getElem?_eq_getElem lt, ?_⟩
          rw [← placed.value index within, List.getElem?_eq_getElem lt]
  · -- Data that miss the count belong to a shape that cannot be counted.
    have none : source.size? = none := (size?_eq_none_iff count).mpr miscount
    have fails : (broadcast values source target).run c =
        .error (.shape (.elementCount values.length source)) := fails_broadcast_of_count miscount c
    refine ⟨iff_of_true ⟨_, fails⟩ (.inl none), fun counted => ?_⟩
    exact absurd none (Option.isSome_iff_ne_none.mp counted)

/-- A column is repeated in each of three columns. -/
theorem broadcast_aligns_column :
    [Element.plain [5], .plain [7]].length = ([2, 1] : Shape).prod ∧
    Shape.size? [2, 3] = some 6 ∧ Shape.size? [2, 1] = some 2 ∧
    ¬ Shape.Misfits [2, 1] [2, 3] ∧ Fits 6 ∧
    ∃ out, (broadcast [Element.plain [5], .plain [7]] [2, 1] [2, 3]).run default =
        .ok (out, default) ∧
      out[Shape.position [2, 3] [1, 2]]? = some (.plain [7]) := by
  have fit : ¬ Shape.Misfits [2, 1] [2, 3] := Shape.canBroadcast_iff_not_misfits.mp rfl
  have fits : Fits 6 := by decide
  have count : [Element.plain [5], .plain [7]].length = ([2, 1] : Shape).prod := rfl
  have sized : Shape.size? [2, 3] = some 6 := rfl
  obtain ⟨-, repeats⟩ := broadcast_aligns count sized default
  obtain ⟨out, answers, -, aligned⟩ := repeats rfl fit fits
  obtain ⟨x, at_place, at_source⟩ := aligned [1, 2] (by simp [Shape.Within])
  refine ⟨count, sized, rfl, fit, fits, out, answers, ?_⟩
  rw [at_place, ← at_source]
  rfl

/-- Data of an empty shape are refused where a product of its leading extents
leaves the words, and an output of `2 ^ 60` elements for its size, although
neither shape misfits. -/
theorem broadcast_refused_for_size :
    (¬ Shape.Misfits [Nat.pow 2 40, Nat.pow 2 40, 0] [0, Nat.pow 2 40, Nat.pow 2 40, 0] ∧
      Shape.size? [0, Nat.pow 2 40, Nat.pow 2 40, 0] = some 0 ∧
      ([] : List Element).length = ([Nat.pow 2 40, Nat.pow 2 40, 0] : Shape).prod ∧
      (broadcast ([] : List Element) [Nat.pow 2 40, Nat.pow 2 40, 0]
        [0, Nat.pow 2 40, Nat.pow 2 40, 0]).run default =
          .error (.shape (.elementCount 0 [Nat.pow 2 40, Nat.pow 2 40, 0]))) ∧
    (¬ Shape.Misfits [] [Nat.pow 2 60] ∧ Shape.size? [Nat.pow 2 60] = some (Nat.pow 2 60) ∧
      [Element.plain [1]].length = ([] : Shape).prod ∧
      (broadcast [Element.plain [1]] [] [Nat.pow 2 60]).run default =
        .error outOfMemory) := by
  refine ⟨⟨?_, rfl, rfl, rfl⟩, ?_, rfl, rfl, rfl⟩
  · exact Shape.canBroadcast_iff_not_misfits.mp rfl
  · exact Shape.canBroadcast_iff_not_misfits.mp rfl

end Tensor

end CipherFlow
