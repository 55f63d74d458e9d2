import CipherFlow.Proofs.Tensor.Parametric
import CipherFlow.Proofs.Tensor.Positions
import Mathlib.Tactic.Ring

/-!
# Broadcasting by coordinates

Aligned at the right, coordinates of the target become coordinates of the
source: those of the leading axes that the source lacks are dropped, and an
axis of extent 1 has only the coordinate 0. A repetition holds at each place
what the source holds at the aligned coordinates. The place that is computed
for this from the place in the target, axis by axis from the innermost, is
that of the aligned coordinates.

Main lemma: `isBroadcast_of_may`, from `sourceIndex_position`. The program goes
through the axes from the innermost one and the coordinates are listed from the
outermost, so the induction is on the reversed lists (`sourceIndex_reverse`).
-/

namespace CipherFlow

namespace Shape

variable {s t : Shape} {index : List Nat} {d u i : Nat}

/-! ## Alignment -/

/-- The coordinates from which a repetition reads. -/
def align (s : Shape) (index : List Nat) : List Nat :=
  List.zipWith (fun d i => if d = 1 then 0 else i) s (index.drop (index.length - s.length))

/-- A coordinate of a leading axis that the source lacks is dropped. -/
theorem align_cons_of_le (le : s.length ≤ index.length) (i : Nat) :
    s.align (i :: index) = s.align index := by
  rw [align, align, List.length_cons, Nat.succ_sub le, List.drop_succ_cons]

theorem align_cons_cons (length : s.length = index.length) (d i : Nat) :
    align (d :: s) (i :: index) = (if d = 1 then 0 else i) :: s.align index := by
  simp [align, length]

theorem align_concat (le : s.length ≤ index.length) (d i : Nat) :
    align (s ++ [d]) (index ++ [i]) = s.align index ++ [if d = 1 then 0 else i] := by
  have skip : (index ++ [i]).length - (s ++ [d]).length = index.length - s.length := by simp
  have length : s.length = (index.drop (index.length - s.length)).length := by
    rw [List.length_drop, Nat.sub_sub_self le]
  rw [align, skip, List.drop_append_of_le_length (Nat.sub_le ..), List.zipWith_append length]
  rfl

theorem length_align (le : s.length ≤ index.length) : (s.align index).length = s.length := by
  rw [align, List.length_zipWith, List.length_drop, Nat.sub_sub_self le, Nat.min_self]

/-! ## Shapes that can be repeated -/

theorem zipWith_append_of_le {α β γ : Type} {f : α → β → γ} {xs : List α} {ys : List β}
    (le : xs.length ≤ ys.length) (zs : List β) :
    List.zipWith f xs (ys ++ zs) = List.zipWith f xs ys := by
  induction xs generalizing ys with
  | nil => rfl
  | cons x xs ih =>
    cases ys with
    | nil => exact nomatch le
    | cons y ys => exact congrArg (f x y :: ·) (ih (Nat.le_of_succ_le_succ le))

/-- A leading axis that the source lacks may have any extent. -/
theorem canBroadcast_cons_of_le (le : s.length ≤ t.length) (u : Nat) :
    s.canBroadcast (u :: t) = s.canBroadcast t := by
  have le' : s.length ≤ (u :: t).length := Nat.le_succ_of_le le
  rw [canBroadcast, canBroadcast, List.reverse_cons, decide_eq_true le, decide_eq_true le',
    zipWith_append_of_le (by rwa [List.length_reverse, List.length_reverse])]

theorem canBroadcast_cons_cons (length : s.length = t.length) (d u : Nat) :
    canBroadcast (d :: s) (u :: t) = ((d == 1 || d == u) && s.canBroadcast t) := by
  rw [canBroadcast, canBroadcast, List.reverse_cons, List.reverse_cons,
    List.zipWith_append (by rwa [List.length_reverse, List.length_reverse])]
  simp [length, Bool.and_comm]

theorem length_le_of_canBroadcast (h : s.canBroadcast t) : s.length ≤ t.length := by
  rw [canBroadcast, Bool.and_eq_true] at h
  exact of_decide_eq_true h.1

theorem canBroadcast_tail (can : canBroadcast (d :: s) t) : s.canBroadcast t := by
  induction t with
  | nil => exact absurd (length_le_of_canBroadcast can) (Nat.not_succ_le_zero _)
  | cons u t ih =>
    rcases Nat.lt_or_eq_of_le (length_le_of_canBroadcast can) with lt | eq
    · have le : (d :: s).length ≤ t.length := Nat.le_of_lt_succ lt
      rw [canBroadcast_cons_of_le le] at can
      rw [canBroadcast_cons_of_le (Nat.le_of_succ_le le)]
      exact ih can
    · have same : s.length = t.length := Nat.succ.inj eq
      rw [canBroadcast_cons_cons same, Bool.and_eq_true] at can
      rw [canBroadcast_cons_of_le (Nat.le_of_eq same)]
      exact can.2

/-- Of a leading axis of the source one coordinate is read, and the extent of
the axis of the target that it is aligned with admits it. -/
theorem exists_aligned (h : t.Within index) (lt : s.length < t.length) :
    ∃ i u, i < u ∧ ∀ d, (canBroadcast (d :: s) t → d = 1 ∨ d = u) ∧
      align (d :: s) index = (if d = 1 then 0 else i) :: s.align index := by
  induction h with
  | nil => exact absurd lt (Nat.not_lt_zero _)
  | @cons i u index t iu within ih =>
    have length : index.length = t.length := within.length_eq
    rcases Nat.lt_or_ge s.length t.length with lt | ge
    · obtain ⟨j, v, jv, each⟩ := ih lt
      refine ⟨j, v, jv, fun d => ?_⟩
      have le : (d :: s).length ≤ t.length := lt
      rw [canBroadcast_cons_of_le le, align_cons_of_le (length ▸ le),
        align_cons_of_le (length ▸ Nat.le_of_lt lt)]
      exact each d
    · have same : s.length = t.length := Nat.le_antisymm (Nat.le_of_lt_succ lt) ge
      refine ⟨i, u, iu, fun d => ⟨fun can => ?_, ?_⟩⟩
      · rw [canBroadcast_cons_cons same] at can
        simpa using And.left (Bool.and_eq_true_iff.mp can)
      · rw [align_cons_cons (same.trans length.symm),
          align_cons_of_le (Nat.le_of_eq (same.trans length.symm))]

/-- Aligned coordinates lie inside the source. -/
theorem within_align (h : t.Within index) (can : s.canBroadcast t) : s.Within (s.align index) := by
  induction s with
  | nil =>
    rw [align, List.zipWith_nil_left]
    exact .nil
  | cons d s ih =>
    have lt : s.length < t.length := length_le_of_canBroadcast can
    obtain ⟨i, u, iu, each⟩ := exists_aligned h lt
    obtain ⟨extent, eq⟩ := each d
    rw [eq]
    refine .cons ?_ (ih (canBroadcast_tail can))
    have extent := extent can
    split <;> omega

/-- A repetition that is not empty reads from all coordinates of the source. -/
theorem exists_within_align {coordinates : List Nat} (can : s.canBroadcast t) (pos : 0 < t.prod)
    (h : s.Within coordinates) : ∃ index, t.Within index ∧ s.align index = coordinates := by
  induction t generalizing s coordinates with
  | nil =>
    obtain rfl := List.length_eq_zero_iff.mp (Nat.le_zero.mp (length_le_of_canBroadcast can))
    cases h with
    | nil => exact ⟨[], .nil, rfl⟩
  | cons u t ih =>
    rw [List.prod_cons] at pos
    have first : 0 < u := Nat.pos_of_mul_pos_right pos
    have rest : 0 < t.prod := Nat.pos_of_mul_pos_left pos
    rcases Nat.lt_or_eq_of_le (length_le_of_canBroadcast can) with lt | eq
    · have le : s.length ≤ t.length := Nat.le_of_lt_succ lt
      rw [canBroadcast_cons_of_le le] at can
      obtain ⟨index, within, aligned⟩ := ih can rest h
      refine ⟨0 :: index, .cons first within, ?_⟩
      rw [align_cons_of_le (within.length_eq ▸ le), aligned]
    · cases h with
      | nil => exact nomatch eq
      | @cons i d coordinates s id h =>
        have same : s.length = t.length := Nat.succ.inj eq
        rw [canBroadcast_cons_cons same, Bool.and_eq_true] at can
        obtain ⟨index, within, aligned⟩ := ih can.2 rest h
        have extent : d = 1 ∨ d = u := by simpa using can.1
        refine ⟨i :: index, .cons (by omega) within, ?_⟩
        rw [align_cons_cons (same.trans within.length_eq.symm), aligned]
        congr 1
        split <;> omega

/-! ## Places in the source -/

/-- The computed place is that of the aligned coordinates. Axes are taken
innermost first, so the shapes and the coordinates are given reversed. -/
theorem sourceIndex_reverse (h : List.Forall₂ (· < ·) index t) (le : s.length ≤ t.length)
    (stride : Nat) :
    sourceIndex t s (position t.reverse index.reverse) stride =
      stride * position s.reverse (align s.reverse index.reverse) := by
  induction h generalizing s stride with
  | nil =>
    obtain rfl := List.length_eq_zero_iff.mp (Nat.le_zero.mp le)
    rfl
  | @cons i u index t iu within ih =>
    cases s with
    | nil => rfl
    | cons d s =>
      have le : s.length ≤ t.length := Nat.le_of_succ_le_succ le
      have length : index.length = t.length := within.length_eq
      have aligned : s.reverse.length ≤ index.reverse.length := by simpa [length] using le
      rw [List.reverse_cons, List.reverse_cons, List.reverse_cons, align_concat aligned,
        position_concat (by simpa using length),
        position_concat (length_align aligned)]
      rw [sourceIndex, Nat.mul_add_mod_of_lt iu, mul_add_div_of_lt iu, ih le]
      split <;> ring

theorem sourceIndex_position (h : t.Within index) (le : s.length ≤ t.length) :
    sourceIndex t.reverse s.reverse (t.position index) 1 = s.position (s.align index) := by
  have h : List.Forall₂ (· < ·) index.reverse t.reverse := List.rel_reverse h
  simpa using sourceIndex_reverse h (s := s.reverse) (by simpa using le) 1

end Shape

namespace Tensor

open CipherFlow.Element (Compute)
open Answering

variable {α : Type} {data out out' : List α} {source target : Shape}

/-- Values of a shape repeat data of another: each is the datum at the aligned
coordinates. -/
structure IsBroadcast (data : List α) (source target : Shape) (out : List α) : Prop where
  length : out.length = target.prod
  value : ∀ index, target.Within index →
    out[target.position index]? = data[source.position (source.align index)]?

/-- There is one repetition at most. -/
theorem IsBroadcast.unique (h : IsBroadcast data source target out)
    (h' : IsBroadcast data source target out') : out = out' := by
  refine List.ext_getElem? fun n => ?_
  rcases Nat.lt_or_ge n target.prod with lt | ge
  · obtain ⟨index, within, rfl⟩ := Shape.exists_position lt
    rw [h.value index within, h'.value index within]
  · rw [List.getElem?_eq_none (h.length ▸ ge), List.getElem?_eq_none (h'.length ▸ ge)]

/-- Nothing else occurs in a repetition. -/
theorem IsBroadcast.mem {x : α} (h : IsBroadcast data source target out) (hx : x ∈ out) :
    x ∈ data := by
  obtain ⟨n, lt, rfl⟩ := List.mem_iff_getElem.mp hx
  obtain ⟨index, within, rfl⟩ := Shape.exists_position (h.length ▸ lt)
  have value := h.value index within
  rw [List.getElem?_eq_getElem lt] at value
  exact List.mem_of_getElem? value.symm

/-- What is computed where the shapes are allowed. -/
theorem may_broadcast (h : May (broadcast data source target) out) :
    source.canBroadcast target ∧ data.length = source.size ∧ out.length = target.size ∧
      ∀ n < target.size, ∃ x, out[n]? = some x ∧
        data[Shape.sourceIndex target.reverse source.reverse n 1]? = some x := by
  obtain ⟨_, counted, h⟩ := may_bind h
  have count : data.length = source.size := by
    have counted := eq_ok_of_may_lift counted
    unfold checkCount at counted
    split at counted
    · assumption
    · exact nomatch counted
  split at h
  · obtain ⟨_, refused, _⟩ := may_bind h
    obtain ⟨_, _, refused⟩ := refused
    exact nomatch refused
  · rename_i can
    obtain ⟨length, each⟩ := may_tabulate h
    refine ⟨by simpa using can, count, length, fun n hn => ?_⟩
    obtain ⟨x, hx, entry⟩ := each n hn
    have entry := eq_ok_of_may_fault entry
    rw [Fault.entryOf_toArray] at entry
    exact ⟨x, hx, entry_eq_ok.mp entry⟩

/-- It repeats the data. -/
theorem isBroadcast_of_may (h : May (broadcast data source target) out)
    (sized : target.size?.isSome) : IsBroadcast data source target out := by
  obtain ⟨can, -, length, each⟩ := may_broadcast h
  rw [Shape.size_eq_prod sized] at length each
  refine ⟨length, fun index within => ?_⟩
  obtain ⟨x, hx, hdata⟩ := each _ (Shape.position_lt within)
  rw [Shape.sourceIndex_position within (Shape.length_le_of_canBroadcast can)] at hdata
  rw [hx, hdata]

/-- Elements are repeated without being looked at. -/
theorem exists_of_may_broadcast_map {β : Type} {f : α → β} {out : List β}
    (h : May (broadcast (data.map f) source target) out) :
    ∃ out', May (broadcast data source target) out' ∧ out = out'.map f := by
  have images : List.Forall₂ (fun y x => y = f x) (data.map f) data :=
    List.forall₂_map_left_iff.mpr (List.forall₂_same.mpr fun _ _ => rfl)
  obtain ⟨out', -, must, all⟩ := broadcast_refines images source target out h
  refine ⟨out', ⟨default, _, must default⟩, ?_⟩
  rw [← List.forall₂_eq_eq_eq, List.forall₂_map_right_iff]
  exact all

end Tensor

end CipherFlow
