import CipherFlow.Tensor.Shape
import Mathlib.Algebra.BigOperators.Group.List.Basic
import Mathlib.Data.List.Forall2

/-!
# Coordinates and places

Coordinates name an element of a tensor by a number for each axis, outermost
first. In row-major order the element stands at the place where the
coordinates are read as digits, each in the base of its extent. Every place
below the product of the extents is that of some coordinates.
-/

namespace CipherFlow.Shape

variable {s : Shape} {index : List Nat} {d e i m n k : Nat}

/-! ## Sizes -/

/-- A number times all extents, if no product on the way leaves a machine
word. -/
def sizeFrom (n : Nat) (s : Shape) : Option Nat :=
  s.foldlM (fun n d => if n * d < wordSize then some (n * d) else none) n

theorem size?_eq_sizeFrom (s : Shape) : s.size? = sizeFrom 1 s :=
  rfl

theorem sizeFrom_cons_eq_some :
    sizeFrom n (d :: s) = some k ↔ n * d < wordSize ∧ sizeFrom (n * d) s = some k := by
  rw [sizeFrom, List.foldlM_cons]
  split
  · simp [sizeFrom, *]
  · simp [*]

/-- A product that stays in a word does so from any smaller number, and is
then the plain product. -/
theorem sizeFrom_of_le (h : sizeFrom n s = some k) (le : m ≤ n) :
    sizeFrom m s = some (m * s.prod) := by
  induction s generalizing m n with
  | nil => simp [sizeFrom]
  | cons d s ih =>
    obtain ⟨lt, h⟩ := sizeFrom_cons_eq_some.mp h
    have le : m * d ≤ n * d := Nat.mul_le_mul_right d le
    rw [sizeFrom_cons_eq_some, List.prod_cons, ← Nat.mul_assoc]
    exact ⟨Nat.lt_of_le_of_lt le lt, ih h le⟩

/-- Where the number of elements fits a word it is the product of the extents. -/
theorem size_eq_prod (sized : s.size?.isSome) : s.size = s.prod := by
  obtain ⟨k, h⟩ := Option.isSome_iff_exists.mp sized
  rw [size, size?_eq_sizeFrom, sizeFrom_of_le h (Nat.le_refl 1), Nat.one_mul]
  rfl

/-- A leading extent may shrink. -/
theorem isSome_size?_cons_of_le (sized : (Shape.size? (d :: s)).isSome) (le : e ≤ d) :
    (Shape.size? (e :: s)).isSome := by
  obtain ⟨k, h⟩ := Option.isSome_iff_exists.mp sized
  obtain ⟨lt, h⟩ := sizeFrom_cons_eq_some.mp h
  refine Option.isSome_iff_exists.mpr ⟨1 * e * s.prod, sizeFrom_cons_eq_some.mpr ⟨by omega, ?_⟩⟩
  exact sizeFrom_of_le h (by omega)

/-- A leading axis that is not empty may be dropped. -/
theorem isSome_size?_tail (sized : (Shape.size? (d :: s)).isSome) (pos : 0 < d) :
    s.size?.isSome := by
  obtain ⟨k, h⟩ := Option.isSome_iff_exists.mp sized
  obtain ⟨-, h⟩ := sizeFrom_cons_eq_some.mp h
  exact Option.isSome_iff_exists.mpr ⟨_, sizeFrom_of_le h (by omega)⟩

/-! ## Places -/

/-- Coordinates that lie inside a shape: one below the extent of each axis. -/
abbrev Within (s : Shape) (index : List Nat) : Prop :=
  List.Forall₂ (· < ·) index s

/-- The place of coordinates in row-major order. -/
def position : Shape → List Nat → Nat
  | _ :: s, i :: index => i * s.prod + position s index
  | _, _ => 0

theorem position_lt (h : s.Within index) : s.position index < s.prod := by
  induction h with
  | nil => exact Nat.one_pos
  | @cons i d index s lt _ ih =>
    calc position (d :: s) (i :: index)
      _ < i * s.prod + s.prod := Nat.add_lt_add_left ih _
      _ = (i + 1) * s.prod := (Nat.succ_mul ..).symm
      _ ≤ d * s.prod := Nat.mul_le_mul_right _ lt
      _ = (d :: s).prod := List.prod_cons.symm

/-- The leading digit of a place. -/
theorem mul_add_div_of_lt (lt : n < k) (i : Nat) : (i * k + n) / k = i := by
  have pos : 0 < k := Nat.lt_of_le_of_lt (Nat.zero_le n) lt
  rw [Nat.add_comm, Nat.add_mul_div_right _ _ pos, Nat.div_eq_of_lt lt, Nat.zero_add]

/-- Every place is that of some coordinates. -/
theorem exists_position (lt : n < s.prod) : ∃ index, s.Within index ∧ s.position index = n := by
  induction s generalizing n with
  | nil => exact ⟨[], .nil, (Nat.lt_one_iff.mp lt).symm⟩
  | cons d s ih =>
    rw [List.prod_cons, Nat.mul_comm] at lt
    have pos : 0 < s.prod := Nat.pos_of_mul_pos_right (Nat.lt_of_le_of_lt (Nat.zero_le n) lt)
    obtain ⟨index, within, eq⟩ := ih (Nat.mod_lt n pos)
    refine ⟨n / s.prod :: index, .cons (Nat.div_lt_of_lt_mul lt) within, ?_⟩
    rw [position, eq, Nat.mul_comm, Nat.div_add_mod]

/-- A place in two groups of axes is a row of the first and a column of the
second. -/
theorem position_append (length : index.length = s.length) (t : Shape) (index' : List Nat) :
    position (s ++ t) (index ++ index') = s.position index * t.prod + t.position index' := by
  induction s generalizing index with
  | nil =>
    obtain rfl := List.length_eq_zero_iff.mp length
    simp [position]
  | cons e s ih =>
    cases index with
    | nil => exact nomatch length
    | cons j index =>
      rw [List.cons_append, List.cons_append, position, position, ih (Nat.succ.inj length),
        List.prod_append, Nat.add_mul, Nat.mul_assoc, Nat.add_assoc]

/-- The innermost coordinate moves to the next place. -/
theorem position_concat (length : index.length = s.length) (d i : Nat) :
    position (s ++ [d]) (index ++ [i]) = s.position index * d + i := by
  simp [position_append length, position]

/-! ## All coordinates -/

/-- The coordinates inside a shape, in row-major order. -/
def indices : Shape → List (List Nat)
  | [] => [[]]
  | d :: s => (List.range d).flatMap fun i => (indices s).map (i :: ·)

theorem mem_indices : index ∈ s.indices ↔ s.Within index := by
  induction s generalizing index with
  | nil => simp [indices, Within]
  | cons d s ih => simp [indices, ih, Within, List.forall₂_cons_right_iff, eq_comm]

/-- The places of a table, row by row. -/
theorem range_mul (m n : Nat) : List.range (m * n) =
    (List.range m).flatMap fun i => (List.range n).map fun j => i * n + j := by
  induction m with
  | zero => simp
  | succ m ih =>
    rw [Nat.succ_mul, List.range_add, ih, List.range_succ, List.flatMap_append]
    simp

/-- Row-major order is that of the places. -/
theorem map_position_indices (s : Shape) : s.indices.map s.position = List.range s.prod := by
  induction s with
  | nil => rfl
  | cons d s ih =>
    have row (i : Nat) : (((indices s).map (i :: ·)).map (position (d :: s))) =
        (List.range s.prod).map fun j => i * s.prod + j := by
      rw [← ih, List.map_map, List.map_map]
      rfl
    rw [indices, List.map_flatMap, List.prod_cons, range_mul]
    simp only [row]

theorem length_indices (s : Shape) : s.indices.length = s.prod := by
  rw [← List.length_map, map_position_indices, List.length_range]

/-- In rows of one length an entry stands at the place of its row and column. -/
theorem getElem?_flatMap {α β : Type} {l : List α} {g : α → List β}
    (length : ∀ x ∈ l, (g x).length = k) (lt : n < k) (m : Nat) :
    (l.flatMap g)[m * k + n]? = l[m]?.bind fun x => (g x)[n]? := by
  induction l generalizing m with
  | nil => simp
  | cons x l ih =>
    have row : (g x).length = k := length x List.mem_cons_self
    rw [List.flatMap_cons]
    cases m with
    | zero =>
      rw [Nat.zero_mul, Nat.zero_add, List.getElem?_append_left (row ▸ lt)]
      rfl
    | succ m =>
      rw [List.getElem?_append_right (by rw [row, Nat.succ_mul]; omega), row,
        show (m + 1) * k + n - k = m * k + n by rw [Nat.succ_mul]; omega]
      exact ih (fun y hy => length y (List.mem_cons_of_mem _ hy)) m

/-- Coordinates stand at their place. -/
theorem getElem?_indices (h : s.Within index) : s.indices[s.position index]? = some index := by
  induction h with
  | nil => rfl
  | @cons i d index s lt within ih =>
    have rows : ∀ i ∈ List.range d, ((indices s).map (i :: ·)).length = s.prod := fun i _ => by
      rw [List.length_map, length_indices]
    rw [indices, position, getElem?_flatMap rows (position_lt within),
      List.getElem?_range lt, Option.bind_some, List.getElem?_map, ih]
    rfl

end CipherFlow.Shape
