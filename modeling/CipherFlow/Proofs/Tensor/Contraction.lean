import CipherFlow.Proofs.Scheme.Multiplication
import CipherFlow.Proofs.Tensor.Sums
import CipherFlow.Tensor.Elements
import Mathlib.Algebra.BigOperators.Ring.List
import Mathlib.Data.List.ProdSigma

/-!
# Contractions by coordinates

An entry of a contraction has coordinates in the remaining axes of both
operands. It is the sum, from left to right along the shared axis, of the
products of the elements that have these coordinates. The entries are computed
in row-major order, and nothing but an element operation can stop them, or a
shared axis without elements.

`dot_contracts` is the statement, for any operations on elements.

How the proof goes. A contraction is a list of entries in row-major order, each of
its own coordinates (`dot_eq_mapM`). An entry reads a row and a column, which are
there (`exists_rowColumn`), and then adds products as `SumsTo` says; when it answers
and when it fails are two equivalences (`run_contractionEntry_eq_ok_iff`,
`run_contractionEntry_eq_error_iff`). Place and coordinates correspond by
`getElem?_places`.
-/

namespace CipherFlow

open CipherFlow.Element (Compute Error)

namespace Shape

/-- Where the size of a shape is the product of its extents, it could be counted:
otherwise it would stand for a product that is larger or zero. -/
theorem isSome_size?_of_size_eq {s : Shape} (h : s.size = s.prod) : s.size?.isSome := by
  by_contra uncounted
  have none : s.size? = none := by simpa using uncounted
  have largest : s.size = wordSize - 1 := by rw [size, none]; rfl
  have word : 0 < wordSize := by decide
  -- The largest word is not zero, so no extent is, and such a shape can be counted.
  have positive : s.IsPositive := by
    intro d hd
    refine Nat.pos_of_ne_zero fun zero => ?_
    have product : s.prod = 0 := List.prod_eq_zero (zero ▸ hd)
    have wide : 1 < wordSize := by decide
    omega
  exact uncounted (positive.isSome_size? (by omega))

end Shape

namespace Tensor

variable {α β : Type} {add mul : α → α → Compute α} {a b : List α} {lead rest : Shape} {k : Nat}
  {c c' : Coins} {z : α} {e : Error} {pairs : List (α × α)} {i j : List Nat}

/-! ## Reading pairs -/

theorem run_liftFault_eq_ok {x : Except Fault β} {y : β} :
    (liftM x : Compute β).run c = .ok (y, c') ↔ x = .ok y ∧ c' = c := by
  cases x with
  | error f => exact ⟨fun h => (nomatch h), fun h => (nomatch h.1)⟩
  | ok w =>
    constructor
    · intro h
      obtain ⟨rfl, rfl⟩ := Prod.mk.inj (Except.ok.inj h)
      exact ⟨rfl, rfl⟩
    · rintro ⟨eq, rfl⟩
      obtain rfl := Except.ok.inj eq
      rfl

theorem entryOf_eq_ok_iff {n : Nat} {x : α} :
    Fault.entryOf a.toArray n = .ok x ↔ a[n]? = some x := by
  rw [Fault.entryOf_toArray, entry_eq_ok]

/-- Pairs are read one after the other, each from places that are there. -/
theorem readPairs_eq_ok_iff {m n : β → Nat} {places : List β} :
    (places.mapM fun p => do
        let x ← Fault.entryOf a.toArray (m p)
        let y ← Fault.entryOf b.toArray (n p)
        return (x, y)) = .ok pairs ↔
      List.Forall₂ (fun p q => a[m p]? = some q.1 ∧ b[n p]? = some q.2) places pairs := by
  rw [mapM_eq_ok_iff]
  refine Iff.of_eq (congrArg (fun R => List.Forall₂ R places pairs) ?_)
  funext p q
  refine propext ⟨fun h => ?_, fun ⟨first, second⟩ => ?_⟩
  · obtain ⟨x, hx, h⟩ := exists_of_bind_eq_ok h
    obtain ⟨y, hy, h⟩ := exists_of_bind_eq_ok h
    obtain rfl := Except.ok.inj h
    exact ⟨entryOf_eq_ok_iff.mp hx, entryOf_eq_ok_iff.mp hy⟩
  · rw [entryOf_eq_ok_iff.mpr first, entryOf_eq_ok_iff.mpr second]
    rfl

/-! ## Sums of pairs that are read -/

/-- A sum of products that are read first. -/
def readSum (add mul : α → α → Compute α) (read : Except Fault (List (α × α))) : Compute α := do
  let pairs ← read
  sumProducts add mul pairs

theorem run_readSum_eq_ok_iff {read : Except Fault (List (α × α))} :
    (readSum add mul read).run c = .ok (z, c') ↔
      ∃ pairs, read = .ok pairs ∧ SumsTo add (fun p => mul p.1 p.2) c pairs z c' := by
  rw [readSum, run_bind_eq_ok]
  simp only [run_liftFault_eq_ok, run_sumProducts_eq_ok_iff]
  constructor
  · rintro ⟨pairs, _, ⟨hread, rfl⟩, sums⟩
    exact ⟨pairs, hread, sums⟩
  · rintro ⟨pairs, hread, sums⟩
    exact ⟨pairs, c, ⟨hread, rfl⟩, sums⟩

theorem run_readSum_eq_error_iff {read : Except Fault (List (α × α))}
    (hread : read = .ok pairs) : (readSum add mul read).run c = .error e ↔
      (pairs = [] ∧ e = .shape .emptyReduction) ∨
        SumFails add (fun p => mul p.1 p.2) c pairs e := by
  rw [readSum, hread, liftFault_bind, run_sumProducts_eq_error_iff]

/-! ## Rows and columns -/

/-- The pairs that one entry of a contraction sums over: along the shared axis,
the elements of the first operand at the coordinates `i` and of the second at
the coordinates `j`. -/
def RowColumn (a : List α) (lead : Shape) (k : Nat) (b : List α) (rest : Shape)
    (i j : List Nat) (pairs : List (α × α)) : Prop :=
  List.Forall₂ (fun t p => a[Shape.position (lead ++ [k]) (i ++ [t])]? = some p.1 ∧
    b[Shape.position (k :: rest) (t :: j)]? = some p.2) (List.range k) pairs

/-- The entry of a contraction at coordinates of both operands. -/
def Contracts (add mul : α → α → Compute α) (a : List α) (lead : Shape) (k : Nat) (b : List α)
    (rest : Shape) (place : List Nat × List Nat) (c : Coins) (z : α) (c' : Coins) : Prop :=
  ∃ pairs, RowColumn a lead k b rest place.1 place.2 pairs ∧
    SumsTo add (fun p => mul p.1 p.2) c pairs z c'

/-- An element operation fails on the way to the entry of a contraction. -/
def ContractionFails (add mul : α → α → Compute α) (a : List α) (lead : Shape) (k : Nat)
    (b : List α) (rest : Shape) (place : List Nat × List Nat) (c : Coins) (e : Error) : Prop :=
  ∃ pairs, RowColumn a lead k b rest place.1 place.2 pairs ∧
    SumFails add (fun p => mul p.1 p.2) c pairs e

theorem RowColumn.length (h : RowColumn a lead k b rest i j pairs) : pairs.length = k := by
  rw [← h.length_eq, List.length_range]

/-- An entry sums over at least one pair. -/
theorem Contracts.pos {place : List Nat × List Nat}
    (h : Contracts add mul a lead k b rest place c z c') : 0 < k := by
  obtain ⟨pairs, these, sums⟩ := h
  exact these.length ▸ List.length_pos_iff.mpr sums.ne_nil

theorem ContractionFails.pos {place : List Nat × List Nat}
    (h : ContractionFails add mul a lead k b rest place c e) : 0 < k := by
  obtain ⟨pairs, these, fails⟩ := h
  exact these.length ▸ List.length_pos_iff.mpr fails.ne_nil

theorem rowColumn_eq_ok_iff (within : lead.Within i) :
    rowColumn a.toArray b.toArray k rest.prod (lead.position i) (rest.position j) = .ok pairs ↔
      RowColumn a lead k b rest i j pairs := by
  rw [rowColumn, readPairs_eq_ok_iff, RowColumn]
  simp only [Shape.position_concat within.length_eq]
  rfl

/-- The elements of a row and a column are there. -/
theorem exists_rowColumn (countA : a.length = (lead ++ [k]).prod)
    (countB : b.length = (k :: rest).prod) (hi : lead.Within i) (hj : rest.Within j) :
    ∃ pairs, RowColumn a lead k b rest i j pairs := by
  rw [List.prod_append, List.prod_singleton] at countA
  rw [List.prod_cons] at countB
  obtain ⟨pairs, read, -⟩ := rowColumn_ok (P := fun _ => True) (fun _ _ => trivial)
    (fun _ _ => trivial) countA countB (Shape.position_lt hi) (Shape.position_lt hj)
  exact ⟨pairs, (rowColumn_eq_ok_iff hi).mp read⟩

/-! ## Places of the output -/

theorem mem_places : (i, j) ∈ lead.indices ×ˢ rest.indices ↔ lead.Within i ∧ rest.Within j := by
  rw [List.mem_product, Shape.mem_indices, Shape.mem_indices]

theorem map_places (lead rest : Shape) :
    (lead.indices ×ˢ rest.indices).map
        (fun p => lead.position p.1 * rest.prod + rest.position p.2) =
      List.range (lead.prod * rest.prod) := by
  have row (i : List Nat) : (rest.indices.map (Prod.mk i)).map
      (fun p => lead.position p.1 * rest.prod + rest.position p.2) =
        (List.range rest.prod).map fun j => lead.position i * rest.prod + j := by
    rw [← Shape.map_position_indices rest, List.map_map, List.map_map]
    rfl
  show ((lead.indices.flatMap fun i => rest.indices.map (Prod.mk i)).map _) = _
  rw [List.map_flatMap, Shape.range_mul, ← Shape.map_position_indices lead, List.flatMap_map]
  simp only [row]

theorem length_places (lead rest : Shape) :
    (lead.indices ×ˢ rest.indices).length = (lead ++ rest).prod := by
  rw [List.length_product, Shape.length_indices, Shape.length_indices, List.prod_append]

/-- Coordinates of both operands stand in the output where their
concatenation does. -/
theorem getElem?_places (hi : lead.Within i) (hj : rest.Within j) :
    (lead.indices ×ˢ rest.indices)[(lead ++ rest).position (i ++ j)]? = some (i, j) := by
  have rows : ∀ i ∈ lead.indices, (rest.indices.map (Prod.mk i)).length = rest.prod :=
    fun i _ => by rw [List.length_map, Shape.length_indices]
  rw [Shape.position_append hi.length_eq]
  show (lead.indices.flatMap fun i => rest.indices.map (Prod.mk i))[_]? = _
  rw [Shape.getElem?_flatMap rows (Shape.position_lt hj), Shape.getElem?_indices hi,
    Option.bind_some, List.getElem?_map, Shape.getElem?_indices hj]
  rfl

theorem mapM_congr {f g : β → Compute α} {xs : List β} (h : ∀ x ∈ xs, f x = g x) :
    xs.mapM f = xs.mapM g := by
  induction xs with
  | nil => rfl
  | cons x xs ih =>
    rw [List.mapM_cons, List.mapM_cons, h x List.mem_cons_self,
      ih fun y hy => h y (List.mem_cons_of_mem _ hy)]

/-! ## Entries -/

/-- The entry of a contraction, computed from the places of its coordinates. -/
def contractionEntry (add mul : α → α → Compute α) (a : List α) (lead : Shape) (k : Nat)
    (b : List α) (rest : Shape) (place : List Nat × List Nat) : Compute α :=
  readSum add mul (rowColumn a.toArray b.toArray k rest.prod (lead.position place.1)
    (rest.position place.2))

theorem run_contractionEntry_eq_ok_iff {place : List Nat × List Nat} (hi : lead.Within place.1) :
    (contractionEntry add mul a lead k b rest place).run c = .ok (z, c') ↔
      Contracts add mul a lead k b rest place c z c' := by
  rw [contractionEntry, run_readSum_eq_ok_iff]
  simp only [rowColumn_eq_ok_iff hi]
  rfl

theorem run_contractionEntry_eq_error_iff {place : List Nat × List Nat}
    (countA : a.length = (lead ++ [k]).prod) (countB : b.length = (k :: rest).prod)
    (hi : lead.Within place.1) (hj : rest.Within place.2) :
    (contractionEntry add mul a lead k b rest place).run c = .error e ↔
      (k = 0 ∧ e = .shape .emptyReduction) ∨
        ContractionFails add mul a lead k b rest place c e := by
  obtain ⟨pairs, these⟩ := exists_rowColumn countA countB hi hj
  have read := (rowColumn_eq_ok_iff hi).mpr these
  have empty : pairs = [] ↔ k = 0 := by rw [← these.length, List.length_eq_zero_iff]
  have only : SumFails add (fun p => mul p.1 p.2) c pairs e ↔
      ContractionFails add mul a lead k b rest place c e := by
    constructor
    · exact fun fails => ⟨pairs, these, fails⟩
    · rintro ⟨pairs', those, fails⟩
      have same := read.symm.trans ((rowColumn_eq_ok_iff hi).mpr those)
      exact Except.ok.inj same ▸ fails
  rw [contractionEntry, run_readSum_eq_error_iff read, empty, only]

/-! ## Whole contractions -/

/-- A shape that cannot be counted stands for more elements than fit. -/
theorem counted_of_fits {s : Shape} (fits : Fits s.size) : s.size?.isSome := by
  by_contra uncounted
  have none : s.size? = none := by simpa using uncounted
  have largest : s.size = wordSize - 1 := by rw [Shape.size, none]; rfl
  rw [largest] at fits
  exact absurd fits (by decide)

/-- A number of columns that could not be counted leaves no room for a row. -/
theorem size_eq_prod_of_fits {rows : Nat} (fits : Fits (rows * rest.size)) (some : rows ≠ 0) :
    rest.size = rest.prod := by
  have row : rest.size ≤ rows * rest.size := Nat.le_mul_of_pos_left _ (Nat.pos_of_ne_zero some)
  have fits : Fits rest.size := Nat.lt_of_le_of_lt (Nat.mul_le_mul_left _ row) fits
  exact Shape.size_eq_prod (counted_of_fits fits)

/-- A contraction whose output fits into memory is its entries, one after the
other in row-major order. -/
theorem dot_eq_mapM (sizedA : (Shape.size? (lead ++ [k])).isSome)
    (countA : a.length = Shape.size (lead ++ [k])) (countB : b.length = Shape.size (k :: rest))
    (fits : Fits (lead.size * rest.size)) :
    dot add mul a (lead ++ [k]) b (k :: rest) =
      (lead.indices ×ˢ rest.indices).mapM (contractionEntry add mul a lead k b rest) := by
  have rows : lead.size = lead.prod := Shape.size_eq_prod (Shape.isSome_size?_append_left sizedA)
  rw [dot_eq countA countB, tabulate_eq_mapM fits, rows]
  rw [rows] at fits
  rcases eq_or_ne lead.prod 0 with zero | some
  · have none : lead.indices = [] :=
      List.length_eq_zero_iff.mp ((Shape.length_indices lead).trans zero)
    rw [zero, none, Nat.zero_mul, List.nil_product]
    rfl
  · rw [size_eq_prod_of_fits fits some, ← map_places, List.mapM_map]
    refine mapM_congr fun place mem => ?_
    obtain ⟨i, j⟩ := place
    have lt : rest.position j < rest.prod := Shape.position_lt (mem_places.mp mem).2
    simp only [Function.comp_apply, dotEntry, Shape.mul_add_div_of_lt lt, Nat.mul_add_mod_of_lt lt]
    rfl

theorem eq_size_of_run_checkCount {shape : Shape} {f : Unit → Compute β} {r : β × Coins}
    (h : ((liftM (checkCount a shape) : Compute Unit) >>= f).run c = .ok r) :
    a.length = shape.size ∧ (f ()).run c = .ok r := by
  by_cases count : a.length = shape.size
  · rw [checkCount_ok count, lift_bind] at h
    exact ⟨count, h⟩
  · rw [checkCount, if_neg count] at h
    exact nomatch h

/-- What a contraction answers has the entry at each place, in row-major
order. -/
theorem inOrder_of_run_dot {out : List α} (countA : a.length = (lead ++ [k]).prod)
    (h : (dot add mul a (lead ++ [k]) b (k :: rest)).run c = .ok (out, c')) :
    InOrder (Contracts add mul a lead k b rest) c (lead.indices ×ˢ rest.indices) out c' := by
  obtain ⟨sizeA, h'⟩ := eq_size_of_run_checkCount h
  obtain ⟨sizeB, -⟩ := eq_size_of_run_checkCount h'
  have sizedA := Shape.isSome_size?_of_size_eq (sizeA.symm.trans countA)
  have fits : Fits (lead.size * rest.size) := by
    rw [dot_eq sizeA sizeB] at h
    exact fits_of_run_tabulate h
  rw [dot_eq_mapM sizedA sizeA sizeB fits] at h
  refine (run_mapM_eq_ok h).imp fun place mem c z c' entry => ?_
  exact (run_contractionEntry_eq_ok_iff (mem_places.mp mem).1).mp entry

/-- Over an axis without elements the first entry stops the contraction. -/
theorem stops_empty_iff {places : List (List Nat × List Nat)} :
    Stops (Contracts add mul a lead 0 b rest) (fun place c e =>
        (0 = 0 ∧ e = .shape .emptyReduction) ∨
          ContractionFails add mul a lead 0 b rest place c e) c places e ↔
      0 < places.length ∧ e = .shape .emptyReduction := by
  cases places with
  | nil => simpa using fun h => nomatch h
  | cons place places =>
    have idle : ¬ ContractionFails add mul a lead 0 b rest place c e := fun h =>
      absurd h.pos (Nat.lt_irrefl 0)
    rw [stops_cons_iff_of_not_gives fun z c' given => absurd given.pos (Nat.lt_irrefl 0)]
    simp [idle]

/-- A contraction that can be counted and held is stopped by an element
operation only, or by a shared axis without elements. -/
theorem run_dot_eq_error_iff (sizedA : (Shape.size? (lead ++ [k])).isSome)
    (sizedB : (Shape.size? (k :: rest)).isSome) (sized : (Shape.size? (lead ++ rest)).isSome)
    (fits : Fits (lead ++ rest).prod) (countA : a.length = (lead ++ [k]).prod)
    (countB : b.length = (k :: rest).prod) :
    (dot add mul a (lead ++ [k]) b (k :: rest)).run c = .error e ↔
      (k = 0 ∧ 0 < (lead ++ rest).prod ∧ e = .shape .emptyReduction) ∨
        Stops (Contracts add mul a lead k b rest) (ContractionFails add mul a lead k b rest) c
          (lead.indices ×ˢ rest.indices) e := by
  have sizeA := countA.trans (Shape.size_eq_prod sizedA).symm
  have sizeB := countB.trans (Shape.size_eq_prod sizedB).symm
  rw [dot_eq_mapM sizedA sizeA sizeB (by rwa [Shape.size_mul_size sized]), run_mapM_eq_error_iff,
    stops_congr (fun place mem c z c' => run_contractionEntry_eq_ok_iff (mem_places.mp mem).1)
      fun place mem c e => run_contractionEntry_eq_error_iff countA countB (mem_places.mp mem).1
        (mem_places.mp mem).2]
  -- Without a shared axis no entry is computed, with one no reduction is empty.
  rcases Nat.eq_zero_or_pos k with rfl | pos
  · have idle (places) : ¬ Stops (Contracts add mul a lead 0 b rest)
        (ContractionFails add mul a lead 0 b rest) c places e := by
      rintro (failed | ⟨given, -⟩)
      · exact absurd failed.pos (Nat.lt_irrefl 0)
      · exact absurd given.pos (Nat.lt_irrefl 0)
    rw [stops_empty_iff, length_places]
    simp [idle]
  · simp only [pos.ne', false_and, false_or]

end Tensor

namespace Element

open Tensor

variable {a b : List Element} {lead rest : Shape} {k : Nat}

/-- A contraction that answers has at each place of the remaining axes, in
row-major order, the sum of the products along the shared axis. Where operands
and output can be counted and the output can be held, it fails exactly if one
of the element operations fails, or the shared axis has no elements and the
output has. -/
theorem dot_contracts (ev : Evaluator) (countA : a.length = (lead ++ [k]).prod)
    (countB : b.length = (k :: rest).prod) (c : Coins) :
    (∀ out c', (dot ev a (lead ++ [k]) b (k :: rest)).run c = .ok (out, c') →
      InOrder (Contracts (add ev) (multiply ev) a lead k b rest) c
        (lead.indices ×ˢ rest.indices) out c' ∧
      out.length = (lead ++ rest).prod ∧
      ∀ i j, lead.Within i → rest.Within j →
        ∃ z c₁ c₂, out[Shape.position (lead ++ rest) (i ++ j)]? = some z ∧
          Contracts (add ev) (multiply ev) a lead k b rest (i, j) c₁ z c₂) ∧
    ((Shape.size? (lead ++ [k])).isSome → (Shape.size? (k :: rest)).isSome →
      (Shape.size? (lead ++ rest)).isSome → Fits (lead ++ rest).prod →
      ∀ e, (dot ev a (lead ++ [k]) b (k :: rest)).run c = .error e ↔
        (k = 0 ∧ 0 < (lead ++ rest).prod ∧ e = .shape .emptyReduction) ∨
          Stops (Contracts (add ev) (multiply ev) a lead k b rest)
            (ContractionFails (add ev) (multiply ev) a lead k b rest) c
            (lead.indices ×ˢ rest.indices) e) := by
  constructor
  · intro out c' answers
    have entries := inOrder_of_run_dot countA answers
    refine ⟨entries, entries.length.trans (length_places lead rest), fun i j hi hj => ?_⟩
    exact entries.getElem? (getElem?_places hi hj)
  · intro sizedA sizedB sized fits e
    exact run_dot_eq_error_iff sizedA sizedB sized fits countA countB

namespace Example

/-- A matrix of two rows and two columns. -/
def matrix : List Element :=
  [.plain [1], .plain [2], .plain [3], .plain [4]]

/-- As many elements as it has columns. -/
def vector : List Element :=
  [.plain [5], .plain [7]]

/-- Their product. -/
def product : List Element :=
  [.plain [1 * 5 + 2 * 7], .plain [3 * 5 + 4 * 7]]

end Example

open Evaluator.Tiny (evaluator)
open Example

/-- The second row of a matrix gives the second element of its product. -/
theorem dot_contracts_matrix :
    matrix.length = ([2] ++ [2] : Shape).prod ∧ vector.length = [2].prod ∧
    (dot evaluator matrix ([2] ++ [2]) vector [2]).run default =
      .ok (product, default) ∧
    (∃ z c₁ c₂, product[1]? = some z ∧
      Contracts (add evaluator) (multiply evaluator) matrix [2] 2 vector [] ([1], []) c₁ z c₂) ∧
    ∀ e, ¬ Stops (Contracts (add evaluator) (multiply evaluator) matrix [2] 2 vector [])
      (ContractionFails (add evaluator) (multiply evaluator) matrix [2] 2 vector [])
      default (Shape.indices [2] ×ˢ Shape.indices []) e := by
  have answers : (dot evaluator matrix ([2] ++ [2]) vector [2]).run default =
      .ok (product, default) := rfl
  have fits : Fits (List.prod ([2] ++ [])) := by decide
  have countA : matrix.length = ([2] ++ [2] : Shape).prod := rfl
  have countB : vector.length = [2].prod := rfl
  obtain ⟨entries, fails⟩ := dot_contracts evaluator countA countB default
  refine ⟨countA, countB, answers, ?_, fun e stops => ?_⟩
  · exact (entries product _ answers).2.2 [1] [] (by simp [Shape.Within]) (by simp [Shape.Within])
  · have failed := (fails rfl rfl rfl fits e).mpr (.inr stops)
    exact nomatch answers.symm.trans failed

/-- An output of `2 ^ 60` elements can be counted, but it is refused for its
size, also where the shared axis has no elements. -/
theorem dot_refused_for_size :
    ([] : List Element).length = ([Nat.pow 2 60] ++ [0] : Shape).prod ∧
    ([] : List Element).length = [0].prod ∧ (Shape.size? ([Nat.pow 2 60] ++ [])).isSome ∧
    (dot evaluator [] ([Nat.pow 2 60] ++ [0]) [] [0]).run default = .error outOfMemory ∧
    ¬ ∀ e, (dot evaluator [] ([Nat.pow 2 60] ++ [0]) [] [0]).run default = .error e ↔
      (0 = 0 ∧ 0 < ([Nat.pow 2 60] ++ [] : Shape).prod ∧ e = .shape .emptyReduction) ∨
        Stops (Contracts (add evaluator) (multiply evaluator) [] [Nat.pow 2 60] 0 [] [])
          (ContractionFails (add evaluator) (multiply evaluator) [] [Nat.pow 2 60] 0 [] [])
          default (Shape.indices [Nat.pow 2 60] ×ˢ Shape.indices []) e := by
  have refused : (dot evaluator [] ([Nat.pow 2 60] ++ [0]) [] [0]).run default =
      .error outOfMemory := rfl
  have some : 0 < ([Nat.pow 2 60] ++ [] : Shape).prod := by decide
  refine ⟨rfl, rfl, rfl, refused, fun exactly => ?_⟩
  have empty := (exactly (.shape .emptyReduction)).mpr (.inl ⟨rfl, some, rfl⟩)
  exact nomatch refused.symm.trans empty

end Element

end CipherFlow
