import CipherFlow.Proofs.Run.Refusals
import CipherFlow.Proofs.Tensor.Parametric

/-!
# Kinds of elements

What sums and products say of their outcomes holds of the outcomes of the
tensor operations: these know the elements through sums and products only.
-/

namespace CipherFlow

open CipherFlow.Element (Compute)
open Answering

namespace Tensor

variable {α : Type} {P Q R : α → Prop} {op add mul : α → α → Compute α} {a b out : List α}

/-- Of elements of two kinds an operation makes one of a third kind. -/
def Yields (P Q R : α → Prop) (op : α → α → Compute α) : Prop :=
  ∀ x y z, P x → Q y → May (op x y) z → R z

/-! ## Element by element -/

/-- Each element of the outcome is made of two that stand at its place. -/
theorem elementwise_yields (hop : Yields P Q R op) (ha : ∀ x ∈ a, P x) (hb : ∀ y ∈ b, Q y)
    (h : May (elementwise op a b) out) : ∀ z ∈ out, R z := by
  unfold elementwise at h
  split at h
  · obtain ⟨_, ⟨_, _, refused⟩, -⟩ := may_bind h
    exact nomatch refused
  · have each := may_mapM h
    intro z hz
    obtain ⟨i, lt, rfl⟩ := List.mem_iff_getElem.mp hz
    obtain ⟨⟨x, y⟩, found, may⟩ :=
      getElem?_related (List.Forall₂.flip each) (List.getElem?_eq_getElem lt)
    have mem := List.of_mem_zip (List.mem_of_getElem? found)
    exact hop x y _ (ha x mem.1) (hb y mem.2) may

/-! ## Sums

A sum keeps its kind while products are added to it, so these go by induction on
what is left to add, for any sum so far. -/

theorem addProducts_yields (hadd : Yields R R R add) (hmul : Yields P Q R mul)
    {pairs : List (α × α)} (all : ∀ p ∈ pairs, P p.1 ∧ Q p.2) {sum z : α} (start : R sum)
    (h : May (addProducts add mul sum pairs) z) : R z := by
  induction pairs generalizing sum with
  | nil =>
    obtain rfl := may_pure h
    exact start
  | cons p pairs ih =>
    obtain ⟨term, hterm, h⟩ := may_bind h
    obtain ⟨next, hnext, h⟩ := may_bind h
    obtain ⟨hx, hy⟩ := all p List.mem_cons_self
    exact ih (fun q hq => all q (List.mem_cons_of_mem _ hq))
      (hadd _ _ _ start (hmul _ _ _ hx hy hterm) hnext) h

theorem sumProducts_yields (hadd : Yields R R R add) (hmul : Yields P Q R mul)
    {pairs : List (α × α)} (all : ∀ p ∈ pairs, P p.1 ∧ Q p.2) {z : α}
    (h : May (sumProducts add mul pairs) z) : R z := by
  cases pairs with
  | nil =>
    obtain ⟨_, _, refused⟩ := h
    exact nomatch refused
  | cons p pairs =>
    obtain ⟨term, hterm, h⟩ := may_bind h
    obtain ⟨hx, hy⟩ := all p List.mem_cons_self
    exact addProducts_yields hadd hmul (fun q hq => all q (List.mem_cons_of_mem _ hq))
      (hmul _ _ _ hx hy hterm) h

theorem foldlM_yields (hadd : Yields P P P add) (ha : ∀ x ∈ a, P x) {sum z : α} (start : P sum)
    (h : May (a.foldlM add sum) z) : P z := by
  induction a generalizing sum with
  | nil =>
    obtain rfl := may_pure h
    exact start
  | cons x a ih =>
    rw [List.foldlM_cons] at h
    obtain ⟨next, hnext, h⟩ := may_bind h
    exact ih (fun y hy => ha y (List.mem_cons_of_mem _ hy))
      (hadd _ _ _ start (ha x List.mem_cons_self) hnext) h

theorem sumElements_yields (hadd : Yields P P P add) (ha : ∀ x ∈ a, P x) {z : α}
    (h : May (sumElements add a) z) : P z := by
  cases a with
  | nil =>
    obtain ⟨_, _, refused⟩ := h
    exact nomatch refused
  | cons x a =>
    exact foldlM_yields hadd (fun y hy => ha y (List.mem_cons_of_mem _ hy))
      (ha x List.mem_cons_self) h

/-! ## Reading elements -/

theorem of_entryOf (ha : ∀ x ∈ a, P x) {i : Nat} {x : α}
    (h : Fault.entryOf a.toArray i = .ok x) : P x := by
  rw [Fault.entryOf_toArray, entry_eq_ok] at h
  exact ha x (List.mem_of_getElem? h)

/-- Pairs that have been read are of the kinds of the operands. -/
theorem of_readPairs {β : Type} (ha : ∀ x ∈ a, P x) (hb : ∀ y ∈ b, Q y) {i j : β → Nat}
    {places : List β} {pairs : List (α × α)}
    (h : (places.mapM fun p => do
      let x ← Fault.entryOf a.toArray (i p)
      let y ← Fault.entryOf b.toArray (j p)
      return (x, y)) = .ok pairs) : ∀ p ∈ pairs, P p.1 ∧ Q p.2 := by
  intro p hp
  obtain ⟨k, lt, rfl⟩ := List.mem_iff_getElem.mp hp
  obtain ⟨place, -, read⟩ :=
    getElem?_related (List.Forall₂.flip (mapM_eq_ok_iff.mp h)) (List.getElem?_eq_getElem lt)
  obtain ⟨x, hx, read⟩ := exists_of_bind_eq_ok read
  obtain ⟨y, hy, read⟩ := exists_of_bind_eq_ok read
  rw [← Except.ok.inj read]
  exact ⟨of_entryOf ha hx, of_entryOf hb hy⟩

/-! ## Whole operations -/

theorem tabulate_yields {f : Nat → Compute α} {count : Nat} (each : ∀ i z, May (f i) z → R z)
    (h : May (tabulate count f) out) : ∀ z ∈ out, R z := by
  obtain ⟨length, all⟩ := may_tabulate h
  intro z hz
  obtain ⟨i, lt, rfl⟩ := List.mem_iff_getElem.mp hz
  obtain ⟨x, hx, may⟩ := all i (length ▸ lt)
  rw [List.getElem?_eq_getElem lt] at hx
  exact Option.some.inj hx ▸ each i x may

/-- Each entry of a contraction sums products of elements of the two kinds. -/
theorem dot_yields (hadd : Yields R R R add) (hmul : Yields P Q R mul) (ha : ∀ x ∈ a, P x)
    (hb : ∀ y ∈ b, Q y) {aShape bShape : Shape} (h : May (dot add mul a aShape b bShape) out) :
    ∀ z ∈ out, R z := by
  obtain ⟨_, -, h⟩ := may_bind h
  obtain ⟨_, -, h⟩ := may_bind h
  split at h
  · split at h
    · obtain ⟨_, ⟨_, _, refused⟩, -⟩ := may_bind h
      exact nomatch refused
    · -- What is not refused is a table, and each of its entries sums over the pairs it has read.
      refine tabulate_yields (fun place z entry => ?_) h
      obtain ⟨pairs, hpairs, entry⟩ := may_bind entry
      exact sumProducts_yields hadd hmul (of_readPairs ha hb (eq_ok_of_may_fault hpairs)) entry
  · obtain ⟨_, _, refused⟩ := h
    exact nomatch refused

theorem convolution_yields (hadd : Yields R R R add) (hmul : Yields P Q R mul)
    (ha : ∀ x ∈ a, P x) (hb : ∀ y ∈ b, Q y) {aShape bShape : Shape} {strides : Nat × Nat}
    (h : May (convolution add mul a aShape b bShape strides) out) : ∀ z ∈ out, R z := by
  obtain ⟨_, -, h⟩ := may_bind h
  obtain ⟨_, -, h⟩ := may_bind h
  obtain ⟨d, -, h⟩ := may_bind h
  obtain ⟨f, -, h⟩ := may_bind h
  split at h
  · obtain ⟨_, ⟨_, _, refused⟩, -⟩ := may_bind h
    exact nomatch refused
  · obtain ⟨_, -, h⟩ := may_bind h
    refine tabulate_yields (fun place z entry => ?_) h
    obtain ⟨pairs, hpairs, entry⟩ := may_bind entry
    exact sumProducts_yields hadd hmul (of_readPairs ha hb (eq_ok_of_may_fault hpairs)) entry

/-- A mean is the sum over a window times the inverse of its size. This inverse is of a
kind of its own, as nothing else of that kind is added to it. -/
theorem windowSums_yields (hadd : Yields P P P add) (hmul : Yields P Q R mul)
    {inverse : Nat → α} (hinverse : ∀ area, Q (inverse area)) (ha : ∀ x ∈ a, P x) {shape : Shape}
    {window strides : Nat × Nat} (h : May (windowSums add mul inverse a shape window strides) out) :
    ∀ z ∈ out, R z := by
  obtain ⟨_, -, h⟩ := may_bind h
  obtain ⟨d, -, h⟩ := may_bind h
  obtain ⟨_, -, h⟩ := may_bind h
  obtain ⟨area, -, h⟩ := may_bind h
  refine tabulate_yields (fun place z entry => ?_) h
  obtain ⟨elements, helements, entry⟩ := may_bind entry
  obtain ⟨sum, hsum, entry⟩ := may_bind entry
  refine hmul _ _ _ (sumElements_yields hadd ?_ hsum) (hinverse area) entry
  intro x hx
  obtain ⟨k, lt, rfl⟩ := List.mem_iff_getElem.mp hx
  obtain ⟨offset, -, read⟩ := getElem?_related
    (List.Forall₂.flip (mapM_eq_ok_iff.mp (eq_ok_of_may_fault helements)))
    (List.getElem?_eq_getElem lt)
  exact of_entryOf ha read

theorem broadcast_yields (ha : ∀ x ∈ a, P x) {source target : Shape}
    (h : May (broadcast a source target) out) : ∀ z ∈ out, P z := by
  obtain ⟨_, -, h⟩ := may_bind h
  split at h
  · obtain ⟨_, ⟨_, _, refused⟩, -⟩ := may_bind h
    exact nomatch refused
  · exact tabulate_yields (fun place z entry => of_entryOf ha (eq_ok_of_may_fault entry)) h

end Tensor

end CipherFlow
