import CipherFlow.Proofs.Run.Refusals
import CipherFlow.Proofs.Tensor.Broadcast
import Mathlib.Algebra.Order.BigOperators.GroupWithZero.List

/-!
# Tensor operations that cannot go wrong

On operands of the shapes that they ask for, and with sums and products that
always answer, the tensor operations read no element that is not there and
leave no sum empty. So they settle: all that can stop them is an output that
does not fit into memory.

Main lemmas: `dot_settles`, `convolution_settles`, `windowSums_settles` and
`broadcast_settles`.

Each operation is first put in the form of a table of entries (`dot_eq` and its
like), which is the last time that its checks are looked at. An entry reads elements
by place, and that the places are there is a fact about coordinates
(`imageIndex_window_lt`, `mul_add_lt_mul`). `tabulate_settles` does the rest, for
all four.
-/

namespace CipherFlow

open CipherFlow.Element (Compute Error)
open Answering Refusing

namespace Shape

variable {s t : Shape} {d n i k extent window stride : Nat}

/-! ## Sizes

Sizes are products in machine words. An axis that is empty makes a size 0, but only
if no product before it is too large. -/

theorem sizeFrom_append (n : Nat) (s t : Shape) :
    sizeFrom n (s ++ t) = (sizeFrom n s).bind fun m => sizeFrom m t := by
  simp only [sizeFrom, List.foldlM_append]
  rfl

/-- The leading axes of a shape that can be counted can be counted. -/
theorem isSome_size?_append_left (sized : (size? (s ++ t)).isSome) : s.size?.isSome := by
  rw [size?_eq_sizeFrom, sizeFrom_append] at sized
  rw [size?_eq_sizeFrom]
  cases h : sizeFrom 1 s with
  | none => simp [h] at sized
  | some n => rfl

theorem isSome_size?_append_right (sized : (size? (s ++ t)).isSome) (pos : 0 < s.prod) :
    t.size?.isSome := by
  induction s with
  | nil => exact sized
  | cons d s ih =>
    rw [List.prod_cons] at pos
    exact ih (isSome_size?_tail sized (Nat.pos_of_mul_pos_right pos)) (Nat.pos_of_mul_pos_left pos)

/-- The places of two groups of axes multiply, also where one of them is empty
and the other cannot be counted. -/
theorem size_mul_size (sized : (size? (s ++ t)).isSome) : s.size * t.size = (s ++ t).prod := by
  rw [size_eq_prod (isSome_size?_append_left sized), List.prod_append]
  rcases Nat.eq_zero_or_pos s.prod with zero | pos
  · simp [zero]
  · rw [size_eq_prod (isSome_size?_append_right sized pos)]

/-- A place in a row of a table is a place in the table. -/
theorem mul_add_lt_mul {row rows column columns : Nat} (hrow : row < rows)
    (hcolumn : column < columns) : row * columns + column < rows * columns :=
  calc row * columns + column
    _ < row * columns + columns := Nat.add_lt_add_left hcolumn _
    _ = (row + 1) * columns := (Nat.succ_mul ..).symm
    _ ≤ rows * columns := Nat.mul_le_mul_right _ hrow

/-- Extents are positive. -/
def IsPositive (s : Shape) : Prop :=
  ∀ d ∈ s, 0 < d

theorem IsPositive.prod_pos (h : s.IsPositive) : 0 < s.prod :=
  List.prod_pos h

/-- Without empty axes no product on the way exceeds the last one. -/
theorem IsPositive.isSome_size? (h : s.IsPositive) (lt : s.prod < wordSize) :
    s.size?.isSome := by
  have all : ∀ (t : Shape) (n : Nat), t.IsPositive → n * t.prod < wordSize →
      (sizeFrom n t).isSome := by
    intro t
    induction t with
    | nil => exact fun _ _ _ => rfl
    | cons d t ih =>
      intro n pos lt
      rw [List.prod_cons, ← Nat.mul_assoc] at lt
      have rest : 0 < t.prod := IsPositive.prod_pos fun e he => pos e (List.mem_cons_of_mem _ he)
      have step : n * d < wordSize := Nat.lt_of_le_of_lt (Nat.le_mul_of_pos_right _ rest) lt
      obtain ⟨k, hk⟩ := Option.isSome_iff_exists.mp
        (ih (n * d) (fun e he => pos e (List.mem_cons_of_mem _ he)) lt)
      exact Option.isSome_iff_exists.mpr ⟨k, sizeFrom_cons_eq_some.mpr ⟨step, hk⟩⟩
  exact all s 1 h (by rwa [Nat.one_mul])

/-! ## Windows

A window is placed at multiples of the stride, as often as it lies inside as a
whole. -/

theorem windowCount_eq_ok (h : windowCount extent window stride = .ok n) :
    0 < window ∧ window ≤ extent ∧ n = (extent - window) / stride + 1 := by
  unfold windowCount at h
  split at h
  · exact nomatch h
  · exact ⟨by omega, by omega, (Except.ok.inj h).symm⟩

/-- A window at any of its positions lies inside. -/
theorem window_lt (h : windowCount extent window stride = .ok n) (hi : i < n) (hk : k < window) :
    i * stride + k < extent := by
  obtain ⟨-, le, rfl⟩ := windowCount_eq_ok h
  have start : i * stride ≤ extent - window :=
    Nat.le_trans (Nat.mul_le_mul_right _ (Nat.le_of_lt_succ hi)) (Nat.div_mul_le_self ..)
  omega

/-- The windows over the rows and those over the columns. -/
theorem windowImages_eq_ok {batch channels : Nat} {input size strides : Nat × Nat} {out : Images}
    (h : windowImages batch channels input size strides = .ok out) :
    out.batch = batch ∧ out.channels = channels ∧
      windowCount input.1 size.1 strides.1 = .ok out.height ∧
      windowCount input.2 size.2 strides.2 = .ok out.width := by
  obtain ⟨height, hh, h⟩ := exists_of_bind_eq_ok h
  obtain ⟨width, hw, h⟩ := exists_of_bind_eq_ok h
  obtain rfl := Except.ok.inj h
  exact ⟨rfl, rfl, hh, hw⟩

end Shape

namespace Tensor

variable {α : Type} {P : α → Prop} {add mul op : α → α → Compute α} {a b data filter : List α}

/-! ## Images

Elements of images are found by four coordinates, which is the row-major position of
a shape with four axes. -/

theorem imageCount_eq_prod (i : Shape.Images) : imageCount i = i.shape.prod := by
  simp [imageCount, Shape.Images.shape, Nat.mul_assoc]

/-- The places of images are those of their shape. -/
theorem imageIndex_eq_position (i : Shape.Images) (n ch y x : Nat) :
    imageIndex i n ch y x = i.shape.position [n, ch, y, x] := by
  simp only [imageIndex, Shape.Images.shape, Shape.position, List.prod_cons, List.prod_nil]
  ring

theorem imageIndex_lt {i : Shape.Images} {n ch y x : Nat} (hn : n < i.batch)
    (hch : ch < i.channels) (hy : y < i.height) (hx : x < i.width) :
    imageIndex i n ch y x < imageCount i := by
  rw [imageIndex_eq_position, imageCount_eq_prod]
  exact Shape.position_lt (.cons hn (.cons hch (.cons hy (.cons hx .nil))))

/-- A window at one of its positions covers elements that are there. -/
theorem imageIndex_window_lt {batch channels n ch oy ox ky kx : Nat} {d out : Shape.Images}
    {window strides : Nat × Nat}
    (windows : Shape.windowImages batch channels (d.height, d.width) window strides = .ok out)
    (hn : n < d.batch) (hch : ch < d.channels) (hoy : oy < out.height) (hox : ox < out.width)
    (hky : ky < window.1) (hkx : kx < window.2) :
    imageIndex d n ch (oy * strides.1 + ky) (ox * strides.2 + kx) < imageCount d := by
  obtain ⟨-, -, rows, columns⟩ := Shape.windowImages_eq_ok windows
  exact imageIndex_lt hn hch (Shape.window_lt rows hoy hky) (Shape.window_lt columns hox hkx)

/-- A place in images is one of theirs. -/
theorem imagePlace_lt {i : Shape.Images} {place : Nat} (lt : place < imageCount i) :
    place / (i.height * i.width) / i.channels < i.batch ∧
      place / (i.height * i.width) % i.channels < i.channels ∧
      place / i.width % i.height < i.height ∧ place % i.width < i.width := by
  rw [imageCount] at lt
  -- As there is a place, no extent is 0.
  have all : 0 < i.batch * i.channels * i.height * i.width := Nat.lt_of_le_of_lt (Nat.zero_le _) lt
  have width : 0 < i.width := Nat.pos_of_mul_pos_left all
  have height : 0 < i.height := Nat.pos_of_mul_pos_left (Nat.pos_of_mul_pos_right all)
  have channels : 0 < i.channels :=
    Nat.pos_of_mul_pos_left (Nat.pos_of_mul_pos_right (Nat.pos_of_mul_pos_right all))
  refine ⟨?_, Nat.mod_lt _ channels, Nat.mod_lt _ height, Nat.mod_lt _ width⟩
  refine Nat.div_lt_of_lt_mul (Nat.div_lt_of_lt_mul ?_)
  calc place
    _ < i.batch * i.channels * i.height * i.width := lt
    _ = i.height * i.width * (i.channels * i.batch) := by ring

theorem mem_windowOffsets {window k : Nat × Nat} :
    k ∈ windowOffsets window ↔ k.1 < window.1 ∧ k.2 < window.2 := by
  obtain ⟨ky, kx⟩ := k
  simp [windowOffsets]

/-- The places of a filter: all channels, each row by row. -/
theorem mem_filterPlaces {channels : Nat} {window : Nat × Nat} {p : Nat × Nat × Nat} :
    (p ∈ (List.range channels).flatMap fun ch => (windowOffsets window).map fun k => (ch, k)) ↔
      p.1 < channels ∧ p.2.1 < window.1 ∧ p.2.2 < window.2 := by
  obtain ⟨ch, k⟩ := p
  simp [mem_windowOffsets]

theorem windowOffsets_ne_nil {window : Nat × Nat} (first : 0 < window.1) (second : 0 < window.2) :
    windowOffsets window ≠ [] :=
  List.ne_nil_of_mem (mem_windowOffsets (k := (0, 0)).mpr ⟨first, second⟩)

/-! ## Faults of a tensor operation

The places of an output are counted in a word, and then the memory for them is set
aside. Both can fail, and with the same fault. -/

/-- A fault, wrapped once by each kind of error that passes it on. -/
def faulty (f : Fault) : Error :=
  .scheme (.prime (.fault f))

/-- What an output is refused with that does not fit into memory. -/
def outOfMemory : Error :=
  faulty .sizeOverflow

theorem must_liftFault {β : Type} {x : Except Fault β} {y : β} (h : x = .ok y) :
    Must (liftM x : Compute β) y := by
  subst h
  exact fun _ => rfl

theorem fails_liftFault {β : Type} {x : Except Fault β} {f : Fault} (h : x = .error f) :
    Fails (liftM x : Compute β) (faulty f) := by
  subst h
  exact fun _ => rfl

/-- Whether elements can be counted and held. -/
abbrev Fits (count : Nat) : Prop :=
  Shape.elementWidth * count < Nat.pow 2 63

theorem checkSize_of_fits {count : Nat} (fits : Fits count) :
    Fault.checkSize count = .ok count := by
  refine if_pos ?_
  calc count
    _ ≤ Shape.elementWidth * count := Nat.le_mul_of_pos_left count (by decide)
    _ < Nat.pow 2 63 := fits
    _ < wordSize := by decide

theorem must_tabulateFrom {f : Nat → Compute α} {Q : Nat → α → Prop} (count start : Nat)
    (each : ∀ i < count, ∃ x, Must (f (start + i)) x ∧ Q (start + i) x) :
    ∃ out, Must (tabulateFrom f count start) out ∧ out.length = count ∧
      ∀ i x, out[i]? = some x → Q (start + i) x := by
  induction count generalizing start with
  | zero => exact ⟨[], must_pure [], rfl, fun i x h => nomatch h⟩
  | succ count ih =>
    obtain ⟨x, hx, first⟩ := each 0 (Nat.succ_pos count)
    obtain ⟨rest, hrest, length, all⟩ := ih (start + 1) fun i hi => by
      rw [Nat.add_right_comm]
      exact each (i + 1) (Nat.succ_lt_succ hi)
    refine ⟨x :: rest, must_bind hx (must_bind hrest (must_pure _)), congrArg (· + 1) length, ?_⟩
    intro i y hy
    cases i with
    | zero => exact Option.some.inj hy ▸ first
    | succ i =>
      have last := all i y hy
      rwa [Nat.add_right_comm] at last

/-- An output that does not fit into memory is refused before its elements are
computed. -/
theorem tabulate_fails {count : Nat} (full : ¬ Fits count) (f : Nat → Compute α) :
    Fails (tabulate count f) outOfMemory := by
  by_cases counted : count < wordSize
  · exact fails_bind_of_must (must_liftFault (if_pos counted))
      (fails_bind _ (fails_liftFault (if_neg full)))
  · exact fails_bind _ (fails_liftFault (if_neg counted))

/-- An output is tabulated if each of its elements can be computed and it fits
into memory. -/
theorem tabulate_settles {f : Nat → Compute α} {Q : Nat → α → Prop} {count : Nat}
    (each : ∀ i < count, ∃ x, Must (f i) x ∧ Q i x) :
    Settles (Fits count) outOfMemory
      (fun out => out.length = count ∧ ∀ (i : Nat) (x : α), out[i]? = some x → Q i x)
      (tabulate count f) := by
  constructor
  · intro fits
    obtain ⟨out, must, length, all⟩ := must_tabulateFrom count 0 (by simpa using each)
    refine ⟨out, ?_, length, by simpa using all⟩
    exact must_bind (must_liftFault (checkSize_of_fits fits))
      (must_bind (must_liftFault (if_pos fits)) must)
  · exact fun full => tabulate_fails full f

/-! ## Operations that always answer

Sums of elements start from the first one. So they need one, but no element that is
neutral. -/

/-- On elements of a kind an operation always answers with one of this kind. -/
def Total (P : α → Prop) (op : α → α → Compute α) : Prop :=
  ∀ x y, P x → P y → ∃ z, Must (op x y) z ∧ P z

theorem of_forall₂ {β : Type} {xs : List β} {ys : List α}
    (h : List.Forall₂ (fun _ y => P y) xs ys) : ∀ y ∈ ys, P y := by
  induction h with
  | nil => exact fun _ hy => nomatch hy
  | cons first _ ih => exact List.forall_mem_cons.mpr ⟨first, ih⟩

theorem elementwise_must (hop : Total P op) (length : a.length = b.length) (ha : ∀ x ∈ a, P x)
    (hb : ∀ y ∈ b, P y) :
    ∃ out, Must (elementwise op a b) out ∧ out.length = a.length ∧ ∀ z ∈ out, P z := by
  have each : ∀ p ∈ a.zip b, ∃ z, Must (op p.1 p.2) z ∧ P z := fun p hp =>
    hop p.1 p.2 (ha p.1 (List.of_mem_zip hp).1) (hb p.2 (List.of_mem_zip hp).2)
  obtain ⟨out, must, all⟩ := must_mapM each
  refine ⟨out, ?_, ?_, of_forall₂ all⟩
  · unfold elementwise
    rwa [if_neg (not_not_intro length)]
  · rw [← all.length_eq, List.length_zip, length, Nat.min_self]

theorem addProducts_must (hadd : Total P add) (hmul : Total P mul) {pairs : List (α × α)}
    (all : ∀ p ∈ pairs, P p.1 ∧ P p.2) {sum : α} (start : P sum) :
    ∃ z, Must (addProducts add mul sum pairs) z ∧ P z := by
  induction pairs generalizing sum with
  | nil => exact ⟨sum, must_pure sum, start⟩
  | cons p pairs ih =>
    obtain ⟨hx, hy⟩ := all p List.mem_cons_self
    obtain ⟨term, mterm, hterm⟩ := hmul p.1 p.2 hx hy
    obtain ⟨sum', msum, hsum⟩ := hadd sum term start hterm
    obtain ⟨z, mz, hz⟩ := ih (fun q hq => all q (List.mem_cons_of_mem _ hq)) hsum
    exact ⟨z, must_bind mterm (must_bind msum mz), hz⟩

theorem sumProducts_must (hadd : Total P add) (hmul : Total P mul) {pairs : List (α × α)}
    (some : pairs ≠ []) (all : ∀ p ∈ pairs, P p.1 ∧ P p.2) :
    ∃ z, Must (sumProducts add mul pairs) z ∧ P z := by
  cases pairs with
  | nil => exact absurd rfl some
  | cons p pairs =>
    obtain ⟨hx, hy⟩ := all p List.mem_cons_self
    obtain ⟨term, mterm, hterm⟩ := hmul p.1 p.2 hx hy
    obtain ⟨z, mz, hz⟩ :=
      addProducts_must hadd hmul (fun q hq => all q (List.mem_cons_of_mem _ hq)) hterm
    exact ⟨z, must_bind mterm mz, hz⟩

theorem sumElements_must (hadd : Total P add) (some : a ≠ []) (ha : ∀ x ∈ a, P x) :
    ∃ z, Must (sumElements add a) z ∧ P z := by
  have fold : ∀ (xs : List α) (sum : α), P sum → (∀ x ∈ xs, P x) →
      ∃ z, Must (xs.foldlM add sum) z ∧ P z := by
    intro xs
    induction xs with
    | nil => exact fun sum start _ => ⟨sum, must_pure sum, start⟩
    | cons x xs ih =>
      intro sum start all
      obtain ⟨next, mnext, hnext⟩ := hadd sum x start (all x List.mem_cons_self)
      obtain ⟨z, mz, hz⟩ := ih next hnext fun y hy => all y (List.mem_cons_of_mem _ hy)
      exact ⟨z, by rw [List.foldlM_cons]; exact must_bind mnext mz, hz⟩
  cases a with
  | nil => exact absurd rfl some
  | cons x xs =>
    exact fold xs x (ha x List.mem_cons_self) fun y hy => ha y (List.mem_cons_of_mem _ hy)

/-! ## Reading elements

Elements are read before anything is computed from them, and reading takes no coins. -/

theorem entryOf_ok (ha : ∀ x ∈ a, P x) {i : Nat} (lt : i < a.length) :
    ∃ x, Fault.entryOf a.toArray i = .ok x ∧ P x := by
  refine ⟨a[i], ?_, ha _ (List.getElem_mem lt)⟩
  rw [Fault.entryOf_toArray, entry_eq_ok, List.getElem?_eq_getElem lt]

/-- Pairs of elements are read at places that are there. -/
theorem readPairs_ok {β : Type} (ha : ∀ x ∈ a, P x) (hb : ∀ y ∈ b, P y) {i j : β → Nat}
    {places : List β} (inside : ∀ p ∈ places, i p < a.length ∧ j p < b.length) :
    ∃ pairs, (places.mapM fun p => do
        let x ← Fault.entryOf a.toArray (i p)
        let y ← Fault.entryOf b.toArray (j p)
        return (x, y)) = .ok pairs ∧ pairs.length = places.length ∧
      ∀ p ∈ pairs, P p.1 ∧ P p.2 := by
  have each : ∀ p ∈ places, ∃ q, (do
        let x ← Fault.entryOf a.toArray (i p)
        let y ← Fault.entryOf b.toArray (j p)
        return (x, y) : Except Fault (α × α)) = .ok q ∧ P q.1 ∧ P q.2 := by
    intro p hp
    obtain ⟨x, ex, hx⟩ := entryOf_ok ha (inside p hp).1
    obtain ⟨y, ey, hy⟩ := entryOf_ok hb (inside p hp).2
    exact ⟨(x, y), by rw [ex, ey]; rfl, hx, hy⟩
  obtain ⟨pairs, must, all⟩ := must_mapM (m := Except Fault) each
  exact ⟨pairs, must, all.length_eq.symm, of_forall₂ (P := fun p : α × α => P p.1 ∧ P p.2) all⟩

/-- The elements of a row and a column are there. -/
theorem rowColumn_ok (ha : ∀ x ∈ a, P x) (hb : ∀ y ∈ b, P y) {rows k cols i j : Nat}
    (countA : a.length = rows * k) (countB : b.length = k * cols) (hi : i < rows)
    (hj : j < cols) :
    ∃ pairs, rowColumn a.toArray b.toArray k cols i j = .ok pairs ∧ pairs.length = k ∧
      ∀ p ∈ pairs, P p.1 ∧ P p.2 := by
  have inside : ∀ t ∈ List.range k, i * k + t < a.length ∧ t * cols + j < b.length := by
    intro t ht
    have ht : t < k := List.mem_range.mp ht
    rw [countA, countB]
    exact ⟨Shape.mul_add_lt_mul hi ht, Shape.mul_add_lt_mul ht hj⟩
  obtain ⟨pairs, eq, length, all⟩ := readPairs_ok ha hb inside
  exact ⟨pairs, eq, length.trans List.length_range, all⟩

/-- So are the elements that a window covers in all channels, and those of the
filter. -/
theorem windowPairs_ok {d f out : Shape.Images} {strides : Nat × Nat} {n oc oy ox : Nat}
    (ha : ∀ x ∈ data, P x) (hb : ∀ y ∈ filter, P y) (countD : data.length = imageCount d)
    (countF : filter.length = imageCount f) (channels : f.channels = d.channels)
    (windows : Shape.windowImages d.batch f.batch (d.height, d.width) (f.height, f.width) strides =
      .ok out)
    (hn : n < d.batch) (hoc : oc < f.batch) (hoy : oy < out.height) (hox : ox < out.width) :
    ∃ pairs, windowPairs data.toArray filter.toArray d f strides n oc oy ox = .ok pairs ∧
      pairs.length = ((List.range d.channels).flatMap fun ch =>
        (windowOffsets (f.height, f.width)).map fun k => (ch, k)).length ∧
      ∀ p ∈ pairs, P p.1 ∧ P p.2 := by
  refine readPairs_ok ha hb fun p hp => ?_
  obtain ⟨hch, hky, hkx⟩ := mem_filterPlaces.mp hp
  rw [countD, countF]
  exact ⟨imageIndex_window_lt windows hn hch hoy hox hky hkx,
    imageIndex_lt hoc (channels ▸ hch) hky hkx⟩

/-- And those that it covers in one channel. -/
theorem windowElements_ok {d out : Shape.Images} {window strides : Nat × Nat} {n ch oy ox : Nat}
    (ha : ∀ x ∈ data, P x) (count : data.length = imageCount d)
    (windows : Shape.windowImages d.batch d.channels (d.height, d.width) window strides = .ok out)
    (hn : n < d.batch) (hch : ch < d.channels) (hoy : oy < out.height) (hox : ox < out.width) :
    ∃ elements, windowElements data.toArray d window strides n ch oy ox = .ok elements ∧
      elements.length = (windowOffsets window).length ∧ ∀ x ∈ elements, P x := by
  have each : ∀ k ∈ windowOffsets window, ∃ x, Fault.entryOf data.toArray
      (imageIndex d n ch (oy * strides.1 + k.1) (ox * strides.2 + k.2)) = .ok x ∧ P x := by
    intro k hk
    obtain ⟨hky, hkx⟩ := mem_windowOffsets.mp hk
    exact entryOf_ok ha (count ▸ imageIndex_window_lt windows hn hch hoy hox hky hkx)
  obtain ⟨elements, eq, all⟩ := must_mapM (m := Except Fault) each
  exact ⟨elements, eq, all.length_eq.symm, of_forall₂ all⟩

/-! ## Entries of an output

The programs check their operands, then they tabulate. With checks that pass, the
table is all that is left of them. -/

/-- One entry of a contraction. -/
def dotEntry (add mul : α → α → Compute α) (a b : List α) (k cols place : Nat) : Compute α := do
  let pairs ← (rowColumn a.toArray b.toArray k cols (place / cols) (place % cols) :)
  sumProducts add mul pairs

/-- One entry of a convolution. -/
def convolutionEntry (add mul : α → α → Compute α) (data filter : List α)
    (d f out : Shape.Images) (strides : Nat × Nat) (place : Nat) : Compute α := do
  let (b, oc, oy, ox) := imagePlace out place
  let pairs ← (windowPairs data.toArray filter.toArray d f strides b oc oy ox :)
  sumProducts add mul pairs

/-- One of the sums over windows, times a factor. -/
def windowEntry (add mul : α → α → Compute α) (factor : α) (data : List α)
    (d out : Shape.Images) (window strides : Nat × Nat) (place : Nat) : Compute α := do
  let (b, ch, oy, ox) := imagePlace out place
  let elements ← (windowElements data.toArray d window strides b ch oy ox :)
  let sum ← sumElements add elements
  mul sum factor

theorem checkCount_ok {shape : Shape} (h : a.length = shape.size) : checkCount a shape = .ok () :=
  if_pos h

theorem lift_bind {β γ : Type} (x : β) (f : β → Compute γ) :
    ((liftM (Except.ok x : Except Error β) : Compute β) >>= f) = f x := rfl

theorem liftShape_bind {β γ : Type} (x : β) (f : β → Compute γ) :
    ((liftM (Except.ok x : Except Shape.Problem β) : Compute β) >>= f) = f x := rfl

/-- On operands of fitting shapes a contraction is the table of its entries. -/
theorem dot_eq {lead rest : Shape} {k : Nat} (countA : a.length = Shape.size (lead ++ [k]))
    (countB : b.length = Shape.size (k :: rest)) :
    dot add mul a (lead ++ [k]) b (k :: rest) =
      tabulate (lead.size * rest.size) (dotEntry add mul a b k rest.size) := by
  unfold dot
  rw [checkCount_ok countA, checkCount_ok countB, List.getLast?_concat, List.dropLast_concat]
  simp only [ne_eq, not_true_eq_false, if_false]
  rfl

variable {d f out : Shape.Images} {strides window : Nat × Nat}

theorem convolution_eq (channels : f.channels = d.channels)
    (windows : Shape.windowImages d.batch f.batch (d.height, d.width) (f.height, f.width) strides =
      .ok out)
    (countD : data.length = d.shape.size) (countF : filter.length = f.shape.size) :
    convolution add mul data d.shape filter f.shape strides =
      tabulate (imageCount out) (convolutionEntry add mul data filter d f out strides) := by
  unfold convolution
  rw [checkCount_ok countD, checkCount_ok countF, lift_bind, lift_bind,
    show d.shape.images = .ok d from rfl, show f.shape.images = .ok f from rfl, liftShape_bind,
    liftShape_bind, if_neg (not_not_intro channels), windows]
  rfl

theorem windowSums_eq (inverse : Nat → α)
    (windows : Shape.windowImages d.batch d.channels (d.height, d.width) window strides = .ok out)
    (area : window.1 * window.2 < wordSize) (count : data.length = d.shape.size) :
    windowSums add mul inverse data d.shape window strides = tabulate (imageCount out)
      (windowEntry add mul (inverse (window.1 * window.2)) data d out window strides) := by
  unfold windowSums
  rw [checkCount_ok count, lift_bind, show d.shape.images = .ok d from rfl, liftShape_bind, windows,
    liftShape_bind, Fault.checkSize, if_pos area]
  rfl

theorem broadcast_eq {source target : Shape} (can : source.canBroadcast target)
    (count : a.length = source.size) :
    broadcast a source target = tabulate target.size fun flat =>
      (Fault.entryOf a.toArray (Shape.sourceIndex target.reverse source.reverse flat 1) :) := by
  unfold broadcast
  rw [checkCount_ok count, can]
  rfl

/-! ## Whole operations

For each operation it is seen from the place of an entry that the coordinates lie in
the output, and from them that the elements it reads lie in the operands. -/

theorem of_getElem? {out : List α} (h : ∀ (i : Nat) (x : α), out[i]? = some x → P x) :
    ∀ x ∈ out, P x := by
  intro x hx
  obtain ⟨i, lt, rfl⟩ := List.mem_iff_getElem.mp hx
  exact h i _ (List.getElem?_eq_getElem lt)

/-- An output is of one kind if its entries are. -/
theorem tabulate_settles_all {entry : Nat → Compute α} {count : Nat}
    (each : ∀ place < count, ∃ z, Must (entry place) z ∧ P z) :
    Settles (Fits count) outOfMemory (fun out => out.length = count ∧ ∀ z ∈ out, P z)
      (tabulate count entry) :=
  (tabulate_settles (Q := fun _ => P) each).mono fun _ h => ⟨h.1, of_getElem? h.2⟩

/-- A contraction over an axis that is not empty. -/
theorem dot_settles (hadd : Total P add) (hmul : Total P mul) (ha : ∀ x ∈ a, P x)
    (hb : ∀ y ∈ b, P y) {lead rest : Shape} {k : Nat} (pos : 0 < k)
    (sizedA : (Shape.size? (lead ++ [k])).isSome) (sizedB : (Shape.size? (k :: rest)).isSome)
    (countA : a.length = Shape.size (lead ++ [k])) (countB : b.length = Shape.size (k :: rest)) :
    Settles (Fits (lead.size * rest.size)) outOfMemory
      (fun out => out.length = lead.size * rest.size ∧ ∀ z ∈ out, P z)
      (dot add mul a (lead ++ [k]) b (k :: rest)) := by
  rw [dot_eq countA countB]
  refine tabulate_settles_all ?_
  intro place lt
  -- The place lies in a row, so rows are not empty.
  have cols : 0 < rest.size := Nat.pos_of_mul_pos_left (Nat.lt_of_le_of_lt (Nat.zero_le _) lt)
  have row : place / rest.size < lead.size := Nat.div_lt_of_lt_mul (Nat.mul_comm .. ▸ lt)
  have elements : a.length = lead.size * k ∧ b.length = k * rest.size := by
    rw [countA, countB, Shape.size_eq_prod sizedA, Shape.size_eq_prod sizedB,
      List.prod_append, List.prod_singleton, List.prod_cons,
      ← Shape.size_eq_prod (Shape.isSome_size?_append_left sizedA),
      ← Shape.size_eq_prod (Shape.isSome_size?_tail sizedB pos)]
    exact ⟨rfl, rfl⟩
  obtain ⟨pairs, eq, length, all⟩ :=
    rowColumn_ok ha hb elements.1 elements.2 row (Nat.mod_lt place cols)
  have some : pairs ≠ [] := List.ne_nil_of_length_pos (length ▸ pos)
  obtain ⟨z, mz, hz⟩ := sumProducts_must hadd hmul some all
  exact ⟨z, must_bind (must_liftFault eq) mz, hz⟩

/-- A convolution of images that have channels. -/
theorem convolution_settles (hadd : Total P add) (hmul : Total P mul) (ha : ∀ x ∈ data, P x)
    (hb : ∀ y ∈ filter, P y) (pos : 0 < d.channels) (channels : f.channels = d.channels)
    (windows : Shape.windowImages d.batch f.batch (d.height, d.width) (f.height, f.width) strides =
      .ok out)
    (sizedD : d.shape.size?.isSome) (sizedF : f.shape.size?.isSome)
    (countD : data.length = d.shape.size) (countF : filter.length = f.shape.size) :
    Settles (Fits (imageCount out)) outOfMemory
      (fun values => values.length = imageCount out ∧ ∀ z ∈ values, P z)
      (convolution add mul data d.shape filter f.shape strides) := by
  obtain ⟨batch, features, rows, columns⟩ := Shape.windowImages_eq_ok windows
  rw [convolution_eq channels windows countD countF]
  refine tabulate_settles_all ?_
  intro place lt
  obtain ⟨hb', hoc, hoy, hox⟩ := imagePlace_lt lt
  have elements : data.length = imageCount d ∧ filter.length = imageCount f := by
    rw [countD, countF, Shape.size_eq_prod sizedD, Shape.size_eq_prod sizedF,
      imageCount_eq_prod, imageCount_eq_prod]
    exact ⟨rfl, rfl⟩
  obtain ⟨pairs, eq, length, all⟩ := windowPairs_ok ha hb elements.1 elements.2 channels windows
    (hb'.trans_eq batch) (hoc.trans_eq features) hoy hox
  -- The first channel and the first place of the window are among them.
  have some : pairs ≠ [] := by
    rintro rfl
    have first := mem_filterPlaces (p := (0, 0, 0)).mpr
      ⟨pos, (Shape.windowCount_eq_ok rows).1, (Shape.windowCount_eq_ok columns).1⟩
    rw [List.length_eq_zero_iff.mp length.symm] at first
    exact nomatch first
  obtain ⟨z, mz, hz⟩ := sumProducts_must hadd hmul some all
  exact ⟨z, must_bind (must_liftFault eq) mz, hz⟩

/-- Sums over windows whose size fits a word. -/
theorem windowSums_settles (hadd : Total P add) (hmul : Total P mul) {inverse : Nat → α}
    (hinverse : ∀ area, P (inverse area)) (ha : ∀ x ∈ data, P x)
    (windows : Shape.windowImages d.batch d.channels (d.height, d.width) window strides = .ok out)
    (area : window.1 * window.2 < wordSize) (sized : d.shape.size?.isSome)
    (count : data.length = d.shape.size) :
    Settles (Fits (imageCount out)) outOfMemory
      (fun values => values.length = imageCount out ∧ ∀ z ∈ values, P z)
      (windowSums add mul inverse data d.shape window strides) := by
  obtain ⟨batch, channels, rows, columns⟩ := Shape.windowImages_eq_ok windows
  rw [windowSums_eq inverse windows area count]
  refine tabulate_settles_all ?_
  intro place lt
  obtain ⟨hb, hch, hoy, hox⟩ := imagePlace_lt lt
  have elements : data.length = imageCount d := by
    rw [count, Shape.size_eq_prod sized, imageCount_eq_prod]
  obtain ⟨elements, eq, length, kind⟩ :=
    windowElements_ok ha elements windows (hb.trans_eq batch) (hch.trans_eq channels) hoy hox
  have some : elements ≠ [] := by
    rintro rfl
    exact windowOffsets_ne_nil (Shape.windowCount_eq_ok rows).1
      (Shape.windowCount_eq_ok columns).1 (List.length_eq_zero_iff.mp length.symm)
  obtain ⟨sum, msum, hsum⟩ := sumElements_must hadd some kind
  obtain ⟨z, mz, hz⟩ := hmul sum _ hsum (hinverse (window.1 * window.2))
  exact ⟨z, must_bind (must_liftFault eq) (must_bind msum mz), hz⟩

/-- A repetition reads only elements that are there. -/
theorem broadcast_settles (ha : ∀ x ∈ a, P x) {source target : Shape}
    (can : source.canBroadcast target) (sizedS : source.size?.isSome)
    (sizedT : target.size?.isSome) (count : a.length = source.size) :
    Settles (Fits target.size) outOfMemory
      (fun out => out.length = target.size ∧ ∀ z ∈ out, P z) (broadcast a source target) := by
  rw [broadcast_eq can count]
  refine tabulate_settles_all ?_
  intro flat lt
  rw [Shape.size_eq_prod sizedT] at lt
  obtain ⟨index, within, rfl⟩ := Shape.exists_position lt
  obtain ⟨x, eq, hx⟩ := entryOf_ok (i := source.position (source.align index)) ha (by
    rw [count, Shape.size_eq_prod sizedS]
    exact Shape.position_lt (Shape.within_align within can))
  refine ⟨x, must_liftFault ?_, hx⟩
  rw [Shape.sourceIndex_position within (Shape.length_le_of_canBroadcast can), eq]

end Tensor

end CipherFlow
