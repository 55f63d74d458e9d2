import CipherFlow.Proofs.Tensor.Contraction

/-!
# Windows by coordinates

An entry of a convolution or of an average over windows has four coordinates:
batch, channel, and the row and the column of its window. The window stands at
these multiples of the strides. It is read row by row, for a convolution channel
after channel, and nothing is read that is not there.

`sums_over_windows` is about both operations, and says besides where the windows
are.

How the proof goes. That everything read is there is shown first, coordinate by
coordinate (`exists_operands`, `exists_covered`), so the entries are sums of given
elements, and the answer is such a sum at each place (`rowMajor_of_run_convolution`,
`rowMajor_of_run_windowSums`). Positions are arithmetic in one direction
(`exists_position_iff`), and two directions do not interact.
-/

namespace CipherFlow

open CipherFlow.Element (Compute)

namespace Shape

variable {batch channels extent size stride n : Nat} {input window strides : Nat × Nat}
  {out : Images} {index : List Nat}

theorem stride_pos (h : windowCount extent size stride = .ok n) : 0 < stride := by
  unfold windowCount at h
  split at h
  · exact nomatch h
  · omega

/-- A window is at the multiples of the stride from which it lies inside. -/
theorem exists_position_iff (h : windowCount extent size stride = .ok n) (p : Nat) :
    (∃ i < n, p = i * stride) ↔ stride ∣ p ∧ p + size ≤ extent := by
  obtain ⟨pos, le, eq⟩ := windowCount_eq_ok h
  constructor
  · rintro ⟨i, lt, rfl⟩
    -- It lies inside because its last element does.
    have last : i * stride + (size - 1) < extent := window_lt h lt (by omega)
    exact ⟨Nat.dvd_mul_left stride i, by omega⟩
  · rintro ⟨⟨i, rfl⟩, inside⟩
    have before : i ≤ (extent - size) / stride := by
      rw [Nat.le_div_iff_mul_le (stride_pos h), Nat.mul_comm]
      omega
    exact ⟨i, by omega, Nat.mul_comm ..⟩

/-- In two directions, each with its own stride. -/
theorem exists_positions_iff (h : windowImages batch channels input window strides = .ok out)
    (y x : Nat) :
    (∃ oy < out.height, ∃ ox < out.width, y = oy * strides.1 ∧ x = ox * strides.2) ↔
      (strides.1 ∣ y ∧ y + window.1 ≤ input.1) ∧ strides.2 ∣ x ∧ x + window.2 ≤ input.2 := by
  obtain ⟨-, -, rows, columns⟩ := windowImages_eq_ok h
  rw [← exists_position_iff rows, ← exists_position_iff columns]
  constructor
  · rintro ⟨oy, hoy, ox, hox, eqY, eqX⟩
    exact ⟨⟨oy, hoy, eqY⟩, ox, hox, eqX⟩
  · rintro ⟨⟨oy, hoy, eqY⟩, ox, hox, eqX⟩
    exact ⟨oy, hoy, ox, hox, eqY, eqX⟩

end Shape

namespace Tensor

variable {α : Type} {add mul : α → α → Compute α} {factor : α} {data filter : List α}
  {d f out : Shape.Images} {window strides : Nat × Nat} {b oc ch oy ox : Nat} {c c' : Coins} {z : α}
  {pairs : List (α × α)} {elements values : List α}

/-! ## Coordinates of images -/

theorem within_iff : out.shape.Within [b, ch, oy, ox] ↔
    b < out.batch ∧ ch < out.channels ∧ oy < out.height ∧ ox < out.width := by
  simp [Shape.Images.shape, Shape.Within]

theorem exists_of_within {index : List Nat} (h : out.shape.Within index) :
    ∃ b ch y x, index = [b, ch, y, x] :=
  List.length_eq_four.mp h.length_eq

/-- The coordinates of a place are those whose place it is. -/
theorem imagePlace_position (h : out.shape.Within [b, ch, oy, ox]) :
    imagePlace out (out.shape.position [b, ch, oy, ox]) = (b, ch, oy, ox) := by
  obtain ⟨-, hch, hoy, hox⟩ := within_iff.mp h
  rw [← imageIndex_eq_position, imagePlace, imageIndex, Nat.mul_comm out.height,
    ← Nat.div_div_eq_div_mul, Shape.mul_add_div_of_lt hox, Shape.mul_add_div_of_lt hoy,
    Shape.mul_add_div_of_lt hch, Nat.mul_add_mod_of_lt hch, Nat.mul_add_mod_of_lt hoy,
    Nat.mul_add_mod_of_lt hox]

/-! ## What an entry reads -/

/-- The pairs that one entry of a convolution sums over: the elements that a
window covers, channel after channel and each row by row, and those of the
filter. -/
def Operands (data filter : List α) (d f : Shape.Images) (strides : Nat × Nat)
    (b oc oy ox : Nat) (pairs : List (α × α)) : Prop :=
  List.Forall₂ (fun k p =>
      data[d.shape.position [b, k.1, oy * strides.1 + k.2.1, ox * strides.2 + k.2.2]]? = some p.1 ∧
        filter[f.shape.position [oc, k.1, k.2.1, k.2.2]]? = some p.2)
    (List.range d.channels ×ˢ List.range f.height ×ˢ List.range f.width) pairs

/-- The elements that a window covers in one channel, row by row. -/
def Covered (data : List α) (d : Shape.Images) (window strides : Nat × Nat) (b ch oy ox : Nat)
    (elements : List α) : Prop :=
  List.Forall₂ (fun k x =>
      data[d.shape.position [b, ch, oy * strides.1 + k.1, ox * strides.2 + k.2]]? = some x)
    (List.range window.1 ×ˢ List.range window.2) elements

theorem windowPairs_eq_ok_iff :
    windowPairs data.toArray filter.toArray d f strides b oc oy ox = .ok pairs ↔
      Operands data filter d f strides b oc oy ox pairs := by
  simp only [Operands, ← imageIndex_eq_position]
  exact readPairs_eq_ok_iff

theorem windowElements_eq_ok_iff :
    windowElements data.toArray d window strides b ch oy ox = .ok elements ↔
      Covered data d window strides b ch oy ox elements := by
  simp only [Covered, ← imageIndex_eq_position, ← entryOf_eq_ok_iff]
  exact mapM_eq_ok_iff

/-- A convolution reads elements that are there. -/
theorem exists_operands (countD : data.length = d.shape.prod)
    (countF : filter.length = f.shape.prod) (channels : f.channels = d.channels)
    (windows : Shape.windowImages d.batch f.batch (d.height, d.width) (f.height, f.width) strides =
      .ok out) (within : out.shape.Within [b, oc, oy, ox]) :
    ∃ pairs, windowPairs data.toArray filter.toArray d f strides b oc oy ox = .ok pairs ∧
      Operands data filter d f strides b oc oy ox pairs := by
  obtain ⟨batch, features, -⟩ := Shape.windowImages_eq_ok windows
  obtain ⟨hb, hoc, hoy, hox⟩ := within_iff.mp within
  rw [← imageCount_eq_prod] at countD countF
  obtain ⟨pairs, read, -⟩ := windowPairs_ok (P := fun _ => True) (fun _ _ => trivial)
    (fun _ _ => trivial) countD countF channels windows (hb.trans_eq batch)
    (hoc.trans_eq features) hoy hox
  exact ⟨pairs, read, windowPairs_eq_ok_iff.mp read⟩

/-- So does an average. -/
theorem exists_covered (count : data.length = d.shape.prod)
    (windows : Shape.windowImages d.batch d.channels (d.height, d.width) window strides = .ok out)
    (within : out.shape.Within [b, ch, oy, ox]) :
    ∃ elements, windowElements data.toArray d window strides b ch oy ox = .ok elements ∧
      Covered data d window strides b ch oy ox elements := by
  obtain ⟨batch, channels, -⟩ := Shape.windowImages_eq_ok windows
  obtain ⟨hb, hch, hoy, hox⟩ := within_iff.mp within
  rw [← imageCount_eq_prod] at count
  obtain ⟨elements, read, -⟩ := windowElements_ok (P := fun _ => True) (fun _ _ => trivial) count
    windows (hb.trans_eq batch) (hch.trans_eq channels) hoy hox
  exact ⟨elements, read, windowElements_eq_ok_iff.mp read⟩

/-! ## Entries -/

/-- The entry of a convolution at four coordinates. -/
def Convolves (add mul : α → α → Compute α) (data filter : List α) (d f : Shape.Images)
    (strides : Nat × Nat) : List Nat → Coins → α → Coins → Prop
  | [b, oc, oy, ox], c, z, c' => ∃ pairs, Operands data filter d f strides b oc oy ox pairs ∧
      SumsTo add (fun p => mul p.1 p.2) c pairs z c'
  | _, _, _, _ => False

/-- The average over a window at four coordinates: a sum times a factor. -/
def Averages (add mul : α → α → Compute α) (factor : α) (data : List α) (d : Shape.Images)
    (window strides : Nat × Nat) : List Nat → Coins → α → Coins → Prop
  | [b, ch, oy, ox], c, z, c' => ∃ elements, Covered data d window strides b ch oy ox elements ∧
      ∃ sum c₁, SumsTo add pure c elements sum c₁ ∧ (mul sum factor).run c₁ = .ok (z, c')
  | _, _, _, _ => False

theorem run_convolutionEntry_eq_ok_iff (within : out.shape.Within [b, oc, oy, ox]) :
    (convolutionEntry add mul data filter d f out strides
        (out.shape.position [b, oc, oy, ox])).run c = .ok (z, c') ↔
      Convolves add mul data filter d f strides [b, oc, oy, ox] c z c' := by
  unfold convolutionEntry
  rw [imagePlace_position within]
  refine run_readSum_eq_ok_iff.trans ?_
  simp only [windowPairs_eq_ok_iff]
  rfl

theorem run_windowEntry_eq_ok_iff (within : out.shape.Within [b, ch, oy, ox]) :
    (windowEntry add mul factor data d out window strides
        (out.shape.position [b, ch, oy, ox])).run c = .ok (z, c') ↔
      Averages add mul factor data d window strides [b, ch, oy, ox] c z c' := by
  unfold windowEntry
  rw [imagePlace_position within]
  simp only [run_bind_eq_ok, run_liftFault_eq_ok, windowElements_eq_ok_iff,
    run_sumElements_eq_ok_iff]
  constructor
  · rintro ⟨elements, _, ⟨covered, rfl⟩, sum, c₁, sums, product⟩
    exact ⟨elements, covered, sum, c₁, sums, product⟩
  · rintro ⟨elements, covered, sum, c₁, sums, product⟩
    exact ⟨elements, c, ⟨covered, rfl⟩, sum, c₁, sums, product⟩

/-! ## Whole operations -/

/-- What a convolution answers has an entry for each position of a window, in
row-major order. -/
theorem rowMajor_of_run_convolution (channels : f.channels = d.channels)
    (windows : Shape.windowImages d.batch f.batch (d.height, d.width) (f.height, f.width) strides =
      .ok out)
    (h : (convolution add mul data d.shape filter f.shape strides).run c = .ok (values, c')) :
    RowMajor (Convolves add mul data filter d f strides) out.shape c values c' := by
  obtain ⟨sizeD, h'⟩ := eq_size_of_run_checkCount h
  obtain ⟨sizeF, -⟩ := eq_size_of_run_checkCount h'
  rw [convolution_eq channels windows sizeD sizeF, imageCount_eq_prod] at h
  refine rowMajor_of_run_tabulate (fun index within c z c' entry => ?_) h
  obtain ⟨b, oc, oy, ox, rfl⟩ := exists_of_within within
  exact (run_convolutionEntry_eq_ok_iff within).mp entry

/-- The size of a window whose averages are answered fits a word. -/
theorem area_lt_of_run_windowSums {inverse : Nat → α}
    (windows : Shape.windowImages d.batch d.channels (d.height, d.width) window strides = .ok out)
    (h : (windowSums add mul inverse data d.shape window strides).run c = .ok (values, c')) :
    window.1 * window.2 < wordSize := by
  obtain ⟨-, h⟩ := eq_size_of_run_checkCount h
  rw [show d.shape.images = .ok d from rfl, liftShape_bind, windows, liftShape_bind] at h
  by_contra large
  rw [Fault.checkSize, if_neg large] at h
  cases h

/-- So has what the averages over windows answer. -/
theorem rowMajor_of_run_windowSums {inverse : Nat → α}
    (windows : Shape.windowImages d.batch d.channels (d.height, d.width) window strides = .ok out)
    (h : (windowSums add mul inverse data d.shape window strides).run c = .ok (values, c')) :
    RowMajor (Averages add mul (inverse (window.1 * window.2)) data d window strides) out.shape
      c values c' := by
  have area := area_lt_of_run_windowSums windows h
  obtain ⟨size, -⟩ := eq_size_of_run_checkCount h
  rw [windowSums_eq inverse windows area size, imageCount_eq_prod] at h
  refine rowMajor_of_run_tabulate (fun index within c z c' entry => ?_) h
  obtain ⟨b, ch, oy, ox, rfl⟩ := exists_of_within within
  exact (run_windowEntry_eq_ok_iff within).mp entry

end Tensor

namespace Element

open Tensor

variable {data : List Element} {d : Shape.Images}

/-- Over data of a given shape, convolutions and averages read elements that are
there. Where they answer, the answer has in row-major order the sum over each
window, and the windows are at all multiples of the strides at which they lie
inside. -/
theorem sums_over_windows (ev : Evaluator) (count : data.length = d.shape.prod)
    (strides : Nat × Nat) :
    (∀ filter f out, filter.length = f.shape.prod → f.channels = d.channels →
      Shape.windowImages d.batch f.batch (d.height, d.width) (f.height, f.width) strides =
        .ok out →
      (∀ b oc oy ox, out.shape.Within [b, oc, oy, ox] → ∃ pairs,
        windowPairs data.toArray filter.toArray d f strides b oc oy ox = .ok pairs ∧
          Operands data filter d f strides b oc oy ox pairs) ∧
      ∀ c values c',
        (convolution ev data d.shape filter f.shape strides).run c = .ok (values, c') →
        RowMajor (Convolves (add ev) (multiply ev) data filter d f strides) out.shape c values
          c') ∧
    (∀ window out,
      Shape.windowImages d.batch d.channels (d.height, d.width) window strides = .ok out →
      (∀ b ch oy ox, out.shape.Within [b, ch, oy, ox] → ∃ elements,
        windowElements data.toArray d window strides b ch oy ox = .ok elements ∧
          Covered data d window strides b ch oy ox elements) ∧
      ∀ c values c', (averagePool ev data d.shape window strides).run c = .ok (values, c') →
        RowMajor (Averages (add ev) (multiply ev)
          (.plain [1 / Float.ofNat (window.1 * window.2)]) data d window strides) out.shape c
          values c') ∧
    ∀ channels window out,
      Shape.windowImages d.batch channels (d.height, d.width) window strides = .ok out →
      ∀ y x, (∃ oy < out.height, ∃ ox < out.width, y = oy * strides.1 ∧ x = ox * strides.2) ↔
        (strides.1 ∣ y ∧ y + window.1 ≤ d.height) ∧ strides.2 ∣ x ∧ x + window.2 ≤ d.width := by
  refine ⟨?convolution, ?average, ?positions⟩
  case convolution =>
    intro filter f out countF channels windows
    refine ⟨fun b oc oy ox within => ?_, fun c values c' answers => ?_⟩
    · exact exists_operands count countF channels windows within
    · exact rowMajor_of_run_convolution channels windows answers
  case average =>
    intro window out windows
    refine ⟨fun b ch oy ox within => ?_, fun c values c' answers => ?_⟩
    · exact exists_covered count windows within
    · exact rowMajor_of_run_windowSums windows answers
  case positions =>
    intro channels window out windows
    exact Shape.exists_positions_iff windows

namespace Example

/-- A picture of three rows and two columns. -/
def picture : List Element :=
  [.plain [1], .plain [2], .plain [3], .plain [4], .plain [5], .plain [6]]

/-- Its shape. -/
def pictureShape : Shape.Images :=
  ⟨1, 1, 3, 2⟩

/-- A filter of one row. -/
def weights : List Element :=
  [.plain [10], .plain [100]]

/-- Its shape. -/
def weightsShape : Shape.Images :=
  ⟨1, 1, 1, 2⟩

/-- The shape of every other row. -/
def rowsShape : Shape.Images :=
  ⟨1, 1, 2, 1⟩

end Example

open Evaluator.Tiny (evaluator)
open Example

/-- A filter and a window of one row, on every other row of a picture. -/
theorem sums_over_windows_rows :
    picture.length = pictureShape.shape.prod ∧ weights.length = weightsShape.shape.prod ∧
    Shape.windowImages 1 1 (3, 2) (1, 2) (2, 1) = .ok rowsShape ∧
    (∃ values, (convolution evaluator picture pictureShape.shape weights weightsShape.shape
        (2, 1)).run default = .ok (values, default) ∧
      RowMajor (Convolves (add evaluator) (multiply evaluator) picture weights pictureShape
        weightsShape (2, 1)) rowsShape.shape default values default) ∧
    (∃ values, (averagePool evaluator picture pictureShape.shape (1, 2) (2, 1)).run default =
        .ok (values, default) ∧
      RowMajor (Averages (add evaluator) (multiply evaluator) (.plain [1 / Float.ofNat (1 * 2)])
        picture pictureShape (1, 2) (2, 1)) rowsShape.shape default values default) ∧
    ∃ oy < 2, ∃ ox < 1, 2 = oy * 2 ∧ 0 = ox * 1 := by
  have answers : (convolution evaluator picture pictureShape.shape weights weightsShape.shape
      (2, 1)).run default =
        .ok ([.plain [1 * 10 + 2 * 100], .plain [5 * 10 + 6 * 100]], default) := rfl
  have averages : (averagePool evaluator picture pictureShape.shape (1, 2) (2, 1)).run
      default = .ok ([.plain [(1 + 2) * (1 / Float.ofNat (1 * 2))],
        .plain [(5 + 6) * (1 / Float.ofNat (1 * 2))]], default) := rfl
  have count : picture.length = pictureShape.shape.prod := rfl
  obtain ⟨convolve, average, positions⟩ := sums_over_windows evaluator count (2, 1)
  have convolved := (convolve weights weightsShape rowsShape rfl rfl rfl).2 _ _ _ answers
  have averaged := (average (1, 2) rowsShape rfl).2 _ _ _ averages
  refine ⟨count, rfl, rfl, ⟨_, answers, convolved⟩, ⟨_, averages, averaged⟩, ?_⟩
  exact (positions 1 (1, 2) rowsShape rfl 2 0).mpr (by decide)

end Element

end CipherFlow
