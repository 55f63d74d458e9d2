import CipherFlow.Proofs.Arith.Words
import CipherFlow.Proofs.Tensor.Progress

/-!
# Places in machine words

Places in row-major order are computed with sums, products, quotients and
remainders, in machine words. Here this is done step by step, and a step that
leaves the words or divides by zero gives nothing. For coordinates inside a
shape whose elements can be counted no step does: what is computed is the
place, and it is one of the elements. The same holds for the numbers of windows
and of elements that an output has.

Main lemmas: `rowPlace?_of_lt`, `imagePlace?_of_lt`, `windowPlace?_of_ok` and
`sourcePlace?_of_lt`. The last one is by induction over the axes, from the innermost
outwards.
-/

namespace CipherFlow

namespace Tensor

open Word

variable {a b ch x y i n rows columns row column : Nat} {d f out : Shape.Images}
  {window strides : Nat × Nat}

/-! ## Tables and images -/

/-- The place of an entry of a table. -/
def rowPlace? (columns row column : Nat) : Option Nat := do
  let start ← mul? row columns
  add? start column

theorem rowPlace?_of_lt (h : row * columns + column < wordSize) :
    rowPlace? columns row column = some (row * columns + column) := by
  have start : row * columns < wordSize := by omega
  simp [rowPlace?, start, h]

/-- The place of an element of images. -/
def imagePlace? (i : Shape.Images) (b ch y x : Nat) : Option Nat := do
  let row ← rowPlace? i.channels b ch
  let row ← rowPlace? i.height row y
  rowPlace? i.width row x

theorem imagePlace?_of_lt (hb : b < d.batch) (hch : ch < d.channels) (hy : y < d.height)
    (hx : x < d.width) (counted : imageCount d < wordSize) :
    imagePlace? d b ch y x = some (imageIndex d b ch y x) := by
  have place : imageIndex d b ch y x < wordSize :=
    Nat.lt_trans (imageIndex_lt hb hch hy hx) counted
  unfold imageIndex at place ⊢
  -- The places on the way are not larger: there is a row, and there is a column.
  have line : (b * d.channels + ch) * d.height + y < wordSize :=
    Nat.lt_of_le_of_lt (Nat.le_trans (Nat.le_mul_of_pos_right _ (Nat.zero_lt_of_lt hx))
      (Nat.le_add_right ..)) place
  have channel : b * d.channels + ch < wordSize :=
    Nat.lt_of_le_of_lt (Nat.le_trans (Nat.le_mul_of_pos_right _ (Nat.zero_lt_of_lt hy))
      (Nat.le_add_right ..)) line
  simp [imagePlace?, rowPlace?_of_lt, channel, line, place]

/-- The place of an element that a window covers. -/
def windowPlace? (d : Shape.Images) (strides : Nat × Nat) (b ch oy ox ky kx : Nat) :
    Option Nat := do
  let y ← rowPlace? strides.1 oy ky
  let x ← rowPlace? strides.2 ox kx
  imagePlace? d b ch y x

/-! ## Numbers of windows and elements -/

/-- The number of positions of a window. -/
def windowCount? (extent window stride : Nat) : Option Nat := do
  let room ← sub? extent window
  let steps ← div? room stride
  add? steps 1

/-- There are no more positions than the extent. -/
theorem windowCount?_of_ok {extent size stride : Nat}
    (h : Shape.windowCount extent size stride = .ok n) (word : extent < wordSize) :
    windowCount? extent size stride = some n := by
  obtain ⟨some, le, rfl⟩ := Shape.windowCount_eq_ok h
  have pos : 0 < stride := by
    unfold Shape.windowCount at h
    split at h
    · exact nomatch h
    · omega
  have steps : (extent - size) / stride ≤ extent - size := Nat.div_le_self ..
  have fits : (extent - size) / stride + 1 < wordSize := by omega
  simp [windowCount?, le, pos, fits]

/-- The number of elements of images. -/
def imageCount? (i : Shape.Images) : Option Nat := do
  let n ← mul? i.batch i.channels
  let n ← mul? n i.height
  mul? n i.width

/-- Images with rows and columns are counted without a greater product on the
way. -/
theorem imageCount?_of_lt (rows : 0 < d.height) (columns : 0 < d.width)
    (counted : imageCount d < wordSize) : imageCount? d = some (imageCount d) := by
  have lines : d.batch * d.channels * d.height ≤ imageCount d := Nat.le_mul_of_pos_right _ columns
  have channels : d.batch * d.channels ≤ d.batch * d.channels * d.height :=
    Nat.le_mul_of_pos_right _ rows
  have first : d.batch * d.channels < wordSize := by omega
  have second : d.batch * d.channels * d.height < wordSize := by omega
  have third : d.batch * d.channels * d.height * d.width < wordSize := counted
  simp [imageCount?, imageCount, first, second, third]

/-- A window at one of its positions covers elements that are there. -/
theorem windowPlace?_of_ok {batch channels oy ox ky kx : Nat}
    (windows : Shape.windowImages batch channels (d.height, d.width) window strides = .ok out)
    (hb : b < d.batch) (hch : ch < d.channels) (hoy : oy < out.height) (hox : ox < out.width)
    (hky : ky < window.1) (hkx : kx < window.2) (counted : imageCount d < wordSize) :
    windowPlace? d strides b ch oy ox ky kx =
      some (imageIndex d b ch (oy * strides.1 + ky) (ox * strides.2 + kx)) := by
  obtain ⟨-, -, rows, columns⟩ := Shape.windowImages_eq_ok windows
  have hy : oy * strides.1 + ky < d.height := Shape.window_lt rows hoy hky
  have hx : ox * strides.2 + kx < d.width := Shape.window_lt columns hox hkx
  have place := Nat.lt_trans (imageIndex_lt hb hch hy hx) counted
  unfold imageIndex at place
  have column : ox * strides.2 + kx < wordSize := by omega
  have row : oy * strides.1 + ky < wordSize := by
    have le := Nat.le_mul_of_pos_right ((b * d.channels + ch) * d.height + (oy * strides.1 + ky))
      (Nat.zero_lt_of_lt hx)
    omega
  simp [windowPlace?, rowPlace?_of_lt, row, column, imagePlace?_of_lt hb hch hy hx counted]

/-! ## Repetitions -/

/-- The place in the source from which a place of the target is filled, axis by
axis from the innermost: what is left of the place of the target, the place in
the source so far, and the distance of neighbours along the next axis. -/
def sourcePlace? : (target source : List Nat) → (flat place stride : Nat) → Option Nat
  | [], _, _, place, _ => some place
  | t :: target, source, flat, place, stride => do
    let index ← mod? flat t
    let flat ← div? flat t
    match source with
    | [] => sourcePlace? target [] flat place stride
    | d :: source =>
      let place ← if d = 1 then some place else (mul? index stride).bind (add? place)
      let stride ← mul? stride d
      sourcePlace? target source flat place stride

/-- Extents that are repeated: each is 1 or that of the other shape. -/
def Repeats (source target : List Nat) : Prop :=
  (List.zipWith (fun d t => d == 1 || d == t) source target).all id = true

/-- Along axes that are not empty, the place so far is below the distance of
neighbours, and the distance times the extents that are left is the number of
elements. So no word overflows. -/
theorem sourcePlace?_eq {source target : List Nat} (repeats : Repeats source target)
    (someTarget : 0 < target.prod) (someSource : 0 < source.prod) {flat place stride : Nat}
    (inside : place < stride) (counted : stride * source.prod < wordSize) :
    sourcePlace? target source flat place stride =
      some (place + Shape.sourceIndex target source flat stride) := by
  induction target generalizing source flat place stride with
  | nil => cases source <;> simp [sourcePlace?, Shape.sourceIndex]
  | cons t target ih =>
    rw [List.prod_cons] at someTarget
    have ht : 0 < t := Nat.pos_of_mul_pos_right someTarget
    have someTarget : 0 < target.prod := Nat.pos_of_mul_pos_left someTarget
    cases source with
    | nil =>
      -- The source has no axes left: nothing is added to the place.
      have alone : Repeats [] target := rfl
      have rest : sourcePlace? target [] (flat / t) place stride =
          some (place + Shape.sourceIndex target [] (flat / t) stride) :=
        ih alone someTarget someSource inside counted
      have nothing : Shape.sourceIndex target [] (flat / t) stride = 0 := by
        cases target <;> rfl
      simp [sourcePlace?, Shape.sourceIndex, ht, rest, nothing]
    | cons d source =>
      simp only [Repeats, List.zipWith_cons_cons, List.all_cons, id_eq, Bool.and_eq_true,
        Bool.or_eq_true, beq_iff_eq] at repeats
      obtain ⟨extent, repeats⟩ := repeats
      rw [List.prod_cons] at someSource counted
      have hd : 0 < d := Nat.pos_of_mul_pos_right someSource
      have someSource : 0 < source.prod := Nat.pos_of_mul_pos_left someSource
      have counted : stride * d * source.prod < wordSize := by rwa [Nat.mul_assoc]
      have wider : stride * d < wordSize :=
        Nat.lt_of_le_of_lt (Nat.le_mul_of_pos_right _ someSource) counted
      have rest (place' : Nat) (inside : place' < stride * d) :
          sourcePlace? target source (flat / t) place' (stride * d) =
            some (place' + Shape.sourceIndex target source (flat / t) (stride * d)) :=
        ih repeats someTarget someSource inside counted
      -- An axis of extent 1 is read at its only coordinate, any other at that of the target.
      by_cases single : d = 1
      · subst single
        have rest := rest place (by simpa using inside)
        simp_all [sourcePlace?, Shape.sourceIndex]
      · obtain rfl : d = t := extent.resolve_left single
        -- With the digit of this axis the place stays below the distance along the next one.
        have place' : place + flat % d * stride < stride * d := by
          have digit : flat % d < d := Nat.mod_lt _ ht
          calc place + flat % d * stride
            _ < stride + flat % d * stride := Nat.add_lt_add_right inside _
            _ = (flat % d + 1) * stride := by ring
            _ ≤ d * stride := Nat.mul_le_mul_right _ digit
            _ = stride * d := Nat.mul_comm ..
        have fits : place + flat % d * stride < wordSize := Nat.lt_trans place' wider
        have fits' : flat % d * stride < wordSize := by omega
        have rest := rest _ place'
        simp [sourcePlace?, Shape.sourceIndex, ht, single, fits, fits', wider, rest, Nat.add_assoc]

/-- A place of a repetition that is not empty is filled from a place of the
source, which is found without leaving the words. -/
theorem sourcePlace?_of_lt {source target : Shape} (can : source.canBroadcast target) {flat : Nat}
    (lt : flat < target.prod) (counted : source.prod < wordSize) :
    sourcePlace? target.reverse source.reverse flat 0 1 =
        some (Shape.sourceIndex target.reverse source.reverse flat 1) ∧
      Shape.sourceIndex target.reverse source.reverse flat 1 < source.prod := by
  have inside : Shape.sourceIndex target.reverse source.reverse flat 1 < source.prod := by
    obtain ⟨index, within, rfl⟩ := Shape.exists_position lt
    rw [Shape.sourceIndex_position within (Shape.length_le_of_canBroadcast can)]
    exact Shape.position_lt (Shape.within_align within can)
  have repeats : Repeats source.reverse target.reverse := by
    rw [Shape.canBroadcast, Bool.and_eq_true] at can
    exact can.2
  have someTarget : 0 < target.reverse.prod := by
    rw [List.prod_reverse]
    exact Nat.zero_lt_of_lt lt
  have someSource : 0 < source.reverse.prod := by
    rw [List.prod_reverse]
    exact Nat.zero_lt_of_lt inside
  have word : 1 * source.reverse.prod < wordSize := by rwa [Nat.one_mul, List.prod_reverse]
  refine ⟨?_, inside⟩
  rw [sourcePlace?_eq repeats someTarget someSource Nat.zero_lt_one word, Nat.zero_add]

end Tensor

end CipherFlow
