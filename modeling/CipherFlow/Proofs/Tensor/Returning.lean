import CipherFlow.Proofs.Element.Returning
import CipherFlow.Proofs.Graph.Inference
import CipherFlow.Proofs.Tensor.Contraction
import CipherFlow.Proofs.Tensor.Offsets

/-!
# Tensor operations that return

With sums and products of elements that return, the tensor operations return
on all operands that can be held in memory, except where they accept the
operands and the output cannot be held. Then they end with the fault of an
output that is too large. They never read an element that is not there, never
divide by an empty extent, and compute all places within machine words.

`tensors_safe` is about all four operations and any kind of elements that is
`Closed`; `closed_hasLanes` provides such kinds, and `tensors_without_room` has
operands that are accepted without room.

How the proof goes. Each operation has three parts: what it accepts, the numbers
that it computes (`Places`, from `CipherFlow.Proofs.Tensor.Offsets`), and its
entries, which are sums of products (`sumProducts_returns`). `Safe` puts these
together once for all, and there is a lemma for each operation (`dot_safe`,
`convolution_safe`, `windowSums_safe`, `broadcast_safe`).
-/

namespace CipherFlow

open CipherFlow.Element (Compute Error)
open Answering Refusing Returning

/-- All extents are words. -/
def Shape.InWords (s : Shape) : Prop :=
  ∀ d ∈ s, d < wordSize

theorem Shape.InWords.images {d : Shape.Images} (h : d.shape.InWords) :
    d.height < wordSize ∧ d.width < wordSize :=
  ⟨h _ (by simp [Shape.Images.shape]), h _ (by simp [Shape.Images.shape])⟩

namespace Tensor

variable {α β : Type} {P : α → Prop} {add mul : α → α → Compute α} {a b data filter : List α}

/-! ## Sums -/

/-- On elements of a kind an operation returns, with an element of this kind if
it answers. -/
def Closed (P : α → Prop) (op : α → α → Compute α) : Prop :=
  ∀ x y, P x → P y → Returns (op x y) P

theorem addProducts_returns (hadd : Closed P add) (hmul : Closed P mul) {pairs : List (α × α)}
    (all : ∀ p ∈ pairs, P p.1 ∧ P p.2) {sum : α} (start : P sum) :
    Returns (addProducts add mul sum pairs) P := by
  induction pairs generalizing sum with
  | nil => exact returns_pure start
  | cons p pairs ih =>
    obtain ⟨⟨hx, hy⟩, all⟩ := List.forall_mem_cons.mp all
    exact returns_bind (hmul p.1 p.2 hx hy) fun term hterm =>
      returns_bind (hadd sum term start hterm) fun sum' hsum => ih all hsum

/-- A sum without products is refused. -/
theorem sumProducts_returns (hadd : Closed P add) (hmul : Closed P mul) {pairs : List (α × α)}
    (all : ∀ p ∈ pairs, P p.1 ∧ P p.2) : Returns (sumProducts add mul pairs) P := by
  cases pairs with
  | nil => exact fun _ => rfl
  | cons p pairs =>
    obtain ⟨⟨hx, hy⟩, all⟩ := List.forall_mem_cons.mp all
    exact returns_bind (hmul p.1 p.2 hx hy) fun term hterm =>
      addProducts_returns hadd hmul all hterm

theorem addElements_returns (hadd : Closed P add) (all : ∀ x ∈ a, P x) {sum : α} (start : P sum) :
    Returns (a.foldlM add sum) P := by
  induction a generalizing sum with
  | nil => exact returns_pure start
  | cons x a ih =>
    obtain ⟨hx, all⟩ := List.forall_mem_cons.mp all
    rw [List.foldlM_cons]
    exact returns_bind (hadd sum x start hx) fun next hnext => ih all hnext

theorem sumElements_returns (hadd : Closed P add) (ha : ∀ x ∈ a, P x) :
    Returns (sumElements add a) P := by
  cases a with
  | nil => exact fun _ => rfl
  | cons x a =>
    obtain ⟨hx, all⟩ := List.forall_mem_cons.mp ha
    exact addElements_returns hadd all hx

/-! ## Outputs -/

theorem returns_of_must {m : Compute β} {x : β} {Q : β → Prop} (h : Must m x) (hx : Q x) :
    Returns m Q :=
  fun c => returns_of_ok (h c) hx

/-- A part that reads elements which are there. -/
theorem liftFault_returns {x : Except Fault β} {y : β} (h : x = .ok y) {f : β → Compute α}
    {Q : α → Prop} (next : Returns (f y) Q) : Returns ((liftM x : Compute β) >>= f) Q :=
  returns_bind (returns_of_must (must_liftFault h) rfl) fun _ eq => eq ▸ next

theorem tabulateFrom_returns {f : Nat → Compute α} (count start : Nat)
    (each : ∀ i < count, Returns (f (start + i)) P) :
    Returns (tabulateFrom f count start) fun _ => True := by
  induction count generalizing start with
  | zero => exact returns_pure trivial
  | succ count ih =>
    refine returns_bind (each 0 (Nat.succ_pos count)) fun x _ => ?_
    refine returns_bind (ih (start + 1) fun i hi => ?_) fun _ _ => returns_pure trivial
    rw [Nat.add_right_comm]
    exact each (i + 1) (Nat.succ_lt_succ hi)

theorem tabulate_returns {f : Nat → Compute α} {count : Nat} (fits : Fits count)
    (each : ∀ i < count, Returns (f i) P) : Returns (tabulate count f) fun _ => True := by
  refine liftFault_returns (checkSize_of_fits fits) (liftFault_returns (if_pos fits) ?_)
  exact tabulateFrom_returns count 0 (by simpa using each)

/-- What holds of an operation for all extents of which it accepts operands:
it returns if there is room for its output, and ends with the fault of an
output that is too large if there is none; where there is room, the places that
it computes are those of elements. -/
structure Safe {γ : Type} (accepts room places : γ → Prop) (m : Compute β) : Prop where
  returns : (∀ g, accepts g → room g) → Returns m fun _ => True
  stops : ∀ g, accepts g → ¬ room g → Fails m outOfMemory
  places : ∀ g, accepts g → room g → places g

/-- A place that is computed within the words, and at which there is an
element. -/
def Finds (computed : Option Nat) (place : Nat) (a : List α) : Prop :=
  computed = some place ∧ place < a.length

variable {s t : Shape}

/-- Operands that are not of their shape are refused. -/
theorem checkCount_bind_returns {f : Unit → Compute β} {Q : β → Prop}
    (next : a.length = s.size → Returns (f ()) Q) :
    Returns ((liftM (checkCount a s) : Compute Unit) >>= f) Q := by
  by_cases count : a.length = s.size
  · rw [checkCount_ok count, lift_bind]
    exact next count
  · rw [checkCount, if_neg count]
    exact fun _ => rfl

theorem length_eq_prod (held : Fits a.length) (count : a.length = s.size) :
    s.size?.isSome ∧ a.length = s.prod := by
  have counted : s.size?.isSome := counted_of_fits (count ▸ held)
  exact ⟨counted, by rw [count, Shape.size_eq_prod counted]⟩

theorem lt_wordSize_of_fits {n : Nat} (fits : Fits n) : n < wordSize := by
  have counted := checkSize_of_fits fits
  unfold Fault.checkSize at counted
  split at counted
  · assumption
  · exact nomatch counted

/-! ## Contraction -/

/-- The axes of a contraction: those that remain, and the extent of the one
that is shared. -/
structure Contraction where
  lead : Shape
  shared : Nat
  rest : Shape

namespace Contraction

/-- The operands have these axes. -/
structure Accepts (g : Contraction) (a : List α) (s : Shape) (b : List α) (t : Shape) : Prop where
  left : s = g.lead ++ [g.shared]
  right : t = g.shared :: g.rest
  countLeft : a.length = s.size
  countRight : b.length = t.size

/-- The number of elements of the output. -/
def count (g : Contraction) : Nat :=
  g.lead.size * g.rest.size

/-- What is computed of words for the output and for each of its sums. -/
structure Places (g : Contraction) (a b : List α) : Prop where
  count : Word.mul? g.lead.size g.rest.size = some g.count
  left : ∀ i < g.lead.size, ∀ k < g.shared,
    Finds (rowPlace? g.shared i k) (i * g.shared + k) a
  right : ∀ k < g.shared, ∀ j < g.rest.size,
    Finds (rowPlace? g.rest.size k j) (k * g.rest.size + j) b

variable {g : Contraction}

theorem Accepts.lengths (h : g.Accepts a s b t) (heldA : Fits a.length) (heldB : Fits b.length) :
    a.length = g.lead.size * g.shared ∧ b.length = g.shared * g.rest.size := by
  obtain ⟨lead, k, rest⟩ := g
  obtain ⟨rfl, rfl, countA, countB⟩ := h
  obtain ⟨countedA, countA⟩ := length_eq_prod heldA countA
  obtain ⟨countedB, countB⟩ := length_eq_prod heldB countB
  refine ⟨?_, ?_⟩
  · rw [countA, List.prod_append, List.prod_singleton,
      Shape.size_eq_prod (Shape.isSome_size?_append_left countedA)]
  · rw [countB, List.prod_cons]
    rcases Nat.eq_zero_or_pos k with rfl | pos
    · rw [Nat.zero_mul, Nat.zero_mul]
    · rw [Shape.size_eq_prod (Shape.isSome_size?_tail countedB pos)]

end Contraction

theorem dotEntry_returns (hadd : Closed P add) (hmul : Closed P mul) (ha : ∀ x ∈ a, P x)
    (hb : ∀ y ∈ b, P y) {rows k cols place : Nat} (countA : a.length = rows * k)
    (countB : b.length = k * cols) (lt : place < rows * cols) :
    Returns (dotEntry add mul a b k cols place) P := by
  have some : 0 < cols := Nat.pos_of_mul_pos_left (Nat.zero_lt_of_lt lt)
  have row : place / cols < rows := Nat.div_lt_of_lt_mul (Nat.mul_comm .. ▸ lt)
  obtain ⟨pairs, eq, -, all⟩ := rowColumn_ok ha hb countA countB row (Nat.mod_lt place some)
  exact liftFault_returns eq (sumProducts_returns hadd hmul all)

theorem dot_returns (hadd : Closed P add) (hmul : Closed P mul) (ha : ∀ x ∈ a, P x)
    (hb : ∀ y ∈ b, P y) (heldA : Fits a.length) (heldB : Fits b.length)
    (room : ∀ g : Contraction, g.Accepts a s b t → Fits g.count) :
    Returns (dot add mul a s b t) fun _ => True := by
  refine checkCount_bind_returns fun countA => checkCount_bind_returns fun countB => ?_
  split
  · rename_i k k' rest last
    refine returns_ite (fun _ _ => rfl) fun same => ?_
    obtain rfl : k = k' := not_not.mp same
    obtain ⟨lead, rfl⟩ := List.getLast?_eq_some_iff.mp last
    have accepts : Contraction.Accepts ⟨lead, k, rest⟩ a (lead ++ [k]) b (k :: rest) :=
      ⟨rfl, rfl, countA, countB⟩
    obtain ⟨lengthA, lengthB⟩ := accepts.lengths heldA heldB
    rw [List.dropLast_concat]
    exact tabulate_returns (room _ accepts) fun place lt =>
      dotEntry_returns hadd hmul ha hb lengthA lengthB lt
  · exact fun _ => rfl

theorem dot_safe (hadd : Closed P add) (hmul : Closed P mul) (ha : ∀ x ∈ a, P x)
    (hb : ∀ y ∈ b, P y) (heldA : Fits a.length) (heldB : Fits b.length) :
    Safe (fun g : Contraction => g.Accepts a s b t) (fun g => Fits g.count) (·.Places a b)
      (dot add mul a s b t) where
  returns := dot_returns hadd hmul ha hb heldA heldB
  stops := by
    rintro ⟨lead, k, rest⟩ ⟨rfl, rfl, countA, countB⟩ full
    rw [dot_eq countA countB]
    exact tabulate_fails full _
  places := by
    intro g accepts fits
    obtain ⟨lengthA, lengthB⟩ := accepts.lengths heldA heldB
    have wordA := lt_wordSize_of_fits heldA
    have wordB := lt_wordSize_of_fits heldB
    refine ⟨Word.mul?_of_lt (lt_wordSize_of_fits fits), fun i hi k hk => ?_, fun k hk j hj => ?_⟩
    · have inside : i * g.shared + k < a.length := lengthA ▸ Shape.mul_add_lt_mul hi hk
      exact ⟨rowPlace?_of_lt (by omega), inside⟩
    · have inside : k * g.rest.size + j < b.length := lengthB ▸ Shape.mul_add_lt_mul hk hj
      exact ⟨rowPlace?_of_lt (by omega), inside⟩

/-! ## Windows -/

/-- A shape that an operation has no use for is refused. -/
theorem liftShape_returns {x : Except Shape.Problem β} {f : β → Compute α} {Q : α → Prop}
    (next : ∀ y, x = .ok y → Returns (f y) Q) : Returns ((liftM x : Compute β) >>= f) Q := by
  cases x with
  | error p => exact fun _ => rfl
  | ok y => exact next y rfl

variable {window strides : Nat × Nat}

theorem length_eq_imageCount {d : Shape.Images} (held : Fits a.length)
    (count : a.length = d.shape.size) : a.length = imageCount d := by
  rw [(length_eq_prod held count).2, imageCount_eq_prod]

/-- Windows over images have positions, and their number is computed within the
words. -/
theorem windowImages_places {batch channels : Nat} {d out : Shape.Images}
    (windows : Shape.windowImages batch channels (d.height, d.width) window strides = .ok out)
    (words : d.shape.InWords) (fits : Fits (imageCount out)) :
    windowCount? d.height window.1 strides.1 = some out.height ∧
      windowCount? d.width window.2 strides.2 = some out.width ∧
      imageCount? out = some (imageCount out) := by
  obtain ⟨-, -, rows, columns⟩ := Shape.windowImages_eq_ok windows
  obtain ⟨height, width⟩ := words.images
  refine ⟨windowCount?_of_ok rows height, windowCount?_of_ok columns width, ?_⟩
  obtain ⟨-, -, rows⟩ := Shape.windowCount_eq_ok rows
  obtain ⟨-, -, columns⟩ := Shape.windowCount_eq_ok columns
  exact imageCount?_of_lt (rows ▸ Nat.succ_pos _) (columns ▸ Nat.succ_pos _)
    (lt_wordSize_of_fits fits)

/-- What a window covers is found. -/
theorem finds_window {batch channels n ch oy ox ky kx : Nat} {d out : Shape.Images}
    (windows : Shape.windowImages batch channels (d.height, d.width) window strides = .ok out)
    (held : Fits data.length) (count : data.length = imageCount d) (hn : n < d.batch)
    (hch : ch < d.channels) (hoy : oy < out.height) (hox : ox < out.width) (hky : ky < window.1)
    (hkx : kx < window.2) :
    Finds (windowPlace? d strides n ch oy ox ky kx)
      (imageIndex d n ch (oy * strides.1 + ky) (ox * strides.2 + kx)) data := by
  have word : imageCount d < wordSize := count ▸ lt_wordSize_of_fits held
  exact ⟨windowPlace?_of_ok windows hn hch hoy hox hky hkx word,
    count ▸ imageIndex_window_lt windows hn hch hoy hox hky hkx⟩

/-! ## Convolution -/

/-- The images of a convolution. -/
structure Convolution where
  data : Shape.Images
  filter : Shape.Images
  out : Shape.Images

namespace Convolution

/-- The operands are such images, and so is the output of their windows. -/
structure Accepts (g : Convolution) (data : List α) (s : Shape) (filter : List α) (t : Shape)
    (strides : Nat × Nat) : Prop where
  left : s = g.data.shape
  right : t = g.filter.shape
  countData : data.length = s.size
  countFilter : filter.length = t.size
  channels : g.filter.channels = g.data.channels
  windows : Shape.windowImages g.data.batch g.filter.batch (g.data.height, g.data.width)
    (g.filter.height, g.filter.width) strides = .ok g.out

/-- What is computed of words for the output and for each of its sums. -/
structure Places (g : Convolution) (data filter : List α) (strides : Nat × Nat) : Prop where
  height : windowCount? g.data.height g.filter.height strides.1 = some g.out.height
  width : windowCount? g.data.width g.filter.width strides.2 = some g.out.width
  count : imageCount? g.out = some (imageCount g.out)
  data : ∀ n < g.data.batch, ∀ ch < g.data.channels, ∀ oy < g.out.height, ∀ ox < g.out.width,
    ∀ ky < g.filter.height, ∀ kx < g.filter.width,
      Finds (windowPlace? g.data strides n ch oy ox ky kx)
        (imageIndex g.data n ch (oy * strides.1 + ky) (ox * strides.2 + kx)) data
  filter : ∀ oc < g.filter.batch, ∀ ch < g.filter.channels, ∀ ky < g.filter.height,
    ∀ kx < g.filter.width, Finds (imagePlace? g.filter oc ch ky kx)
      (imageIndex g.filter oc ch ky kx) filter

end Convolution

theorem convolutionEntry_returns (hadd : Closed P add) (hmul : Closed P mul)
    (ha : ∀ x ∈ data, P x) (hb : ∀ y ∈ filter, P y) {g : Convolution}
    (accepts : g.Accepts data s filter t strides) (heldD : Fits data.length)
    (heldF : Fits filter.length) {place : Nat} (lt : place < imageCount g.out) :
    Returns (convolutionEntry add mul data filter g.data g.filter g.out strides place) P := by
  obtain ⟨rfl, rfl, countD, countF, channels, windows⟩ := accepts
  obtain ⟨batch, features, -, -⟩ := Shape.windowImages_eq_ok windows
  obtain ⟨hn, hoc, hoy, hox⟩ := imagePlace_lt lt
  obtain ⟨pairs, eq, -, all⟩ := windowPairs_ok ha hb (length_eq_imageCount heldD countD)
    (length_eq_imageCount heldF countF) channels windows (hn.trans_eq batch)
    (hoc.trans_eq features) hoy hox
  exact liftFault_returns eq (sumProducts_returns hadd hmul all)

theorem convolution_returns (hadd : Closed P add) (hmul : Closed P mul) (ha : ∀ x ∈ data, P x)
    (hb : ∀ y ∈ filter, P y) (heldD : Fits data.length) (heldF : Fits filter.length)
    (room : ∀ g : Convolution, g.Accepts data s filter t strides → Fits (imageCount g.out)) :
    Returns (convolution add mul data s filter t strides) fun _ => True := by
  refine checkCount_bind_returns fun countD => checkCount_bind_returns fun countF => ?_
  refine liftShape_returns fun d hd => liftShape_returns fun f hf => ?_
  refine returns_ite (fun _ _ => rfl) fun channels => liftShape_returns fun out windows => ?_
  have accepts : Convolution.Accepts ⟨d, f, out⟩ data s filter t strides :=
    ⟨Shape.images_eq_ok hd, Shape.images_eq_ok hf, countD, countF, not_not.mp channels, windows⟩
  exact tabulate_returns (room _ accepts) fun place lt =>
    convolutionEntry_returns hadd hmul ha hb accepts heldD heldF lt

theorem convolution_safe (hadd : Closed P add) (hmul : Closed P mul) (ha : ∀ x ∈ data, P x)
    (hb : ∀ y ∈ filter, P y) (heldD : Fits data.length) (heldF : Fits filter.length)
    (words : s.InWords) :
    Safe (fun g : Convolution => g.Accepts data s filter t strides)
      (fun g => Fits (imageCount g.out)) (·.Places data filter strides)
      (convolution add mul data s filter t strides) where
  returns := convolution_returns hadd hmul ha hb heldD heldF
  stops := by
    rintro ⟨d, f, out⟩ ⟨rfl, rfl, countD, countF, channels, windows⟩ full
    rw [convolution_eq channels windows countD countF]
    exact tabulate_fails full _
  places := by
    rintro ⟨d, f, out⟩ ⟨rfl, rfl, countD, countF, channels, windows⟩ fits
    obtain ⟨height, width, count⟩ := windowImages_places windows words fits
    have lengthF := length_eq_imageCount heldF countF
    refine ⟨height, width, count, fun n hn ch hch oy hoy ox hox ky hky kx hkx => ?_,
      fun oc hoc ch hch ky hky kx hkx => ⟨?_, ?_⟩⟩
    · exact finds_window windows heldD (length_eq_imageCount heldD countD) hn hch hoy hox hky hkx
    · exact imagePlace?_of_lt hoc hch hky hkx (lengthF ▸ lt_wordSize_of_fits heldF)
    · exact lengthF ▸ imageIndex_lt hoc hch hky hkx

/-! ## Sums over windows -/

/-- The images of sums over windows. -/
structure Pooling where
  data : Shape.Images
  out : Shape.Images

namespace Pooling

/-- The operands are such images, and so is the output of their windows. -/
structure Accepts (g : Pooling) (data : List α) (s : Shape) (window strides : Nat × Nat) :
    Prop where
  shape : s = g.data.shape
  count : data.length = s.size
  windows : Shape.windowImages g.data.batch g.data.channels (g.data.height, g.data.width) window
    strides = .ok g.out

/-- The size of the windows and the elements of the output are counted. -/
structure Room (g : Pooling) (window : Nat × Nat) : Prop where
  area : window.1 * window.2 < wordSize
  count : Fits (imageCount g.out)

/-- What is computed of words for the output and for each of its sums. -/
structure Places (g : Pooling) (data : List α) (window strides : Nat × Nat) : Prop where
  height : windowCount? g.data.height window.1 strides.1 = some g.out.height
  width : windowCount? g.data.width window.2 strides.2 = some g.out.width
  area : Word.mul? window.1 window.2 = some (window.1 * window.2)
  count : imageCount? g.out = some (imageCount g.out)
  data : ∀ n < g.data.batch, ∀ ch < g.data.channels, ∀ oy < g.out.height, ∀ ox < g.out.width,
    ∀ ky < window.1, ∀ kx < window.2,
      Finds (windowPlace? g.data strides n ch oy ox ky kx)
        (imageIndex g.data n ch (oy * strides.1 + ky) (ox * strides.2 + kx)) data

end Pooling

variable {inverse : Nat → α}

theorem windowEntry_returns (hadd : Closed P add) (hmul : Closed P mul) {factor : α}
    (hfactor : P factor) (ha : ∀ x ∈ data, P x) {g : Pooling}
    (accepts : g.Accepts data s window strides) (held : Fits data.length) {place : Nat}
    (lt : place < imageCount g.out) :
    Returns (windowEntry add mul factor data g.data g.out window strides place) P := by
  obtain ⟨rfl, count, windows⟩ := accepts
  obtain ⟨batch, channels, -, -⟩ := Shape.windowImages_eq_ok windows
  obtain ⟨hn, hch, hoy, hox⟩ := imagePlace_lt lt
  obtain ⟨elements, eq, -, kind⟩ := windowElements_ok ha (length_eq_imageCount held count) windows
    (hn.trans_eq batch) (hch.trans_eq channels) hoy hox
  exact liftFault_returns eq (returns_bind (sumElements_returns hadd kind) fun sum hsum =>
    hmul sum factor hsum hfactor)

theorem windowSums_returns (hadd : Closed P add) (hmul : Closed P mul)
    (hinverse : ∀ area, P (inverse area)) (ha : ∀ x ∈ data, P x) (held : Fits data.length)
    (room : ∀ g : Pooling, g.Accepts data s window strides → g.Room window) :
    Returns (windowSums add mul inverse data s window strides) fun _ => True := by
  refine checkCount_bind_returns fun count => ?_
  refine liftShape_returns fun d hd => liftShape_returns fun out windows => ?_
  have accepts : Pooling.Accepts ⟨d, out⟩ data s window strides :=
    ⟨Shape.images_eq_ok hd, count, windows⟩
  have room := room _ accepts
  refine liftFault_returns (if_pos room.area) ?_
  exact tabulate_returns room.count fun place lt =>
    windowEntry_returns hadd hmul (hinverse _) ha accepts held lt

theorem fails_windowSums_of_area {d out : Shape.Images}
    (windows : Shape.windowImages d.batch d.channels (d.height, d.width) window strides = .ok out)
    (area : ¬ window.1 * window.2 < wordSize) (count : data.length = d.shape.size) :
    Fails (windowSums add mul inverse data d.shape window strides) outOfMemory := by
  unfold windowSums
  rw [checkCount_ok count, lift_bind, show d.shape.images = .ok d from rfl, liftShape_bind, windows,
    liftShape_bind]
  exact fails_bind _ (fails_liftFault (if_neg area))

theorem windowSums_safe (hadd : Closed P add) (hmul : Closed P mul)
    (hinverse : ∀ area, P (inverse area)) (ha : ∀ x ∈ data, P x) (held : Fits data.length)
    (words : s.InWords) :
    Safe (fun g : Pooling => g.Accepts data s window strides) (·.Room window)
      (·.Places data window strides) (windowSums add mul inverse data s window strides) where
  returns := windowSums_returns hadd hmul hinverse ha held
  stops := by
    rintro ⟨d, out⟩ ⟨rfl, count, windows⟩ full
    by_cases area : window.1 * window.2 < wordSize
    · rw [windowSums_eq inverse windows area count]
      exact tabulate_fails (fun fits => full ⟨area, fits⟩) _
    · exact fails_windowSums_of_area windows area count
  places := by
    rintro ⟨d, out⟩ ⟨rfl, count, windows⟩ ⟨area, fits⟩
    obtain ⟨height, width, counted⟩ := windowImages_places windows words fits
    refine ⟨height, width, Word.mul?_of_lt area, counted,
      fun n hn ch hch oy hoy ox hox ky hky kx hkx => ?_⟩
    exact finds_window windows held (length_eq_imageCount held count) hn hch hoy hox hky hkx

/-! ## Repetition -/

/-- Data that are of their shape, which can be repeated to fill the other. -/
structure Repeatable (values : List α) (source target : Shape) : Prop where
  count : values.length = source.size
  can : source.canBroadcast target

variable {values : List α} {source target : Shape}

/-- A place of the output is filled from a place of the data. -/
theorem Repeatable.finds (h : Repeatable values source target) (held : Fits values.length)
    (fits : Fits target.size) {flat : Nat} (lt : flat < target.size) :
    Finds (sourcePlace? target.reverse source.reverse flat 0 1)
      (Shape.sourceIndex target.reverse source.reverse flat 1) values := by
  have length := (length_eq_prod held h.count).2
  rw [Shape.size_eq_prod (counted_of_fits fits)] at lt
  have word : source.prod < wordSize := length ▸ lt_wordSize_of_fits held
  obtain ⟨found, inside⟩ := sourcePlace?_of_lt h.can lt word
  exact ⟨found, length ▸ inside⟩

theorem broadcast_safe (held : Fits values.length) :
    Safe (fun _ : Unit => Repeatable values source target) (fun _ => Fits target.size)
      (fun _ => ∀ flat < target.size, Finds (sourcePlace? target.reverse source.reverse flat 0 1)
        (Shape.sourceIndex target.reverse source.reverse flat 1) values)
      (broadcast values source target) where
  returns := by
    intro room
    refine checkCount_bind_returns fun count => returns_ite (fun _ _ => rfl) fun can => ?_
    have accepts : Repeatable values source target := ⟨count, by simpa using can⟩
    refine tabulate_returns (P := fun _ => True) (room () accepts) fun flat lt => ?_
    have inside := (accepts.finds held (room () accepts) lt).2
    obtain ⟨x, eq, -⟩ := entryOf_ok (P := fun _ : α => True) (fun _ _ => trivial) inside
    exact returns_of_must (must_liftFault eq) trivial
  stops := by
    rintro - ⟨count, can⟩ full
    rw [broadcast_eq can count]
    exact tabulate_fails full _
  places := fun _ accepts fits _ lt => accepts.finds held fits lt

end Tensor

namespace Element

open Tensor

/-- A kind of elements of which sums and products return and are again of this
kind, as are the factors of averages. -/
structure Closed (ev : Evaluator) (P : Element → Prop) : Prop where
  add : Tensor.Closed P (add ev)
  multiply : Tensor.Closed P (multiply ev)
  inverse : ∀ area, P (.plain [1 / Float.ofNat area])

/-- A list of elements of a kind, held in memory. -/
structure Held (P : Element → Prop) (a : List Element) : Prop where
  kind : ∀ x ∈ a, P x
  fits : Fits a.length

/-- On elements whose sums and products return, the tensor operations return,
or accept operands for which they have no room. Where there is room, all
numbers and places that they compute stay within the words, and at the places
there are elements. -/
theorem tensors_safe (ev : Evaluator) {P : Element → Prop} (closed : Closed ev P) :
    (∀ (a b : List Element) (s t : Shape), Held P a → Held P b →
      Safe (fun g : Contraction => g.Accepts a s b t) (fun g => Fits g.count) (·.Places a b)
        (dot ev a s b t)) ∧
    (∀ (data filter : List Element) (s t : Shape) (strides : Nat × Nat), Held P data →
      Held P filter → s.InWords →
      Safe (fun g : Convolution => g.Accepts data s filter t strides)
        (fun g => Fits (imageCount g.out)) (·.Places data filter strides)
        (convolution ev data s filter t strides)) ∧
    (∀ (data : List Element) (s : Shape) (window strides : Nat × Nat), Held P data → s.InWords →
      Safe (fun g : Pooling => g.Accepts data s window strides) (·.Room window)
        (·.Places data window strides) (averagePool ev data s window strides)) ∧
    ∀ (values : List Element) (source target : Shape), Fits values.length →
      Safe (fun _ : Unit => Repeatable values source target) (fun _ => Fits target.size)
        (fun _ => ∀ flat < target.size,
          Finds (sourcePlace? target.reverse source.reverse flat 0 1)
            (Shape.sourceIndex target.reverse source.reverse flat 1) values)
        (broadcast values source target) := by
  obtain ⟨hadd, hmul, hinverse⟩ := closed
  refine ⟨fun a b s t ha hb => ?_, fun data filter s t strides ha hb words => ?_,
    fun data s window strides ha words => ?_, fun values source target held => ?_⟩
  · exact dot_safe hadd hmul ha.kind hb.kind ha.fits hb.fits
  · exact convolution_safe hadd hmul ha.kind hb.kind ha.fits hb.fits words
  · exact windowSums_safe hadd hmul hinverse ha.kind ha.fits words
  · exact broadcast_safe held

/-! ## Elements of one number of lanes -/

variable {ctx : Context} {ev : Evaluator} {lanes : Nat} {x y z : Element}

/-- Plain lanes of a number, or a single one for all of them, and well-formed
ciphertexts. -/
def HasLanes (ctx : Context) (lanes : Nat) : Element → Prop
  | .plain xs => xs.length = 1 ∨ xs.length = lanes
  | .cipher h => h.Proper ctx

theorem HasLanes.proper (h : x.HasLanes ctx lanes) : x.Proper ctx := by
  cases x with
  | plain xs => trivial
  | cipher h' => exact h

theorem HasLanes.pair (some : 0 < lanes) (hx : x.HasLanes ctx lanes) (hy : y.HasLanes ctx lanes) :
    ∀ xs ys, x = .plain xs → y = .plain ys → Lanes.Pair xs ys := by
  rintro xs ys rfl rfl
  have hx : xs.length = 1 ∨ xs.length = lanes := hx
  have hy : ys.length = 1 ∨ ys.length = lanes := hy
  simp only [Lanes.Pair, ne_eq, ← List.length_eq_zero_iff]
  omega

theorem ComesOf.hasLanes (hx : x.HasLanes ctx lanes) (hy : y.HasLanes ctx lanes) (some : 0 < lanes)
    (h : ComesOf ctx x y z) : z.HasLanes ctx lanes := by
  cases z with
  | cipher h' => exact h
  | plain zs =>
    obtain ⟨xs, ys, rfl, rfl, length⟩ := h
    have hx : xs.length = 1 ∨ xs.length = lanes := hx
    have hy : ys.length = 1 ∨ ys.length = lanes := hy
    have hz : zs.length = 1 ∨ zs.length = lanes := by omega
    exact hz

/-- Sums and products of elements of one number of lanes return. -/
theorem closed_hasLanes [Primitives] {params : Params} (hctx : Context.ofParams params = .ok ctx)
    (keys : ev.IsOver ctx) (some : 0 < lanes) : Closed ev (HasLanes ctx lanes) := by
  have sound := Context.sound_of_ofParams hctx
  have sized := Context.sized_of_ofParams hctx
  refine ⟨fun x y hx hy c => ?_, fun x y hx hy c => ?_, fun _ => .inl rfl⟩
  · exact returns_mono (add_returns sound sized keys hx.proper hy.proper (hx.pair some hy) c)
      fun _ _ h => ComesOf.hasLanes hx hy some h
  · exact returns_mono (multiply_returns sound sized keys hx.proper hy.proper (hx.pair some hy) c)
      fun _ _ h => ComesOf.hasLanes hx hy some h

end Element

namespace Registers.Tiny

open Element Tensor

attribute [local instance] Primitives.coarse

/-- A ciphertext and two plain lanes. -/
def pair : List Element :=
  [held, .plain [1, 2]]

theorem held_pair : Held (HasLanes Context.tiny 2) pair where
  kind := List.forall_mem_cons.mpr ⟨proper_held, List.forall_mem_singleton.mpr (.inr rfl)⟩
  fits := by decide

/-- The contraction of two pairs returns. -/
theorem tensors_safe_pair :
    Closed evaluator (HasLanes Context.tiny 2) ∧ Held (HasLanes Context.tiny 2) pair ∧
    Returns (dot evaluator pair [2] pair [2]) fun _ => True := by
  have closed : Closed evaluator (HasLanes Context.tiny 2) :=
    closed_hasLanes Context.ofParams_tiny isOver_evaluator Nat.zero_lt_two
  have room : ∀ g : Contraction, g.Accepts pair [2] pair [2] → Fits g.count := by
    rintro ⟨lead, k, rest⟩ ⟨left, right, -, -⟩
    obtain ⟨rfl, -⟩ := List.append_singleton_inj.mp (show [] ++ [2] = lead ++ [k] from left)
    obtain ⟨-, rfl⟩ := List.cons.inj right
    have single : Fits 1 := by decide
    exact single
  have safe := (tensors_safe evaluator closed).1 pair pair [2] [2] held_pair held_pair
  -- Nothing is to be computed here.
  generalize dot evaluator pair [2] pair [2] = product at safe ⊢
  exact ⟨closed, held_pair, safe.returns room⟩

/-- Empty operands are elements of every kind and take no memory, and each of
the tensor operations accepts some for which it has no room. -/
theorem tensors_without_room :
    Closed evaluator (HasLanes Context.tiny 2) ∧ Held (HasLanes Context.tiny 2) [] ∧
    Faulty.isFault outOfMemory = true ∧
    (dot evaluator [] [Nat.pow 2 60, 0] [] [0]).run default = .error outOfMemory ∧
    (convolution evaluator [] [Nat.pow 2 60, 0, 1, 1] [] [1, 0, 1, 1] (1, 1)).run default =
      .error outOfMemory ∧
    (averagePool evaluator [] [0, 1, Nat.pow 2 40, Nat.pow 2 40] (Nat.pow 2 40, Nat.pow 2 40)
      (1, 1)).run default = .error outOfMemory ∧
    (broadcast ([] : List Element) [0] [Nat.pow 2 40, Nat.pow 2 40, 0]).run default =
      .error outOfMemory := by
  have closed : Closed evaluator (HasLanes Context.tiny 2) :=
    closed_hasLanes Context.ofParams_tiny isOver_evaluator Nat.zero_lt_two
  have held : Held (HasLanes Context.tiny 2) [] := ⟨fun _ h => (nomatch h), by decide⟩
  refine ⟨closed, held, rfl, ?_, ?_, ?_, ?_⟩
  · rfl
  · rfl
  · rfl
  · rfl

end Registers.Tiny

end CipherFlow
