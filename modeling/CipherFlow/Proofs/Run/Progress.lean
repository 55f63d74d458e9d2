import CipherFlow.Proofs.Graph.Inference
import CipherFlow.Proofs.Normalize.Compiled
import CipherFlow.Proofs.Run.Holding
import CipherFlow.Proofs.Run.Nodes
import CipherFlow.Proofs.Run.Preservation

/-!
# Typed graphs do not go wrong

A graph that has been built is evaluated on plain inputs of the types of its
parameters to results of the types that have been inferred, and so is what
normalization makes of it. Every operation finds operands of the shapes that
it asks for, reads no element that is not there, and fills the shape of its
node. The one thing that types do not say is whether a table that is set aside
as a whole fits into memory: if one does not, the run is refused for that.

Main statement: `Backend.call_progress`.

How the proof goes. Every operation is shown to fill the shape that has been
inferred for its outcome, provided that its operands fill theirs (`operate_fills`,
one lemma for each operation before it). That is the step of a run
(`evaluateNode_fills`), and `progresses` is its induction along the order of
evaluation. The normalized graph is typed too, and sets no more tables aside
(`fitsMemory_of_edited`), so the same holds of it.
-/

namespace CipherFlow

open CipherFlow.Element (Compute single add multiply)
open CipherFlow.Run (Problem Eval Oracle Sampling require sample)
open CipherFlow.BatchedTensor (flat)
open Answering Refusing

/-! ## Shapes and elements

Without batching an element is one number. So a tensor that fills its shape is known
by the list of its numbers. -/

/-- Shapes without empty axes whose places can be counted. -/
def Shape.Countable (s : Shape) : Prop :=
  s.IsPositive ∧ s.prod < wordSize

theorem Shape.Countable.isSome_size? {s : Shape} (h : s.Countable) : s.size?.isSome :=
  h.1.isSome_size? h.2

/-- Elements of a single lane. -/
def Element.IsSingle (e : Element) : Prop :=
  ∃ x, e = single x

namespace Element

theorem total_add (ev : Evaluator) : Tensor.Total IsSingle (add ev) := by
  rintro _ _ ⟨x, rfl⟩ ⟨y, rfl⟩
  exact ⟨single (x + y), fun _ => rfl, x + y, rfl⟩

theorem total_multiply (ev : Evaluator) : Tensor.Total IsSingle (multiply ev) := by
  rintro _ _ ⟨x, rfl⟩ ⟨y, rfl⟩
  exact ⟨single (x * y), fun _ => rfl, x * y, rfl⟩

theorem isSingle_of_mem {data : List Float} : ∀ e ∈ data.map single, IsSingle e := by
  intro e he
  obtain ⟨x, -, rfl⟩ := List.mem_map.mp he
  exact ⟨x, rfl⟩

theorem exists_singles {es : List Element} (h : ∀ e ∈ es, IsSingle e) :
    ∃ data : List Float, es = data.map single := by
  induction es with
  | nil => exact ⟨[], rfl⟩
  | cons e es ih =>
    obtain ⟨x, rfl⟩ := h e List.mem_cons_self
    obtain ⟨data, rfl⟩ := ih fun e he => h e (List.mem_cons_of_mem _ he)
    exact ⟨x :: data, rfl⟩

end Element

open Element (IsSingle total_add total_multiply isSingle_of_mem)

namespace BatchedTensor

theorem agree_flat (type : TensorType) (data : List Float) :
    (flat type data).Agree (flat type data) := by
  refine ⟨rfl, rfl, List.forall₂_same.mpr fun e he => ?_⟩
  obtain ⟨x, -, rfl⟩ := List.mem_map.mp he
  exact Element.agree_plain [x]

end BatchedTensor

namespace Backend

section Operations

variable {σ ε : Type} {ev : Evaluator} {a b c : TensorType} {dx dy : List Float} {shape : Shape}
  {strides window : Nat × Nat}

/-- An outcome without batching that fills a shape. -/
def Fills (shape : Shape) (out : Batched) : Prop :=
  ∃ data : List Float, out = (1, data.map single) ∧ data.length = shape.prod

/-! ## Operations

One lemma for each operation. Those that compute element by element always answer.
Those that set a table aside answer if it fits, and are refused for it if it does
not. -/

/-- Sums and products of elements at the same places. -/
theorem elementwise_fills {op : Element → Element → Compute Element}
    (total : Tensor.Total IsSingle op) (hx : dx.length = a.shape.prod)
    (hy : dy.length = a.shape.prod) :
    ∃ out, Must (do
      let batch ← commonBatch (flat a dx) (flat a dy)
      let out ← Tensor.elementwise op (flat a dx).values (flat a dy).values
      return (batch, out) : Sampling Batched) out ∧ Fills a.shape out := by
  obtain ⟨es, must, length, all⟩ := Tensor.elementwise_must total (a := dx.map single)
    (b := dy.map single) (by simp [hx, hy]) isSingle_of_mem isSingle_of_mem
  obtain ⟨data, rfl⟩ := Element.exists_singles all
  refine ⟨(1, data.map single), ?_, data, rfl, by simpa [hx] using length⟩
  exact must_bind (must_lift rfl) (must_bind (must_withError must _) (must_pure _))

/-- Minima are taken of single lanes. -/
theorem minimum_fills (hx : dx.length = a.shape.prod) (hy : dy.length = a.shape.prod) :
    ∃ out, Must (minimum (flat a dx) (flat a dy)) out ∧ Fills a.shape out := by
  have total : Tensor.Total (fun xs : List Float => ∃ x, xs = [x]) fun xs ys =>
      (Lanes.zipWith Nonlinear.minNumber xs ys : Compute (List Float)) := by
    rintro _ _ ⟨x, rfl⟩ ⟨y, rfl⟩
    exact ⟨[Nonlinear.minNumber x y], fun _ => rfl, _, rfl⟩
  have lane : ∀ data : List Float, ∀ xs ∈ data.map fun x => [x], ∃ x, xs = [x] := by
    intro data xs hxs
    obtain ⟨x, -, rfl⟩ := List.mem_map.mp hxs
    exact ⟨x, rfl⟩
  obtain ⟨lanes, must, length, all⟩ := Tensor.elementwise_must total (a := dx.map fun x => [x])
    (b := dy.map fun x => [x]) (by simp [hx, hy]) (lane dx) (lane dy)
  obtain ⟨data, eq⟩ : ∃ data : List Float, lanes.map Element.plain = data.map single := by
    refine Element.exists_singles fun e he => ?_
    obtain ⟨xs, hxs, rfl⟩ := List.mem_map.mp he
    obtain ⟨x, rfl⟩ := all xs hxs
    exact ⟨x, rfl⟩
  refine ⟨(1, lanes.map .plain), ?_, data, by rw [eq], ?_⟩
  · unfold minimum
    rw [BatchedTensor.values_flat, BatchedTensor.values_flat, mapM_plainLanes, mapM_plainLanes]
    exact must_bind (must_lift rfl) (must_bind (must_withError must _) (must_pure _))
  · have same := congrArg List.length eq
    simp only [List.length_map] at same length
    rw [← same, length, hx]

/-- Plain elements are not sent to the oracle. -/
theorem nonlinear_fills (oracle : Oracle σ ε) (f : Nonlinear) (hx : dx.length = a.shape.prod) :
    ∃ out, Must (nonlinear oracle f (flat a dx)) out ∧ Fills a.shape out := by
  rw [nonlinear_plain oracle f (BatchedTensor.values_flat a dx)]
  refine ⟨_, must_pure _, dx.map f.apply, ?_, by rw [List.length_map, hx]⟩
  rw [List.map_map, List.map_map]
  rfl

/-- A table of as many entries as a shape has places. -/
theorem fills_of_settles {count : Nat} {compute : Compute (List Element)}
    (h : Settles (Tensor.Fits count) Tensor.outOfMemory
      (fun out => out.length = count ∧ ∀ e ∈ out, IsSingle e) compute)
    (counted : count = shape.prod) :
    Settles (Tensor.Fits shape.prod) outOfMemory (Fills shape) (do
      let out ← compute
      return (1, out) : Sampling Batched) := by
  rw [← counted]
  refine (h.withError Problem.element).bind ?_
  rintro es ⟨length, all⟩
  obtain ⟨data, rfl⟩ := Element.exists_singles all
  exact ⟨_, must_pure _, data, rfl, by rw [← List.length_map, length, counted]⟩

theorem broadcast_fills (typed : a.broadcast shape = .ok c) (source : a.shape.Countable)
    (target : shape.Countable) (hx : dx.length = a.shape.prod) :
    Settles (Tensor.Fits shape.prod) outOfMemory (Fills shape) (broadcast (flat a dx) shape) := by
  obtain ⟨can, -⟩ := TensorType.broadcast_eq_ok typed
  have packed : BatchedTensor.pack shape 1 = .ok shape :=
    BatchedTensor.pack_eq_ok_iff.mpr (.of_one shape)
  refine .after (must_lift packed) ?_
  rw [BatchedTensor.packedShape_flat]
  exact fills_of_settles (Tensor.broadcast_settles isSingle_of_mem can source.isSome_size?
    target.isSome_size? (by rw [List.length_map, hx, Shape.size_eq_prod source.isSome_size?]))
    (Shape.size_eq_prod target.isSome_size?)

/-- A contraction over an axis that is not empty. -/
theorem dot_fills (typed : TensorType.dot a b = .ok c) (left : a.shape.Countable)
    (right : b.shape.Countable) (target : c.shape.Countable) (hx : dx.length = a.shape.prod)
    (hy : dy.length = b.shape.prod) :
    Settles (Tensor.Fits c.shape.prod) outOfMemory (Fills c.shape)
      (dot ev (flat a dx) (flat b dy)) := by
  obtain ⟨lead, k, rest, sa, sb, rfl⟩ := TensorType.dot_eq_ok typed
  -- A contraction over an empty axis would be a sum of no terms, which is refused.
  have pos : 0 < k := left.1 k (by rw [sa]; simp)
  refine .after (a := 1) (must_lift rfl) ?_
  show Settles _ _ _ (do
    let out ← Element.dot ev (dx.map single) (flat a dx).packedShape (dy.map single) b.shape
    return (1, out) : Sampling Batched)
  have sizedA := left.isSome_size?
  have sizedB := right.isSome_size?
  have countA : (dx.map single).length = a.shape.size := by
    rw [List.length_map, hx, Shape.size_eq_prod sizedA]
  have countB : (dy.map single).length = b.shape.size := by
    rw [List.length_map, hy, Shape.size_eq_prod sizedB]
  rw [sa] at sizedA countA
  rw [sb] at sizedB countB
  rw [BatchedTensor.packedShape_flat, sa, sb]
  exact fills_of_settles (Tensor.dot_settles (total_add ev) (total_multiply ev) isSingle_of_mem
    isSingle_of_mem pos sizedA sizedB countA countB) (Shape.size_mul_size target.isSome_size?)

/-- A convolution of images that have channels. -/
theorem convolution_fills (typed : TensorType.convolution strides a b = .ok c)
    (left : a.shape.Countable) (right : b.shape.Countable) (hx : dx.length = a.shape.prod)
    (hy : dy.length = b.shape.prod) :
    Settles (Tensor.Fits c.shape.prod) outOfMemory (Fills c.shape)
      (convolution ev strides (flat a dx) (flat b dy)) := by
  obtain ⟨d, f, out, sa, sb, channels, windows, rfl⟩ := TensorType.convolution_eq_ok typed
  -- So are sums over no channels.
  have pos : 0 < d.channels := left.1 d.channels (by rw [sa]; simp [Shape.Images.shape])
  refine .after (a := 1) (must_lift rfl) ?_
  show Settles _ _ _ (do
    let out ← Element.convolution ev (dx.map single) (flat a dx).packedShape (dy.map single) b.shape
      strides
    return (1, out) : Sampling Batched)
  have sizedA := left.isSome_size?
  have sizedB := right.isSome_size?
  have countA : (dx.map single).length = a.shape.size := by
    rw [List.length_map, hx, Shape.size_eq_prod sizedA]
  have countB : (dy.map single).length = b.shape.size := by
    rw [List.length_map, hy, Shape.size_eq_prod sizedB]
  rw [sa] at sizedA countA
  rw [sb] at sizedB countB
  rw [BatchedTensor.packedShape_flat, sa, sb]
  exact fills_of_settles (Tensor.convolution_settles (total_add ev) (total_multiply ev)
    isSingle_of_mem isSingle_of_mem pos channels windows sizedA sizedB countA countB)
    (Tensor.imageCount_eq_prod out)

/-- A window lies in the images, so its size fits a word with theirs. -/
theorem area_lt_wordSize {d out : Shape.Images}
    (windows : Shape.windowImages d.batch d.channels (d.height, d.width) window strides = .ok out)
    (countable : d.shape.Countable) : window.1 * window.2 < wordSize := by
  obtain ⟨-, -, rows, columns⟩ := Shape.windowImages_eq_ok windows
  obtain ⟨positive, lt⟩ := countable
  have batch : 0 < d.batch := positive _ (by simp [Shape.Images.shape])
  have channels : 0 < d.channels := positive _ (by simp [Shape.Images.shape])
  calc window.1 * window.2
    _ ≤ d.height * d.width := Nat.mul_le_mul (Shape.windowCount_eq_ok rows).2.1
        (Shape.windowCount_eq_ok columns).2.1
    _ ≤ d.batch * d.channels * (d.height * d.width) :=
        Nat.le_mul_of_pos_left _ (Nat.mul_pos batch channels)
    _ = d.shape.prod := by simp [Shape.Images.shape, Nat.mul_assoc]
    _ < wordSize := lt

/-- An average over windows of images. -/
theorem averagePool_fills (typed : TensorType.averagePool window strides a = .ok c)
    (source : a.shape.Countable) (hx : dx.length = a.shape.prod) :
    Settles (Tensor.Fits c.shape.prod) outOfMemory (Fills c.shape)
      (averagePool ev window strides (flat a dx)) := by
  obtain ⟨d, out, sa, windows, rfl⟩ := TensorType.averagePool_eq_ok typed
  show Settles _ _ _ (do
    let out ← Element.averagePool ev (dx.map single) (flat a dx).packedShape window strides
    return (1, out) : Sampling Batched)
  have sized := source.isSome_size?
  have count : (dx.map single).length = a.shape.size := by
    rw [List.length_map, hx, Shape.size_eq_prod sized]
  rw [sa] at sized count source
  rw [BatchedTensor.packedShape_flat, sa]
  exact fills_of_settles (Tensor.windowSums_settles (total_add ev) (total_multiply ev)
    (fun area => ⟨1 / Float.ofNat area, rfl⟩) isSingle_of_mem windows
    (area_lt_wordSize windows source) sized count) (Tensor.imageCount_eq_prod out)

end Operations

/-! ## Nodes

The types of the operands are those that inference has looked at, so what it found
out holds of the operands, too. -/

/-- A tensor without batching that has been filled with data of its type. -/
def Filled (type : TensorType) (t : BatchedTensor) : Prop :=
  ∃ data : List Float, t = flat type data ∧ data.length = type.shape.prod

variable {σ ε : Type} {b : Backend} {oracle : Oracle σ ε} {n : Node}
    {xs inputs : List BatchedTensor}
  {ts : List TensorType} {g : Graph} {values : Values}

/-- Each operation fills the shape that has been inferred for its outcome. -/
theorem operate_fills (gives : n.op.Gives ts n.type) (computed : n.kind ≠ .parameter)
    (sources : ∀ a ∈ ts, a.shape.Countable) (target : n.type.shape.Countable)
    (filled : List.Forall₂ Filled ts xs) :
    Settles n.Fits (.problem outOfMemory) (Fills n.type.shape) (b.operate oracle n xs) := by
  unfold operate
  cases op : n.op <;> rw [op] at gives
  -- By operation. Those that set a table aside settle by `settles_of_table`, the others without
  -- room.
  case parameter => exact absurd (congrArg Op.kind op) computed
  case constant v =>
    cases filled with
    | nil =>
      refine Node.settles_of_must (by rw [Node.kind, op]; rfl) ⟨_, must_pure _, v, rfl, ?_⟩
      rw [show v.length = n.type.shape.size from gives, Shape.size_eq_prod target.isSome_size?]
    | cons _ _ => exact gives.elim
  case relu | boundedRelu =>
    rcases filled with _ | ⟨⟨dx, rfl, hx⟩, _ | ⟨_, _⟩⟩ <;> simp only [Op.Gives] at gives
    refine Node.settles_of_must (by rw [Node.kind, op]; rfl) ?_
    rw [gives]
    exact nonlinear_fills oracle _ hx
  case rescale =>
    rcases filled with _ | ⟨⟨dx, rfl, hx⟩, _ | ⟨_, _⟩⟩ <;> simp only [Op.Gives] at gives
    refine Node.settles_of_sample (by rw [Node.kind, op]; rfl) ?_
    rw [gives]
    exact ⟨_, must_rescale (BatchedTensor.agree_flat _ dx), dx, rfl, hx⟩
  case broadcast =>
    rcases filled with _ | ⟨⟨dx, rfl, hx⟩, _ | ⟨_, _⟩⟩ <;> simp only [Op.Gives] at gives
    exact Node.settles_of_table (by rw [Node.kind, op]; rfl)
      (broadcast_fills gives (sources _ List.mem_cons_self) target hx)
  case averagePool window strides =>
    rcases filled with _ | ⟨⟨dx, rfl, hx⟩, _ | ⟨_, _⟩⟩ <;> simp only [Op.Gives] at gives
    exact Node.settles_of_table (by rw [Node.kind, op]; rfl)
      (averagePool_fills gives (sources _ List.mem_cons_self) hx)
  case add =>
    rcases filled with _ | ⟨⟨dx, rfl, hx⟩, _ | ⟨⟨dy, rfl, hy⟩, _ | ⟨_, _⟩⟩⟩ <;>
      simp only [Op.Gives] at gives
    obtain ⟨rfl, rfl⟩ := Graph.eq_of_elementwise gives
    exact Node.settles_of_sample (by rw [Node.kind, op]; rfl)
      (elementwise_fills (total_add _) hx hy)
  case multiply =>
    rcases filled with _ | ⟨⟨dx, rfl, hx⟩, _ | ⟨⟨dy, rfl, hy⟩, _ | ⟨_, _⟩⟩⟩ <;>
      simp only [Op.Gives] at gives
    obtain ⟨rfl, rfl⟩ := Graph.eq_of_elementwise gives
    exact Node.settles_of_sample (by rw [Node.kind, op]; rfl)
      (elementwise_fills (total_multiply _) hx hy)
  case minimum =>
    rcases filled with _ | ⟨⟨dx, rfl, hx⟩, _ | ⟨⟨dy, rfl, hy⟩, _ | ⟨_, _⟩⟩⟩ <;>
      simp only [Op.Gives] at gives
    obtain ⟨rfl, rfl⟩ := Graph.eq_of_elementwise gives
    exact Node.settles_of_sample (by rw [Node.kind, op]; rfl) (minimum_fills hx hy)
  case dot =>
    rcases filled with _ | ⟨⟨dx, rfl, hx⟩, _ | ⟨⟨dy, rfl, hy⟩, _ | ⟨_, _⟩⟩⟩ <;>
      simp only [Op.Gives] at gives
    exact Node.settles_of_table (by rw [Node.kind, op]; rfl) (dot_fills gives
      (sources _ List.mem_cons_self) (sources _ (by simp)) target hx hy)
  case convolution strides =>
    rcases filled with _ | ⟨⟨dx, rfl, hx⟩, _ | ⟨⟨dy, rfl, hy⟩, _ | ⟨_, _⟩⟩⟩ <;>
      simp only [Op.Gives] at gives
    exact Node.settles_of_table (by rw [Node.kind, op]; rfl) (convolution_fills gives
      (sources _ List.mem_cons_self) (sources _ (by simp)) hx hy)

/-- The value of a node fills the shape of its type. -/
def FilledAt (g : Graph) (id : NodeId) (t : BatchedTensor) : Prop :=
  ∃ type, g.type? id = some type ∧ Filled type t

/-- Tensors at nodes have the types of the nodes. -/
theorem types_of_filled {ids : List NodeId} (h : List.Forall₂ (FilledAt g) ids xs) :
    ids.map g.type? = xs.map fun t => some t.type := by
  rw [← List.forall₂_eq_eq_eq, List.forall₂_map_left_iff, List.forall₂_map_right_iff]
  refine h.imp ?_
  rintro i t ⟨type, eq, data, rfl, -⟩
  exact eq

/-- The operands of a node have tensors of the types that its operation is
given. -/
theorem exists_filled (types : n.inputs.map g.type? = ts.map some)
    (good : OperandsGood (FilledAt g) values n) :
    ∃ xs, Operands values n xs ∧ List.Forall₂ Filled ts xs := by
  unfold OperandsGood at good
  unfold Operands
  generalize n.inputs = ids at types good
  induction ids generalizing ts with
  | nil =>
    obtain rfl := List.map_eq_nil_iff.mp types.symm
    exact ⟨[], .nil, .nil⟩
  | cons i ids ih =>
    obtain ⟨t, ts', rfl, first, rest⟩ := List.map_eq_cons_iff.mp types.symm
    obtain ⟨x, found, type, eq, filled⟩ := good i List.mem_cons_self
    obtain rfl := Option.some.inj (eq.symm.trans first.symm)
    obtain ⟨xs, operands, all⟩ := ih rest.symm fun j hj => good j (List.mem_cons_of_mem _ hj)
    exact ⟨x :: xs, .cons found operands, .cons filled all⟩

/-- One node: an input of its type, or an outcome that fills the shape. -/
theorem evaluateNode_fills {id : NodeId} (sound : g.Sound) (lists : g.ListsParameters)
    (countable : ∀ i t, g.type? i = some t → t.shape.Countable)
    (bound : List.Forall₂ (FilledAt g) g.parameters inputs) (hn : g.node? id = some n)
    (good : OperandsGood (FilledAt g) values n) :
    Settles n.Fits (.problem outOfMemory) (FilledAt g id)
      (b.evaluateNode oracle inputs n values) := by
  have type := Graph.type?_of_node? hn
  by_cases computed : n.kind = .parameter
  · obtain ⟨index, op⟩ := exists_index computed
    obtain ⟨t, found, _, same, filled⟩ := Tensor.getElem?_related bound (lists id n index hn op)
    obtain rfl := Option.some.inj (type.symm.trans same)
    -- The tensor that is bound to a parameter is checked against the type of the node.
    have matches' : t.type = n.type := by
      obtain ⟨data, rfl, -⟩ := filled
      rfl
    rw [evaluateNode_parameter op]
    exact Node.settles_of_must (by rw [computed]; rfl)
      ⟨t, must_require (bindParameter_eq_ok.mpr ⟨found, matches'⟩), n.type, type, filled⟩
  · obtain ⟨ts, types, gives⟩ := (sound.typed id n hn).types
    obtain ⟨xs, operands, filled⟩ := exists_filled types good
    have sources : ∀ a ∈ ts, a.shape.Countable := by
      intro a ha
      obtain ⟨i, -, hi⟩ := List.mem_map.mp (types ▸ List.mem_map_of_mem ha)
      exact countable i a hi
    have target := countable id n.type type
    rw [evaluateNode_eq gives filled.length_eq.symm operands computed]
    refine (operate_fills gives computed sources target filled).bind ?_
    rintro _ ⟨data, rfl, length⟩
    exact ⟨flat n.type data, must_require (BatchedTensor.ofValues_flat target.isSome_size? length),
      n.type, type, data, rfl, length⟩

/-! ## Runs

The nodes are evaluated in order, and a tensor that fills its shape is what each of
them hands on. -/

/-- A run on a graph answers with results of given types, or a tensor on the
way does not fit into memory and it is refused for that. -/
structure Progresses (b : Backend) (oracle : Oracle σ ε) (inputs : List BatchedTensor)
    (types : List TensorType) (g : Graph) : Prop where
  answers : g.FitsMemory → ∃ outs, (∀ c s, (b.call g inputs oracle).runFrom c s = (.ok outs, s)) ∧
    outs.map (·.type) = types
  refused : ¬ g.FitsMemory → ∀ c s,
    (b.call g inputs oracle).runFrom c s = (.error (.problem outOfMemory), s)

theorem progresses (sound : g.Sound) (lists : g.ListsParameters)
    (countable : ∀ i t, g.type? i = some t → t.shape.Countable)
    (bound : List.Forall₂ (FilledAt g) g.parameters inputs)
    (types : g.results.map g.type? = ts.map some) : Progresses b oracle inputs ts g := by
  have settles : Settles g.FitsMemory (.problem outOfMemory) (List.Forall₂ (FilledAt g) g.results)
      (b.call g inputs oracle) := call_settles sound bound.length_eq.symm
    fun id n _ hn values good => evaluateNode_fills sound lists countable bound hn good
  constructor
  · intro fits
    obtain ⟨outs, must, filled⟩ := settles.1 fits
    refine ⟨outs, fun c s => ?_, ?_⟩
    · rw [Eval.runFrom, must (c, s)]
    · refine List.map_injective_iff.mpr (Option.some_injective _) ?_
      rw [← types, types_of_filled filled, List.map_map]
      rfl
  · intro full c s
    have fails := settles.2 full (c, s)
    rw [Eval.runFrom, fails]

/-- A plain input without batching fills its type. -/
theorem filled_of_plain {type : TensorType} {t : BatchedTensor} {data : List Float}
    (h : BatchedTensor.plain type 1 data = .ok t) : Filled type t := by
  obtain ⟨rfl, holds⟩ := BatchedTensor.holds_of_plain h
  have same := BatchedTensor.plain_one holds.sized holds.length
  exact ⟨data, Except.ok.inj (h.symm.trans same), holds.length⟩

/-- Inputs for the parameters of a graph: plain, without batching, and of the
types of the parameters. -/
def Supplies (g : Graph) (inputs : List BatchedTensor) : Prop :=
  List.Forall₂ (fun p t => ∃ type data, g.typeOf p = .ok type ∧
    BatchedTensor.plain type 1 data = .ok t) g.parameters inputs

theorem Supplies.filled (h : Supplies g inputs) :
    List.Forall₂ (FilledAt g) g.parameters inputs := by
  refine h.imp ?_
  rintro p t ⟨type, data, typed, made⟩
  exact ⟨type, Graph.type?_of_typeOf typed, filled_of_plain made⟩

/-- Normalization adds no tables, so what fits before fits after it. -/
theorem fitsMemory_of_edited {g' : Graph} (sound : g.Sound) (edited : Graph.Edited g g')
    (fits : g.FitsMemory) : g'.FitsMemory := by
  intro id n needed hn table
  have notAdded : n.kind.isAdded = false := by
    cases h : n.kind <;> rw [h] at table <;> first | rfl | exact nomatch table
  obtain ⟨inputs, before⟩ := edited.node sound hn notAdded
  have needed := edited.needed_of_kind sound.regular needed (Graph.kind?_of_node? hn) notAdded
  exact fits id { n with inputs } needed before table

/-- The results of a graph have types. -/
theorem exists_types (sound : g.Sound) : ∃ types : List TensorType,
    g.results.mapM g.typeOf = .ok types ∧ g.results.map g.type? = types.map some := by
  have each : ∀ r ∈ g.results, ∃ t, g.typeOf r = .ok t := by
    intro r hr
    obtain ⟨n, hn⟩ := Graph.isLive_iff.mp (sound.results r hr)
    exact ⟨n.type, Graph.typeOf_ok (Graph.type?_of_node? hn)⟩
  obtain ⟨types, eq, all⟩ := must_mapM (m := Except Graph.Error) fun r hr => by
    obtain ⟨t, ht⟩ := each r hr
    exact ⟨t, ht, Graph.type?_of_typeOf ht⟩
  refine ⟨types, eq, ?_⟩
  rw [← List.forall₂_eq_eq_eq, List.forall₂_map_left_iff, List.forall₂_map_right_iff]
  exact all

/-- Typed graphs do not go wrong. A graph that has been built, in which no
shape has an empty axis or more places than can be counted, is evaluated on
inputs for its parameters to results of the types that have been inferred, as
it is and when it has been normalized; unless a table does not fit into memory.
In no case is a value missing, or a tensor of another shape or size found. -/
theorem call_progress (built : g.Built)
    (countable : ∀ id n, g.node? id = some n → n.type.shape.Countable)
    (supplies : Supplies g inputs) (b : Backend) (oracle : Oracle σ ε) :
    ∃ compiled types, Normalize.compile g = .ok compiled ∧ g.results.mapM g.typeOf = .ok types ∧
      Progresses b oracle inputs types g ∧ Progresses b oracle inputs types compiled.graph ∧
      (g.FitsMemory → compiled.graph.FitsMemory) := by
  have sound := built.sound
  have lists := built.listsParameters
  obtain ⟨compiled, made, edited⟩ := Normalize.exists_compile sound
  have countable : ∀ i t, g.type? i = some t → t.shape.Countable := by
    intro i t ht
    obtain ⟨n, hn, rfl⟩ := Graph.type?_eq_some.mp ht
    exact countable i n hn
  have countable' : ∀ i t, compiled.graph.type? i = some t → t.shape.Countable := by
    intro i t ht
    obtain ⟨j, hj⟩ := edited.exists_type ht
    exact countable j t hj
  have bound := supplies.filled
  -- Parameters are never replaced, so the inputs fit those of the normalized graph.
  have bound' : List.Forall₂ (FilledAt compiled.graph) compiled.graph.parameters inputs := by
    rw [edited.parameters]
    refine List.forall₂_iff_get.mpr ⟨bound.length_eq, fun k hk hk' => ?_⟩
    obtain ⟨type, eq, filled⟩ := (List.forall₂_iff_get.mp bound).2 k hk hk'
    exact ⟨type, by rw [edited.type?_parameter sound (List.get_mem ..), eq], filled⟩
  obtain ⟨types, inferred, each⟩ := exists_types sound
  exact ⟨compiled, types, made, inferred, progresses sound lists countable bound each,
    progresses (edited.sound sound) (edited.listsParameters sound lists) countable' bound'
      (by rw [edited.types_results sound, each]), fitsMemory_of_edited sound edited⟩

/-- The average over the one window of a square that repeats a number. -/
def average (side : Nat) : Graph where
  nodes := [some ⟨.parameter 0, ⟨.f64, [1]⟩, [], 1⟩,
    some ⟨.broadcast, ⟨.f64, [1, 1, side, side]⟩, [0], 1⟩,
    some ⟨.averagePool (side, side) (1, 1), ⟨.f64, [1, 1, 1, 1]⟩, [1], 1⟩]
  parameters := [0]
  results := [2]

theorem average_cases {side : Nat} {P : Node → Prop}
    (parameter : P ⟨.parameter 0, ⟨.f64, [1]⟩, [], 1⟩)
    (broadcast : P ⟨.broadcast, ⟨.f64, [1, 1, side, side]⟩, [0], 1⟩)
    (averagePool : P ⟨.averagePool (side, side) (1, 1), ⟨.f64, [1, 1, 1, 1]⟩, [1], 1⟩)
    (id : NodeId) (n : Node) (hn : (average side).node? id = some n) : P n := by
  match id, hn with
  | 0, hn => exact Option.some.inj hn ▸ parameter
  | 1, hn => exact Option.some.inj hn ▸ broadcast
  | 2, hn => exact Option.some.inj hn ▸ averagePool
  | _ + 3, hn => exact nomatch hn

theorem supplies_average (side : Nat) : Supplies (average side) [flat ⟨.f64, [1]⟩ [0]] :=
  .cons ⟨⟨.f64, [1]⟩, [0], rfl, rfl⟩ .nil

theorem countable_average {side : Nat} (positive : 0 < side) (lt : side * side < wordSize)
    (id : NodeId) (n : Node) (hn : (average side).node? id = some n) :
    n.type.shape.Countable := by
  refine average_cases (P := fun n => n.type.shape.Countable) ?_ ?_ ?_ id n hn
  · exact ⟨by simp [Shape.IsPositive], by simp [wordSize]⟩
  · exact ⟨by simp [Shape.IsPositive, positive], by simpa using lt⟩
  · exact ⟨by simp [Shape.IsPositive], by simp [wordSize]⟩

theorem built_average_two : (average 2).Built :=
  .step (.addResult 2) (.step (.averagePool 1 (2, 2) (1, 1)) (.step (.broadcast 0 [1, 1, 2, 2])
    (.step (.parameter ⟨.f64, [1]⟩) .empty rfl) rfl) rfl) rfl

/-- Four equal numbers are averaged, on the graph as it is and normalized. -/
theorem call_progress_average :
    (average 2).Built ∧ (∀ id n, (average 2).node? id = some n → n.type.shape.Countable) ∧
      Supplies (average 2) [flat ⟨.f64, [1]⟩ [0]] ∧ (average 2).FitsMemory ∧
      ∃ compiled, Normalize.compile (average 2) = .ok compiled ∧
        ∀ g ∈ [average 2, compiled.graph], ∃ outs,
          (∀ c s, (keyless.call g [flat ⟨.f64, [1]⟩ [0]]
            (.ofScript : Oracle Run.Script Unit)).runFrom
            c s = (.ok outs, s)) ∧ outs.map (·.type) = [⟨.f64, [1, 1, 1, 1]⟩] := by
  have countable : ∀ id n, (average 2).node? id = some n → n.type.shape.Countable :=
    countable_average (by decide) (by decide)
  have fits : (average 2).FitsMemory := fun id n _ hn =>
    average_cases (P := Node.Fits) (fun _ => by decide) (fun _ => by decide) (fun _ => by decide)
      id n hn
  obtain ⟨compiled, types, made, inferred, run, run', stays⟩ := call_progress built_average_two
    countable (supplies_average 2) keyless (.ofScript : Oracle Run.Script Unit)
  obtain rfl : [⟨.f64, [1, 1, 1, 1]⟩] = types := Except.ok.inj inferred
  refine ⟨built_average_two, countable, supplies_average 2, fits, compiled, made, ?_⟩
  exact List.forall_mem_cons.mpr
    ⟨run.answers fits, List.forall_mem_singleton.mpr (run'.answers (stays fits))⟩

theorem built_average_wide : (average (2 ^ 30)).Built :=
  .step (.addResult 2) (.step (.averagePool 1 (2 ^ 30, 2 ^ 30) (1, 1))
    (.step (.broadcast 0 [1, 1, 2 ^ 30, 2 ^ 30]) (.step (.parameter ⟨.f64, [1]⟩) .empty rfl) rfl)
    rfl) rfl

/-- A square of `2 ^ 60` elements can be counted, but it cannot be held: there
the run is refused, though its result would be a single element. -/
theorem call_average_refused :
    (average (2 ^ 30)).Built ∧
      (∀ id n, (average (2 ^ 30)).node? id = some n → n.type.shape.Countable) ∧
      Supplies (average (2 ^ 30)) [flat ⟨.f64, [1]⟩ [0]] ∧
      ∀ c s, (keyless.call (average (2 ^ 30)) [flat ⟨.f64, [1]⟩ [0]]
        (.ofScript : Oracle Run.Script Unit)).runFrom c s = (.error (.problem outOfMemory), s) := by
  have countable : ∀ id n, (average (2 ^ 30)).node? id = some n → n.type.shape.Countable :=
    countable_average (by decide) (by decide)
  have full : ¬ (average (2 ^ 30)).FitsMemory := by
    intro fits
    have last : (average (2 ^ 30)).Needed 2 := .of_result List.mem_cons_self
    exact absurd (fits 1 _ (last.tail List.mem_cons_self) rfl rfl) (by decide)
  have run : Progresses keyless (.ofScript : Oracle Run.Script Unit) [flat ⟨.f64, [1]⟩ [0]]
      [⟨.f64, [1, 1, 1, 1]⟩] (average (2 ^ 30)) := by
    refine progresses built_average_wide.sound built_average_wide.listsParameters ?_
      (supplies_average _).filled rfl
    intro i t ht
    obtain ⟨n, hn, rfl⟩ := Graph.type?_eq_some.mp ht
    exact countable i n hn
  exact ⟨built_average_wide, countable, supplies_average _, run.refused full⟩

end Backend

end CipherFlow
