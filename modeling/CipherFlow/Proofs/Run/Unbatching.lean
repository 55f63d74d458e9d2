import CipherFlow.Proofs.Graph.Inference
import CipherFlow.Proofs.Normalize.Compiled
import CipherFlow.Proofs.Run.Holding
import CipherFlow.Proofs.Run.Nodes
import CipherFlow.Proofs.Run.Preservation

/-!
# Batching changes no results

Whatever a graph without repetitions computes from batched plain tensors it
computes from the same data without batching. Each operation on batched
tensors has its output hold, lane by lane, what it makes of the data that the
operands hold, so the run without batching goes along node by node. It may
need more room: a tensor of single lanes has more elements than one whose
elements hold several lanes each.

Main statement: `Backend.call_unbatched`.

How the proof goes. `Unpacks` relates an outcome without batching to one with it, by
what the lanes hold. There is a lemma for each operation, and a last one for all of
them (`operate_unpacks`). Tables are filled entry by entry, and each entry reads a
row or a window of one lane, so a lane of the batched table is a run of entries of
the other. Along the order of evaluation the two runs keep in step
(`settles_unbatched`).
-/

namespace CipherFlow

open CipherFlow.Element (Compute HasLane LaneOf single add multiply add_lane multiply_lane)
open CipherFlow.Run (Problem Eval Oracle Sampling require sample)
open CipherFlow.BatchedTensor (Holds Packs flat itemSize laneIndex)
open Answering Refusing

/-! ## Packed images

Batches of images are packed along their first axis. Shapes of windows and sizes of
items are then those of a single image, and only the number of images differs. -/

namespace BatchedTensor

variable {batch : Nat} {packed : Shape} {d : Shape.Images}

/-- Images are packed along their batch. -/
theorem Packs.exists_batched (packs : Packs batch d.shape packed) :
    ∃ d₀, d = Tensor.batched batch d₀ ∧ packed = d₀.shape := by
  obtain ⟨n, c, h, w⟩ := d
  cases packs with
  | axis m rest => exact ⟨⟨m, c, h, w⟩, rfl, rfl⟩

theorem windowImages_batched {channels m : Nat} {input window strides : Nat × Nat}
    {o : Shape.Images}
    (h : Shape.windowImages (m * batch) channels input window strides = .ok o) :
    ∃ o₀, o = Tensor.batched batch o₀ ∧
      Shape.windowImages m channels input window strides = .ok o₀ := by
  obtain ⟨height, hh, h⟩ := exists_of_bind_eq_ok h
  obtain ⟨width, hw, h⟩ := exists_of_bind_eq_ok h
  obtain rfl := Except.ok.inj h
  exact ⟨⟨m, channels, height, width⟩, rfl, by rw [Shape.windowImages, hh, hw]; rfl⟩

/-- The items of a shape that is not empty are its inner axes. -/
theorem itemSize_eq {n : Nat} {rest : Shape} (sized : (Shape.size? (n :: rest)).isSome)
    (pos : 0 < (n :: rest).prod) : itemSize (n :: rest) = rest.prod := by
  rw [List.prod_cons] at pos
  have inner : 0 < rest.prod := Nat.pos_of_mul_pos_left pos
  rw [itemSize, List.tail_cons,
    Shape.size_eq_prod (Shape.isSome_size?_tail sized (Nat.pos_of_mul_pos_right pos)),
    Nat.max_eq_left inner]

theorem itemSize_images {d₀ : Shape.Images} (sized : (Tensor.batched batch d₀).shape.size?.isSome)
    (pos : 0 < Tensor.imageCount (Tensor.batched batch d₀)) :
    itemSize (Tensor.batched batch d₀).shape = Tensor.imageSize d₀ := by
  rw [Tensor.imageCount_eq_prod] at pos
  rw [Shape.Images.shape] at sized pos ⊢
  rw [itemSize_eq sized pos]
  simp [Tensor.batched, Tensor.imageSize, Nat.mul_assoc]

/-- Images hold data image by image, also where there are none. -/
theorem lays_images {d₀ : Shape.Images} {xs : List Element} {data : List Float}
    (sized : (Tensor.batched batch d₀).shape.size?.isSome) (wide : 0 < batch)
    (count : xs.length = Tensor.imageCount d₀)
    (lays : Lays (HasLane batch) (itemSize (Tensor.batched batch d₀).shape) batch xs data) :
    Lays (HasLane batch) (Tensor.imageSize d₀) batch xs data := by
  rcases Nat.eq_zero_or_pos (Tensor.imageCount d₀) with zero | pos
  · obtain rfl := List.length_eq_zero_iff.mp (count.trans zero)
    exact ⟨lays.length, fun p x hx => nomatch hx⟩
  · rwa [itemSize_images sized (by rw [Tensor.imageCount_batched]; exact Nat.mul_pos pos wide)]
      at lays

end BatchedTensor

namespace Tensor

variable {α : Type} {add mul : α → α → Compute α} {a b out : List α}

/-- What a contraction has been accepted for. -/
theorem exists_of_may_dot {aShape bShape : Shape}
    (h : May (dot add mul a aShape b bShape) out) : ∃ (lead : Shape) (k : Nat) (rest : Shape),
      aShape = lead ++ [k] ∧ bShape = k :: rest := by
  obtain ⟨_, -, h₁⟩ := may_bind h
  obtain ⟨_, -, h₂⟩ := may_bind h₁
  split at h₂
  · rename_i k k' rest last
    split at h₂
    · obtain ⟨_, ⟨_, _, refused⟩, -⟩ := may_bind h₂
      exact nomatch refused
    · rename_i same
      rw [← Classical.not_not.mp same]
      exact ⟨_, k, rest, (List.dropLast_append_getLast? k last).symm, rfl⟩
  · obtain ⟨_, _, refused⟩ := h₂
    exact nomatch refused

/-- The size of the windows that have been summed fits a word. -/
theorem area_of_may_windowSums {inverse : Nat → α} {shape : Shape} {window strides : Nat × Nat}
    (h : May (windowSums add mul inverse a shape window strides) out) :
    window.1 * window.2 < wordSize := by
  obtain ⟨_, -, h⟩ := may_bind h
  obtain ⟨_, -, h⟩ := may_bind h
  obtain ⟨_, -, h⟩ := may_bind h
  obtain ⟨area, counted, -⟩ := may_bind h
  have counted := eq_ok_of_may_fault counted
  unfold Fault.checkSize at counted
  split at counted
  · assumption
  · exact nomatch counted

end Tensor

namespace Backend

variable {σ ε : Type} {ev : Evaluator} {x y t u : BatchedTensor} {dx dy data : List Float}
  {out : Batched} {type : TensorType} {packed : Shape} {strides window : Nat × Nat}

/-- An outcome without batching is made of the data that an outcome with
batching holds. -/
def Unpacks (shape : Shape) (out out' : Batched) : Prop :=
  ∃ data, out' = (1, data.map single) ∧ Lays (HasLane out.1) (itemSize shape) out.1 out.2 data

/-! ## Element by element -/

theorem commonBatch_flat (tx ty : TensorType) :
    commonBatch (flat tx dx) (flat ty dy) = .ok 1 := rfl

theorem eq_of_commonBatch {batch : Nat} (h : commonBatch x y = .ok batch) :
    x.batch = y.batch ∧ batch = x.batch := by
  unfold commonBatch at h
  split at h
  · exact ⟨‹_›, (Except.ok.inj h).symm⟩
  · exact nomatch h

/-- Sums and products of elements at the same places. -/
theorem elementwise_unpacks {op : Element → Element → Compute Element}
    (hop : ∀ l, Tensor.Respects (LaneOf x.batch l) op op) (hx : x.Holds dx) (hy : y.Holds dy)
    (types : y.type = x.type)
    (h : May (do
      let batch ← commonBatch x y
      let out ← Tensor.elementwise op x.values y.values
      return (batch, out) : Sampling Batched) out) :
    ∃ out', Must (do
      let batch ← commonBatch (flat x.type dx) (flat y.type dy)
      let out ← Tensor.elementwise op (flat x.type dx).values (flat y.type dy).values
      return (batch, out) : Sampling Batched) out' ∧ Unpacks x.type.shape out out' := by
  obtain ⟨batch, hbatch, h⟩ := may_bind h
  obtain ⟨same, rfl⟩ := eq_of_commonBatch (eq_ok_of_may_lift hbatch)
  obtain ⟨zs, hzs, h⟩ := may_bind h
  obtain rfl := may_pure h
  have lays := hy.lays
  rw [types, ← same] at lays
  have each : ∀ l e u, HasLane x.batch l e u → ∀ e' v, HasLane x.batch l e' v →
      Refines (fun z z' => ∃ w, z' = single w ∧ HasLane x.batch l z w)
        (op e e') (op (single u) (single v)) :=
    fun l e u he e' v he' => hop l e _ ⟨u, rfl, he⟩ e' _ ⟨v, rfl, he'⟩
  obtain ⟨-, data, all, must⟩ := Tensor.elementwise_lays each (BatchedTensor.itemSize_pos _)
    hx.whole hx.lays lays (may_of_may_withError hzs)
  exact ⟨(1, data.map single), must_bind (must_lift (commonBatch_flat _ _))
    (must_bind (must_withError must _) (must_pure _)), data, rfl, all⟩

theorem sum_unpacks (hx : x.Holds dx) (hy : y.Holds dy) (types : y.type = x.type)
    (h : May (sum ev x y) out) : ∃ out', Must (sum ev (flat x.type dx) (flat y.type dy)) out' ∧
      Unpacks x.type.shape out out' :=
  elementwise_unpacks (add_lane ev x.batch) hx hy types h

theorem product_unpacks (hx : x.Holds dx) (hy : y.Holds dy) (types : y.type = x.type)
    (h : May (product ev x y) out) :
    ∃ out', Must (product ev (flat x.type dx) (flat y.type dy)) out' ∧
      Unpacks x.type.shape out out' :=
  elementwise_unpacks (multiply_lane ev x.batch) hx hy types h

/-- Minima are taken lane by lane. -/
theorem minimum_unpacks (hx : x.Holds dx) (hy : y.Holds dy) (types : y.type = x.type)
    (h : May (minimum x y) out) :
    ∃ out', Must (minimum (flat x.type dx) (flat y.type dy)) out' ∧
      Unpacks x.type.shape out out' := by
  obtain ⟨xs, ex, laysX⟩ := hx.exists_lanes
  obtain ⟨ys, ey, laysY⟩ := hy.exists_lanes
  unfold minimum at h ⊢
  rw [ex, ey, mapM_plainLanes, mapM_plainLanes] at h
  rw [BatchedTensor.values_flat, BatchedTensor.values_flat, mapM_plainLanes, mapM_plainLanes]
  obtain ⟨batch, hbatch, h⟩ := may_bind h
  obtain ⟨same, rfl⟩ := eq_of_commonBatch (eq_ok_of_may_lift hbatch)
  obtain ⟨zs, hzs, h⟩ := may_bind h
  obtain rfl := may_pure h
  rw [types, ← same] at laysY
  have whole : itemSize x.type.shape ∣ xs.length := by
    have whole := hx.whole
    rwa [ex, List.length_map] at whole
  have each : ∀ l (e : List Float) (u : Float), Lanes.Has x.batch l e u →
      ∀ (e' : List Float) (v : Float), Lanes.Has x.batch l e' v →
      Refines (fun z z' => ∃ w, z' = [w] ∧ Lanes.Has x.batch l z w)
        (Lanes.zipWith Nonlinear.minNumber e e' : Compute (List Float))
        (Lanes.zipWith Nonlinear.minNumber [u] [v] : Compute (List Float)) :=
    fun l e u he e' v he' => Tensor.liftFault_refines (Element.zipWith_refines he he')
  obtain ⟨-, data, all, must⟩ := Tensor.elementwise_lays each
    (BatchedTensor.itemSize_pos _) whole laysX laysY (may_of_may_withError hzs)
  refine ⟨(1, (data.map fun v => [v]).map .plain), must_bind (must_lift (commonBatch_flat _ _))
    (must_bind (must_withError must _) (must_pure _)), data, ?_, ?_⟩
  · rw [List.map_map]
    rfl
  · have plain : ∀ l (e : List Float) v, Lanes.Has x.batch l e v →
        HasLane x.batch l (.plain e) (id v) := fun l e v has => .plain has
    have lays := all.map plain
    rwa [List.map_id] at lays

/-- A nonlinear function is applied lane by lane. -/
theorem nonlinear_unpacks (oracle : Oracle σ ε) (f : Nonlinear) (hx : x.Holds dx)
    (h : May (nonlinear oracle f x) out) :
    ∃ out', Must (nonlinear oracle f (flat x.type dx)) out' ∧ Unpacks x.type.shape out out' := by
  obtain ⟨xs, ex, lays⟩ := hx.exists_lanes
  rw [nonlinear_plain oracle f ex] at h
  rw [nonlinear_plain oracle f (BatchedTensor.values_flat x.type dx)]
  obtain rfl := may_pure h
  refine ⟨_, must_pure _, dx.map f.apply, ?_, ?_⟩
  · rw [List.map_map, List.map_map]
    rfl
  · exact lays.map fun l lanes v has => .plain (has.map f.apply)

/-- Rescaling leaves plain elements as they are. -/
theorem rescale_unpacks (hx : x.Holds dx) (h : May (rescale ev x) out) :
    ∃ out', Must (rescale ev (flat x.type dx)) out' ∧ Unpacks x.type.shape out out' := by
  obtain ⟨c, c', h⟩ := h
  obtain rfl : (x.batch, x.values) = out :=
    congrArg Prod.fst (Except.ok.inj ((must_rescale hx.agree c).symm.trans h))
  have single := BatchedTensor.holds_flat hx.sized hx.length
  exact ⟨_, must_rescale single.agree, dx, rfl, hx.lays⟩

/-! ## Tables

A table with batching is short: it has one entry where the one without has a lane
for each item of the batch. So the latter may not fit into memory, which is the only
way in which it can fail. All of this is said by `Settles`, and `unpacks_of_settles`
brings the count of entries into its form. -/

theorem eq_of_leadingBatch {batch : Nat} (h : leadingBatch x y = .ok batch) :
    y.batch = 1 ∧ batch = x.batch := by
  unfold leadingBatch at h
  split at h
  · exact ⟨‹_›, (Except.ok.inj h).symm⟩
  · exact nomatch h

/-- A table without batching, of as many entries as the whole shape has. -/
theorem unpacks_of_settles {shape : Shape} {batch count : Nat} {values : List Element}
    {compute : Compute (List Element)} (packs : Packs batch shape packed)
    (length : values.length = packed.prod) (counted : values.length = count)
    (h : Settles (Tensor.Fits (count * batch)) Tensor.outOfMemory
      (fun out' => ∃ data, out' = data.map single ∧
        Lays (HasLane batch) (itemSize shape) batch values data) compute) :
    Settles (Tensor.Fits shape.prod) outOfMemory (Unpacks shape (batch, values)) (do
      let out ← compute
      return (1, out) : Sampling Batched) := by
  rw [packs.prod_eq, ← length, counted]
  refine (h.withError Problem.element).bind ?_
  rintro _ ⟨data, rfl, lays⟩
  exact ⟨_, must_pure _, data, rfl, lays⟩

/-- The rows of a contraction: either the operand has further axes, or its
only axis is not batched or empty. -/
theorem dot_row {batch k p l t : Nat} {lead rest : Shape}
    (packs : Packs batch (lead ++ [k]) packed) (last : packed.getLast? = some k)
    (sized : (Shape.size? (lead ++ rest)).isSome) (sizedX : (Shape.size? (lead ++ [k])).isSome)
    (pos : 0 < (lead ++ rest).prod) (lt : l < batch) (ht : t < k) :
    laneIndex (itemSize (lead ++ rest)) batch p l / rest.prod * k + t =
        laneIndex (itemSize (lead ++ [k])) batch (p / rest.prod * k + t) l ∧
      laneIndex (itemSize (lead ++ rest)) batch p l % rest.prod = p % rest.prod := by
  have cols : 0 < rest.prod := by
    rw [List.prod_append] at pos
    exact Nat.pos_of_mul_pos_left pos
  cases lead with
  -- The batch would be along the axis that is summed over. That is refused, but for a batch of
  -- one.
  | nil =>
    generalize eq : [] ++ [k] = shape at packs
    cases packs with
    | scalar => exact nomatch eq
    | axis m tail wide =>
      obtain ⟨rfl, rfl⟩ := List.cons.inj eq
      have same : m = m * batch := Option.some.inj last
      obtain rfl : batch = 1 :=
        Nat.eq_of_mul_eq_mul_left (by omega : 0 < m) (same.symm.trans (Nat.mul_one m).symm)
      obtain rfl : l = 0 := Nat.lt_one_iff.mp lt
      simp only [BatchedTensor.laneIndex_one, and_self]
  | cons n mid =>
    have posX : 0 < (n :: mid ++ [k]).prod := by
      rw [List.prod_append] at pos ⊢
      exact Nat.mul_pos (Nat.pos_of_mul_pos_right pos) (by simp; omega)
    rw [List.cons_append] at sized sizedX pos posX ⊢
    rw [List.cons_append, BatchedTensor.itemSize_eq sized pos,
      BatchedTensor.itemSize_eq sizedX posX, List.prod_append, List.prod_append,
      List.prod_singleton]
    exact ⟨BatchedTensor.laneIndex_row cols ht .., BatchedTensor.laneIndex_mul_mod cols ..⟩

/-- A table of sums over rows, each entry of which reads a row of one lane. -/
theorem rows_settles {batch k item : Nat} {lead lead' rest : Shape} {a b values : List Element}
    (wide : 0 < batch) (sized : (Shape.size? (lead ++ rest)).isSome)
    (sizedX : (Shape.size? (lead ++ [k])).isSome) (packs : Packs batch (lead ++ rest) packed)
    (packsX : Packs batch (lead ++ [k]) (lead' ++ [k])) (length : values.length = packed.prod)
    (laysX : Lays (HasLane batch) (itemSize (lead ++ [k])) batch a dx)
    (laysY : Lays (HasLane 1) item 1 b dy)
    (h : May (Tensor.tabulate (lead'.size * rest.size)
      (Tensor.dotEntry (add ev) (multiply ev) a b k rest.size)) values) :
    Settles (Tensor.Fits (lead ++ rest).prod) outOfMemory (Unpacks (lead ++ rest) (batch, values))
      (do
        let out ← Tensor.tabulate (lead.size * rest.size)
          (Tensor.dotEntry (add ev) (multiply ev) (dx.map single) (dy.map single) k rest.size)
        return (1, out) : Sampling Batched) := by
  have counted := (Tensor.may_tabulate h).1
  have same : lead.size * rest.size = lead'.size * rest.size * batch := by
    rw [← counted, length, ← packs.prod_eq, Shape.size_mul_size sized]
  rw [same]
  refine unpacks_of_settles packs length counted ?_
  refine Tensor.tabulate_lays (BatchedTensor.itemSize_pos _) ?_ h fun p hp l lt => ?_
  · rw [← counted, length]
    exact BatchedTensor.itemSize_dvd packs sized
  · -- Where there is an entry no remaining axis is empty, so the columns can be counted.
    have pos : 0 < (lead ++ rest).prod := by
      rw [packs.prod_eq, ← length, counted]
      exact Nat.mul_pos (Nat.lt_of_le_of_lt (Nat.zero_le p) hp) wide
    have columns : rest.size = rest.prod := Shape.size_eq_prod
      (Shape.isSome_size?_append_right sized (by
        rw [List.prod_append] at pos
        exact Nat.pos_of_mul_pos_right pos))
    rw [columns]
    have row := fun t (ht : t < k) =>
      dot_row (p := p) packsX List.getLast?_concat sized sizedX pos lt ht
    exact Tensor.dotEntry_lane laysX laysY lt (fun t ht => (row t ht).1)
      fun some => (row 0 some).2

/-- A contraction sums over rows of one lane. -/
theorem dot_unpacks (hx : x.Holds dx) (hy : y.Holds dy)
    (typed : TensorType.dot x.type y.type = .ok type)
    (sized : type.shape.size?.isSome) (packs : Packs out.1 type.shape packed)
    (length : out.2.length = packed.prod) (h : May (dot ev x y) out) :
    Settles (Tensor.Fits type.shape.prod) outOfMemory (Unpacks type.shape out)
      (dot ev (flat x.type dx) (flat y.type dy)) := by
  obtain ⟨lead, k, rest, sx, sy, rfl⟩ := TensorType.dot_eq_ok typed
  obtain ⟨batch, hbatch, h⟩ := may_bind h
  obtain ⟨one, rfl⟩ := eq_of_leadingBatch (eq_ok_of_may_lift hbatch)
  obtain ⟨values, hvalues, h⟩ := may_bind h
  obtain rfl := may_pure h
  have hvalues : May (Tensor.dot (add ev) (multiply ev) x.values x.packedShape y.values
    y.type.shape) values := may_of_may_withError hvalues
  obtain ⟨packedX, packsX, countX⟩ := hx.packs
  have sizedX := hx.sized
  have sizedY := hy.sized
  have laysX := hx.lays
  have laysY := hy.lays
  rw [packsX.packedShape, sy] at hvalues
  rw [sx] at packsX sizedX laysX
  rw [sy] at sizedY
  rw [one] at laysY
  obtain ⟨lead', k', rest', rfl, eq⟩ := Tensor.exists_of_may_dot hvalues
  obtain ⟨rfl, rfl⟩ := List.cons.inj eq
  have countY : y.values.length = Shape.size (k :: rest) := by
    rw [Shape.size_eq_prod sizedY, ← sy, ← hy.length, hy.lays.length, one, Nat.mul_one]
  rw [Tensor.dot_eq (by rw [countX, Shape.size_eq_prod (packsX.isSome_size? sizedX)]) countY]
    at hvalues
  -- Both contractions are tables of rows by now, with and without batching.
  have settles := rows_settles hx.pos sized sizedX packs packsX length laysX laysY hvalues
  rw [← Tensor.dot_eq (by rw [List.length_map, hx.length, sx, Shape.size_eq_prod sizedX])
    (by rw [List.length_map, hy.length, sy, Shape.size_eq_prod sizedY])] at settles
  refine .after (a := 1) (must_lift rfl) ?_
  show Settles _ _ _ (do
    let out ← Element.dot ev (dx.map single) (flat x.type dx).packedShape (dy.map single)
      y.type.shape
    return (1, out) : Sampling Batched)
  rw [BatchedTensor.packedShape_flat, sx, sy]
  exact settles

/-- A table of images, each entry of which reads images of one lane. -/
theorem images_settles {o₀ : Shape.Images} {batch : Nat} {values : List Element}
    {entry entry' : Nat → Compute Element} (wide : 0 < batch)
    (sized : (Tensor.batched batch o₀).shape.size?.isSome)
    (packs : Packs batch (Tensor.batched batch o₀).shape packed)
    (length : values.length = packed.prod)
    (h : May (Tensor.tabulate (Tensor.imageCount o₀) entry) values)
    (each : ∀ p < Tensor.imageCount o₀, ∀ l < batch,
      Refines (LaneOf batch l) (entry p) (entry' (laneIndex (Tensor.imageSize o₀) batch p l))) :
    Settles (Tensor.Fits (Tensor.batched batch o₀).shape.prod) outOfMemory
      (Unpacks (Tensor.batched batch o₀).shape (batch, values)) (do
        let out ← Tensor.tabulate (Tensor.imageCount (Tensor.batched batch o₀)) entry'
        return (1, out) : Sampling Batched) := by
  have counted := (Tensor.may_tabulate h).1
  rw [Tensor.imageCount_batched]
  refine unpacks_of_settles packs length counted ?_
  refine Tensor.tabulate_lays (BatchedTensor.itemSize_pos _) ?_ h fun p hp l lt => ?_
  · rw [← counted, length]
    exact BatchedTensor.itemSize_dvd packs sized
  · have some : 0 < Tensor.imageCount (Tensor.batched batch o₀) := by
      rw [Tensor.imageCount_batched]
      exact Nat.mul_pos (Nat.lt_of_le_of_lt (Nat.zero_le p) hp) wide
    rw [BatchedTensor.itemSize_images sized some]
    exact each p hp l lt

/-- The images of an operand, packed and not. -/
theorem Holds.exists_images {d : Shape.Images} (hx : x.Holds dx) (shape : x.type.shape = d.shape) :
    ∃ d₀, d = Tensor.batched x.batch d₀ ∧ x.packedShape = d₀.shape ∧
      x.values.length = d₀.shape.size ∧ dx.length = d.shape.size ∧
      Lays (HasLane x.batch) (Tensor.imageSize d₀) x.batch x.values dx := by
  obtain ⟨packed, packs, count⟩ := hx.packs
  have whole := packs.packedShape
  have sized := hx.sized
  have lays := hx.lays
  have length := hx.length
  rw [shape] at packs sized lays length
  obtain ⟨d₀, rfl, rfl⟩ := packs.exists_batched
  have size := Shape.size_eq_prod (packs.isSome_size? sized)
  rw [← Shape.size_eq_prod sized] at length
  refine ⟨d₀, rfl, whole, count.trans size.symm, length, ?_⟩
  exact BatchedTensor.lays_images sized hx.pos
    (count.trans (Tensor.imageCount_eq_prod d₀).symm) lays

/-- A convolution sums over windows of the images of one lane. -/
theorem convolution_unpacks (hx : x.Holds dx) (hy : y.Holds dy)
    (typed : TensorType.convolution strides x.type y.type = .ok type)
    (sized : type.shape.size?.isSome) (packs : Packs out.1 type.shape packed)
    (length : out.2.length = packed.prod) (h : May (convolution ev strides x y) out) :
    Settles (Tensor.Fits type.shape.prod) outOfMemory (Unpacks type.shape out)
      (convolution ev strides (flat x.type dx) (flat y.type dy)) := by
  obtain ⟨d, f, o, sx, sy, channels, windows, rfl⟩ := TensorType.convolution_eq_ok typed
  obtain ⟨batch, hbatch, h⟩ := may_bind h
  obtain ⟨one, rfl⟩ := eq_of_leadingBatch (eq_ok_of_may_lift hbatch)
  obtain ⟨values, hvalues, h⟩ := may_bind h
  obtain rfl := may_pure h
  have hvalues : May (Tensor.convolution (add ev) (multiply ev) x.values x.packedShape y.values
    y.type.shape strides) values := may_of_may_withError hvalues
  obtain ⟨d₀, rfl, packedX, countX, lengthX, laysX⟩ := Holds.exists_images hx sx
  obtain ⟨o₀, rfl, windows₀⟩ := BatchedTensor.windowImages_batched windows
  have lengthY : dy.length = f.shape.size := by
    rw [hy.length, ← Shape.size_eq_prod hy.sized, sy]
  have countY : y.values.length = f.shape.size := by
    rw [← lengthY, hy.lays.length, one, Nat.mul_one]
  have laysY := hy.lays
  rw [one] at laysY
  rw [packedX, sy, Tensor.convolution_eq (d := d₀) channels windows₀ countX countY] at hvalues
  obtain ⟨-, -, rows, columns⟩ := Shape.windowImages_eq_ok windows₀
  have settles := images_settles hx.pos sized packs length hvalues fun p hp l lt =>
    Tensor.convolutionEntry_lane laysX laysY lt hp rows columns
  rw [← Tensor.convolution_eq channels windows (by rw [List.length_map, lengthX])
    (by rw [List.length_map, lengthY])] at settles
  refine .after (a := 1) (must_lift rfl) ?_
  show Settles _ _ _ (do
    let out ← Element.convolution ev (dx.map single) (flat x.type dx).packedShape (dy.map single)
      y.type.shape strides
    return (1, out) : Sampling Batched)
  rw [BatchedTensor.packedShape_flat, sx, sy]
  exact settles

/-- So does an average. -/
theorem averagePool_unpacks (hx : x.Holds dx)
    (typed : TensorType.averagePool window strides x.type = .ok type)
    (sized : type.shape.size?.isSome) (packs : Packs out.1 type.shape packed)
    (length : out.2.length = packed.prod) (h : May (averagePool ev window strides x) out) :
    Settles (Tensor.Fits type.shape.prod) outOfMemory (Unpacks type.shape out)
      (averagePool ev window strides (flat x.type dx)) := by
  obtain ⟨d, o, sx, windows, rfl⟩ := TensorType.averagePool_eq_ok typed
  obtain ⟨values, hvalues, h⟩ := may_bind h
  obtain rfl := may_pure h
  have hvalues : May (Tensor.windowSums (add ev) (multiply ev)
    (fun area => single (1 / Float.ofNat area)) x.values x.packedShape window strides) values :=
    may_of_may_withError hvalues
  have area := Tensor.area_of_may_windowSums hvalues
  obtain ⟨d₀, rfl, packedX, countX, lengthX, laysX⟩ := Holds.exists_images hx sx
  obtain ⟨o₀, rfl, windows₀⟩ := BatchedTensor.windowImages_batched windows
  rw [packedX, Tensor.windowSums_eq (d := d₀) _ windows₀ area countX] at hvalues
  obtain ⟨-, channels, rows, columns⟩ := Shape.windowImages_eq_ok windows₀
  have settles := images_settles hx.pos sized packs length hvalues fun p hp l lt =>
    Tensor.windowEntry_lane laysX lt hp channels rows columns _
  rw [← Tensor.windowSums_eq (fun area => single (1 / Float.ofNat area)) windows area
    (by rw [List.length_map, lengthX])] at settles
  show Settles _ _ _ (do
    let out ← Element.averagePool ev (dx.map single) (flat x.type dx).packedShape window strides
    return (1, out) : Sampling Batched)
  rw [BatchedTensor.packedShape_flat, sx]
  exact settles

/-! ## Nodes -/

/-- The tensor without batching of the data that a tensor holds. -/
def Unbatched (t u : BatchedTensor) : Prop :=
  ∃ data, t.Holds data ∧ u = flat t.type data

variable {b : Backend} {oracle : Oracle σ ε} {n : Node} {xs ys : List BatchedTensor}
  {ts : List TensorType} {g : Graph} {values : Values} {inputs singles : List BatchedTensor}

/-- Each operation makes without batching what it makes with batching. -/
theorem operate_unpacks (gives : n.op.Gives (xs.map (·.type)) n.type)
    (noBroadcast : n.kind ≠ .broadcast) (computed : n.kind ≠ .parameter)
    (related : List.Forall₂ Unbatched xs ys) (h : May (b.operate oracle n xs) out)
    (made : BatchedTensor.ofValues n.type out.1 out.2 = .ok t) :
    Settles n.Fits (.problem outOfMemory) (Unpacks n.type.shape out) (b.operate oracle n ys) := by
  obtain ⟨sized, ⟨packed, packs, length⟩, -⟩ := BatchedTensor.ofValues_eq_ok_iff.mp made
  rw [Shape.size_eq_prod (packs.isSome_size? sized)] at length
  unfold operate at h ⊢
  cases op : n.op <;> rw [op] at gives h
  -- By operation. Those that set a table aside settle by `settles_of_table`, the others without
  -- room.
  case parameter => exact absurd (congrArg Op.kind op) computed
  case broadcast => exact absurd (congrArg Op.kind op) noBroadcast
  case constant v =>
    cases related with
    | nil =>
      obtain rfl := may_pure h
      refine Node.settles_of_must (by rw [Node.kind, op]; rfl) ⟨_, must_pure _, v, rfl, ?_⟩
      have whole : v.length = n.type.shape.prod := by
        rw [show v.length = n.type.shape.size from gives, Shape.size_eq_prod sized]
      exact (BatchedTensor.holds_flat sized whole).lays
    | cons _ _ => exact gives.elim
  case relu | boundedRelu =>
    rcases related with _ | ⟨⟨dx, hx, rfl⟩, _ | ⟨_, _⟩⟩ <;> simp only [List.map, Op.Gives] at gives
    refine Node.settles_of_must (by rw [Node.kind, op]; rfl) ?_
    rw [gives]
    exact nonlinear_unpacks oracle _ hx h
  case rescale =>
    rcases related with _ | ⟨⟨dx, hx, rfl⟩, _ | ⟨_, _⟩⟩ <;> simp only [List.map, Op.Gives] at gives
    refine Node.settles_of_sample (by rw [Node.kind, op]; rfl) ?_
    rw [gives]
    exact rescale_unpacks hx (may_of_may_sample h)
  case averagePool window strides =>
    rcases related with _ | ⟨⟨dx, hx, rfl⟩, _ | ⟨_, _⟩⟩ <;> simp only [List.map, Op.Gives] at gives
    exact Node.settles_of_table (by rw [Node.kind, op]; rfl)
      (averagePool_unpacks hx gives sized packs length (may_of_may_sample h))
  case add =>
    rcases related with _ | ⟨⟨dx, hx, rfl⟩, _ | ⟨⟨dy, hy, rfl⟩, _ | ⟨_, _⟩⟩⟩ <;>
      simp only [List.map, Op.Gives] at gives
    obtain ⟨tx, ty⟩ := Graph.eq_of_elementwise gives
    refine Node.settles_of_sample (by rw [Node.kind, op]; rfl) ?_
    rw [← tx]
    exact sum_unpacks hx hy (ty.trans tx.symm) (may_of_may_sample h)
  case multiply =>
    rcases related with _ | ⟨⟨dx, hx, rfl⟩, _ | ⟨⟨dy, hy, rfl⟩, _ | ⟨_, _⟩⟩⟩ <;>
      simp only [List.map, Op.Gives] at gives
    obtain ⟨tx, ty⟩ := Graph.eq_of_elementwise gives
    refine Node.settles_of_sample (by rw [Node.kind, op]; rfl) ?_
    rw [← tx]
    exact product_unpacks hx hy (ty.trans tx.symm) (may_of_may_sample h)
  case minimum =>
    rcases related with _ | ⟨⟨dx, hx, rfl⟩, _ | ⟨⟨dy, hy, rfl⟩, _ | ⟨_, _⟩⟩⟩ <;>
      simp only [List.map, Op.Gives] at gives
    obtain ⟨tx, ty⟩ := Graph.eq_of_elementwise gives
    refine Node.settles_of_sample (by rw [Node.kind, op]; rfl) ?_
    rw [← tx]
    exact minimum_unpacks hx hy (ty.trans tx.symm) (may_of_may_sample h)
  case dot =>
    rcases related with _ | ⟨⟨dx, hx, rfl⟩, _ | ⟨⟨dy, hy, rfl⟩, _ | ⟨_, _⟩⟩⟩ <;>
      simp only [List.map, Op.Gives] at gives
    exact Node.settles_of_table (by rw [Node.kind, op]; rfl)
      (dot_unpacks hx hy gives sized packs length (may_of_may_sample h))
  case convolution strides =>
    rcases related with _ | ⟨⟨dx, hx, rfl⟩, _ | ⟨⟨dy, hy, rfl⟩, _ | ⟨_, _⟩⟩⟩ <;>
      simp only [List.map, Op.Gives] at gives
    exact Node.settles_of_table (by rw [Node.kind, op]; rfl)
      (convolution_unpacks hx hy gives sized packs length (may_of_may_sample h))

/-! ## Runs -/

/-- Operands whose types are known have the types that an operation is given. -/
theorem map_type_eq {ids : List NodeId} (types : ids.map g.type? = ts.map some)
    (h : List.Forall₂ (fun i x => g.type? i = some (BatchedTensor.type x)) ids xs) :
    xs.map (·.type) = ts := by
  refine List.map_injective_iff.mpr (Option.some_injective _) ?_
  rw [← types, List.map_map, eq_comm, ← List.forall₂_eq_eq_eq, List.forall₂_map_left_iff,
    List.forall₂_map_right_iff]
  exact h

/-- A parameter is bound to the tensor without batching. -/
theorem evaluateNode_parameter_unbatched {index : Nat} (op : n.op = .parameter index)
    (related : List.Forall₂ Unbatched inputs singles) (found : inputs[index]? = some t)
    (type : t.type = n.type) :
    ∃ u, Must (b.evaluateNode oracle singles n values) u ∧ Unbatched t u := by
  obtain ⟨u, hu, unbatched⟩ := Tensor.getElem?_related related found
  have same : u.type = n.type := by
    obtain ⟨data, -, rfl⟩ := unbatched
    exact type
  rw [evaluateNode_parameter op]
  exact ⟨u, must_require (bindParameter_eq_ok.mpr ⟨hu, same⟩), unbatched⟩

/-- What a node has been evaluated to with batching, it settles to without. -/
theorem evaluateNode_unbatched {values' : Values} (gives : n.op.Gives (xs.map (·.type)) n.type)
    (noBroadcast : n.kind ≠ .broadcast) (computed : n.kind ≠ .parameter)
    (related : List.Forall₂ Unbatched xs ys) (operands : Operands values' n ys)
    (h : May (b.operate oracle n xs) out)
    (made : BatchedTensor.ofValues n.type out.1 out.2 = .ok t) :
    Settles n.Fits (.problem outOfMemory) (Unbatched t)
      (b.evaluateNode oracle singles n values') := by
  have arity : ys.length = (xs.map (·.type)).length := by
    rw [List.length_map, related.length_eq]
  rw [evaluateNode_eq gives arity operands computed]
  refine (operate_unpacks gives noBroadcast computed related h made).bind ?_
  rintro _ ⟨data, rfl, lays⟩
  obtain ⟨type, holds⟩ := BatchedTensor.holds_of_made made lays
  refine ⟨flat n.type data, must_require (BatchedTensor.ofValues_flat ?_ ?_), data, holds, ?_⟩
  · exact type ▸ holds.sized
  · exact type ▸ holds.length
  · rw [type]

/-- Operands have values without batching, next to those that a run with
batching has found. -/
theorem exists_unbatched {final values' : Values} {ids : List NodeId}
    (found : List.Forall₂ (fun i x => final.lookup i = some x) ids xs)
    (good : ∀ i ∈ ids, ∃ u, values'.lookup i = some u ∧
      ∃ t, final.lookup i = some t ∧ Unbatched t u) :
    ∃ ys, List.Forall₂ (fun i y => values'.lookup i = some y) ids ys ∧
      List.Forall₂ Unbatched xs ys := by
  induction found with
  | nil => exact ⟨[], .nil, .nil⟩
  | cons hx _ ih =>
    obtain ⟨u, hu, t, ht, unbatched⟩ := good _ List.mem_cons_self
    obtain rfl := Option.some.inj (hx.symm.trans ht)
    obtain ⟨ys, all, related⟩ := ih fun j hj => good j (List.mem_cons_of_mem _ hj)
    exact ⟨u :: ys, .cons hu all, .cons unbatched related⟩

/-- One node: the operands that it had with batching have tensors without. -/
theorem settles_evaluated (sound : g.Sound) (noBroadcast : n.kind ≠ .broadcast)
    (related : List.Forall₂ Unbatched inputs singles) {final values' : Values} {id : NodeId}
    (needed : g.Needed id) (hn : g.node? id = some n)
    (evaluated : ∀ i, g.Needed i → Evaluated b oracle inputs g final i)
    (good : OperandsGood (fun i u => ∃ t, final.lookup i = some t ∧ Unbatched t u) values' n) :
    Settles n.Fits (.problem outOfMemory)
      (fun u => ∃ t, final.lookup id = some t ∧ Unbatched t u)
      (b.evaluateNode oracle singles n values') := by
  have typeOf : ∀ i, g.Needed i → ∀ x, final.lookup i = some x → g.type? i = some x.type := by
    intro i hi x hx
    obtain ⟨m, t, _, hm, ht, -, -, may⟩ := evaluated i hi
    obtain rfl := Option.some.inj (hx.symm.trans ht)
    rw [Graph.type?_of_node? hm, type_of_may may]
  obtain ⟨m, t, values, hm, ht, kept, -, may⟩ := evaluated id needed
  obtain rfl := Option.some.inj (hn.symm.trans hm)
  -- The node has been evaluated with batching, so it was a parameter or its operands had
  -- values.
  rcases may_evaluateNode (sound.typed id n hn) may with
    ⟨index, op, found, type⟩ | ⟨computed, xs, out, operands, hout, made⟩
  · obtain ⟨u, must, unbatched⟩ := evaluateNode_parameter_unbatched op related found type
    exact Node.settles_of_must (by rw [Node.kind, op]; rfl) ⟨u, must, t, ht, unbatched⟩
  · have found : List.Forall₂ (fun i x => final.lookup i = some x) n.inputs xs :=
      operands.imp fun i x hx => kept i x hx
    have typed : List.Forall₂ (fun i x => g.type? i = some (BatchedTensor.type x)) n.inputs xs := by
      refine List.forall₂_iff_get.mpr ⟨found.length_eq, fun k hi hx => ?_⟩
      have mem : n.inputs.get ⟨k, hi⟩ ∈ g.inputs id := by
        rw [Graph.inputs_of_node? hn]
        exact List.get_mem ..
      exact typeOf _ (needed.tail mem) _ ((List.forall₂_iff_get.mp found).2 k hi hx)
    obtain ⟨ts, types, gives⟩ := (sound.typed id n hn).types
    rw [← map_type_eq types typed] at gives
    obtain ⟨ys, operands', unbatched⟩ := exists_unbatched found good
    exact (evaluateNode_unbatched gives noBroadcast computed unbatched operands' hout made).mono
      fun u hu => ⟨t, ht, hu⟩

/-- A run on batched tensors, and the run on the same data without batching. -/
theorem settles_unbatched (sound : g.Sound)
    (noBroadcast : ∀ id n, g.node? id = some n → n.kind ≠ .broadcast)
    (related : List.Forall₂ Unbatched inputs singles) {outs : List BatchedTensor}
    (h : May (b.call g inputs oracle) outs) :
    Settles g.FitsMemory (.problem outOfMemory) (List.Forall₂ Unbatched outs)
      (b.call g singles oracle) := by
  have plain : ∀ t ∈ inputs, t.Agree t := by
    intro t ht
    obtain ⟨i, lt, rfl⟩ := List.mem_iff_getElem.mp ht
    obtain ⟨u, -, data, holds, -⟩ :=
      Tensor.getElem?_related related (List.getElem?_eq_getElem lt)
    exact holds.agree
  obtain ⟨ids, eq, order⟩ := sound.order
  unfold call at h
  split at h
  · obtain ⟨_, ⟨_, _, h⟩, -⟩ := may_bind h
    exact nomatch congrArg Prod.fst h
  · rename_i count
    obtain ⟨ids', hids, h⟩ := may_bind h
    obtain ⟨final, hfinal, results⟩ := may_bind h
    obtain rfl : ids = ids' := by
      have hids := eq_ok_of_may_require hids
      rw [eq] at hids
      exact Except.ok.inj hids
    -- The run with batching is over, so the values of all its nodes are known.
    have evaluated := (evaluateNodes_may plain hfinal order.nodup (fun _ _ => rfl)
      fun _ _ found => nomatch found).2
    refine (call_settles sound (related.length_eq ▸ Classical.not_not.mp count)
      fun id n needed hn values' good =>
        settles_evaluated sound (noBroadcast id n hn) related needed
        hn (fun i hi => evaluated i ((order.mem_iff i).mpr hi)) good).mono fun outs' good => ?_
    have values := mapM_eq_ok_iff.mp (eq_ok_of_may_require results)
    refine List.forall₂_iff_get.mpr ⟨values.length_eq.symm.trans good.length_eq, fun k hk hk' => ?_⟩
    have lt : k < g.results.length := values.length_eq ▸ hk
    obtain ⟨t, ht, unbatched⟩ := (List.forall₂_iff_get.mp good).2 k lt hk'
    have found := value_eq_ok.mp ((List.forall₂_iff_get.mp values).2 k lt hk)
    rwa [Option.some.inj (found.symm.trans ht)]

/-- Row-major data for an input, and the batch size with which it is held. -/
structure Source where
  type : TensorType
  batch : Nat
  data : List Float

/-- The plain tensor of the data. -/
def Source.tensor (s : Source) : Except Problem BatchedTensor :=
  BatchedTensor.plain s.type s.batch s.data

/-- The same data without batching. -/
def Source.unbatched (s : Source) : Source :=
  { s with batch := 1 }

/-- Two tensors of one type have the same values read back, one for each place
of the shape, unless these do not fit into memory. -/
def ReadAlike (b : Backend) (t u : BatchedTensor) : Prop :=
  u.type = t.type ∧ ∃ values : List Float, values.length = t.type.shape.prod ∧
    (b.read t = do
      Fault.reserve 8 t.type.shape.size
      return values) ∧
    (b.read u = do
      Fault.reserve 8 t.type.shape.size
      return values)

theorem readAlike_of_unbatched (h : Unbatched t u) : ReadAlike b t u := by
  obtain ⟨data, holds, rfl⟩ := h
  exact ⟨rfl, data, holds.length, BatchedTensor.read_of_holds holds,
    BatchedTensor.read_of_holds (BatchedTensor.holds_flat holds.sized holds.length)⟩

theorem exists_singles {sources : List Source} (made : sources.mapM Source.tensor = .ok inputs) :
    ∃ singles, (sources.map Source.unbatched).mapM Source.tensor = .ok singles ∧
      List.Forall₂ Unbatched inputs singles := by
  rw [mapM_eq_ok_iff] at made
  induction made with
  | nil => exact ⟨[], rfl, .nil⟩
  | @cons s t sources inputs hs _ ih =>
    obtain ⟨singles, eq, related⟩ := ih
    obtain ⟨type, holds⟩ := BatchedTensor.holds_of_plain hs
    have single : s.unbatched.tensor = .ok (flat s.type s.data) :=
      BatchedTensor.plain_one (type ▸ holds.sized) (type ▸ holds.length)
    refine ⟨flat s.type s.data :: singles, ?_, .cons ⟨s.data, holds, by rw [type]⟩ related⟩
    rw [List.map_cons, List.mapM_cons, single, eq]
    rfl

/-- Whatever a graph without repetitions computes from batched plain tensors,
it computes from the same data without batching, and the results have the same
values. Only memory may be exhausted first, exactly if the elements of a tensor
that is set aside as a whole do not fit. The lanes of the batched tensor, which
take a sixth of this, would then fill more than `2 ^ 60` bytes. -/
theorem call_unbatched (prepared : g.Prepared)
    (noBroadcast : ∀ id n, g.node? id = some n → n.kind ≠ .broadcast) (b : Backend)
    (oracle : Oracle σ ε) {sources : List Source} {outs : List BatchedTensor} {c : Coins} {s s' : σ}
    (made : sources.mapM Source.tensor = .ok inputs)
    (run : (b.call g inputs oracle).runFrom c s = (.ok outs, s')) :
    ∃ singles, (sources.map Source.unbatched).mapM Source.tensor = .ok singles ∧
      (g.FitsMemory → ∃ outs', (∀ c s, (b.call g singles oracle).runFrom c s = (.ok outs', s)) ∧
        List.Forall₂ (ReadAlike b) outs outs') ∧
      (¬ g.FitsMemory → ∀ c s,
        (b.call g singles oracle).runFrom c s = (.error (.problem outOfMemory), s)) := by
  obtain ⟨singles, eq, related⟩ := exists_singles made
  obtain ⟨settles, exhausted⟩ :=
    settles_unbatched prepared.sound noBroadcast related (may_of_runFrom run)
  refine ⟨singles, eq, fun fits => ?_, fun full c s => ?_⟩
  · obtain ⟨outs', must, unbatched⟩ := settles fits
    refine ⟨outs', fun c s => ?_, unbatched.imp fun t u => readAlike_of_unbatched⟩
    rw [Eval.runFrom, must (c, s)]
  · have fails := exhausted full (c, s)
    rw [Eval.runFrom, fails]

/-- The sums over the rows of a matrix. -/
def rowSums : Graph where
  nodes := [some ⟨.parameter 0, ⟨.f64, [2, 2]⟩, [], 1⟩, some ⟨.constant [1, 1], ⟨.f64, [2]⟩, [], 1⟩,
    some ⟨.dot, ⟨.f64, [2]⟩, [0, 1], 1⟩]
  parameters := [0]
  results := [2]

theorem built_rowSums : rowSums.Built :=
  .step (.addResult 2) (.step (.dot 0 1) (.step (.constant ⟨.f64, [2]⟩ [1, 1])
    (.step (.parameter ⟨.f64, [2, 2]⟩) .empty rfl) rfl) rfl) rfl

theorem rowSums_cases {P : Node → Prop} (parameter : P ⟨.parameter 0, ⟨.f64, [2, 2]⟩, [], 1⟩)
    (constant : P ⟨.constant [1, 1], ⟨.f64, [2]⟩, [], 1⟩) (dot : P ⟨.dot, ⟨.f64, [2]⟩, [0, 1], 1⟩)
    (id : NodeId) (n : Node) (hn : rowSums.node? id = some n) : P n := by
  match id, hn with
  | 0, hn => exact Option.some.inj hn ▸ parameter
  | 1, hn => exact Option.some.inj hn ▸ constant
  | 2, hn => exact Option.some.inj hn ▸ dot
  | _ + 3, hn => exact nomatch hn

theorem fitsMemory_rowSums : rowSums.FitsMemory :=
  fun id n _ hn => rowSums_cases (P := Node.Fits) (fun _ => by decide) (fun _ => by decide)
    (fun _ => by decide) id n hn

/-- Two rows in one batch. -/
def rowsSource : Source :=
  ⟨⟨.f64, [2, 2]⟩, 2, [1.0, 2.0, 3.0, 4.0]⟩

/-- The rows as lanes of the elements of one. -/
def rowsTensor : BatchedTensor :=
  ⟨⟨.f64, [2, 2]⟩, 2, [.plain [1.0, 3.0], .plain [2.0, 4.0]]⟩

theorem call_rowSums :
    (keyless.call rowSums [rowsTensor] (.ofScript : Oracle Run.Script Unit)).runFrom
      default ⟨[], []⟩ = (.ok [⟨⟨.f64, [2]⟩, 2, [.plain [3.0, 7.0]]⟩], ⟨[], []⟩) := by
  have order : rowSums.order = .ok [0, 1, 2] := by cbv
  unfold call
  rw [order]
  rfl

/-- Both sums are computed in the lanes of one element, and one by one. -/
theorem call_unbatched_rowSums :
    rowSums.Prepared ∧ (∀ id n, rowSums.node? id = some n → n.kind ≠ .broadcast) ∧
      [rowsSource].mapM Source.tensor = .ok [rowsTensor] ∧
      (keyless.call rowSums [rowsTensor] (.ofScript : Oracle Run.Script Unit)).runFrom
        default ⟨[], []⟩ = (.ok [⟨⟨.f64, [2]⟩, 2, [.plain [3.0, 7.0]]⟩], ⟨[], []⟩) ∧
      ∃ singles outs', [rowsSource.unbatched].mapM Source.tensor = .ok singles ∧
        (∀ c s, (keyless.call rowSums singles (.ofScript : Oracle Run.Script Unit)).runFrom c s =
          (.ok outs', s)) ∧
        List.Forall₂ (ReadAlike keyless) [⟨⟨.f64, [2]⟩, 2, [.plain [3.0, 7.0]]⟩] outs' := by
  have noBroadcast : ∀ id n, rowSums.node? id = some n → n.kind ≠ .broadcast :=
    rowSums_cases (by decide) (by decide) (by decide)
  have made : [rowsSource].mapM Source.tensor = .ok [rowsTensor] := by rfl
  obtain ⟨singles, single, whole, -⟩ :=
    call_unbatched (.built built_rowSums) noBroadcast keyless .ofScript made call_rowSums
  obtain ⟨outs', run, alike⟩ := whole fitsMemory_rowSums
  exact ⟨.built built_rowSums, noBroadcast, made, call_rowSums, singles, outs', single, run, alike⟩

end Backend

end CipherFlow
