import CipherFlow.Proofs.Run.Lanes

/-!
# Tensor operations lane by lane

The output of a tensor operation on batched elements holds, in each lane, what
the operation computes from that lane of the operands: an entry at a place of
the packed output and the entry at the place of its lane in the whole output
read the same lanes. So the operation on single elements settles with the data
that the batched output holds.
-/

namespace CipherFlow

open CipherFlow.Element (Compute HasLane LaneOf single add multiply add_lane multiply_lane)
open CipherFlow.BatchedTensor (laneIndex)
open Answering Refusing

namespace Tensor

variable {α : Type} {item itemX itemY batch l p k cols : Nat} {ev : Evaluator}
  {xs ys out : List Element} {data data' : List Float}

/-! ## Element by element -/

/-- What an operation makes of the data at a place. -/
def ComputesAt (op : α → α → Compute α) (mk : Float → α) (data data' : List Float) (q : Nat)
    (w : Float) : Prop :=
  ∃ u v, data[q]? = some u ∧ data'[q]? = some v ∧ Must (op (mk u) (mk v)) (mk w)

/-- What is computed element by element is computed lane by lane. -/
theorem elementwise_lays {op : α → α → Compute α} {mk : Float → α} {Has : Nat → α → Float → Prop}
    {xs ys zs : List α}
    (hop : ∀ l x u, Has l x u → ∀ y v, Has l y v →
      Refines (fun z z' => ∃ w, z' = mk w ∧ Has l z w) (op x y) (op (mk u) (mk v)))
    (pos : 0 < item) (whole : item ∣ xs.length) (hx : Lays Has item batch xs data)
    (hy : Lays Has item batch ys data') (h : May (elementwise op xs ys) zs) :
    zs.length = xs.length ∧ ∃ out, Lays Has item batch zs out ∧
      Must (elementwise op (data.map mk) (data'.map mk)) (out.map mk) := by
  unfold elementwise at h
  split at h
  · obtain ⟨_, ⟨_, _, refused⟩, -⟩ := may_bind h
    exact nomatch refused
  · rename_i same
    have same : xs.length = ys.length := Classical.not_not.mp same
    have all := may_mapM h
    have length : zs.length = xs.length := by
      rw [← all.length_eq, List.length_zip, same, Nat.min_self]
    refine ⟨length, ?_⟩
    have each : ∀ p z, zs[p]? = some z → ∀ l < batch,
        ∃ w, Has l z w ∧ ComputesAt op mk data data' (laneIndex item batch p l) w := by
      intro p z hz l lt
      obtain ⟨⟨x, y⟩, hxy, may⟩ := getElem?_related (List.Forall₂.flip all) hz
      obtain ⟨foundX, foundY⟩ := List.getElem?_zip_eq_some.mp hxy
      obtain ⟨u, hu, hasX⟩ := hx.lane p x foundX l lt
      obtain ⟨v, hv, hasY⟩ := hy.lane p y foundY l lt
      obtain ⟨_, -, must, w, rfl, has⟩ := hop l x u hasX y v hasY z may
      exact ⟨w, has, u, v, hu, hv, must⟩
    obtain ⟨out, lays, values⟩ :=
      exists_lays (Q := ComputesAt op mk data data') pos (length ▸ whole) each
    refine ⟨out, lays, ?_⟩
    have lengths : (data.map mk).length = (data'.map mk).length := by
      simp [hx.length, hy.length, same]
    unfold elementwise
    rw [if_neg (not_not_intro lengths)]
    refine must_mapM_of_forall₂ (List.forall₂_iff_get.mpr ⟨?_, fun q hq hout => ?_⟩)
    · simp [hx.length, hy.length, lays.length, same, length]
    · have lt : q < zs.length * batch := by simpa [lays.length] using hout
      obtain ⟨w, hw, u, v, hu, hv, must⟩ := values q lt
      obtain ⟨_, eqU⟩ := List.getElem?_eq_some_iff.mp hu
      obtain ⟨_, eqV⟩ := List.getElem?_eq_some_iff.mp hv
      obtain ⟨_, eqW⟩ := List.getElem?_eq_some_iff.mp hw
      simpa [eqU, eqV, eqW] using must

/-! ## Reading elements -/

/-- A lane of an element that is read stands at the place of the lane. -/
theorem entryOf_lane (hx : Lays (HasLane batch) item batch xs data) (lt : l < batch) (i : Nat) :
    Refines (LaneOf batch l) (Fault.entryOf xs.toArray i)
      (Fault.entryOf (data.map single).toArray (laneIndex item batch i l)) := by
  intro e he
  have found : Fault.entryOf xs.toArray i = .ok e := he
  rw [Fault.entryOf_toArray, entry_eq_ok] at found
  obtain ⟨v, hv, has⟩ := hx.lane i e found l lt
  refine ⟨single v, he, ?_, v, rfl, has⟩
  show Fault.entryOf _ _ = _
  rw [Fault.entryOf_toArray, entry_eq_ok, List.getElem?_map, hv]
  rfl

/-- An element of an operand that is not batched stands for every lane. -/
theorem entryOf_shared (hy : Lays (HasLane 1) item 1 ys data) (batch l i : Nat) :
    Refines (LaneOf batch l) (Fault.entryOf ys.toArray i)
      (Fault.entryOf (data.map single).toArray i) := by
  intro e he
  obtain ⟨e', -, must, v, rfl, has⟩ := entryOf_lane hy Nat.one_pos i e he
  rw [BatchedTensor.laneIndex_one] at must
  obtain rfl := has.eq_single
  exact ⟨single v, he, must, Element.laneOf_single v⟩

/-! ## Entries -/

/-- An entry of a contraction sums over a row, and the row of its lane lies at
the places of that lane. -/
theorem dotEntry_lane (hx : Lays (HasLane batch) itemX batch xs data)
    (hy : Lays (HasLane 1) itemY 1 ys data') (lt : l < batch) {q : Nat}
    (row : ∀ t < k, q / cols * k + t = laneIndex itemX batch (p / cols * k + t) l)
    (column : 0 < k → q % cols = p % cols) :
    Refines (LaneOf batch l) (dotEntry (add ev) (multiply ev) xs ys k cols p)
      (dotEntry (add ev) (multiply ev) (data.map single) (data'.map single) k cols q) := by
  have places : List.Forall₂ (fun t t' => t = t' ∧ t < k) (List.range k) (List.range k) :=
    List.forall₂_same.mpr fun t ht => ⟨rfl, List.mem_range.mp ht⟩
  refine Refines.bind (liftFault_refines (Refines.mapM places ?_))
    fun pairs pairs' h => sumProducts_refines (add_lane ev batch l) (multiply_lane ev batch l) h
  rintro t _ ⟨rfl, ht⟩
  rw [row t ht, column (Nat.lt_of_le_of_lt (Nat.zero_le t) ht)]
  exact (entryOf_lane hx lt _).bind fun x x' hx => (entryOf_shared hy batch l _).bind
    fun y y' hy => .pure ⟨hx, hy⟩

/-! ## Images -/

/-- Images of which a batch is held by lanes. -/
def batched (batch : Nat) (i : Shape.Images) : Shape.Images :=
  { i with batch := i.batch * batch }

/-- The number of elements of an image. -/
def imageSize (i : Shape.Images) : Nat :=
  i.channels * i.height * i.width

variable {d f o : Shape.Images} {window strides : Nat × Nat} {n ch y x : Nat}

theorem imageCount_batched (batch : Nat) (i : Shape.Images) :
    imageCount (batched batch i) = imageCount i * batch := by
  simp only [imageCount, batched]
  ring

/-- An image is one of those of its group. -/
theorem imageIndex_batched (hch : ch < d.channels) (hy : y < d.height) (hx : x < d.width) :
    imageIndex (batched batch d) (n * batch + l) ch y x =
      laneIndex (imageSize d) batch (imageIndex d n ch y x) l := by
  have inside : (ch * d.height + y) * d.width + x < imageSize d :=
    Shape.mul_add_lt_mul (Shape.mul_add_lt_mul hch hy) hx
  have split : ∀ m, ((m * d.channels + ch) * d.height + y) * d.width + x =
      m * imageSize d + ((ch * d.height + y) * d.width + x) := by
    intro m
    rw [imageSize]
    ring
  simp only [imageIndex, batched]
  rw [split, split, BatchedTensor.laneIndex_add inside]

/-- The place of a lane is that of an image of the group, at the channel, row
and column of the element. -/
theorem imagePlace_laneIndex (lt : p < imageCount o) (batch l : Nat) :
    imagePlace (batched batch o) (laneIndex (imageSize o) batch p l) =
      ((imagePlace o p).1 * batch + l, (imagePlace o p).2) := by
  obtain ⟨-, hch, hy, hx⟩ := imagePlace_lt lt
  have channels : 0 < o.channels := Nat.lt_of_le_of_lt (Nat.zero_le _) hch
  have height : 0 < o.height := Nat.lt_of_le_of_lt (Nat.zero_le _) hy
  have width : 0 < o.width := Nat.lt_of_le_of_lt (Nat.zero_le _) hx
  have area : 0 < o.height * o.width := Nat.mul_pos height width
  have byArea : imageSize o = o.channels * (o.height * o.width) := Nat.mul_assoc ..
  have byRow : imageSize o = (o.channels * o.height) * o.width := rfl
  simp only [imagePlace, batched, Prod.mk.injEq]
  refine ⟨?_, ?_, ?_, ?_⟩
  · rw [byArea, BatchedTensor.laneIndex_mul_div area, BatchedTensor.laneIndex_div channels]
  · rw [byArea, BatchedTensor.laneIndex_mul_div area, BatchedTensor.laneIndex,
      Nat.mul_add_mod_of_lt (Nat.mod_lt _ channels)]
  · rw [byRow, BatchedTensor.laneIndex_mul_div width, BatchedTensor.laneIndex_mul_mod height]
  · rw [byRow, BatchedTensor.laneIndex_mul_mod width]

/-- An entry of a convolution reads windows of one image. -/
theorem convolutionEntry_lane (hx : Lays (HasLane batch) (imageSize d) batch xs data)
    (hy : Lays (HasLane 1) itemY 1 ys data') (lt : l < batch) (hp : p < imageCount o)
    (rows : Shape.windowCount d.height f.height strides.1 = .ok o.height)
    (columns : Shape.windowCount d.width f.width strides.2 = .ok o.width) :
    Refines (LaneOf batch l) (convolutionEntry (add ev) (multiply ev) xs ys d f o strides p)
      (convolutionEntry (add ev) (multiply ev) (data.map single) (data'.map single)
        (batched batch d) f (batched batch o) strides (laneIndex (imageSize o) batch p l)) := by
  obtain ⟨-, -, hoy, hox⟩ := imagePlace_lt hp
  unfold convolutionEntry
  rw [imagePlace_laneIndex hp]
  have places : List.Forall₂
      (fun k k' => k = k' ∧ k.1 < d.channels ∧ k.2.1 < f.height ∧ k.2.2 < f.width)
      ((List.range d.channels).flatMap fun ch =>
        (windowOffsets (f.height, f.width)).map fun k => (ch, k))
      ((List.range d.channels).flatMap fun ch =>
        (windowOffsets (f.height, f.width)).map fun k => (ch, k)) :=
    List.forall₂_same.mpr fun k hk => ⟨rfl, mem_filterPlaces.mp hk⟩
  refine Refines.bind (liftFault_refines (Refines.mapM places ?_))
    fun pairs pairs' h => sumProducts_refines (add_lane ev batch l) (multiply_lane ev batch l) h
  rintro ⟨ch, ky, kx⟩ _ ⟨rfl, hch, hky, hkx⟩
  dsimp only [imagePlace] at hch hky hkx ⊢
  rw [imageIndex_batched hch (Shape.window_lt rows hoy hky) (Shape.window_lt columns hox hkx)]
  exact (entryOf_lane hx lt _).bind fun x x' hx => (entryOf_shared hy batch l _).bind
    fun y y' hy => .pure ⟨hx, hy⟩

/-- So does an average. -/
theorem windowEntry_lane (hx : Lays (HasLane batch) (imageSize d) batch xs data)
    (lt : l < batch) (hp : p < imageCount o) (channels : o.channels = d.channels)
    (rows : Shape.windowCount d.height window.1 strides.1 = .ok o.height)
    (columns : Shape.windowCount d.width window.2 strides.2 = .ok o.width) (factor : Float) :
    Refines (LaneOf batch l)
      (windowEntry (add ev) (multiply ev) (single factor) xs d o window strides p)
      (windowEntry (add ev) (multiply ev) (single factor) (data.map single) (batched batch d)
        (batched batch o) window strides (laneIndex (imageSize o) batch p l)) := by
  obtain ⟨-, hch, hoy, hox⟩ := imagePlace_lt hp
  unfold windowEntry
  rw [imagePlace_laneIndex hp]
  have places : List.Forall₂ (fun k k' => k = k' ∧ k.1 < window.1 ∧ k.2 < window.2)
      (windowOffsets window) (windowOffsets window) :=
    List.forall₂_same.mpr fun k hk => ⟨rfl, mem_windowOffsets.mp hk⟩
  refine Refines.bind (R := List.Forall₂ (LaneOf batch l))
    (liftFault_refines (Refines.mapM places ?_)) ?_
  · rintro ⟨ky, kx⟩ _ ⟨rfl, hky, hkx⟩
    dsimp only [imagePlace] at hky hkx ⊢
    rw [imageIndex_batched (channels ▸ hch) (Shape.window_lt rows hoy hky)
      (Shape.window_lt columns hox hkx)]
    exact entryOf_lane hx lt _
  · exact fun es es' h => (sumElements_refines (add_lane ev batch l) h).bind fun e e' he =>
      multiply_lane ev batch l _ _ he _ _ (Element.laneOf_single factor)

/-! ## Tables -/

/-- A table of entries of which each holds, in every lane, the entry at the
place of the lane. -/
theorem tabulate_lays {entry entry' : Nat → Compute Element} {count : Nat} (pos : 0 < item)
    (whole : item ∣ count) (h : May (tabulate count entry) out)
    (each : ∀ p < count, ∀ l < batch,
      Refines (LaneOf batch l) (entry p) (entry' (laneIndex item batch p l))) :
    Settles (Fits (count * batch)) outOfMemory
      (fun out' => ∃ data, out' = data.map single ∧ Lays (HasLane batch) item batch out data)
      (tabulate (count * batch) entry') := by
  obtain ⟨length, all⟩ := may_tabulate h
  have lanes : ∀ p e, out[p]? = some e → ∀ l < batch,
      ∃ v, HasLane batch l e v ∧ Must (entry' (laneIndex item batch p l)) (single v) := by
    intro p e he l lt
    have hp : p < count := length ▸ (List.getElem?_eq_some_iff.mp he).1
    obtain ⟨e', he', may⟩ := all p hp
    obtain rfl := Option.some.inj (he.symm.trans he')
    obtain ⟨_, -, must, v, rfl, has⟩ := each p hp l lt e may
    exact ⟨v, has, must⟩
  obtain ⟨data, lays, values⟩ :=
    exists_lays (Q := fun q v => Must (entry' q) (single v)) pos (length.symm ▸ whole) lanes
  rw [length] at values
  have places : ∀ q < count * batch, ∃ e, Must (entry' q) e ∧
      ∃ v, data[q]? = some v ∧ e = single v := by
    intro q lt
    obtain ⟨v, hv, must⟩ := values q lt
    exact ⟨single v, must, v, hv, rfl⟩
  have table := tabulate_settles (Q := fun q e => ∃ v, data[q]? = some v ∧ e = single v) places
  refine table.mono fun out' ⟨length', all'⟩ => ⟨data, ?_, lays⟩
  refine List.ext_getElem? fun q => ?_
  rcases Nat.lt_or_ge q (count * batch) with lt | ge
  · have found := List.getElem?_eq_getElem (l := out') (length'.symm ▸ lt)
    obtain ⟨v, hv, eq⟩ := all' q _ found
    rw [found, List.getElem?_map, hv, eq]
    rfl
  · rw [List.getElem?_eq_none (length'.symm ▸ ge), List.getElem?_eq_none]
    rw [List.length_map, lays.length, length]
    exact ge

end Tensor

end CipherFlow
