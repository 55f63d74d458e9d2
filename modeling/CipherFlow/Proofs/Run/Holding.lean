import CipherFlow.Proofs.Run.LaneByLane

/-!
# Tensors that hold data

A plain tensor of any batch size holds row-major data in its lanes, which is
what is read back. Without batching the tensor is determined by the data.
-/

namespace CipherFlow

open CipherFlow.Element (HasLane single)
open CipherFlow.Run (Problem)

namespace BatchedTensor

variable {t u : BatchedTensor} {type : TensorType} {batch : Nat} {data : List Float}
  {values : List Element} {shape packed : Shape}

/-- The plain tensor of row-major data without batching. -/
def flat (type : TensorType) (data : List Float) : BatchedTensor :=
  ⟨type, 1, data.map single⟩

/-- A tensor holds row-major data in its lanes. -/
structure Holds (t : BatchedTensor) (data : List Float) : Prop where
  sized : t.type.shape.size?.isSome
  packs : ∃ packed, Packs t.batch t.type.shape packed ∧ t.values.length = packed.prod
  lays : Lays (HasLane t.batch) (itemSize t.type.shape) t.batch t.values data

/-! ## Elements

That a tensor holds data says where each lane stands in the data. From this follow
the number of lanes, that the elements are plain, and what they are read as. -/

theorem Packs.of_one (shape : Shape) : Packs 1 shape shape :=
  pack_eq_ok_iff.mp (if_pos rfl)

theorem Holds.pos (h : t.Holds data) : 0 < t.batch := by
  obtain ⟨packed, packs, -⟩ := h.packs
  exact packs.pos

theorem Holds.length (h : t.Holds data) : data.length = t.type.shape.prod := by
  obtain ⟨packed, packs, count⟩ := h.packs
  rw [h.lays.length, count, packs.prod_eq]

theorem Holds.whole (h : t.Holds data) : itemSize t.type.shape ∣ t.values.length := by
  obtain ⟨packed, packs, count⟩ := h.packs
  exact count ▸ itemSize_dvd packs h.sized

/-- Elements that hold data are plain. -/
theorem Holds.exists_lanes (h : t.Holds data) : ∃ lanes : List (List Float),
    t.values = lanes.map .plain ∧
      Lays (Lanes.Has t.batch) (itemSize t.type.shape) t.batch lanes data := by
  have each : ∀ e ∈ t.values, ∃ xs, e = .plain xs := by
    intro e he
    obtain ⟨p, lt, rfl⟩ := List.mem_iff_getElem.mp he
    -- Its first lane stands somewhere, and an encrypted element has no lanes.
    obtain ⟨v, -, has⟩ := h.lays.lane p _ (List.getElem?_eq_getElem lt) 0 h.pos
    cases eq : t.values[p] with
    | plain xs => exact ⟨xs, rfl⟩
    | cipher c =>
      rw [eq] at has
      exact nomatch has
  obtain ⟨lanes, all⟩ : ∃ lanes : List (List Float), t.values = lanes.map .plain := by
    generalize t.values = es at each
    induction es with
    | nil => exact ⟨[], rfl⟩
    | cons e es ih =>
      obtain ⟨xs, rfl⟩ := each e List.mem_cons_self
      obtain ⟨lanes, rfl⟩ := ih fun e he => each e (List.mem_cons_of_mem _ he)
      exact ⟨xs :: lanes, rfl⟩
  refine ⟨lanes, all, by rw [h.lays.length, all, List.length_map], fun p xs hxs l lt => ?_⟩
  obtain ⟨v, hv, has⟩ := h.lays.lane p (.plain xs) (by rw [all, List.getElem?_map, hxs]; rfl) l lt
  cases has with
  | plain has => exact ⟨v, hv, has⟩

theorem Holds.agree (h : t.Holds data) : t.Agree t := by
  obtain ⟨lanes, eq, -⟩ := h.exists_lanes
  refine ⟨rfl, rfl, List.forall₂_same.mpr fun e he => ?_⟩
  rw [eq] at he
  obtain ⟨xs, -, rfl⟩ := List.mem_map.mp he
  exact Element.agree_plain xs

/-! ## Tensors without batching -/

theorem packedShape_flat (type : TensorType) (data : List Float) :
    (flat type data).packedShape = type.shape :=
  (Packs.of_one type.shape).packedShape (t := flat type data)

theorem values_flat (type : TensorType) (data : List Float) :
    (flat type data).values = (data.map fun x => [x]).map .plain := by
  rw [List.map_map]
  rfl

/-- Without batching each datum is an element. -/
theorem holds_flat (sized : type.shape.size?.isSome) (length : data.length = type.shape.prod) :
    (flat type data).Holds data where
  sized
  packs := ⟨type.shape, .of_one type.shape, by rw [flat, List.length_map, length]⟩
  lays := by
    refine ⟨by simp [flat], fun p e he l lt => ?_⟩
    obtain rfl : l = 0 := Nat.lt_one_iff.mp lt
    obtain ⟨v, hv, rfl⟩ := Option.map_eq_some_iff.mp (List.getElem?_map (f := single) ▸ he)
    have place : laneIndex (itemSize type.shape) 1 p 0 = p := laneIndex_one _ p
    exact ⟨v, place.symm ▸ hv, .plain Lanes.has_single⟩

/-- Data that fill a shape make up a tensor. -/
theorem ofValues_flat (sized : type.shape.size?.isSome) (length : data.length = type.shape.prod) :
    ofValues type 1 (data.map single) = .ok (flat type data) :=
  ofValues_eq_ok_iff.mpr ⟨sized, ⟨type.shape, .of_one type.shape, by
    rw [List.length_map, length, Shape.size_eq_prod sized]⟩, rfl⟩

/-- A tensor that is made of elements that hold data. -/
theorem holds_of_made (made : ofValues type batch values = .ok t)
    (lays : Lays (HasLane batch) (itemSize type.shape) batch values data) :
    t.type = type ∧ t.Holds data := by
  obtain ⟨sized, ⟨packed, packs, count⟩, rfl⟩ := ofValues_eq_ok_iff.mp made
  rw [Shape.size_eq_prod (packs.isSome_size? sized)] at count
  exact ⟨rfl, sized, ⟨packed, packs, count⟩, lays⟩

/-! ## Input -/

/-- A plain tensor holds its data. -/
theorem holds_of_plain (h : plain type batch data = .ok t) : t.type = type ∧ t.Holds data := by
  obtain ⟨lanes, grouped, made⟩ := exists_of_bind_eq_ok h
  obtain ⟨length, packed, packs, count, each⟩ := exists_of_groupLanes grouped
  obtain ⟨sized, -, -⟩ := ofValues_eq_ok_iff.mp made
  refine holds_of_made made ⟨?_, fun p e he l lt => ?_⟩
  · rw [length, List.length_map, count, Shape.size_eq_prod sized,
      Shape.size_eq_prod (packs.isSome_size? sized), packs.prod_eq]
  · rw [List.getElem?_map] at he
    obtain ⟨xs, hxs, rfl⟩ := Option.map_eq_some_iff.mp he
    have hp : p < packed.size := count ▸ (List.getElem?_eq_some_iff.mp hxs).1
    obtain ⟨ys, hys, width, items⟩ := each p hp
    obtain rfl := Option.some.inj (hxs.symm.trans hys)
    obtain ⟨x, hx, datum⟩ := items l lt
    exact ⟨x, datum, .plain ⟨.inl width, lane_eq_ok hx⟩⟩

/-- Data that fill a shape make a tensor without batching. -/
theorem plain_one (sized : type.shape.size?.isSome) (length : data.length = type.shape.prod) :
    plain type 1 data = .ok (flat type data) := by
  have count : data.length = type.shape.size := by rw [length, Shape.size_eq_prod sized]
  have lanes : groupLanes data type.shape 1 = .ok (data.map fun x => [x]) := by
    unfold groupLanes
    rw [if_neg (not_not_intro count), pack_eq_ok_iff.mpr (.of_one type.shape)]
    refine mapM_eq_ok_iff.mpr (List.forall₂_iff_get.mpr ⟨by simp [count], fun p hp _ => ?_⟩)
    have lt : p < data.length := by simpa [count] using hp
    have entry : Fault.entryOf data.toArray (laneIndex (itemSize type.shape) 1 p 0) =
        .ok data[p] := by
      rw [laneIndex_one, Fault.entryOf_toArray, Tensor.entry_eq_ok, List.getElem?_eq_getElem lt]
    simp only [List.get_eq_getElem, List.getElem_range, List.getElem_map, List.range_one,
      List.mapM_cons, List.mapM_nil, entry]
    rfl
  unfold plain
  rw [lanes]
  show ofValues type 1 ((data.map fun x => [x]).map .plain) = _
  rw [← values_flat type data]
  exact ofValues_flat sized length

/-! ## Reading -/

/-- An element whose lanes stand at places of the data is opened to these
lanes, as far as they fit into memory. -/
theorem openElement_lanes {ctx : Context} {key : Option SecretKey} {e : Element} {p : Nat}
    (wide : 0 < batch) (each : ∀ l < batch, ∃ v,
      data[laneIndex (itemSize shape) batch p l]? = some v ∧ e.HasLane batch l v) :
    ∃ vs : List Float, vs.length = batch ∧
      (∀ l < batch, vs[l]? = data[laneIndex (itemSize shape) batch p l]?) ∧
      openElement ctx key batch e = (do
        Fault.reserve 8 batch
        return vs) := by
  cases e with
  | cipher c =>
    obtain ⟨v, -, has⟩ := each 0 wide
    exact nomatch has
  | plain xs =>
    obtain ⟨vs, length, all⟩ := exists_list each
    have lanes : (List.range batch).mapM (fun l => (Lanes.lane xs l : Except Problem Float)) =
        .ok vs := by
      refine mapM_eq_ok_iff.mpr (List.forall₂_iff_get.mpr ⟨by simp [length], fun l hl _ => ?_⟩)
      have lt : l < batch := by simpa using hl
      obtain ⟨v, hv, -, has⟩ := all l lt
      obtain ⟨_, eq⟩ := List.getElem?_eq_some_iff.mp hv
      cases has with
      | plain has => simp [eq, has.lane, liftM, monadLift, MonadLift.monadLift, Except.mapError]
    refine ⟨vs, length, fun l lt => ?_, ?_⟩
    · obtain ⟨v, hv, datum, -⟩ := all l lt
      rw [hv, datum]
    · rw [openElement, lanes]
      rfl

/-- The lanes of all elements, each where it stands in the data, are spread to
the data. -/
theorem spreadLanes_of_holds (h : t.Holds data) {lanes : List (List Float)}
    (length : lanes.length = t.values.length)
    (all : ∀ p vs, lanes[p]? = some vs → ∀ l < t.batch,
      vs[l]? = data[laneIndex (itemSize t.type.shape) t.batch p l]?) :
    spreadLanes lanes t.type.shape t.batch = data := by
  have size : t.type.shape.size = t.type.shape.prod := Shape.size_eq_prod h.sized
  refine List.ext_getElem? fun place => ?_
  rcases Nat.lt_or_ge place data.length with lt | ge
  · -- Inside, a place is one lane of one element, and that lane stands there.
    obtain ⟨groups, whole⟩ := h.whole
    have inside : place < groups * itemSize t.type.shape * t.batch := by
      rwa [h.lays.length, whole, Nat.mul_comm (itemSize _)] at lt
    obtain ⟨hp, hl⟩ := laneAt_lt inside
    rw [Nat.mul_comm, ← whole, ← length] at hp
    have found := List.getElem?_eq_getElem hp
    have lane := all _ _ found _ hl
    rw [laneIndex_laneAt (itemSize_pos _), List.getElem?_eq_getElem lt] at lane
    have counted : place < t.type.shape.size := by rwa [size, ← h.length]
    simp [spreadLanes, List.getElem?_range counted, Array.getD_eq_getD_getElem?, found, lane,
      List.getElem?_eq_getElem lt]
  · rw [List.getElem?_eq_none ge, List.getElem?_eq_none]
    rwa [length_spreadLanes, size, ← h.length]

/-- A tensor without elements holds no data, and is read as such. -/
theorem read_of_holds_nil {ctx : Context} {key : Option SecretKey} (h : t.Holds data)
    (values : t.values = []) :
    t.read key ctx = (do
      Fault.reserve 8 t.type.shape.size
      return data) := by
  have none : data = [] := by
    rw [← List.length_eq_zero_iff, h.lays.length, values, List.length_nil, Nat.zero_mul]
  have empty : t.type.shape.size = 0 := by
    rw [Shape.size_eq_prod h.sized, ← h.length, none, List.length_nil]
  rw [read, values, none]
  show (do
    Fault.reserve 8 t.type.shape.size
    return spreadLanes [] t.type.shape t.batch : Except Problem (List Float)) = _
  rw [List.length_eq_zero_iff.mp (length_spreadLanes.trans empty)]

/-- What a tensor holds is read back, as far as it fits into memory. -/
theorem read_of_holds {ctx : Context} {key : Option SecretKey} (h : t.Holds data) :
    t.read key ctx = (do
      Fault.reserve 8 t.type.shape.size
      return data) := by
  have opened : ∀ p, (hp : p < t.values.length) → ∃ vs : List Float, vs.length = t.batch ∧
      (∀ l < t.batch, vs[l]? = data[laneIndex (itemSize t.type.shape) t.batch p l]?) ∧
      openElement ctx key t.batch t.values[p] = (do
        Fault.reserve 8 t.batch
        return vs) :=
    fun p hp => openElement_lanes h.pos (h.lays.lane p _ (List.getElem?_eq_getElem hp))
  by_cases fits : 8 * t.batch < Nat.pow 2 63
  · have each : ∀ p e, t.values[p]? = some e → ∃ vs : List Float,
        openElement ctx key t.batch e = .ok vs ∧ ∀ l < t.batch,
          vs[l]? = data[laneIndex (itemSize t.type.shape) t.batch p l]? := by
      intro p e he
      obtain ⟨hp, rfl⟩ := List.getElem?_eq_some_iff.mp he
      obtain ⟨vs, -, all, eq⟩ := opened p hp
      refine ⟨vs, ?_, all⟩
      rw [eq, Fault.reserve, if_pos fits]
      rfl
    obtain ⟨lanes, eq, length, all⟩ := mapM_ok each
    rw [read, eq]
    show (do
      Fault.reserve 8 t.type.shape.size
      return spreadLanes lanes t.type.shape t.batch : Except Problem (List Float)) = _
    rw [spreadLanes_of_holds h length all]
  · -- an element that does not fit is part of data that do not fit either
    cases values : t.values with
    | nil => exact read_of_holds_nil h values
    | cons e rest =>
      obtain ⟨vs, -, -, eq⟩ := opened 0 (by simp [values])
      have first : openElement ctx key t.batch e = .error (.fault .sizeOverflow) := by
        simp only [values, List.getElem_cons_zero] at eq
        rw [eq, Fault.reserve, if_neg fits]
        rfl
      have wide : t.batch ≤ t.type.shape.size := by
        rw [Shape.size_eq_prod h.sized, ← h.length, h.lays.length, values, List.length_cons]
        exact Nat.le_mul_of_pos_left _ (Nat.succ_pos _)
      rw [read, values, List.mapM_cons, first, Fault.reserve, if_neg (by omega)]
      rfl

end BatchedTensor

end CipherFlow
