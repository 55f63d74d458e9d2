import CipherFlow.Proofs.Tensor.Parametric
import CipherFlow.Proofs.Tensor.Positions
import CipherFlow.Run.Tensor

/-!
# The layout of batched tensors

An item of the leading axis is a lane of the elements of its group. In
coordinates: the leading one is split into the number of the group, which
leads the coordinates of the element in the packed shape, and the lane. Places
are split and put together accordingly, and what has been grouped into lanes
is found again by its coordinates.

Main lemmas: `laneIndex_position` and `laneAt_position`, which are inverse to each
other in coordinates, and `read_plain`. Only the leading axis is split; the other
coordinates are carried along unchanged, as the items are counted by the product of
their extents (`itemSize_cons`).
-/

namespace CipherFlow.BatchedTensor

open CipherFlow.Run (Problem)

variable {shape packed : Shape} {batch lane item element n : Nat} {index : List Nat}
  {data : List Float} {lanes : List (List Float)}

/-! ## Packed shapes -/

/-- A shape and the one its elements are laid out in. -/
inductive Packs (batch : Nat) : (shape packed : Shape) → Prop where
  | scalar : batch = 1 → Packs batch [] []
  | axis (n : Nat) (rest : Shape) : 0 < batch → Packs batch (n * batch :: rest) (n :: rest)

theorem pack_eq_ok_iff : pack shape batch = .ok packed ↔ Packs batch shape packed := by
  unfold pack
  constructor
  · intro h
    split at h
    · rename_i one
      obtain rfl := Except.ok.inj h
      subst one
      cases shape with
      | nil => exact .scalar rfl
      | cons n rest => simpa using @Packs.axis 1 n rest Nat.one_pos
    · cases shape with
      | nil => exact nomatch h
      | cons n rest =>
        simp only at h
        split at h
        · rename_i divides
          obtain rfl := Except.ok.inj h
          have groups : n / batch * batch = n :=
            Nat.div_mul_cancel (Nat.dvd_of_mod_eq_zero divides.2)
          simpa [groups] using @Packs.axis batch (n / batch) rest (by omega)
        · exact nomatch h
  · rintro (one | ⟨n, rest, pos⟩)
    · rw [if_pos one]
    · split
      · simp [*]
      · rename_i ne
        have many : 1 < batch := by omega
        simp [many, Nat.mul_div_cancel n pos]

theorem Packs.pos (packs : Packs batch shape packed) : 0 < batch := by
  cases packs with
  | scalar one => omega
  | axis n rest pos => exact pos

theorem Packs.packedShape {t : BatchedTensor} (packs : Packs t.batch t.type.shape packed) :
    t.packedShape = packed := by
  unfold BatchedTensor.packedShape
  cases h : t.type.shape with
  | nil =>
    rw [h] at packs
    cases packs
    rfl
  | cons d rest =>
    rw [h] at packs
    cases packs with
    | axis n rest pos => exact congrArg (· :: rest) (Nat.mul_div_cancel n pos)

theorem Packs.isSome_size? (packs : Packs batch shape packed) (sized : shape.size?.isSome) :
    packed.size?.isSome := by
  cases packs with
  | scalar => exact sized
  | axis n rest pos => exact Shape.isSome_size?_cons_of_le sized (Nat.le_mul_of_pos_right n pos)

/-- A group for each element. -/
theorem Packs.prod_eq (packs : Packs batch shape packed) : shape.prod = packed.prod * batch := by
  cases packs with
  | scalar one => simp [one]
  | axis n rest pos => simp [Nat.mul_right_comm]

/-- So there is a lane for each place. -/
theorem Packs.size_eq (packs : Packs batch shape packed) (sized : shape.size?.isSome) :
    shape.size = packed.size * batch := by
  rw [Shape.size_eq_prod sized, Shape.size_eq_prod (packs.isSome_size? sized), packs.prod_eq]

/-! ## Items and lanes -/

/-- The coordinates of the item in a lane of an element. -/
def ofLane (batch lane : Nat) : List Nat → List Nat
  | [] => []
  | i :: index => (i * batch + lane) :: index

/-- The coordinates of the element that holds an item. -/
def group (batch : Nat) : List Nat → List Nat
  | [] => []
  | i :: index => i / batch :: index

/-- The lane that holds an item. -/
def laneOf (batch : Nat) (index : List Nat) : Nat :=
  index.headD 0 % batch

theorem laneIndex_add (lt : n < item) (i : Nat) :
    laneIndex item batch (i * item + n) lane = (i * batch + lane) * item + n := by
  rw [laneIndex, Shape.mul_add_div_of_lt lt, Nat.mul_add_mod_of_lt lt]

theorem laneAt_add (lt : n < item) (i : Nat) :
    laneAt item batch (i * item + n) = (i / batch * item + n, i % batch) := by
  rw [laneAt, Shape.mul_add_div_of_lt lt, Nat.mul_add_mod_of_lt lt]

/-- An axis that has coordinates is not empty, so the items are counted in
a word. -/
theorem itemSize_cons {d : Nat} (sized : (Shape.size? (d :: shape)).isSome) (pos : 0 < d)
    (within : shape.Within index) : itemSize (d :: shape) = shape.prod := by
  rw [itemSize, List.tail_cons, Shape.size_eq_prod (Shape.isSome_size?_tail sized pos)]
  have := Shape.position_lt within
  omega

theorem within_group (packs : Packs batch shape packed) (within : shape.Within index) :
    packed.Within (group batch index) := by
  cases packs with
  | scalar =>
    cases within
    exact .nil
  | axis n rest pos =>
    cases within with
    | cons lead within => exact .cons (Nat.div_lt_of_lt_mul (Nat.mul_comm n batch ▸ lead)) within

/-- The lanes of an element are the items of its group. -/
theorem laneIndex_position (packs : Packs batch shape packed) (sized : shape.size?.isSome)
    (within : packed.Within index) (lt : lane < batch) :
    laneIndex (itemSize shape) batch (packed.position index) lane =
      shape.position (ofLane batch lane index) := by
  cases packs with
  | scalar one =>
    cases within
    obtain rfl : lane = 0 := by omega
    simp [Shape.position, laneIndex]
  | axis n rest pos =>
    cases within with
    | cons lead within =>
      have wide : 0 < n * batch := Nat.mul_pos (by omega) pos
      rw [itemSize_cons sized wide within, Shape.position, ofLane, Shape.position,
        laneIndex_add (Shape.position_lt within)]

/-- An item is found in the lane and the element of its coordinates. -/
theorem laneAt_position (packs : Packs batch shape packed) (sized : shape.size?.isSome)
    (within : shape.Within index) :
    laneAt (itemSize shape) batch (shape.position index) =
      (packed.position (group batch index), laneOf batch index) := by
  cases packs with
  | scalar one =>
    cases within
    simp [Shape.position, laneOf, laneAt, itemSize]
  | axis n rest pos =>
    cases within with
    | cons lead within =>
      rw [itemSize_cons sized (by omega) within, Shape.position,
        laneAt_add (Shape.position_lt within)]
      rfl

/-! ## Grouping and spreading -/

/-- What grouping into lanes succeeds with. -/
theorem exists_of_groupLanes (h : groupLanes data shape batch = .ok lanes) :
    data.length = shape.size ∧ ∃ packed, Packs batch shape packed ∧
      lanes.length = packed.size ∧ ∀ element < packed.size, ∃ xs, lanes[element]? = some xs ∧
        xs.length = batch ∧ ∀ lane < batch, ∃ x, xs[lane]? = some x ∧
          data[laneIndex (itemSize shape) batch element lane]? = some x := by
  unfold groupLanes at h
  split at h
  · exact nomatch h
  · rename_i count
    obtain ⟨packed, hpacked, h⟩ := exists_of_bind_eq_ok h
    have elements := mapM_eq_ok_iff.mp h
    refine ⟨Classical.not_not.mp count, packed, pack_eq_ok_iff.mp hpacked, ?_, ?_⟩
    · rw [← elements.length_eq, List.length_range]
    · intro element lt
      obtain ⟨xs, hxs, each⟩ := Tensor.getElem?_related elements (List.getElem?_range lt)
      have entries := mapM_eq_ok_iff.mp each
      refine ⟨xs, hxs, by rw [← entries.length_eq, List.length_range], fun lane lt => ?_⟩
      obtain ⟨x, hx, entry⟩ := Tensor.getElem?_related entries (List.getElem?_range lt)
      have entry : Fault.entryOf data.toArray _ = .ok x := eq_ok_of_mapError entry
      rw [Fault.entryOf_toArray] at entry
      exact ⟨x, hx, Tensor.entry_eq_ok.mp entry⟩

/-- What a tensor of given elements is accepted for. -/
theorem ofValues_eq_ok_iff {type : TensorType} {values : List Element} {t : BatchedTensor} :
    ofValues type batch values = .ok t ↔ type.shape.size?.isSome ∧
      (∃ packed, Packs batch type.shape packed ∧ values.length = packed.size) ∧
      t = ⟨type, batch, values⟩ := by
  unfold ofValues
  constructor
  · intro h
    split at h
    · exact nomatch h
    · rename_i sized
      obtain ⟨packed, hpacked, h⟩ := exists_of_bind_eq_ok h
      split at h
      · exact nomatch h
      · rename_i count
        exact ⟨by simpa [Option.isSome_iff_ne_none] using sized,
          ⟨packed, pack_eq_ok_iff.mp hpacked, Classical.not_not.mp count⟩, (Except.ok.inj h).symm⟩
  · rintro ⟨sized, ⟨packed, packs, count⟩, rfl⟩
    rw [if_neg (by simpa [Option.isSome_iff_ne_none] using sized), pack_eq_ok_iff.mpr packs]
    show (if values.length ≠ packed.size then _ else _) = _
    rw [if_neg (Classical.not_not.mpr count)]
    rfl

/-- A plain tensor holds each item of its data in a lane. -/
theorem exists_of_plain {type : TensorType} {t : BatchedTensor}
    (h : plain type batch data = .ok t) : type.shape.size?.isSome ∧
      ∃ (packed : Shape) (lanes : List (List Float)), Packs batch type.shape packed ∧
        t = ⟨type, batch, lanes.map .plain⟩ ∧ (∀ xs ∈ lanes, xs.length = batch) ∧
        ∀ index, packed.Within index → ∀ lane < batch, ∃ xs x,
          lanes[packed.position index]? = some xs ∧ xs[lane]? = some x ∧
            data[type.shape.position (ofLane batch lane index)]? = some x := by
  obtain ⟨lanes, grouped, h⟩ := exists_of_bind_eq_ok h
  obtain ⟨sized, -, rfl⟩ := ofValues_eq_ok_iff.mp h
  obtain ⟨-, packed, packs, length, each⟩ := exists_of_groupLanes grouped
  refine ⟨sized, packed, lanes, packs, rfl, fun xs hxs => ?_, fun index within lane lt => ?_⟩
  · obtain ⟨i, lt, rfl⟩ := List.mem_iff_getElem.mp hxs
    obtain ⟨xs, hxs, width, -⟩ := each i (length ▸ lt)
    rw [List.getElem?_eq_getElem lt] at hxs
    rw [Option.some.inj hxs, width]
  · have place : packed.position index < packed.size :=
      Shape.size_eq_prod (packs.isSome_size? sized) ▸ Shape.position_lt within
    obtain ⟨xs, hxs, -, items⟩ := each _ place
    obtain ⟨x, hx, datum⟩ := items lane lt
    rw [laneIndex_position packs sized within lt] at datum
    exact ⟨xs, x, hxs, hx, datum⟩

theorem batch_of_plain {type : TensorType} {t : BatchedTensor} (h : plain type batch data = .ok t) :
    t.batch = batch := by
  obtain ⟨-, _, _, -, rfl, -⟩ := exists_of_plain h
  rfl

theorem length_spreadLanes : (spreadLanes lanes shape batch).length = shape.size := by
  simp [spreadLanes]

/-- Row-major data hold each item that a lane holds. -/
theorem getElem?_spreadLanes (packs : Packs batch shape packed) (sized : shape.size?.isSome)
    (within : shape.Within index) {xs : List Float} {x : Float}
    (hxs : lanes[packed.position (group batch index)]? = some xs)
    (hx : xs[laneOf batch index]? = some x) :
    (spreadLanes lanes shape batch)[shape.position index]? = some x := by
  have lt : shape.position index < shape.size :=
    Shape.size_eq_prod sized ▸ Shape.position_lt within
  simp [spreadLanes, List.getElem?_range lt, laneAt_position packs sized within,
    Array.getD_eq_getD_getElem?,
    hxs, hx]

/-! ## Reading plain tensors -/

theorem lane_eq_ok {xs : List Float} {x : Float} {i : Nat} (h : xs[i]? = some x) :
    Lanes.lane xs i = .ok x := by
  unfold Lanes.lane
  split
  · cases i with
    | zero => exact congrArg _ (Option.some.inj h)
    | succ i => exact nomatch h
  · exact Tensor.entry_eq_ok.mpr h

/-- A plain element with as many lanes as are asked for gives them all, unless
they do not fit into memory. -/
theorem openElement_plain {ctx : Context} {key : Option SecretKey} {xs : List Float}
    (length : xs.length = batch) : openElement ctx key batch (.plain xs) = (do
      Fault.reserve 8 batch
      return xs) := by
  have all : List.Forall₂ (fun i x => Lanes.lane xs i = .ok x) (List.range batch) xs := by
    refine List.forall₂_iff_get.mpr ⟨by rw [List.length_range, length], fun i hi hx => ?_⟩
    have entry := lane_eq_ok (List.getElem?_eq_getElem hx)
    simpa using entry
  have entries : (List.range batch).mapM (fun i => (Lanes.lane xs i : Except Problem Float)) =
      .ok xs := mapM_eq_ok_iff.mpr (all.imp fun i x h => by rw [h]; rfl)
  rw [openElement, entries]
  rfl

/-- A plain tensor is read by spreading its lanes, unless the values do not
fit into memory. -/
theorem read_plain {t : BatchedTensor} {ctx : Context} {key : Option SecretKey}
    (values : t.values = lanes.map .plain) (each : ∀ xs ∈ lanes, xs.length = t.batch)
    (room : lanes ≠ [] → t.batch ≤ t.type.shape.size) : t.read key ctx = (do
      Fault.reserve 8 t.type.shape.size
      return spreadLanes lanes t.type.shape t.batch) := by
  by_cases fits : 8 * t.batch < Nat.pow 2 63
  · have opened : t.values.mapM (openElement ctx key t.batch) = .ok lanes := by
      rw [values, mapM_eq_ok_iff, List.forall₂_map_left_iff]
      refine List.forall₂_same.mpr fun xs hxs => ?_
      rw [openElement_plain (each xs hxs), Fault.reserve, if_pos fits]
      rfl
    rw [read, opened]
    rfl
  · cases lanes with
    | nil =>
      rw [read, values]
      rfl
    | cons xs rest =>
      -- an element that does not fit is part of data that do not fit either
      have wide := room (List.cons_ne_nil xs rest)
      have first : openElement ctx key t.batch (.plain xs) = .error (.fault .sizeOverflow) := by
        rw [openElement_plain (each xs List.mem_cons_self), Fault.reserve, if_neg fits]
        rfl
      rw [read, values, List.map_cons, List.mapM_cons, first, Fault.reserve, if_neg (by omega)]
      rfl

end CipherFlow.BatchedTensor
