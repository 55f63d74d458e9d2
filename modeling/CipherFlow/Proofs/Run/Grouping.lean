import CipherFlow.Proofs.Run.Holding
import CipherFlow.Proofs.Session.Contents

/-!
# Plain tensors of row-major data

Row-major data that fit into memory are made into a plain tensor, or are refused
for their number or for the batch size. In the tensor every datum has its own
lane of one element, and no lane is left over: the lane and the element are read
off the coordinates of the datum. So the data are read back, and no key is
needed for that.

`plain_lays_out` has both halves: which data are refused, and that the others are
laid out.

How the proof goes. Which shapes can be packed is read off the checks
(`exists_packs_iff`, `exists_plain_iff`), and a fault is excluded as the data are in
memory already. Elements and lanes are counted by `laneIndex`, whose inverse is
`laneAt`; with places and coordinates in bijection, this gives the one lane of each
datum (`existsUnique_lane`).
-/

namespace CipherFlow.BatchedTensor

open CipherFlow.Run (Problem)
open Returning

variable {type : TensorType} {shape packed : Shape} {batch : Nat} {data : List Float}
  {t : BatchedTensor}

/-! ## Grouping -/

/-- A batch size has to be positive, and above 1 it has to divide the leading
axis. -/
theorem exists_packs_iff : (∃ packed, Packs batch shape packed) ↔
    batch ≠ 0 ∧ (1 < batch → ∃ n rest, shape = n :: rest ∧ batch ∣ n) := by
  constructor
  · rintro ⟨packed, one | ⟨n, rest, pos⟩⟩
    · exact ⟨by omega, by omega⟩
    · exact ⟨pos.ne', fun _ => ⟨_, rest, rfl, Nat.dvd_mul_left batch n⟩⟩
  · rintro ⟨ne, divides⟩
    by_cases one : batch = 1
    · exact ⟨shape, one ▸ Packs.of_one shape⟩
    · obtain ⟨_, rest, rfl, n, rfl⟩ := divides (by omega)
      exact ⟨n :: rest, Nat.mul_comm n batch ▸ .axis n rest (by omega)⟩

/-- A shape that cannot be counted counts as more elements than there are data
in memory. -/
theorem isSome_size?_of_length (inMemory : 8 * data.length < Nat.pow 2 63)
    (count : data.length = shape.size) : shape.size?.isSome := by
  by_contra none
  have huge : shape.size = wordSize - 1 := by
    rw [Shape.size, Option.not_isSome_iff_eq_none.mp none, Option.getD_none]
  have word : wordSize = 2 * Nat.pow 2 63 := by decide
  omega

/-- The lanes of the elements of a packed shape are places of the data. -/
theorem laneIndex_lt_size (packs : Packs batch shape packed) (sized : shape.size?.isSome)
    {element lane : Nat} (hp : element < packed.size) (lt : lane < batch) :
    laneIndex (itemSize shape) batch element lane < shape.size := by
  obtain ⟨groups, whole⟩ := itemSize_dvd packs sized
  rw [Nat.mul_comm] at whole
  rw [Shape.size_eq_prod (packs.isSome_size? sized), whole] at hp
  calc laneIndex (itemSize shape) batch element lane
    _ < groups * itemSize shape * batch := laneIndex_lt hp lt
    _ = shape.size := by rw [Shape.size_eq_prod sized, packs.prod_eq, whole]

/-- Data that fill a shape are grouped into lanes. -/
theorem exists_groupLanes (packs : Packs batch shape packed) (sized : shape.size?.isSome)
    (count : data.length = shape.size) : ∃ lanes, groupLanes data shape batch = .ok lanes := by
  have places : ∀ element ∈ List.range packed.size, ∀ lane ∈ List.range batch, ∃ x,
      (Fault.entryOf data.toArray (laneIndex (itemSize shape) batch element lane) :
        Except Problem Float) = .ok x := by
    intro element hp lane lt
    have found : laneIndex (itemSize shape) batch element lane < data.length :=
      count ▸ laneIndex_lt_size packs sized (List.mem_range.mp hp) (List.mem_range.mp lt)
    refine ⟨data[laneIndex (itemSize shape) batch element lane], ?_⟩
    rw [Fault.entryOf_toArray, Tensor.entry_eq_ok.mpr (List.getElem?_eq_getElem found)]
    rfl
  unfold groupLanes
  rw [if_neg (not_not_intro count), pack_eq_ok_iff.mpr packs]
  exact exists_mapM fun element hp => exists_mapM (places element hp)

/-- Data in memory are grouped into lanes, or refused. -/
theorem groupLanes_returns (inMemory : 8 * data.length < Nat.pow 2 63) :
    Returns (groupLanes data shape batch) fun _ => True := by
  by_cases count : data.length = shape.size
  · have sized := isSome_size?_of_length inMemory count
    cases eq : pack shape batch with
    | error e =>
      have refused : groupLanes data shape batch = .error e := by
        unfold groupLanes
        rw [if_neg (not_not_intro count), eq]
        rfl
      rw [refused]
      exact error_of_returns (pack_returns shape batch) eq
    | ok packed =>
      obtain ⟨lanes, grouped⟩ := exists_groupLanes (pack_eq_ok_iff.mp eq) sized count
      exact returns_of_ok grouped trivial
  · have refused : groupLanes data shape batch = .error (.valueCount data.length) := if_pos count
    rw [refused]
    rfl

/-- Data make a plain tensor exactly if they fill the shape and the shape can be
packed. -/
theorem exists_plain_iff (inMemory : 8 * data.length < Nat.pow 2 63) :
    (∃ t, plain type batch data = .ok t) ↔
      data.length = type.shape.size ∧ ∃ packed, Packs batch type.shape packed := by
  constructor
  · rintro ⟨t, made⟩
    obtain ⟨lanes, grouped, -⟩ := exists_of_bind_eq_ok made
    obtain ⟨count, packed, packs, -⟩ := exists_of_groupLanes grouped
    exact ⟨count, packed, packs⟩
  · rintro ⟨count, packed, packs⟩
    have sized := isSome_size?_of_length inMemory count
    obtain ⟨lanes, grouped⟩ := exists_groupLanes packs sized count
    obtain ⟨-, packed', packs', length, -⟩ := exists_of_groupLanes grouped
    refine ⟨⟨type, batch, lanes.map .plain⟩, ?_⟩
    rw [plain, grouped]
    exact ofValues_eq_ok_iff.mpr ⟨sized, ⟨packed', packs', by rw [List.length_map, length]⟩, rfl⟩

theorem plain_returns (inMemory : 8 * data.length < Nat.pow 2 63) (type : TensorType)
    (batch : Nat) : Returns (plain type batch data) fun _ => True :=
  returns_bind (groupLanes_returns inMemory) fun _ _ =>
    returns_mono (ofValues_returns type batch _) fun _ _ _ => trivial

/-! ## Lanes -/

/-- A tensor whose lanes are row-major data, each datum in a lane of its own. -/
structure LaysOut (type : TensorType) (batch : Nat) (packed : Shape) (data : List Float)
    (t : BatchedTensor) : Prop where
  type_eq : t.type = type
  batch_eq : t.batch = batch
  packedShape : t.packedShape = packed
  length : t.values.length = packed.size
  lanes : ∀ e ∈ t.values, ∃ xs : List Float, e = .plain xs ∧ xs.length = batch
  /-- The items of a group are the lanes of its elements. -/
  item : ∀ index, packed.Within index → ∀ lane < batch, ∃ xs x,
    t.values[packed.position index]? = some (.plain xs) ∧ xs[lane]? = some x ∧
      data[type.shape.position (ofLane batch lane index)]? = some x
  /-- No datum is in two lanes, or in none. -/
  once : ∀ place < data.length, ∃! spot : Nat × Nat,
    spot.1 < t.values.length ∧ spot.2 < batch ∧ ∃ index, packed.Within index ∧
      packed.position index = spot.1 ∧ type.shape.position (ofLane batch spot.2 index) = place

/-- Each place of the data is that of one lane of one element. -/
theorem existsUnique_lane (packs : Packs batch shape packed) (sized : shape.size?.isSome)
    {place : Nat} (lt : place < shape.size) : ∃! spot : Nat × Nat,
      spot.1 < packed.size ∧ spot.2 < batch ∧ ∃ index, packed.Within index ∧
        packed.position index = spot.1 ∧ shape.position (ofLane batch spot.2 index) = place := by
  have counted : packed.size = packed.prod := Shape.size_eq_prod (packs.isSome_size? sized)
  obtain ⟨groups, whole⟩ := itemSize_dvd packs sized
  rw [Nat.mul_comm] at whole
  have inside : place < groups * itemSize shape * batch := by
    rwa [packs.size_eq sized, counted, whole] at lt
  obtain ⟨hp, hl⟩ := laneAt_lt inside
  rw [← whole] at hp
  refine ⟨laneAt (itemSize shape) batch place, ⟨counted ▸ hp, hl, ?_⟩, ?_⟩
  · obtain ⟨index, within, eq⟩ := Shape.exists_position hp
    refine ⟨index, within, eq, ?_⟩
    rw [← laneIndex_position packs sized within hl, eq, laneIndex_laneAt (itemSize_pos shape)]
  · rintro ⟨element, lane⟩ ⟨-, below, index, within, rfl, rfl⟩
    have hl : lane < batch := below
    rw [← laneIndex_position packs sized within hl, laneAt_laneIndex (itemSize_pos shape) hl]

theorem laysOut_of_plain (made : plain type batch data = .ok t)
    (packs : Packs batch type.shape packed) : LaysOut type batch packed data t := by
  obtain ⟨sized, packed', lanes, packs', rfl, width, items⟩ := exists_of_plain made
  obtain ⟨-, holds⟩ := holds_of_plain made
  obtain rfl : packed = packed' :=
    Except.ok.inj ((pack_eq_ok_iff.mpr packs).symm.trans (pack_eq_ok_iff.mpr packs'))
  have counted : packed.size = packed.prod := Shape.size_eq_prod (packs.isSome_size? sized)
  have length : (lanes.map Element.plain).length = packed.size := by
    have all := holds.lays.length
    rw [holds.length, packs.prod_eq, ← counted] at all
    exact (Nat.eq_of_mul_eq_mul_right packs.pos all).symm
  refine ⟨rfl, rfl, packs.packedShape (t := ⟨type, batch, _⟩), length, fun e he => ?_,
    fun index within lane lt => ?_, fun place lt => ?_⟩
  · obtain ⟨xs, hxs, rfl⟩ := List.mem_map.mp he
    exact ⟨xs, rfl, width xs hxs⟩
  · obtain ⟨xs, x, hxs, hx, datum⟩ := items index within lane lt
    exact ⟨xs, x, by rw [List.getElem?_map, hxs]; rfl, hx, datum⟩
  · rw [length]
    rw [holds.length, ← Shape.size_eq_prod sized] at lt
    exact existsUnique_lane packs sized lt

/-- Data in memory are refused, and not by a fault, exactly if they do not fill
the shape, if the shape cannot be counted, or if the batch size is zero or above
1 without dividing a leading axis. Otherwise they make a tensor in which each of
them has a lane of its own, and which is read back without a key. -/
theorem plain_lays_out (type : TensorType) (batch : Nat)
    (inMemory : 8 * data.length < Nat.pow 2 63) :
    ((∃ e, plain type batch data = .error e ∧ Faulty.isFault e = false) ↔
      data.length ≠ type.shape.size ∨ type.shape.size? = none ∨ batch = 0 ∨
        1 < batch ∧ ¬∃ n rest, type.shape = n :: rest ∧ batch ∣ n) ∧
    ∀ packed, type.shape.size?.isSome → pack type.shape batch = .ok packed →
      data.length = type.shape.size →
        ∃ t, plain type batch data = .ok t ∧ LaysOut type batch packed data t ∧
          ∀ ctx, t.read none ctx = .ok data := by
  have returns := plain_returns inMemory type batch
  have made : (∃ t, plain type batch data = .ok t) ↔ _ := exists_plain_iff inMemory
  constructor
  · have sized : data.length = type.shape.size → type.shape.size?.isSome :=
      isSome_size?_of_length inMemory
    rw [exists_packs_iff] at made
    constructor
    · rintro ⟨e, refused, -⟩
      by_contra accepted
      push Not at accepted
      obtain ⟨count, -, pos, divides⟩ := accepted
      obtain ⟨t, ok⟩ := made.mpr ⟨count, pos, divides⟩
      exact nomatch refused.symm.trans ok
    · intro bad
      cases eq : plain type batch data with
      | error e => exact ⟨e, rfl, error_of_returns returns eq⟩
      | ok t =>
        obtain ⟨count, pos, divides⟩ := made.mp ⟨t, eq⟩
        have counted := Option.isSome_iff_ne_none.mp (sized count)
        exact (bad.elim (absurd count) fun bad => bad.elim counted fun bad =>
          bad.elim pos fun bad => bad.2 (divides bad.1)).elim
  · intro packed sized hpacked count
    have packs := pack_eq_ok_iff.mp hpacked
    obtain ⟨t, eq⟩ := made.mpr ⟨count, packed, packs⟩
    refine ⟨t, eq, laysOut_of_plain eq packs, fun ctx => ?_⟩
    obtain ⟨same, holds⟩ := holds_of_plain eq
    rw [read_of_holds holds, same, ← count, Fault.reserve, if_pos inMemory]
    rfl

/-- Four rows of three, two rows to a group: six elements of two lanes. The
second group starts with the third row and the fourth. -/
theorem plain_lays_out_table : ∃ t : BatchedTensor,
    plain ⟨.f64, [4, 3]⟩ 2 ((List.range 12).map Float.ofNat) = .ok t ∧
      t.values.length = 6 ∧
      (∃ xs, t.values[3]? = some (.plain xs) ∧
        xs[0]? = some (Float.ofNat 6) ∧ xs[1]? = some (Float.ofNat 9)) ∧
      ∀ ctx, t.read none ctx = .ok ((List.range 12).map Float.ofNat) := by
  have inMemory : 8 * ((List.range 12).map Float.ofNat).length < Nat.pow 2 63 := by decide
  have fits := plain_lays_out ⟨.f64, [4, 3]⟩ 2 inMemory
  obtain ⟨t, eq, lays, read⟩ := fits.2 [2, 3] (by decide) rfl (by decide)
  refine ⟨t, eq, lays.length.trans (by decide), ?_, read⟩
  obtain ⟨xs, x, hxs, hx, six⟩ := lays.item [1, 0] (by decide) 0 (by decide)
  obtain ⟨ys, y, hys, hy, nine⟩ := lays.item [1, 0] (by decide) 1 (by decide)
  obtain rfl : xs = ys := Element.plain.inj (Option.some.inj (hxs.symm.trans hys))
  exact ⟨xs, hxs, hx.trans six.symm, hy.trans nine.symm⟩

end CipherFlow.BatchedTensor
