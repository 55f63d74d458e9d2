import CipherFlow.Proofs.Element.Returning
import CipherFlow.Proofs.Run.Lanes
import CipherFlow.Slots.Embedding
import Mathlib.Algebra.Ring.Defs

/-!
# Arithmetic in slots

Sums and products of slots are sums and products of the lanes laid out in them,
in exact arithmetic. A single lane goes with every lane of the other operand on
both sides: over the slots it fills all of them, over the lanes it is repeated.

`arithmetic_in_slots` has the three operations, the multiple by a single lane and
the way back.

How the proof goes. `Carries` compares slots and lanes index by index
(`carries_of_part`): a lane is a part of one slot, and a single lane is in every
slot (`getElem?_slotsOf`). So a law of complex numbers on parts is all that is left
for each operation. Where lanes are refused is read off the checks
(`layOut_eq_ok_iff`).
-/

namespace CipherFlow

variable {α : Type}

/-! ## Lanes one by one -/

namespace Lanes

variable {β : Type} {xs : List α} {ys : List β} {i : Nat}

/-- Below the number of lanes there is a lane, also for a single one. -/
theorem lane_of_lt (h : i < xs.length) : lane xs i = .ok xs[i] := by
  by_cases single : xs.length = 1
  · obtain ⟨x, rfl⟩ := List.length_eq_one_iff.mp single
    rw [List.getElem_singleton]
    rfl
  · exact (lane_of_length_ne single).trans (Tensor.entry_eq_ok.mpr (List.getElem?_eq_getElem h))

theorem getElem?_of_lane (several : xs.length ≠ 1) {a : α} (h : lane xs i = .ok a) :
    xs[i]? = some a := by
  rw [lane_of_length_ne several] at h
  exact Tensor.entry_eq_ok.mp h

/-- Each of two lists that can be combined has a lane at every index below the
longer length. -/
theorem Pair.has (pair : Pair xs ys) (hi : i < max xs.length ys.length) :
    (∃ x, Has (max xs.length ys.length) i xs x) ∧ ∃ y, Has (max xs.length ys.length) i ys y := by
  have each : (xs.length = max xs.length ys.length ∨ xs.length = 1) ∧
      (ys.length = max xs.length ys.length ∨ ys.length = 1) := by
    rcases pair with same | ⟨single, some⟩ | ⟨single, some⟩
    · omega
    · have pos := List.length_pos_iff.mpr some
      omega
    · have pos := List.length_pos_iff.mpr some
      omega
  have lanes {γ : Type} {zs : List γ} (h : zs.length = max xs.length ys.length ∨ zs.length = 1) :
      ∃ z, Has (max xs.length ys.length) i zs z := by
    by_cases single : zs.length = 1
    · obtain ⟨z, rfl⟩ := List.length_eq_one_iff.mp single
      exact ⟨z, has_single⟩
    · have long := h.resolve_right single
      exact ⟨_, .inl long, lane_of_lt (long.symm ▸ hi)⟩
  exact ⟨lanes each.1, lanes each.2⟩

end Lanes

/-! ## Lanes in slots -/

/-- The part of a slot that holds the lane of an index. -/
def Packing.part (packing : Packing) (i : Nat) (z : Slot α) : α :=
  match packing with
  | .real => z.re
  | .complex => if i % 2 = 0 then z.re else z.im

namespace Packing

theorem lt_of_lt_capacity {packing : Packing} {i slots : Nat} (h : i < packing.capacity slots) :
    i / packing.lanesPerSlot < slots := by
  refine Nat.div_lt_of_lt_mul ?_
  rwa [Nat.mul_comm]

theorem getElem?_parts (slots : List (Slot α)) (i : Nat) :
    (slots.flatMap fun z => [z.re, z.im])[i]? = slots[i / 2]?.map (complex.part i) := by
  induction slots generalizing i with
  | nil => rfl
  | cons z slots ih =>
    match i with
    | 0 => rfl
    | 1 => rfl
    | i + 2 =>
      have half : (i + 2) / 2 = i / 2 + 1 := by omega
      have parity : (complex.part (i + 2) : Slot α → α) = complex.part i := by
        funext w
        simp only [part, Nat.add_mod_right]
      rw [half, parity, List.getElem?_cons_succ]
      exact ih i

/-- A lane is a part of the slot that it lies in. -/
theorem getElem?_lanesOf (packing : Packing) (slots : List (Slot α)) {i count : Nat}
    (h : i < count) :
    (packing.lanesOf slots count)[i]? =
      slots[i / packing.lanesPerSlot]?.map (packing.part i) := by
  cases packing with
  | real =>
    rw [lanesOf, List.getElem?_take_of_lt h, List.getElem?_map, lanesPerSlot, Nat.div_one]
    rfl
  | complex => rw [lanesOf, List.getElem?_take_of_lt h, getElem?_parts, lanesPerSlot]

/-- Lanes are what is read from slots that hold each of them in its place. -/
theorem lanesOf_eq {packing : Packing} {slots : List (Slot α)} {lanes : List α}
    (held : ∀ (i : Nat) (a : α), lanes[i]? = some a →
      ∃ z, slots[i / packing.lanesPerSlot]? = some z ∧ packing.part i z = a) :
    packing.lanesOf slots lanes.length = lanes := by
  refine List.ext_getElem? fun i => ?_
  by_cases hi : i < lanes.length
  · obtain ⟨z, hz, eq⟩ := held i lanes[i] (List.getElem?_eq_getElem hi)
    rw [getElem?_lanesOf packing slots hi, hz, Option.map_some, eq, List.getElem?_eq_getElem hi]
  · have past : lanes.length ≤ i := Nat.le_of_not_lt hi
    have short : (packing.lanesOf slots lanes.length).length ≤ lanes.length := by
      cases packing <;> exact List.length_take_le _ _
    rw [List.getElem?_eq_none (Nat.le_trans short past), List.getElem?_eq_none past]

variable [OfNat α 0]

theorem getElem?_pairs (lanes : List α) {i : Nat} {a : α} (h : lanes[i]? = some a) :
    ∃ z, (pairs lanes)[i / 2]? = some z ∧ complex.part i z = a := by
  induction lanes using pairs.induct generalizing i with
  | case1 x y rest ih =>
    match i with
    | 0 => exact ⟨⟨x, y⟩, rfl, Option.some.inj h⟩
    | 1 => exact ⟨⟨x, y⟩, rfl, Option.some.inj h⟩
    | i + 2 =>
      obtain ⟨z, hz, eq⟩ := ih h
      have half : (i + 2) / 2 = i / 2 + 1 := by omega
      refine ⟨z, ?_, ?_⟩
      · rw [half]
        exact hz
      · simpa only [part, Nat.add_mod_right] using eq
  | case2 x =>
    match i with
    | 0 => exact ⟨⟨x, 0⟩, rfl, Option.some.inj h⟩
    | i + 1 => exact nomatch h
  | case3 => exact nomatch h

theorem slotsOf_of_ne_one {lanes : List α} (several : lanes.length ≠ 1) (packing : Packing)
    (slots : Nat) :
    packing.slotsOf lanes slots =
      match packing with
      | .real => lanes.map (⟨·, 0⟩)
      | .complex => pairs lanes := by
  unfold slotsOf
  split
  · exact absurd rfl several
  · exact absurd rfl several
  · rfl
  · rfl

/-- Laid-out lanes are read back, a single one from every slot. -/
theorem getElem?_slotsOf (packing : Packing) {lanes : List α} {slots i : Nat} {a : α}
    (h : Lanes.lane lanes i = .ok a) (hi : i < packing.capacity slots) :
    ∃ z, (packing.slotsOf lanes slots)[i / packing.lanesPerSlot]? = some z ∧
      packing.part i z = a := by
  have slot := lt_of_lt_capacity hi
  by_cases single : lanes.length = 1
  · obtain ⟨x, rfl⟩ := List.length_eq_one_iff.mp single
    obtain rfl := Except.ok.inj h
    cases packing with
    | real => exact ⟨⟨x, 0⟩, List.getElem?_replicate_of_lt slot, rfl⟩
    | complex => exact ⟨⟨x, x⟩, List.getElem?_replicate_of_lt slot, ite_self x⟩
  · have entry := Lanes.getElem?_of_lane single h
    rw [slotsOf_of_ne_one single]
    cases packing with
    | real =>
      refine ⟨⟨a, 0⟩, ?_, rfl⟩
      dsimp only
      rw [lanesPerSlot, Nat.div_one, List.getElem?_map, entry, Option.map_some]
    | complex => exact getElem?_pairs lanes entry

/-- Real packing leaves the imaginary parts zero. -/
theorem im_of_mem_slotsOf {lanes : List α} {slots : Nat} {z : Slot α}
    (h : z ∈ real.slotsOf lanes slots) : z.im = 0 := by
  by_cases single : lanes.length = 1
  · obtain ⟨x, rfl⟩ := List.length_eq_one_iff.mp single
    rw [List.eq_of_mem_replicate h]
  · rw [slotsOf_of_ne_one single] at h
    obtain ⟨x, -, rfl⟩ := List.mem_map.mp h
    rfl

end Packing

/-! ## Room -/

namespace Slots

/-- There is room for lanes in a number of slots: the lanes that fit can be
counted, there are no more of them, and where a single lane fills all slots,
these fit into memory. -/
structure HasRoom (packing : Packing) (lanes : List α) (slots : Nat) : Prop where
  counted : packing.capacity slots < wordSize
  few : lanes.length ≤ packing.capacity slots
  single : lanes.length = 1 → slotWidth * slots < Nat.pow 2 63

instance (packing : Packing) (lanes : List α) (slots : Nat) :
    Decidable (HasRoom packing lanes slots) :=
  decidable_of_iff (packing.capacity slots < wordSize ∧ lanes.length ≤ packing.capacity slots ∧
      (lanes.length = 1 → slotWidth * slots < Nat.pow 2 63))
    ⟨fun ⟨counted, few, single⟩ => ⟨counted, few, single⟩,
      fun room => ⟨room.counted, room.few, room.single⟩⟩

variable [OfNat α 0] {packing : Packing} {lanes : List α} {slots : Nat}

/-- Lanes are laid out exactly where there is room for them. -/
theorem layOut_eq_ok_iff {laid : List (Slot α)} :
    layOut packing lanes slots = .ok laid ↔
      HasRoom packing lanes slots ∧ packing.slotsOf lanes slots = laid := by
  unfold layOut Packing.capacity? Fault.checkSize Fault.reserve
  constructor
  · intro h
    obtain ⟨capacity, counted, h⟩ := exists_of_bind_eq_ok h
    split at counted
    · rename_i fits
      obtain rfl := Except.ok.inj counted
      dsimp only at h
      split at h
      · exact nomatch h
      · rename_i few
        split at h
        · obtain ⟨_, reserved, h⟩ := exists_of_bind_eq_ok h
          split at reserved
          · exact ⟨⟨fits, Nat.le_of_not_lt few, fun _ => ‹_›⟩, Except.ok.inj h⟩
          · exact nomatch reserved
        · rename_i several
          exact ⟨⟨fits, Nat.le_of_not_lt few, fun single => absurd single several⟩,
            Except.ok.inj h⟩
    · exact nomatch counted
  · rintro ⟨room, rfl⟩
    rw [if_pos room.counted]
    show (if packing.capacity slots < lanes.length then _ else _) = _
    rw [if_neg (Nat.not_lt.mpr room.few)]
    by_cases single : lanes.length = 1
    · rw [if_pos single, if_pos (room.single single)]
      rfl
    · rw [if_neg single]
      rfl

theorem HasRoom.layOut_ok (room : HasRoom packing lanes slots) :
    layOut packing lanes slots = .ok (packing.slotsOf lanes slots) :=
  layOut_eq_ok_iff.mpr ⟨room, rfl⟩

/-! ## Operations on slots -/

/-- So many slots combined one by one; those that are not given are zero. -/
def slotwise (f : Slot α → Slot α → Slot α) (count : Nat) (x y : List (Slot α)) :
    List (Slot α) :=
  (List.range count).map fun j => f (x.getD j ⟨0, 0⟩) (y.getD j ⟨0, 0⟩)

theorem getElem?_slotwise (f : Slot α → Slot α → Slot α) {count j : Nat} (hj : j < count)
    {x y : List (Slot α)} {z w : Slot α} (hz : x[j]? = some z) (hw : y[j]? = some w) :
    (slotwise f count x y)[j]? = some (f z w) := by
  simp [slotwise, List.getElem?_range hj, hz, hw]

/-- An operation on the slots of two batches of lanes gives what an operation on
the lanes gives. -/
def Carries (packing : Packing) (slots : Nat) (onSlots : Slot α → Slot α → Slot α)
    (onLanes : α → α → α) (x y : List α) : Prop :=
  ∃ sx sy zs, layOut packing x slots = .ok sx ∧ layOut packing y slots = .ok sy ∧
    Lanes.zipWith onLanes x y = .ok zs ∧
    packing.lanesOf (slotwise onSlots slots sx sy) (max x.length y.length) = zs

variable {x y : List α}

/-- For that, the operations have to agree on each lane of laid-out slots. -/
theorem carries_of_part {onSlots : Slot α → Slot α → Slot α} {onLanes : α → α → α}
    (hx : HasRoom packing x slots) (hy : HasRoom packing y slots) (pair : Lanes.Pair x y)
    (agree : ∀ i, ∀ z ∈ packing.slotsOf x slots, ∀ w ∈ packing.slotsOf y slots,
      packing.part i (onSlots z w) = onLanes (packing.part i z) (packing.part i w)) :
    Carries packing slots onSlots onLanes x y := by
  obtain ⟨zs, combined, length⟩ := Lanes.zipWith_of_pair onLanes pair
  refine ⟨_, _, zs, hx.layOut_ok, hy.layOut_ok, combined, ?_⟩
  rw [← length]
  refine Packing.lanesOf_eq fun i c hc => ?_
  obtain ⟨inside, rfl⟩ := List.getElem?_eq_some_iff.mp hc
  have hi : i < max x.length y.length := length ▸ inside
  have within : i < packing.capacity slots :=
    Nat.lt_of_lt_of_le hi (Nat.max_le.mpr ⟨hx.few, hy.few⟩)
  obtain ⟨⟨a, ha⟩, b, hb⟩ := pair.has hi
  have combined := (ha.zipWith hb combined).lane
  obtain ⟨z, hz, rfl⟩ := Packing.getElem?_slotsOf packing ha.lane within
  obtain ⟨w, hw, rfl⟩ := Packing.getElem?_slotsOf packing hb.lane within
  refine ⟨_, getElem?_slotwise onSlots (Packing.lt_of_lt_capacity within) hz hw, ?_⟩
  rw [Except.ok.inj ((Lanes.lane_of_lt inside).symm.trans combined)]
  exact agree i z (List.mem_of_getElem? hz) w (List.mem_of_getElem? hw)

/-- Slots are added lane by lane, also where sums are rounded. -/
theorem carries_add [Add α] (hx : HasRoom packing x slots) (hy : HasRoom packing y slots)
    (pair : Lanes.Pair x y) : Carries packing slots (· + ·) (· + ·) x y := by
  refine carries_of_part hx hy pair fun i z _ w _ => ?_
  cases packing with
  | real => rfl
  | complex =>
    simp only [Packing.part]
    split <;> rfl

/-- Reading so many lanes as were laid out gives them back. -/
theorem HasRoom.lanesOf_slotsOf (room : HasRoom packing lanes slots) :
    packing.lanesOf (packing.slotsOf lanes slots) lanes.length = lanes := by
  refine Packing.lanesOf_eq fun i a ha => ?_
  obtain ⟨hi, rfl⟩ := List.getElem?_eq_some_iff.mp ha
  exact Packing.getElem?_slotsOf packing (Lanes.lane_of_lt hi) (Nat.lt_of_lt_of_le hi room.few)

/-! ## Exact arithmetic -/

section Exact

variable {α : Type} [Ring α] {packing : Packing} {slots : Nat} {x y : List α}

/-- Slots of real parts are multiplied lane by lane. -/
theorem carries_mul (hx : HasRoom .real x slots) (hy : HasRoom .real y slots)
    (pair : Lanes.Pair x y) : Carries .real slots (· * ·) (· * ·) x y := by
  refine carries_of_part hx hy pair fun i z hz w _ => ?_
  show z.re * w.re - z.im * w.im = z.re * w.re
  rw [Packing.im_of_mem_slotsOf hz, zero_mul, sub_zero]

/-- The product with a real slot scales both parts. -/
theorem part_mul_real (i : Nat) (z : Slot α) (r : α) :
    packing.part i (z * ⟨r, 0⟩) = packing.part i z * r := by
  have scaled : z * ⟨r, 0⟩ = z.scaleBy r := by
    show Slot.mk (z.re * r - z.im * 0) (z.re * 0 + z.im * r) = _
    rw [mul_zero, mul_zero, sub_zero, zero_add]
    rfl
  rw [scaled]
  cases packing with
  | real => rfl
  | complex => exact (apply_ite (· * r) _ _ _).symm

/-- Slots multiplied by real ones hold the lanes multiplied by a single one. -/
theorem lanesOf_slotwise_mul_real (room : HasRoom packing x slots) (r : α) :
    packing.lanesOf (slotwise (· * ·) slots (packing.slotsOf x slots)
      (Packing.real.slotsOf [r] slots)) x.length = x.map (· * r) := by
  suffices held : packing.lanesOf (slotwise (· * ·) slots (packing.slotsOf x slots)
      (Packing.real.slotsOf [r] slots)) (x.map (· * r)).length = x.map (· * r) by
    rwa [List.length_map] at held
  refine Packing.lanesOf_eq fun i a ha => ?_
  obtain ⟨b, hb, rfl⟩ := Option.map_eq_some_iff.mp ((List.getElem?_map ..).symm.trans ha)
  obtain ⟨hi, rfl⟩ := List.getElem?_eq_some_iff.mp hb
  have within : i < packing.capacity slots := Nat.lt_of_lt_of_le hi room.few
  have slot := Packing.lt_of_lt_capacity within
  obtain ⟨z, hz, eq⟩ := Packing.getElem?_slotsOf packing (Lanes.lane_of_lt hi) within
  have scale : (Packing.real.slotsOf [r] slots)[i / packing.lanesPerSlot]? = some ⟨r, 0⟩ :=
    List.getElem?_replicate_of_lt slot
  refine ⟨_, getElem?_slotwise (· * ·) slot hz scale, ?_⟩
  rw [← eq]
  exact part_mul_real i z r

/-- Where there is room for lanes, slots compute what lanes do: sums in either
packing, products in real packing, multiples by a single real lane in complex
packing. And reading the slots gives the lanes that were laid out. -/
theorem arithmetic_in_slots (slots : Nat) :
    (∀ (packing : Packing) (x y : List α), HasRoom packing x slots → HasRoom packing y slots →
      Lanes.Pair x y → Carries packing slots (· + ·) (· + ·) x y) ∧
    (∀ x y : List α, HasRoom .real x slots → HasRoom .real y slots →
      Lanes.Pair x y → Carries .real slots (· * ·) (· * ·) x y) ∧
    (∀ (x : List α) (r : α), HasRoom .complex x slots → HasRoom .real [r] slots →
      ∃ sx sr, layOut .complex x slots = .ok sx ∧ layOut .real [r] slots = .ok sr ∧
        Packing.complex.lanesOf (slotwise (· * ·) slots sx sr) x.length = x.map (· * r)) ∧
    (∀ (packing : Packing) (x : List α), HasRoom packing x slots →
      ∃ sx, layOut packing x slots = .ok sx ∧ packing.lanesOf sx x.length = x) := by
  refine ⟨fun packing x y hx hy pair => carries_add hx hy pair,
    fun x y hx hy pair => carries_mul hx hy pair, fun x r hx hr => ?_, fun packing x hx => ?_⟩
  · exact ⟨_, _, hx.layOut_ok, hr.layOut_ok, lanesOf_slotwise_mul_real hx r⟩
  · exact ⟨_, hx.layOut_ok, hx.lanesOf_slotsOf⟩

/-- Three lanes and a single one over four slots; in complex packing the last
of the three has a slot for itself. -/
theorem arithmetic_in_slots_three :
    (Carries .complex 4 (· + ·) (· + ·) [(1 : Int), 2, 3] [5] ∧
      Carries .real 4 (· * ·) (· * ·) [(1 : Int), 2, 3] [5]) ∧
    (∃ sx sr, layOut .complex [(1 : Int), 2, 3] 4 = .ok sx ∧ layOut .real [(5 : Int)] 4 = .ok sr ∧
      Packing.complex.lanesOf (slotwise (· * ·) 4 sx sr) 3 = [5, 10, 15]) ∧
    ∃ sx, layOut .complex [(1 : Int), 2, 3] 4 = .ok sx ∧
      Packing.complex.lanesOf sx 3 = [1, 2, 3] := by
  obtain ⟨sum, product, multiple, read⟩ := @arithmetic_in_slots Int _ 4
  exact ⟨⟨sum .complex [1, 2, 3] [5] (by decide) (by decide) (by decide),
    product [1, 2, 3] [5] (by decide) (by decide) (by decide)⟩,
    multiple [1, 2, 3] 5 (by decide) (by decide), read .complex [1, 2, 3] (by decide)⟩

end Exact

/-- Over `2 ^ 63` slots two lanes are refused, as the lanes in all of them cannot
be counted in a word; and over `2 ^ 59` a single one, as the slots it fills
cannot be held in memory. -/
theorem pack_refused_for_size :
    (2 ≤ Packing.complex.capacity (Nat.pow 2 63) ∧
      pack .complex [1, 2] (Nat.pow 2 63) = .error (.fault .sizeOverflow)) ∧
    (1 ≤ Packing.real.capacity (Nat.pow 2 59) ∧
      pack .real [1] (Nat.pow 2 59) = .error (.fault .sizeOverflow)) :=
  ⟨⟨by decide, rfl⟩, by decide, rfl⟩

end Slots

end CipherFlow
