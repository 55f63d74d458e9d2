import CipherFlow.Proofs.Run.Layout
import CipherFlow.Proofs.Run.Plain
import CipherFlow.Proofs.Tensor.Progress

/-!
# Lanes of elements

Plain elements hold row-major data if the datum at each place is the lane of
an element that belongs to it: lane `l` of element `p` of packed items of `s`
elements stands at `laneIndex s b p l`. Without batching every element is a
single lane, so there is one list of elements that holds given data. An
operation that respects each lane therefore carries what is held over from
batched elements to single ones.
-/

namespace CipherFlow

open CipherFlow.Element (Compute)
open Answering Refusing

/-! ## Places of lanes -/

namespace BatchedTensor

variable {item batch place lane groups s c k p t : Nat}

theorem laneAt_laneIndex (pos : 0 < item) (lt : lane < batch) (p : Nat) :
    laneAt item batch (laneIndex item batch p lane) = (p, lane) := by
  rw [laneIndex, laneAt_add (Nat.mod_lt p pos), Shape.mul_add_div_of_lt lt,
    Nat.mul_add_mod_of_lt lt, Nat.mul_comm, Nat.div_add_mod]

theorem laneIndex_laneAt (pos : 0 < item) (place : Nat) :
    laneIndex item batch (laneAt item batch place).1 (laneAt item batch place).2 = place := by
  rw [laneAt, laneIndex_add (Nat.mod_lt _ pos), Nat.mul_comm _ batch, Nat.div_add_mod,
    Nat.mul_comm, Nat.div_add_mod]

/-- Every place is that of a lane of an element. -/
theorem laneAt_lt (lt : place < groups * item * batch) :
    (laneAt item batch place).1 < groups * item ∧ (laneAt item batch place).2 < batch := by
  have all : 0 < groups * item * batch := Nat.lt_of_le_of_lt (Nat.zero_le _) lt
  have wide : 0 < batch := Nat.pos_of_mul_pos_left all
  have pos : 0 < item := Nat.pos_of_mul_pos_left (Nat.pos_of_mul_pos_right all)
  refine ⟨Shape.mul_add_lt_mul ?_ (Nat.mod_lt _ pos), Nat.mod_lt _ wide⟩
  refine Nat.div_lt_of_lt_mul (Nat.div_lt_of_lt_mul ?_)
  calc place
    _ < groups * item * batch := lt
    _ = item * (batch * groups) := by ring

theorem laneIndex_lt (hp : p < groups * item) (lt : lane < batch) :
    laneIndex item batch p lane < groups * item * batch := by
  have pos : 0 < item := Nat.pos_of_mul_pos_left (Nat.lt_of_le_of_lt (Nat.zero_le _) hp)
  have group : p / item < groups := Nat.div_lt_of_lt_mul (Nat.mul_comm .. ▸ hp)
  calc laneIndex item batch p lane
    _ < groups * batch * item :=
      Shape.mul_add_lt_mul (Shape.mul_add_lt_mul group lt) (Nat.mod_lt _ pos)
    _ = groups * item * batch := Nat.mul_right_comm ..

/-- Without batching elements stay in their places. -/
theorem laneIndex_one (item p : Nat) : laneIndex item 1 p 0 = p := by
  rw [laneIndex, Nat.mul_one, Nat.add_zero, Nat.mul_comm, Nat.div_add_mod]

/-- An inner axis can be split off: its coordinate stays. -/
theorem laneIndex_mul (s c batch p lane : Nat) :
    laneIndex (s * c) batch p lane = laneIndex s batch (p / c) lane * c + p % c := by
  rw [laneIndex, laneIndex, Nat.mul_comm s c, ← Nat.div_div_eq_div_mul, Nat.mod_mul]
  ring

theorem laneIndex_mul_div (pos : 0 < c) (s batch p lane : Nat) :
    laneIndex (s * c) batch p lane / c = laneIndex s batch (p / c) lane := by
  rw [laneIndex_mul, Shape.mul_add_div_of_lt (Nat.mod_lt p pos)]

theorem laneIndex_mul_mod (pos : 0 < c) (s batch p lane : Nat) :
    laneIndex (s * c) batch p lane % c = p % c := by
  rw [laneIndex_mul, Nat.mul_add_mod_of_lt (Nat.mod_lt p pos)]

/-- An item is one of the elements of its group. -/
theorem laneIndex_div (pos : 0 < item) (batch p lane : Nat) :
    laneIndex item batch p lane / item = p / item * batch + lane :=
  Shape.mul_add_div_of_lt (Nat.mod_lt p pos) _

/-- An entry of a row is in the lane of the row: rows of `k` entries stand for
rows of `c` results. -/
theorem laneIndex_row (pos : 0 < c) (ht : t < k) (s batch p lane : Nat) :
    laneIndex (s * c) batch p lane / c * k + t = laneIndex (s * k) batch (p / c * k + t) lane := by
  rw [laneIndex_mul_div pos, laneIndex_mul, Shape.mul_add_div_of_lt ht, Nat.mul_add_mod_of_lt ht]

/-- The elements of a packed shape make up whole items. -/
theorem itemSize_dvd {shape packed : Shape} (packs : Packs batch shape packed)
    (sized : shape.size?.isSome) : itemSize shape ∣ packed.prod := by
  cases packs with
  | scalar => exact ⟨1, rfl⟩
  | axis n rest pos =>
    rw [List.prod_cons]
    rcases Nat.eq_zero_or_pos n with zero | positive
    · simp [zero]
    · rw [itemSize, List.tail_cons,
        Shape.size_eq_prod (Shape.isSome_size?_tail sized (Nat.mul_pos positive pos))]
      rcases Nat.eq_zero_or_pos rest.prod with empty | some
      · simp [empty]
      · rw [Nat.max_eq_left some]
        exact Nat.dvd_mul_left ..

theorem itemSize_pos (shape : Shape) : 0 < itemSize shape :=
  Nat.lt_of_lt_of_le Nat.one_pos (Nat.le_max_right ..)

end BatchedTensor

/-! ## Lanes -/

namespace Lanes

variable {α β γ : Type} {batch i : Nat}

/-- A lane of a list of as many lanes as the batch has, or of a single one
that stands for all. -/
structure Has {α : Type} (batch i : Nat) (xs : List α) (x : α) : Prop where
  length : xs.length = batch ∨ xs.length = 1
  lane : lane xs i = .ok x

theorem lane_of_length_ne {xs : List α} (h : xs.length ≠ 1) : lane xs i = Fault.entry xs i := by
  unfold lane
  split
  · exact absurd rfl h
  · rfl

theorem has_single {x : α} : Has batch i [x] x :=
  ⟨.inr rfl, rfl⟩

theorem Has.map {xs : List α} {x : α} (h : Has batch i xs x) (f : α → β) :
    Has batch i (xs.map f) (f x) := by
  refine ⟨by simpa using h.length, ?_⟩
  by_cases one : xs.length = 1
  · obtain ⟨y, rfl⟩ := List.length_eq_one_iff.mp one
    exact congrArg (Except.ok ∘ f) (Except.ok.inj h.lane)
  · have found := h.lane
    rw [lane_of_length_ne one, Tensor.entry_eq_ok] at found
    rw [lane_of_length_ne (by simpa using one), Tensor.entry_eq_ok, List.getElem?_map, found]
    rfl

/-- Lanes are combined lane by lane. -/
theorem Has.zipWith {f : α → β → γ} {xs : List α} {ys : List β} {zs : List γ} {x : α} {y : β}
    (hx : Has batch i xs x) (hy : Has batch i ys y) (h : zipWith f xs ys = .ok zs) :
    Has batch i zs (f x y) := by
  unfold Lanes.zipWith at h
  split at h
  · rename_i same
    obtain rfl := Except.ok.inj h
    refine ⟨by simpa [same] using hy.length, ?_⟩
    by_cases one : xs.length = 1
    · obtain ⟨a, rfl⟩ := List.length_eq_one_iff.mp one
      obtain ⟨b, rfl⟩ := List.length_eq_one_iff.mp (same ▸ one)
      obtain rfl := Except.ok.inj hx.lane
      obtain rfl := Except.ok.inj hy.lane
      rfl
    · have foundX := hx.lane
      have foundY := hy.lane
      rw [lane_of_length_ne one, Tensor.entry_eq_ok] at foundX
      rw [lane_of_length_ne (same ▸ one), Tensor.entry_eq_ok] at foundY
      rw [lane_of_length_ne (by simpa [same] using same ▸ one), Tensor.entry_eq_ok,
        List.getElem?_zipWith, foundX, foundY]
  · rename_i ne
    rcases xs with _ | ⟨a, _ | ⟨a', xs⟩⟩ <;> rcases ys with _ | ⟨b, _ | ⟨b', ys⟩⟩ <;>
      simp only [reduceCtorEq] at h
    case cons.nil.cons.nil => exact absurd rfl ne
    case cons.nil.cons.cons =>
      obtain rfl := Except.ok.inj h
      obtain rfl := Except.ok.inj hx.lane
      exact hy.map (f a)
    case cons.cons.cons.nil =>
      obtain rfl := Except.ok.inj h
      obtain rfl := Except.ok.inj hy.lane
      exact hx.map (f · b)

theorem zipWith_single (f : α → β → γ) (x : α) (y : β) : zipWith f [x] [y] = .ok [f x y] :=
  rfl

end Lanes

namespace Element

/-- A plain element of a single lane. -/
def single (x : Float) : Element :=
  .plain [x]

/-- A lane of a plain element. -/
inductive HasLane (batch lane : Nat) : Element → Float → Prop where
  | plain {xs : List Float} {x : Float} : Lanes.Has batch lane xs x →
      HasLane batch lane (.plain xs) x

/-- An element and the single lane that it has. -/
def LaneOf (batch lane : Nat) (e e' : Element) : Prop :=
  ∃ x, e' = single x ∧ HasLane batch lane e x

variable {batch lane : Nat} {e e' : Element} {x : Float}

theorem laneOf_single (x : Float) : LaneOf batch lane (single x) (single x) :=
  ⟨x, rfl, .plain Lanes.has_single⟩

/-- Without batching an element is its only lane. -/
theorem HasLane.eq_single (h : HasLane 1 0 e x) : e = single x := by
  cases h with
  | plain h =>
    obtain ⟨y, rfl⟩ := List.length_eq_one_iff.mp (h.length.elim id id)
    exact congrArg single (Except.ok.inj h.lane)

/-- Operations on lanes respect each of them. -/
theorem zipWith_refines {f : Float → Float → Float} {xs ys : List Float} {x y : Float}
    (hx : Lanes.Has batch lane xs x) (hy : Lanes.Has batch lane ys y) :
    Refines (fun zs zs' => ∃ z, zs' = [z] ∧ Lanes.Has batch lane zs z)
      (Lanes.zipWith f xs ys) (Lanes.zipWith f [x] [y]) :=
  fun _ hzs => ⟨[f x y], hzs, Lanes.zipWith_single f x y, f x y, rfl, hx.zipWith hy hzs⟩

theorem add_lane (ev : Evaluator) (batch lane : Nat) :
    Tensor.Respects (LaneOf batch lane) (add ev) (add ev) := by
  rintro _ _ ⟨x, rfl, ⟨hx⟩⟩ _ _ ⟨y, rfl, ⟨hy⟩⟩
  refine Refines.bind (Tensor.liftFault_refines (zipWith_refines hx hy)) ?_
  rintro zs _ ⟨z, rfl, hz⟩
  exact .pure ⟨z, rfl, .plain hz⟩

theorem multiply_lane (ev : Evaluator) (batch lane : Nat) :
    Tensor.Respects (LaneOf batch lane) (multiply ev) (multiply ev) := by
  rintro _ _ ⟨x, rfl, ⟨hx⟩⟩ _ _ ⟨y, rfl, ⟨hy⟩⟩
  refine Refines.bind (Tensor.liftFault_refines (zipWith_refines hx hy)) ?_
  rintro zs _ ⟨z, rfl, hz⟩
  exact .pure ⟨z, rfl, .plain hz⟩

end Element

/-! ## Lists of elements -/

open BatchedTensor (laneIndex laneAt)

/-- Elements hold row-major data: the lanes of each stand where they belong.
What it is for an element to have a lane is a parameter, as lists of lanes are
treated like plain elements. -/
structure Lays {α : Type} (Has : Nat → α → Float → Prop) (item batch : Nat) (xs : List α)
    (data : List Float) : Prop where
  length : data.length = xs.length * batch
  lane : ∀ p x, xs[p]? = some x → ∀ l < batch,
    ∃ v, data[laneIndex item batch p l]? = some v ∧ Has l x v

section Lays

variable {α β : Type} {Has : Nat → α → Float → Prop} {Has' : Nat → β → Float → Prop}
  {item batch : Nat} {xs ys zs : List α} {data data' : List Float}

/-- There is a list of numbers of which each is as asked for. -/
theorem exists_list {Q : Nat → Float → Prop} {count : Nat} (each : ∀ q < count, ∃ v, Q q v) :
    ∃ data : List Float, data.length = count ∧ ∀ q < count, ∃ v, data[q]? = some v ∧ Q q v := by
  choose f hf using each
  refine ⟨List.ofFn fun i : Fin count => f i i.isLt, List.length_ofFn, fun q lt => ?_⟩
  exact ⟨f q lt, by simp [lt], hf q lt⟩

/-- Elements that make up whole items hold data as soon as each has all its
lanes, and whatever belongs to a lane belongs to the place of its datum. -/
theorem exists_lays {Q : Nat → Float → Prop} (pos : 0 < item) (whole : item ∣ xs.length)
    (each : ∀ p x, xs[p]? = some x → ∀ l < batch,
      ∃ v, Has l x v ∧ Q (laneIndex item batch p l) v) :
    ∃ data, Lays Has item batch xs data ∧
      ∀ q < xs.length * batch, ∃ v, data[q]? = some v ∧ Q q v := by
  obtain ⟨groups, eq⟩ := whole
  rw [Nat.mul_comm] at eq
  have places : ∀ q < xs.length * batch, ∃ v, Q q v ∧
      ∃ x, xs[(laneAt item batch q).1]? = some x ∧ Has (laneAt item batch q).2 x v := by
    intro q lt
    obtain ⟨inside, lane⟩ := BatchedTensor.laneAt_lt (eq ▸ lt)
    have found := List.getElem?_eq_getElem (l := xs) (eq ▸ inside)
    obtain ⟨v, has, hq⟩ := each _ _ found _ lane
    rw [BatchedTensor.laneIndex_laneAt pos] at hq
    exact ⟨v, hq, _, found, has⟩
  obtain ⟨data, length, all⟩ := exists_list places
  refine ⟨data, ⟨length, fun p x hx l lt => ?_⟩, fun q lt => ?_⟩
  · have hp : p < xs.length := (List.getElem?_eq_some_iff.mp hx).1
    obtain ⟨v, hv, -, y, hy, has⟩ := all _ (eq ▸ BatchedTensor.laneIndex_lt (eq ▸ hp) lt)
    rw [BatchedTensor.laneAt_laneIndex pos lt] at hy has
    obtain rfl := Option.some.inj (hx.symm.trans hy)
    exact ⟨v, hv, has⟩
  · obtain ⟨v, hv, hq, -⟩ := all q lt
    exact ⟨v, hv, hq⟩

/-- Elements and their lanes are changed alike. -/
theorem Lays.map {f : α → β} {h : Float → Float} (lays : Lays Has item batch xs data)
    (each : ∀ l x v, Has l x v → Has' l (f x) (h v)) :
    Lays Has' item batch (xs.map f) (data.map h) where
  length := by simpa using lays.length
  lane := by
    intro p y hy l lt
    rw [List.getElem?_map] at hy
    obtain ⟨x, hx, rfl⟩ := Option.map_eq_some_iff.mp hy
    obtain ⟨v, hv, has⟩ := lays.lane p x hx l lt
    exact ⟨h v, by rw [List.getElem?_map, hv]; rfl, each l x v has⟩

end Lays

end CipherFlow
