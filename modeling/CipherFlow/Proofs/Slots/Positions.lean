import CipherFlow.Proofs.Arith.Powers
import CipherFlow.Proofs.Slots.Encoding
import Mathlib.Data.List.Perm.Subperm
import Mathlib.RingTheory.ZMod.UnitsCyclic

/-!
# Positions of slots

For a degree that is a power of two from four on, the powers of five that carry
the slots and their opposites are all odd numbers below twice the degree, each
once: five has order `degree / 2`, its powers are 1 modulo four and their
opposites 3. So no value of a spectrum is written over.
-/

namespace CipherFlow.Slots.Embedding

variable {α : Type} {k degree size i j g : Nat}

/-! ## Powers of five -/

theorem positions_eq (pos : 0 < degree) :
    positions degree = (List.range (degree / 2)).map fun j => 5 ^ j % (2 * degree) :=
  List.map_congr_left fun j _ => Modular.pow_eq (by omega) 5 j

theorem getElem?_positions (pos : 0 < degree) (lt : j < degree / 2) :
    (positions degree)[j]? = some (5 ^ j % (2 * degree)) := by
  rw [positions_eq pos, List.getElem?_map, List.getElem?_range lt, Option.map_some]

theorem length_positions : (positions degree).length = degree / 2 := by
  rw [positions, List.length_map, List.length_range]

/-- Five has order `2 ^ (k + 1)` modulo `2 ^ (k + 3)`, so its powers below that differ. -/
theorem pow_five_injective (hi : i < 2 ^ (k + 1)) (hj : j < 2 ^ (k + 1))
    (h : 5 ^ i % 2 ^ (k + 3) = 5 ^ j % 2 ^ (k + 3)) : i = j := by
  have cast := (ZMod.natCast_eq_natCast_iff' _ _ _).mpr h
  push_cast at cast
  refine pow_injOn_Iio_orderOf (x := (5 : ZMod (2 ^ (k + 3)))) ?_ ?_ cast
  · rwa [Set.mem_Iio, ZMod.orderOf_five (k + 1)]
  · rwa [Set.mem_Iio, ZMod.orderOf_five (k + 1)]

theorem pow_five_mod_four (four : 4 ∣ size) (j : Nat) : 5 ^ j % size % 4 = 1 := by
  rw [Nat.mod_mod_of_dvd _ four, Nat.pow_mod, Nat.one_pow]

theorem exists_degree (two_le : 2 ≤ k) : ∃ m, 2 ^ k = 2 ^ (m + 2) ∧ 2 ^ k / 2 = 2 ^ (m + 1) ∧
    2 * 2 ^ k = 2 ^ (m + 3) := by
  obtain ⟨m, rfl⟩ := Nat.exists_eq_add_of_le' two_le
  refine ⟨m, rfl, ?_, ?_⟩
  · rw [Nat.pow_succ, Nat.mul_div_cancel _ two_pos]
  · rw [Nat.pow_succ 2 (m + 2), Nat.mul_comm]

theorem four_dvd_size (two_le : 2 ≤ k) : 4 ∣ 2 * 2 ^ k :=
  Dvd.dvd.mul_left (pow_dvd_pow 2 two_le) 2

theorem pow_five_spec (two_le : 2 ≤ k) (j : Nat) :
    5 ^ j % (2 * 2 ^ k) < 2 * 2 ^ k ∧ 5 ^ j % (2 * 2 ^ k) % 4 = 1 :=
  ⟨Nat.mod_lt _ (by positivity), pow_five_mod_four (four_dvd_size two_le) j⟩

theorem mod_four_of_mem (two_le : 2 ≤ k) (h : g ∈ positions (2 ^ k)) :
    g < 2 * 2 ^ k ∧ g % 4 = 1 := by
  rw [positions_eq (Nat.two_pow_pos k)] at h
  obtain ⟨j, -, rfl⟩ := List.mem_map.mp h
  exact pow_five_spec two_le j

/-- No two slots share a position. -/
theorem position_injective (two_le : 2 ≤ k) (hi : i < 2 ^ k / 2) (hj : j < 2 ^ k / 2)
    (h : 5 ^ i % (2 * 2 ^ k) = 5 ^ j % (2 * 2 ^ k)) : i = j := by
  obtain ⟨m, -, half, double⟩ := exists_degree two_le
  rw [half] at hi hj
  rw [double] at h
  exact pow_five_injective hi hj h

theorem nodup_positions (two_le : 2 ≤ k) : (positions (2 ^ k)).Nodup := by
  rw [positions_eq (Nat.two_pow_pos k)]
  exact List.Nodup.map_on (fun i hi j hj => position_injective two_le (List.mem_range.mp hi)
    (List.mem_range.mp hj)) List.nodup_range

/-! ## All odd numbers -/

/-- The positions of the slots and those of their conjugates. -/
def places (degree : Nat) : List Nat :=
  positions degree ++ (positions degree).map (2 * degree - ·)

/-- Positions are 1 modulo four and their opposites 3, so the two kinds do not meet. -/
theorem nodup_places (two_le : 2 ≤ k) : (places (2 ^ k)).Nodup := by
  have four := four_dvd_size two_le
  have nodup := nodup_positions two_le
  refine List.nodup_append.mpr ⟨nodup, List.Nodup.map_on (fun a ha b hb eq => ?_) nodup, ?_⟩
  · have := mod_four_of_mem two_le ha
    have := mod_four_of_mem two_le hb
    omega
  · rintro a ha _ hb rfl
    obtain ⟨b, hb, eq⟩ := List.mem_map.mp hb
    have := mod_four_of_mem two_le ha
    have := mod_four_of_mem two_le hb
    omega

/-- The odd numbers below twice a degree. -/
def odds (degree : Nat) : List Nat :=
  (List.range degree).map (2 * · + 1)

theorem mem_odds_iff : i ∈ odds degree ↔ i < 2 * degree ∧ i % 2 = 1 := by
  simp only [odds, List.mem_map, List.mem_range]
  exact ⟨fun ⟨t, lt, eq⟩ => by omega, fun h => ⟨i / 2, by omega, by omega⟩⟩

theorem places_subset_odds (two_le : 2 ≤ k) : places (2 ^ k) ⊆ odds (2 ^ k) := by
  have four := four_dvd_size two_le
  intro i hi
  rw [mem_odds_iff]
  rcases List.mem_append.mp hi with hi | hi
  · have := mod_four_of_mem two_le hi
    omega
  · obtain ⟨g, hg, rfl⟩ := List.mem_map.mp hi
    have := mod_four_of_mem two_le hg
    omega

/-- There are as many places as odd numbers, so these are all. -/
theorem mem_places_iff (two_le : 2 ≤ k) : i ∈ places (2 ^ k) ↔ i < 2 * 2 ^ k ∧ i % 2 = 1 := by
  have length : (odds (2 ^ k)).length ≤ (places (2 ^ k)).length := by
    obtain ⟨m, full, half, -⟩ := exists_degree two_le
    rw [odds, places, List.length_append, List.length_map, List.length_map, List.length_range,
      length_positions, half, full, Nat.pow_succ]
    omega
  have same := ((nodup_places two_le).subperm (places_subset_odds two_le)).perm_of_length_le length
  rw [← mem_odds_iff]
  exact same.mem_iff

/-! ## Spectra -/

/-- Writes a value at a position and its conjugate at the opposite one. -/
def place (conj : α → α) (size : Nat) (acc : Array α) (gv : Nat × α) : Array α :=
  (acc.setIfInBounds gv.1 gv.2).setIfInBounds (size - gv.1) (conj gv.2)

theorem spectrum_eq (zero : α) (conj : α → α) (degree : Nat) (values : List α) :
    spectrum zero conj degree values =
      (((positions degree).zip values).foldl (place conj (2 * degree))
        (Array.replicate (2 * degree) zero)).toList :=
  rfl

/-- Elsewhere nothing is written. -/
theorem getElem?_foldl_place_of_ne (conj : α → α) (gvs : List (Nat × α)) (acc : Array α)
    (ne : ∀ gv ∈ gvs, i ≠ gv.1 ∧ i ≠ size - gv.1) :
    (gvs.foldl (place conj size) acc)[i]? = acc[i]? := by
  induction gvs generalizing acc with
  | nil => rfl
  | cons gv gvs ih =>
    obtain ⟨first, rest⟩ := List.forall_mem_cons.mp ne
    rw [List.foldl_cons, ih _ rest, place, Array.getElem?_setIfInBounds_ne first.2.symm,
      Array.getElem?_setIfInBounds_ne first.1.symm]

/-- Positions that are 1 modulo four and differ are not written twice, nor are
their opposites. -/
theorem getElem?_foldl_place (conj : α → α) (four : 4 ∣ size) (gvs : List (Nat × α))
    (acc : Array α) (full : acc.size = size) (nodup : (gvs.map Prod.fst).Nodup)
    (odd : ∀ gv ∈ gvs, gv.1 < size ∧ gv.1 % 4 = 1) :
    ∀ gv ∈ gvs, (gvs.foldl (place conj size) acc)[gv.1]? = some gv.2 ∧
      (gvs.foldl (place conj size) acc)[size - gv.1]? = some (conj gv.2) := by
  induction gvs generalizing acc with
  | nil => exact fun gv h => nomatch h
  | cons gv gvs ih =>
    obtain ⟨fresh, nodup⟩ := List.nodup_cons.mp nodup
    obtain ⟨first, rest⟩ := List.forall_mem_cons.mp odd
    -- The values written later leave the first one in place, and so do their conjugates.
    refine List.forall_mem_cons.mpr ⟨?_, ih _ ?_ nodup rest⟩
    · have apart : ∀ hw ∈ gvs, gv.1 ≠ hw.1 := fun hw mem eq =>
        fresh (eq ▸ List.mem_map_of_mem mem)
      rw [List.foldl_cons, getElem?_foldl_place_of_ne, getElem?_foldl_place_of_ne]
      · constructor
        · rw [place, Array.getElem?_setIfInBounds_ne (by omega),
            Array.getElem?_setIfInBounds_self_of_lt (by omega)]
        · rw [place, Array.getElem?_setIfInBounds_self_of_lt]
          rw [Array.size_setIfInBounds]
          omega
      · intro hw mem
        have := rest hw mem
        have := apart hw mem
        omega
      · intro hw mem
        have := rest hw mem
        exact ⟨apart hw mem, by omega⟩
    · rw [place, Array.size_setIfInBounds, Array.size_setIfInBounds, full]

/-- Each value stands at its position, its conjugate at the opposite one, and zero
everywhere else. -/
structure IsSpectrum (zero : α) (conj : α → α) (degree : Nat) (values all : List α) : Prop where
  length : all.length = 2 * degree
  value : ∀ j v, values[j]? = some v → all[5 ^ j % (2 * degree)]? = some v
  conjugate : ∀ j v, values[j]? = some v →
    all[2 * degree - 5 ^ j % (2 * degree)]? = some (conj v)
  zero : ∀ i < 2 * degree, (∀ j < values.length,
    i ≠ 5 ^ j % (2 * degree) ∧ i ≠ 2 * degree - 5 ^ j % (2 * degree)) → all[i]? = some zero

theorem map_fst_zip_sublist {β : Type} (xs : List α) (ys : List β) :
    ((xs.zip ys).map Prod.fst).Sublist xs := by
  induction xs generalizing ys with
  | nil => exact .slnil
  | cons x xs ih =>
    cases ys with
    | nil => exact List.nil_sublist _
    | cons y ys => exact (ih ys).cons_cons x

theorem mem_zip_positions (pos : 0 < degree) {values : List α} {v : α}
    (few : values.length ≤ degree / 2) (h : values[j]? = some v) :
    (5 ^ j % (2 * degree), v) ∈ (positions degree).zip values := by
  obtain ⟨lt, -⟩ := List.getElem?_eq_some_iff.mp h
  refine List.mem_of_getElem? (i := j) ?_
  rw [List.getElem?_zip_eq_some]
  exact ⟨getElem?_positions pos (Nat.lt_of_lt_of_le lt few), h⟩

/-- The spectrum of values is what it should be: each position is written once. -/
theorem isSpectrum_spectrum (two_le : 2 ≤ k) (zero : α) (conj : α → α) {values : List α}
    (few : values.length ≤ 2 ^ k / 2) :
    IsSpectrum zero conj (2 ^ k) values (spectrum zero conj (2 ^ k) values) := by
  have pos : 0 < 2 ^ k := Nat.two_pow_pos k
  have nodup := (nodup_positions two_le).sublist (map_fst_zip_sublist _ values)
  have written := getElem?_foldl_place conj (four_dvd_size two_le) ((positions (2 ^ k)).zip values)
    (Array.replicate (2 * 2 ^ k) zero) Array.size_replicate nodup
    fun gv mem => mod_four_of_mem two_le (List.of_mem_zip mem).1
  refine ⟨length_spectrum zero conj (2 ^ k) values, fun j v h => ?_, fun j v h => ?_,
    fun i lt ne => ?_⟩
  · rw [spectrum_eq, Array.getElem?_toList]
    exact (written _ (mem_zip_positions pos few h)).1
  · rw [spectrum_eq, Array.getElem?_toList]
    exact (written _ (mem_zip_positions pos few h)).2
  · rw [spectrum_eq, Array.getElem?_toList, getElem?_foldl_place_of_ne,
      Array.getElem?_replicate, if_pos lt]
    intro gv mem
    obtain ⟨j, hj⟩ := List.mem_iff_getElem?.mp mem
    obtain ⟨place, value⟩ := List.getElem?_zip_eq_some.mp hj
    obtain ⟨short, -⟩ := List.getElem?_eq_some_iff.mp value
    rw [getElem?_positions pos (Nat.lt_of_lt_of_le short few)] at place
    rw [← Option.some.inj place]
    exact ne j short

end CipherFlow.Slots.Embedding
