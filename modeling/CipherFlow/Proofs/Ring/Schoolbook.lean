import CipherFlow.Proofs.Ring.Image

/-!
# The schoolbook product in machine words

Two channels are multiplied coefficient by coefficient. Each product is added
to the accumulator at the sum of the two places, or taken away from it where
that sum comes back through `X ^ n = -1`. No step leaves the words, and the
accumulator ends as the product of the two channels: at every moment it is a
channel, and its value grows by that of the term.
-/

namespace CipherFlow.Ring.InWords

open Word

variable {n q a i j k prod : Nat} {as bs acc : List Nat}

/-! ## The loops

Two loops, over the coefficients of the one factor and of the other, around a step
that changes one place of the accumulator. -/

/-- Adds a product at a place below `2 * n` to an accumulator of `n` places. -/
def accumulate? (n q k prod : Nat) (acc : List Nat) : Option (List Nat) :=
  if k < n then do
    let x ← acc[k]?
    let sum ← addMod? x prod q
    return acc.set k sum
  else do
    let slot ← sub? k n
    let x ← acc[slot]?
    let difference ← subMod? x prod q
    return acc.set slot difference

/-- Adds the products of one coefficient with those from place `j` on. -/
def mulRow? (n q i a : Nat) : (j : Nat) → (bs acc : List Nat) → Option (List Nat)
  | _, [], acc => some acc
  | j, b :: bs, acc => do
    let prod ← mulMod? a b q
    let k ← add? i j
    let acc ← accumulate? n q k prod acc
    mulRow? n q i a (j + 1) bs acc

/-- Adds the products of the coefficients from place `i` on; zero has none. -/
def mulRows? (n q : Nat) (bs : List Nat) : (i : Nat) → (as acc : List Nat) → Option (List Nat)
  | _, [], acc => some acc
  | i, a :: as, acc =>
    if a = 0 then mulRows? n q bs (i + 1) as acc
    else do
      let acc ← mulRow? n q i a 0 bs acc
      mulRows? n q bs (i + 1) as acc

/-- The negacyclic product of two channels. -/
def mulChannel? (n q : Nat) (as bs : List Nat) : Option (List Nat) :=
  mulRows? n q bs 0 as (List.replicate n 0)

/-! ## What they compute

For any accumulator that is a channel, by induction on the coefficients that are
left: the value of the accumulator grows by that of the terms to come. -/

theorem isChannel_set {v : Nat} (h : IsChannel n q acc) (lt : v < q) :
    IsChannel n q (acc.set k v) := by
  refine ⟨List.length_set.trans h.length, fun r hr => ?_⟩
  rcases List.mem_or_eq_of_mem_set hr with old | rfl
  · exact h.lt r old
  · exact lt

section Values

variable {A : Type} [CommRing A] {x : A}

theorem evaluateAt_set {y : Nat} (hy : acc[k]? = some y) (v : Nat) :
    evaluateAt x (acc.set k v) = evaluateAt x acc + (v - y) * x ^ k := by
  induction acc generalizing k with
  | nil => cases hy
  | cons c acc ih =>
    cases k with
    | zero =>
      obtain rfl : c = y := Option.some.inj hy
      rw [List.set_cons_zero, evaluateAt, evaluateAt]
      ring
    | succ k =>
      rw [List.set_cons_succ, evaluateAt, evaluateAt, ih hy]
      ring

variable (hq : IsModulus q) (zero : (q : A) = 0) (hx : x ^ n = -1)

include hq zero hx

/-- The accumulator stays a channel and grows by the term. -/
theorem accumulate?_spec (h : IsChannel n q acc) (lt : prod < q) (place : k < 2 * n) :
    ∃ acc', accumulate? n q k prod acc = some acc' ∧ IsChannel n q acc' ∧
      evaluateAt x acc' = evaluateAt x acc + prod * x ^ k := by
  have entry : ∀ s < n, ∃ y, acc[s]? = some y ∧ y < q := fun s hs =>
    have inside : s < acc.length := h.length ▸ hs
    ⟨acc[s], List.getElem?_eq_getElem inside, h.lt _ (List.getElem_mem inside)⟩
  by_cases low : k < n
  · obtain ⟨y, hy, below⟩ := entry k low
    refine ⟨acc.set k (Modular.add y prod q), ?_, isChannel_set h (Modular.add_lt below lt), ?_⟩
    · rw [accumulate?, if_pos low, hy, Option.bind_eq_bind, Option.bind_some,
        addMod?_eq hq below lt]
      rfl
    · rw [evaluateAt_set hy, cast_add zero]
      ring
  · obtain ⟨y, hy, below⟩ := entry (k - n) (by omega)
    -- Past the degree a power comes back with the opposite sign.
    have back : x ^ k = -x ^ (k - n) := by
      conv_lhs => rw [← Nat.sub_add_cancel (Nat.le_of_not_lt low), pow_add, hx]
      ring
    refine ⟨acc.set (k - n) (Modular.sub y prod q), ?_, isChannel_set h (Modular.sub_lt below), ?_⟩
    · rw [accumulate?, if_neg low, sub?_of_le (Nat.le_of_not_lt low), Option.bind_eq_bind,
        Option.bind_some, hy, Option.bind_some, subMod?_eq hq lt]
      rfl
    · rw [evaluateAt_set hy, cast_sub zero y lt, back]
      ring

theorem mulRow?_spec (room : 2 * n ≤ wordSize) (ha : a < q) (hi : i < n)
    (lt : ∀ b ∈ bs, b < q) (places : j + bs.length ≤ n) (h : IsChannel n q acc) :
    ∃ acc', mulRow? n q i a j bs acc = some acc' ∧ IsChannel n q acc' ∧
      evaluateAt x acc' = evaluateAt x acc + a * x ^ (i + j) * evaluateAt x bs := by
  induction bs generalizing j acc with
  | nil => exact ⟨acc, rfl, h, by rw [evaluateAt]; ring⟩
  | cons b bs ih =>
    obtain ⟨hb, lt⟩ := List.forall_mem_cons.mp lt
    rw [List.length_cons] at places
    have product := Modular.mul_lt hq.pos a b
    obtain ⟨acc₁, step, channel, value⟩ :=
      accumulate?_spec hq zero hx h product (show i + j < 2 * n by omega)
    obtain ⟨acc₂, rest, channel, value'⟩ := ih lt (show j + 1 + bs.length ≤ n by omega) channel
    refine ⟨acc₂, ?_, channel, ?_⟩
    · rw [mulRow?, mulMod?_eq hq ha hb, Option.bind_eq_bind, Option.bind_some,
        add?_of_lt (by omega), Option.bind_eq_bind, Option.bind_some, step]
      exact rest
    · rw [value', value, Modular.mul, cast_mod zero, evaluateAt]
      push_cast
      ring

theorem mulRows?_spec (room : 2 * n ≤ wordSize) (hb : IsChannel n q bs)
    (lt : ∀ a ∈ as, a < q) (places : i + as.length ≤ n) (h : IsChannel n q acc) :
    ∃ acc', mulRows? n q bs i as acc = some acc' ∧ IsChannel n q acc' ∧
      evaluateAt x acc' = evaluateAt x acc + x ^ i * evaluateAt x as * evaluateAt x bs := by
  induction as generalizing i acc with
  | nil => exact ⟨acc, rfl, h, by rw [evaluateAt]; ring⟩
  | cons a as ih =>
    obtain ⟨ha, lt⟩ := List.forall_mem_cons.mp lt
    rw [List.length_cons] at places
    by_cases none : a = 0
    · obtain ⟨acc', rest, channel, value⟩ := ih lt (show i + 1 + as.length ≤ n by omega) h
      refine ⟨acc', by rwa [mulRows?, if_pos none], channel, ?_⟩
      rw [value, evaluateAt, none, Nat.cast_zero]
      ring
    · obtain ⟨acc₁, row, channel, value⟩ :=
        mulRow?_spec hq zero hx room ha (show i < n by omega) hb.lt
          (show 0 + bs.length ≤ n by rw [hb.length]; omega) h
      obtain ⟨acc₂, rest, channel, value'⟩ := ih lt (show i + 1 + as.length ≤ n by omega) channel
      refine ⟨acc₂, ?_, channel, ?_⟩
      · rw [mulRows?, if_neg none, row]
        exact rest
      · rw [value', value, evaluateAt]
        ring

end Values

/-- The product is that of the channels: both are channels of one value. -/
theorem mulChannel?_eq (hq : IsModulus q) (hn : n ≠ 0) (room : 2 * n ≤ wordSize)
    (ha : IsChannel n q as) (hb : IsChannel n q bs) :
    mulChannel? n q as bs = some (Channel.mul q as bs) := by
  have zero := cast_prime_eq_zero n q
  have start : IsChannel n q (List.replicate n 0) :=
    ⟨List.length_replicate, fun r hr => List.eq_of_mem_replicate hr ▸ hq.pos⟩
  obtain ⟨acc, eq, channel, value⟩ := mulRows?_spec hq zero (root_pow n q) room hb ha.lt
    (show 0 + as.length ≤ n by rw [ha.length]; omega) start
  have product := isChannel_mul hq.pos ha hb
  have same : acc = Channel.mul q as bs := by
    refine channel_eq_of_evaluateAt_eq hn hq.one_lt channel.length product.length channel.lt
      product.lt ?_
    rw [value, evaluateAt_replicate_zero, evaluateAt_mul zero (hb.length ▸ root_pow n q) hq.pos
      (ha.length.trans hb.length.symm)]
    ring
  rw [mulChannel?, eq, same]

end CipherFlow.Ring.InWords
