import CipherFlow.Proofs.Ring.Integers
import CipherFlow.Proofs.Ring.MixedRadix
import Mathlib.Algebra.Order.Round
import Mathlib.Data.Rat.Floor
import Mathlib.Tactic.Linarith

/-!
# Division by the last prime

An integer is its centred residue modulo the last prime plus a multiple of
that prime, and the multiple is the nearest integer to its quotient. Every
other prime finds the residue of the multiple on its own: it takes the centred
residue away and multiplies by its inverse of the last prime.

`divideByLast_ofInts` is the statement for integer polynomials, `divideByLast_ok`
the one for elements, in terms of images: the quotient times the prime is the
element without the centred residues.

One residue comes first (`mul_cast_divide`), then a channel, evaluated at the class
of `X` (`mul_evaluateAt_divideChannel`). That the multiple is the nearest integer is
a fact about integers (`round_div`), used for each coefficient.
-/

namespace CipherFlow.Ring

variable {B b target : Basis} {p : Poly} {q last n : Nat}

/-! ## The nearest integer -/

/-- Half a modulus away at most, a multiple of an odd number is the nearest. -/
theorem round_div {y r : Int} (digit : IsDigit last r) :
    round (((last * y + r : Int) : ℚ) / last) = y := by
  unfold IsDigit at digit
  have pos : (0 : ℚ) < last := by exact_mod_cast Nat.zero_lt_of_lt digit
  have lower : -(last : ℚ) < 2 * r := by
    have : -(last : Int) < 2 * r := by omega
    exact_mod_cast this
  have upper : 2 * (r : ℚ) < last := by
    have : 2 * r < (last : Int) := by omega
    exact_mod_cast this
  have quotient : ((last * y + r : Int) : ℚ) / last = y + r / last := by
    push_cast
    field_simp
  have below : (r : ℚ) / last < 1 / 2 := by
    rw [div_lt_iff₀ pos]
    linarith
  have above : -(1 / 2) ≤ (r : ℚ) / last := by
    rw [le_div_iff₀ pos]
    linarith
  rw [quotient, round_intCast_add, round_eq_zero_iff.mpr ⟨above, below⟩, add_zero]

/-- An integer is a multiple of an odd number plus the centred residue; the
multiple is the nearest integer to the quotient. -/
theorem eq_mul_round_add_centre (odd : last % 2 = 1) (v : Int) :
    v = last * round ((v : ℚ) / last) + Modular.centre (Modular.ofInt v last) last := by
  have pos : 0 < last := by omega
  have below := Modular.ofInt_lt pos v
  have zero : (last : ZMod last) = 0 := ZMod.natCast_self last
  have digit := isDigit_centre below odd
  have dvd : (last : Int) ∣ v - Modular.centre (Modular.ofInt v last) last := by
    rw [← ZMod.intCast_zmod_eq_zero_iff_dvd, Int.cast_sub, cast_centre zero below,
      cast_ofInt zero v pos, sub_self]
  obtain ⟨y, hy⟩ := dvd
  have eq : v = last * y + Modular.centre (Modular.ofInt v last) last := by omega
  generalize Modular.centre (Modular.ofInt v last) last = r at eq digit
  subst eq
  rw [round_div digit]

/-! ## One channel -/

/-- A prime that does not divide a number inverts it in every ring where the
prime is zero. -/
theorem cast_inv_mul {A : Type} [CommRing A] [prime : Fact q.Prime] (hq : (q : A) = 0)
    (nonzero : (last : ZMod q) ≠ 0) : ((Modular.inv last q : Nat) : A) * last = 1 := by
  have residue := Modular.cast_inv_mul nonzero
  rw [← Nat.cast_mul, ← Nat.cast_one, ZMod.natCast_eq_natCast_iff'] at residue
  rw [← Nat.cast_mul, ← cast_mod hq, residue, cast_mod hq, Nat.cast_one]

/-- What division makes of one residue, times the last prime. -/
theorem mul_cast_divide {A : Type} [CommRing A] [prime : Fact q.Prime] (hq : (q : A) = 0)
    (nonzero : (last : ZMod q) ≠ 0) (x : Nat) (r : Int) :
    (last : A) * (Modular.mul (Modular.sub x (Modular.ofInt r q) q) (Modular.inv last q) q : Nat) =
      x - r := by
  have pos : 0 < q := prime.out.pos
  have below := Modular.ofInt_lt pos r
  have inverse := cast_inv_mul hq nonzero
  rw [Modular.mul, cast_mod hq, Nat.cast_mul, cast_sub hq x below, cast_ofInt hq r pos]
  linear_combination (x - r : A) * inverse

/-- Division takes the centred residues away and divides what is left. -/
theorem mul_evaluateAt_divideChannel {A : Type} [CommRing A] [Fact q.Prime] (hq : (q : A) = 0)
    (nonzero : (last : ZMod q) ≠ 0) (x : A) {c : List Nat} {remainders : List Int}
    (length : c.length = remainders.length) :
    last * evaluateAt x (Poly.divideChannel last remainders q c) =
      evaluateAt x c - evaluateIntsAt x remainders := by
  unfold Poly.divideChannel
  induction c generalizing remainders with
  | nil =>
    obtain rfl := List.length_eq_zero_iff.mp length.symm
    simp [evaluateAt, evaluateIntsAt]
  | cons y c ih =>
    cases remainders with
    | nil => cases length
    | cons r remainders =>
      have head := mul_cast_divide hq nonzero y r
      have tail := ih (Nat.succ.inj length)
      simp only [List.zipWith_cons_cons, evaluateAt, evaluateIntsAt] at tail ⊢
      linear_combination head + x * tail

/-- The residues of integers become those of the nearest integers to their
quotients. -/
theorem divideChannel_ofInt [prime : Fact q.Prime] (odd : last % 2 = 1)
    (nonzero : (last : ZMod q) ≠ 0) (c : List Int) :
    Poly.divideChannel last (c.map fun v => Modular.centre (Modular.ofInt v last) last) q
        (c.map (Modular.ofInt · q)) =
      (c.map fun v : Int => round ((v : ℚ) / last)).map (Modular.ofInt · q) := by
  have pos : 0 < q := prime.out.pos
  have zero : (q : ZMod q) = 0 := ZMod.natCast_self q
  rw [Poly.divideChannel, List.zipWith_map, List.zipWith_self, List.map_map]
  refine List.map_congr_left fun v _ => ?_
  have residue : ((Modular.ofInt v q : Nat) : ZMod q) = v := cast_ofInt zero v pos
  have divided := mul_cast_divide zero nonzero (Modular.ofInt v q)
    (Modular.centre (Modular.ofInt v last) last)
  have parts : (v : ZMod q) = last * (round ((v : ℚ) / last) : Int) +
      (Modular.centre (Modular.ofInt v last) last : Int) := by
    exact_mod_cast congrArg (Int.cast : Int → ZMod q) (eq_mul_round_add_centre odd v)
  rw [residue, parts, add_sub_cancel_right] at divided
  have same := mul_left_cancel₀ nonzero divided
  rw [← cast_ofInt zero _ pos, ZMod.natCast_eq_natCast_iff'] at same
  have below : Modular.mul (Modular.sub (Modular.ofInt v q)
      (Modular.ofInt (Modular.centre (Modular.ofInt v last) last) q) q)
      (Modular.inv last q) q < q :=
    Nat.mod_lt _ pos
  rwa [Nat.mod_eq_of_lt below, Nat.mod_eq_of_lt (Modular.ofInt_lt pos _)] at same

/-! ## Elements -/

/-- One prime fewer leaves the last one out. -/
theorem primes_eq_append_lastPrime (small : target.isInitialOf B = true)
    (fewer : target.primes.length + 1 = B.primes.length) :
    B.primes = target.primes ++ [B.lastPrime] := by
  simp only [Basis.isInitialOf, Bool.and_eq_true, List.isPrefixOf_iff_prefix] at small
  obtain ⟨rest, eq⟩ := small.2
  have one : rest.length = 1 := by
    rw [← eq, List.length_append] at fewer
    omega
  obtain ⟨last, rfl⟩ := List.length_eq_one_iff.mp one
  rw [Basis.lastPrime, ← eq, List.getLastD_concat]

/-- With at least two primes and all but the last to divide at, division
succeeds. Each channel is divided on its own, by the residues of the last. -/
theorem divideByLast_of_isInitialOf (several : 2 ≤ B.primes.length)
    (small : target.isInitialOf B = true) (fewer : target.primes.length + 1 = B.primes.length)
    (hp : p.basis = B) (length : p.channels.length = B.primes.length) :
    p.divideByLast target = .ok ⟨target, List.zipWith (Poly.divideChannel B.lastPrime
      ((p.channels.getLastD []).map (Modular.centre · B.lastPrime))) target.primes p.channels⟩ := by
  have count : ¬ p.channelCount ≤ 1 := by
    rw [Poly.channelCount]
    omega
  have fits : (decide (target.channelCount + 1 = p.channelCount) &&
      target.isInitialOf p.basis) = true := by
    rw [hp, small, Bool.and_true, decide_eq_true_eq, Poly.channelCount, length]
    exact fewer
  rw [Poly.divideByLast, if_neg count, hp]
  exact if_pos (hp ▸ fits)

/-- The channels of the quotient of an element are reduced, whether or not the
divisors are prime. -/
theorem divideByLast_isOver (pos : ∀ q ∈ target.primes, 0 < q) (several : 2 ≤ B.primes.length)
    (small : target.isInitialOf B = true) (fewer : target.primes.length + 1 = B.primes.length)
    (hp : p.IsOver B) :
    ∃ r, p.divideByLast target = .ok r ∧ r.IsOver target ∧
      ∀ i q, target.primes[i]? = some q →
        r.channel i = Poly.divideChannel B.lastPrime
          ((p.channels.getLastD []).map (Modular.centre · B.lastPrime)) q (p.channel i) := by
  have count := hp.reduced.length_channels
  rw [hp.basis] at count
  have equation := divideByLast_of_isInitialOf several small fewer hp.basis count
  have last : p.channels.getLastD [] ∈ p.channels := by
    have some : p.channels ≠ [] := List.length_pos_iff.mp (by omega)
    rw [List.getLastD_eq_getLast?, List.getLast?_eq_some_getLast some, Option.getD_some]
    exact List.getLast_mem some
  have length := hp.reduced.length_channel _ last
  rw [hp.basis] at length
  have each : ∀ i q, target.primes[i]? = some q → B.primes[i]? = some q ∧
      (List.zipWith (Poly.divideChannel B.lastPrime
        ((p.channels.getLastD []).map (Modular.centre · B.lastPrime))) target.primes
        p.channels)[i]? =
      some (Poly.divideChannel B.lastPrime
        ((p.channels.getLastD []).map (Modular.centre · B.lastPrime)) q (p.channel i)) := by
    intro i q hq
    have mem : B.primes[i]? = some q := by
      rw [primes_eq_append_lastPrime small fewer,
        List.getElem?_append_left (List.getElem?_eq_some_iff.mp hq).1, hq]
    exact ⟨mem, by rw [List.getElem?_zipWith, hq, (hp.channel mem).2]⟩
  refine ⟨_, equation, Poly.isOver_of_channel ?_ ?_, ?_⟩
  · rw [List.length_zipWith, count, ← fewer]
    omega
  · intro i q c hq hc
    obtain ⟨mem, eq⟩ := each i q hq
    obtain rfl := Option.some.inj (eq.symm.trans hc)
    refine isChannel_zipWith ?_ ?_ fun a _ b _ => Nat.mod_lt _ (pos q (List.mem_of_getElem? hq))
    · rw [(hp.channel mem).1.length, degree_of_isInitialOf small]
    · rw [List.length_map, length, degree_of_isInitialOf small]
  · intro i q hq
    rw [Poly.channel, List.getD_eq_getElem?_getD, (each i q hq).2, Option.getD_some]

/-- What division by the last prime needs: distinct odd primes, at least two
of them, and all but the last one to divide at. -/
structure Divides (B target : Basis) : Prop where
  prime : ∀ q ∈ B.primes, q.Prime
  odd : ∀ q ∈ B.primes, q % 2 = 1
  nodup : B.primes.Nodup
  several : 2 ≤ B.primes.length
  small : target.isInitialOf B = true
  fewer : target.primes.length + 1 = B.primes.length

namespace Divides

variable (h : Divides B target)

include h

theorem primes_eq : B.primes = target.primes ++ [B.lastPrime] :=
  primes_eq_append_lastPrime h.small h.fewer

theorem lastPrime_mem : B.lastPrime ∈ B.primes := by
  rw [h.primes_eq]
  exact List.mem_append_right _ List.mem_cons_self

theorem getElem?_last : B.primes[target.primes.length]? = some B.lastPrime := by
  conv_lhs => rw [h.primes_eq]
  exact List.getElem?_concat_length

/-- The last prime can be inverted modulo the others. -/
theorem invertible (hq : q ∈ target.primes) : q.Prime ∧ (B.lastPrime : ZMod q) ≠ 0 := by
  have mem : q ∈ B.primes := by
    rw [h.primes_eq]
    exact List.mem_append_left _ hq
  have nodup := h.nodup
  rw [h.primes_eq] at nodup
  have ne : q ≠ B.lastPrime := fun eq =>
    List.disjoint_of_nodup_append nodup hq (eq ▸ List.mem_cons_self)
  refine ⟨h.prime q mem, fun zero => ne ?_⟩
  rw [ZMod.natCast_eq_zero_iff] at zero
  exact (Nat.prime_dvd_prime_iff_eq (h.prime q mem) (h.prime _ h.lastPrime_mem)).mp zero

/-- The channel that is divided by is the last one. -/
theorem remainders_eq (hp : p.IsOver B) :
    (p.channels.getLastD []).map (Modular.centre · B.lastPrime) =
      p.centred target.primes.length := by
  have length := hp.reduced.length_channels
  rw [hp.basis, ← h.fewer] at length
  have last : p.channels.getLastD [] = p.channel target.primes.length := by
    rw [List.getLastD_eq_getLast?, List.getLast?_eq_getElem?, length, Nat.add_sub_cancel,
      Poly.channel, List.getD_eq_getElem?_getD]
  have prime : p.basis.primes.getD target.primes.length 0 = B.lastPrime := by
    rw [hp.basis, List.getD_eq_getElem?_getD, h.getElem?_last, Option.getD_some]
  rw [Poly.centred, prime, last]

/-- Rescaling gives the residues of the nearest integers. -/
theorem divideByLast_ofInts (c : List Int) :
    (Poly.ofInts B c).divideByLast target =
      .ok (Poly.ofInts target (c.map fun v : Int => round ((v : ℚ) / B.lastPrime))) := by
  have initial : (Poly.ofInts B c).channels =
      target.primes.map (fun q => c.map (Modular.ofInt · q)) ++
        [c.map (Modular.ofInt · B.lastPrime)] := by
    rw [Poly.ofInts]
    conv_lhs => rw [h.primes_eq]
    rw [List.map_append, List.map_singleton]
  have remainders : ((Poly.ofInts B c).channels.getLastD []).map (Modular.centre · B.lastPrime) =
      c.map fun v => Modular.centre (Modular.ofInt v B.lastPrime) B.lastPrime := by
    rw [initial, List.getLastD_concat, List.map_map]
    rfl
  rw [divideByLast_of_isInitialOf h.several h.small h.fewer rfl (List.length_map _), remainders,
    initial]
  congr 2
  refine List.ext_getElem (by simp) ?_
  intro i hi hi'
  have lt : i < target.primes.length := by simpa using hi'
  obtain ⟨prime, nonzero⟩ := h.invertible (List.getElem_mem lt)
  have : Fact (target.primes[i]).Prime := ⟨prime⟩
  have residues := divideChannel_ofInt (h.odd _ h.lastPrime_mem) nonzero c
  simpa [lt] using residues

/-- Rescaling takes the centred residues of the last channel away and divides
what is left. -/
theorem divideByLast_ok (hp : p.IsOver B) :
    ∃ r, p.divideByLast target = .ok r ∧ r.IsOver target ∧
      (B.lastPrime : target.Quotient) * r.image target =
        p.image target - target.image (p.centred target.primes.length) := by
  obtain ⟨r, equation, isOver, channel⟩ := divideByLast_isOver
    (fun q hq => (h.invertible hq).1.pos) h.several h.small h.fewer hp
  rw [h.remainders_eq hp] at channel
  have length := (centred_le hp h.getElem?_last (h.odd _ h.lastPrime_mem)).1
  refine ⟨r, equation, isOver, ?_⟩
  funext i
  have prime : target.primes[i.val]? = some (target.primes.get i) :=
    List.getElem?_eq_getElem i.isLt
  have mem := prime_of_isInitialOf h.small i
  obtain ⟨isPrime, nonzero⟩ := h.invertible (List.mem_of_getElem? prime)
  have : Fact (target.primes.get i).Prime := ⟨isPrime⟩
  have divided := mul_evaluateAt_divideChannel (cast_prime_eq_zero target.degree _) nonzero
    (Negacyclic.root _ _) ((hp.channel mem).1.length.trans length.symm)
  simp only [Pi.mul_apply, Pi.sub_apply, Pi.natCast_apply, Poly.image, Basis.image,
    channel i.val _ prime]
  exact divided

end Divides

end CipherFlow.Ring
