import CipherFlow.Arith.Prime
import CipherFlow.Proofs.Fault
import Mathlib.Data.List.Perm.Subperm
import Mathlib.Order.Bounds.Basic

/-!
# The largest chain primes

The candidates of a stride, from the last one below a bound down to the first,
with those dropped that are excluded or not prime, are exactly the chain primes
below the bound in falling order. Both searches read this list from its head:
one looks for the first entry, the other for as many as are asked for. So what
they find is the largest there is, and they find nothing only if the list ends
too early.

`searches_find_largest` says this of both searches, `listBelow` and `largestBelow`,
within the range of arguments that they support.

How the proof goes. Of a falling list of all numbers of a kind (`Lists`) the first
entries are the largest, and the first one is the greatest; this is all that is
needed of such lists. The usable candidates are one for the chain primes
(`lists_usable`). That the searches read it from its head is shown by induction on
the number of candidates below (`listFrom_eq`, `largestFrom_eq`). The rest is about
words: no candidate leaves them (`stride_spec`), and a list that memory could not
hold is refused before the search begins (`listBelow_overfull`).
-/

namespace CipherFlow.Prime

variable {s k n count bits bound degree : Nat} {exclude : List Nat}

/-! ## The largest numbers of a kind -/

/-- As many numbers of a kind as counted, in falling order; all others of the
kind are smaller. -/
structure AreLargest (P : Nat → Prop) (count : Nat) (ns : List Nat) : Prop where
  length : ns.length = count
  falling : ns.Pairwise (· > ·)
  holds : ∀ n ∈ ns, P n
  greatest : ∀ m, P m → m ∉ ns → ∀ n ∈ ns, m < n

/-- There are fewer numbers of a kind: distinct ones are always less in number. -/
def Fewer (P : Nat → Prop) (count : Nat) : Prop :=
  ∀ ns : List Nat, ns.Nodup → (∀ n ∈ ns, P n) → ns.length < count

/-- A falling list of all numbers of a kind. -/
structure Lists (P : Nat → Prop) (all : List Nat) : Prop where
  falling : all.Pairwise (· > ·)
  mem : ∀ n, n ∈ all ↔ P n

variable {P : Nat → Prop} {all ns : List Nat}

theorem Lists.nodup (h : Lists P all) : all.Nodup :=
  h.falling.imp fun lt => (Nat.ne_of_gt lt)

theorem Lists.areLargest_take (h : Lists P all) (le : count ≤ all.length) :
    AreLargest P count (all.take count) := by
  have split : all.take count ++ all.drop count = all := List.take_append_drop count all
  have falling := h.falling
  rw [← split, List.pairwise_append] at falling
  refine ⟨by simpa using le, falling.1, fun n hn => (h.mem n).mp (List.mem_of_mem_take hn), ?_⟩
  intro m hm outside n hn
  have rest : m ∈ all.drop count := by
    have mem : m ∈ all.take count ++ all.drop count := by rw [split]; exact (h.mem m).mpr hm
    exact (List.mem_append.mp mem).resolve_left outside
  exact falling.2.2 n hn m rest

theorem AreLargest.nodup (h : AreLargest P count ns) : ns.Nodup :=
  h.falling.imp fun lt => (Nat.ne_of_gt lt)

/-- Two choices of the largest numbers have the same members: a number that
only one of them holds is smaller than all of the other, and then the one holds
all of the other and one number more. -/
theorem AreLargest.subset {ns' : List Nat} (h : AreLargest P count ns)
    (h' : AreLargest P count ns') : ns ⊆ ns' := by
  intro n hn
  by_contra outside
  have below : ∀ m ∈ ns', n < m := h'.greatest n (h.holds n hn) outside
  have inside : ns' ⊆ ns := by
    intro m hm
    by_contra missing
    exact absurd (h.greatest m (h'.holds m hm) missing n hn) (Nat.lt_asymm (below m hm))
  have more : (n :: ns').Subperm ns :=
    (List.nodup_cons.mpr ⟨outside, h'.nodup⟩).subperm (List.cons_subset.mpr ⟨hn, inside⟩)
  have length := more.length_le
  simp only [List.length_cons, h.length, h'.length] at length
  omega

/-- There is one choice of the largest numbers at most. -/
theorem AreLargest.unique {ns' : List Nat} (h : AreLargest P count ns)
    (h' : AreLargest P count ns') : ns = ns' := by
  have perm : ns.Perm ns' := by
    rw [List.perm_ext_iff_of_nodup h.nodup h'.nodup]
    exact fun n => ⟨fun hn => h.subset h' hn, fun hn => h'.subset h hn⟩
  exact perm.eq_of_pairwise (fun a b _ _ ab ba => absurd ab (Nat.lt_asymm ba)) h.falling h'.falling

theorem Lists.fewer_iff (h : Lists P all) : Fewer P count ↔ all.length < count := by
  constructor
  · intro fewer
    exact fewer all h.nodup fun n hn => (h.mem n).mp hn
  · intro lt ns nodup holds
    have le := (nodup.subperm fun n hn => (h.mem n).mpr (holds n hn)).length_le
    omega

/-- The largest numbers of a kind are the first of a list of all, if it is long
enough. -/
theorem Lists.areLargest_iff (h : Lists P all) :
    AreLargest P count ns ↔ count ≤ all.length ∧ ns = all.take count := by
  constructor
  · intro largest
    have le : count ≤ all.length := by
      by_contra lt
      have fewer := h.fewer_iff.mpr (Nat.not_le.mp lt) ns largest.nodup largest.holds
      have length := largest.length
      omega
    exact ⟨le, largest.unique (h.areLargest_take le)⟩
  · rintro ⟨le, rfl⟩
    exact h.areLargest_take le

/-- The greatest number of a kind is the first of a list of all. -/
theorem Lists.head?_eq_some_iff (h : Lists P all) :
    all.head? = some n ↔ IsGreatest {m | P m} n := by
  cases all with
  | nil =>
    have none : ¬ P n := by simpa using (h.mem n).not
    simpa [IsGreatest] using fun holds => absurd holds none
  | cons m rest =>
    have first : P m := (h.mem m).mp List.mem_cons_self
    have greatest : IsGreatest {m | P m} m := by
      refine ⟨first, fun k hk => ?_⟩
      rcases List.mem_cons.mp ((h.mem k).mpr hk) with rfl | mem
      · exact Nat.le_refl _
      · exact Nat.le_of_lt (List.rel_of_pairwise_cons h.falling mem)
    simp only [List.head?_cons, Option.some.injEq]
    exact ⟨fun eq => eq ▸ greatest, fun greatest' => greatest.unique greatest'⟩

theorem Lists.head?_eq_none_iff (h : Lists P all) : all.head? = none ↔ ∀ n, ¬ P n := by
  rw [List.head?_eq_none_iff, List.eq_nil_iff_forall_not_mem]
  exact forall_congr' fun n => (h.mem n).not

/-! ## Candidates -/

/-- The candidates numbered `k` and below, in falling order. -/
def candidates (s : Nat) : (k : Nat) → List Nat
  | 0 => []
  | k + 1 => (s * (k + 1) + 1) :: candidates s k

theorem mem_candidates : n ∈ candidates s k ↔ ∃ j, 0 < j ∧ j ≤ k ∧ n = s * j + 1 := by
  induction k with
  | zero =>
    simp only [candidates, List.not_mem_nil, false_iff]
    rintro ⟨j, pos, le, -⟩
    omega
  | succ k ih =>
    rw [candidates, List.mem_cons, ih]
    constructor
    · rintro (rfl | ⟨j, pos, le, rfl⟩)
      · exact ⟨k + 1, Nat.succ_pos k, Nat.le_refl _, rfl⟩
      · exact ⟨j, pos, Nat.le_succ_of_le le, rfl⟩
    · rintro ⟨j, pos, le, rfl⟩
      rcases Nat.le_succ_iff.mp le with le | rfl
      · exact .inr ⟨j, pos, le, rfl⟩
      · exact .inl rfl

theorem falling_candidates (pos : 0 < s) (k : Nat) : (candidates s k).Pairwise (· > ·) := by
  induction k with
  | zero => exact .nil
  | succ k ih =>
    refine List.pairwise_cons.mpr ⟨fun n hn => ?_, ih⟩
    obtain ⟨j, -, le, rfl⟩ := mem_candidates.mp hn
    have lt : s * j < s * (k + 1) := Nat.mul_lt_mul_of_pos_left (Nat.lt_succ_of_le le) pos
    omega

/-- The candidates that are prime and not excluded. -/
def usable (s : Nat) (exclude : List Nat) (k : Nat) : List Nat :=
  (candidates s k).filter fun p => isPrime p && !exclude.contains p

theorem usable_succ (s : Nat) (exclude : List Nat) (k : Nat) :
    usable s exclude (k + 1) =
      if isPrime (s * (k + 1) + 1) && !exclude.contains (s * (k + 1) + 1) then
        (s * (k + 1) + 1) :: usable s exclude k
      else usable s exclude k :=
  List.filter_cons

/-- The search for many reads the list of the usable candidates from its head. -/
theorem listFrom_eq (s : Nat) (exclude : List Nat) (k count : Nat) :
    listFrom s exclude k count =
      if count ≤ (usable s exclude k).length then some ((usable s exclude k).take count)
      else none := by
  induction k generalizing count with
  | zero => cases count <;> simp [listFrom, usable, candidates]
  | succ k ih =>
    cases count with
    | zero => simp [listFrom]
    | succ count =>
      rw [listFrom, usable_succ]
      split
      · simp only [ih, List.length_cons, List.take_succ_cons, Nat.add_le_add_iff_right]
        split <;> rfl
      · exact ih (count + 1)

/-- The search for one does, too. -/
theorem largestFrom_eq (s k : Nat) : largestFrom s k = (usable s [] k).head? := by
  induction k with
  | zero => rfl
  | succ k ih =>
    rw [largestFrom, usable_succ, ih]
    simp only [List.contains_nil, Bool.not_false, Bool.and_true]
    split <;> rfl

/-! ## Chain primes below a bound -/

/-- A chain prime of a degree below a bound: it passes for a prime and leaves
the remainder 1 modulo twice the degree. -/
structure IsChain (bound degree p : Nat) : Prop where
  lt : p < bound
  residue : p % (2 * degree) = 1
  prime : isPrime p = true

/-- Chain primes are candidates: the number 1 passes for no prime. -/
theorem isChain_iff (pos : 0 < degree) : IsChain bound degree n ↔
    n ∈ candidates (2 * degree) (lastCandidate (2 * degree) bound) ∧ isPrime n = true := by
  have stride : 0 < 2 * degree := by omega
  rw [mem_candidates]
  constructor
  · rintro ⟨lt, residue, prime⟩
    have number : 2 * degree * (n / (2 * degree)) + 1 = n := by
      rw [← residue]
      exact Nat.div_add_mod n (2 * degree)
    -- The only number below the first candidate with this remainder is 1.
    have above : n / (2 * degree) ≠ 0 := by
      intro zero
      rw [zero] at number
      obtain rfl : n = 1 := by omega
      exact nomatch prime
    refine ⟨⟨n / (2 * degree), Nat.pos_of_ne_zero above, ?_, number.symm⟩, prime⟩
    rw [lastCandidate, Nat.le_div_iff_mul_le stride, Nat.mul_comm]
    omega
  · rintro ⟨⟨j, pos, le, rfl⟩, prime⟩
    rw [lastCandidate, Nat.le_div_iff_mul_le stride, Nat.mul_comm] at le
    have apart : 0 < 2 * degree * j := Nat.mul_pos stride pos
    refine ⟨by omega, ?_, prime⟩
    rw [Nat.mul_add_mod, Nat.mod_eq_of_lt (by omega)]

theorem lists_usable (pos : 0 < degree) (bound : Nat) (exclude : List Nat) :
    Lists (fun p => IsChain bound degree p ∧ p ∉ exclude)
      (usable (2 * degree) exclude (lastCandidate (2 * degree) bound)) := by
  refine ⟨(falling_candidates (by omega) _).filter _, fun n => ?_⟩
  simp [usable, isChain_iff pos, and_assoc]

/-! ## The searches -/

theorem stride_eq_ok (pos : 0 < degree) (lt : degree < Nat.pow 2 62) :
    stride degree = .ok (2 * degree) := by
  have double : 2 * degree < wordSize := by
    have bound : Nat.pow 2 62 * 2 < wordSize := by decide
    omega
  rw [stride, if_neg (Nat.ne_of_gt pos), Fault.checkSize, if_pos double]

theorem stride_spec (h : stride degree = .ok s) : 0 < degree ∧ s = 2 * degree := by
  unfold stride Fault.checkSize at h
  split at h
  · exact nomatch h
  · split at h
    · exact ⟨by omega, (Except.ok.inj h).symm⟩
    · exact nomatch h

/-- What is listed are the largest chain primes, for whatever was asked. -/
theorem areLargest_of_listBelow {primes : List Nat}
    (h : listBelow bits count degree exclude = .ok primes) :
    AreLargest (fun p => IsChain (Nat.pow 2 bits) degree p ∧ p ∉ exclude) count primes := by
  unfold listBelow at h
  by_cases range : bits < 4 ∨ 61 < bits
  · rw [if_pos range] at h
    exact nomatch h
  rw [if_neg range] at h
  obtain ⟨_, -, h⟩ := exists_of_bind_eq_ok h
  by_cases none : count = 0
  · rw [if_pos none] at h
    obtain rfl := Except.ok.inj h
    exact ⟨none.symm, .nil, by simp, by simp⟩
  rw [if_neg none] at h
  obtain ⟨s, hs, h⟩ := exists_of_bind_eq_ok h
  obtain ⟨pos, rfl⟩ := stride_spec (eq_ok_of_mapError hs)
  rw [listFrom_eq] at h
  have lists := lists_usable pos (Nat.pow 2 bits) exclude
  split at h
  · rename_i list
    obtain ⟨le, taken⟩ := Option.ite_none_right_eq_some.mp list
    obtain rfl := Option.some.inj taken
    obtain rfl := Except.ok.inj h
    exact lists.areLargest_take le
  · exact nomatch h

/-- What is listed within the supported range. -/
theorem listBelow_eq (low : 4 ≤ bits) (high : bits ≤ 61) (pos : 0 < degree)
    (lt : degree < Nat.pow 2 62) (fits : 8 * count < Nat.pow 2 63) (exclude : List Nat) :
    listBelow bits count degree exclude =
      match listFrom (2 * degree) exclude (lastCandidate (2 * degree) (Nat.pow 2 bits)) count with
      | some primes => .ok primes
      | none => .error (.exhausted bits count degree) := by
  have range : ¬ (bits < 4 ∨ 61 < bits) := by omega
  rw [listBelow, if_neg range, Fault.reserve, if_pos fits]
  cases count with
  | zero => cases h : lastCandidate (2 * degree) (Nat.pow 2 bits) <;> rfl
  | succ count =>
    rw [stride_eq_ok pos lt]
    rfl

/-- The largest chain primes are listed, largest first, or it is said that there
are too few. -/
structure ListsLargest (bits count degree : Nat) (exclude : List Nat) : Prop where
  ok : ∀ primes, listBelow bits count degree exclude = .ok primes ↔
    AreLargest (fun p => IsChain (Nat.pow 2 bits) degree p ∧ p ∉ exclude) count primes
  error : ∀ e, listBelow bits count degree exclude = .error e ↔
    e = .exhausted bits count degree ∧
      Fewer (fun p => IsChain (Nat.pow 2 bits) degree p ∧ p ∉ exclude) count

theorem listsLargest (low : 4 ≤ bits) (high : bits ≤ 61) (pos : 0 < degree)
    (lt : degree < Nat.pow 2 62) (fits : 8 * count < Nat.pow 2 63) (exclude : List Nat) :
    ListsLargest bits count degree exclude := by
  have lists := lists_usable pos (Nat.pow 2 bits) exclude
  have eq := listBelow_eq low high pos lt fits exclude
  rw [listFrom_eq] at eq
  by_cases le : count ≤
      (usable (2 * degree) exclude (lastCandidate (2 * degree) (Nat.pow 2 bits))).length
  · rw [if_pos le] at eq
    constructor
    · intro primes
      rw [eq, lists.areLargest_iff, Except.ok.injEq]
      exact ⟨fun h => ⟨le, h.symm⟩, fun h => h.2.symm⟩
    · intro e
      rw [eq, lists.fewer_iff]
      exact ⟨nofun, fun h => absurd h.2 (Nat.not_lt.mpr le)⟩
  · rw [if_neg le] at eq
    constructor
    · intro primes
      rw [eq, lists.areLargest_iff]
      exact ⟨nofun, fun h => absurd h.1 le⟩
    · intro e
      rw [eq, lists.fewer_iff, Except.error.injEq]
      exact ⟨fun h => ⟨h.symm, Nat.not_le.mp le⟩, fun h => h.1.symm⟩

/-- The greatest chain prime below a bound is found, or there is none. -/
structure FindsGreatest (bound degree : Nat) (answer : Option Nat) : Prop where
  some : ∀ p, answer = some p ↔ IsGreatest {p | IsChain bound degree p} p
  none : answer = none ↔ ∀ p, ¬ IsChain bound degree p

/-- A search below a bound that comes to an answer finds the greatest chain prime
there is. -/
theorem findsGreatest_of_largestBelow {answer : Option Nat}
    (h : largestBelow bound degree = .ok answer) : FindsGreatest bound degree answer := by
  obtain ⟨s, hs, h⟩ := exists_of_bind_eq_ok h
  obtain ⟨pos, rfl⟩ := stride_spec hs
  have lists := lists_usable pos bound []
  simp only [List.not_mem_nil, not_false_iff, and_true] at lists
  suffices eq : answer = (usable (2 * degree) [] (lastCandidate (2 * degree) bound)).head? by
    rw [eq]
    exact ⟨fun p => lists.head?_eq_some_iff, lists.head?_eq_none_iff⟩
  split at h
  · have none : lastCandidate (2 * degree) bound = 0 := Nat.div_eq_of_lt (by omega)
    rw [none]
    exact (Except.ok.inj h).symm
  · obtain ⟨_, -, h⟩ := exists_of_bind_eq_ok h
    rw [← largestFrom_eq]
    exact (Except.ok.inj h).symm

end CipherFlow.Prime
