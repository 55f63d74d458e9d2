import CipherFlow.Proofs.Ring.Balanced

/-!
# Digits in machine words

A basis keeps a table of the weights of all places modulo all its primes. From
the table and the residues of a coefficient the digits are found one after the
other, in machine words. Over distinct primes of at most sixty-two bits no step
leaves the words, the own weight of a place has an inverse, and every digit is a
signed word.
-/

namespace CipherFlow.Ring

open Word

variable {B : Basis} {p : Poly} {q i j k acc x w : Nat} {before after done todo primes : List Nat}
  {lower : List Int}

/-! ## Weights -/

/-- The product of the primes before a place, modulo a prime. -/
def Place.weight (before : List Nat) (q : Nat) : Nat :=
  before.foldl (fun w p => Modular.mul w (p % q) q) (1 % q)

theorem Place.weight_append (before : List Nat) (p q : Nat) :
    weight (before ++ [p]) q = Modular.mul (weight before q) (p % q) q := by
  rw [weight, List.foldl_append]
  rfl

theorem Place.weight_lt (pos : 0 < q) (before : List Nat) : weight before q < q := by
  cases before using List.reverseRecOn with
  | nil => exact Nat.mod_lt 1 pos
  | append_singleton before p => exact weight_append before p q ▸ Modular.mul_lt pos _ _

/-- The weight of a place is no multiple of its prime. -/
theorem Place.weight_mod_ne_zero (own : q.Prime) (prime : ∀ p ∈ before, p.Prime)
    (notMem : q ∉ before) : weight before q % q ≠ 0 := by
  intro dvd
  have zero : (q : ZMod q) = 0 := ZMod.natCast_self q
  refine cast_prod_ne_zero own prime notMem ?_
  have value : ((weight before q : Nat) : ZMod q) = before.prod := by
    rw [weight, cast_weight zero, cast_mod zero, Nat.cast_one, one_mul]
  rw [← value, ZMod.natCast_eq_zero_iff]
  exact Nat.dvd_of_mod_eq_zero dvd

namespace InWords

/-- The weights of all places modulo all primes, a row for each place. -/
def weightTable? (primes : List Nat) : Option (List (List Nat)) :=
  (List.range primes.length).mapM fun i => primes.mapM fun q => do
    let before ← slice? primes i
    let one ← mod? 1 q
    before.foldlM (fun w p => do
      let r ← mod? p q
      mulMod? w r q) one

def weightTable (primes : List Nat) : List (List Nat) :=
  (List.range primes.length).map fun i => primes.map (Place.weight (primes.take i))

/-- The entry of a table in a row and a column. -/
def lookup? (table : List (List Nat)) (i j : Nat) : Option Nat := do
  let row ← table[i]?
  row[j]?

theorem foldlM_weight (hq : IsModulus q) (hw : w < q) :
    before.foldlM (fun w p => do
      let r ← mod? p q
      mulMod? w r q) w = some (before.foldl (fun w p => Modular.mul w (p % q) q) w) := by
  induction before generalizing w with
  | nil => rfl
  | cons p before ih =>
    rw [List.foldlM_cons, mod?_of_pos hq.pos, Option.bind_eq_bind, Option.bind_some,
      mulMod?_eq hq hw (Nat.mod_lt p hq.pos)]
    exact ih (Modular.mul_lt hq.pos _ _)

theorem weightTable?_eq (modulus : ∀ q ∈ primes, IsModulus q) :
    weightTable? primes = some (weightTable primes) := by
  refine mapM_some fun i hi => mapM_some fun q hq => ?_
  have inside : i ≤ primes.length := (List.mem_range.mp hi).le
  have hq := modulus q hq
  rw [slice?, if_pos inside, Option.bind_eq_bind, Option.bind_some, mod?_of_pos hq.pos,
    Option.bind_eq_bind, Option.bind_some]
  exact foldlM_weight hq (Nat.mod_lt 1 hq.pos)

/-- The weight of a place, as it stands in the table. -/
theorem lookup?_weightTable (split : primes = before ++ after) (nonempty : after ≠ [])
    (hq : primes[j]? = some q) :
    lookup? (weightTable primes) before.length j = some (Place.weight before q) := by
  have inside : before.length < primes.length := by
    rw [split, List.length_append]
    exact Nat.lt_add_of_pos_right (List.length_pos_iff.mpr nonempty)
  have first : primes.take before.length = before := split ▸ List.take_left
  have row : (weightTable primes)[before.length]? = some (primes.map (Place.weight before)) := by
    rw [weightTable, List.getElem?_map, List.getElem?_range inside, Option.map_some, first]
  rw [lookup?, row, Option.bind_eq_bind, Option.bind_some, List.getElem?_map, hq, Option.map_some]

/-! ## Digits -/

/-- What lower digits from place `k` on contribute modulo the prime of place
`i`, added to what those before contribute. -/
def lowerSum? (table : List (List Nat)) (i q : Nat) :
    (k acc : Nat) → (lower : List Int) → Option Nat
  | _, acc, [] => some acc
  | k, acc, d :: lower => do
    let r ← reduce? d q
    let w ← lookup? table k i
    let term ← mulMod? r w q
    let sum ← add? acc term
    let acc ← mod? sum q
    lowerSum? table i q (k + 1) acc lower

/-- The digit of a place, given its residue and the lower digits. -/
def digitOf? (table : List (List Nat)) (q : Nat) (lower : List Int) (x : Nat) : Option Int := do
  let i := lower.length
  let sum ← lowerSum? table i q 0 0 lower
  let rest ← subMod? x sum q
  let own ← lookup? table i i
  let inverse ← inverse? own q
  let r ← mulMod? rest inverse q
  centre? r q

/-- The digits of a coefficient for the primes that are left. -/
def digitsFrom? (table : List (List Nat)) (p : Poly) (k : Nat) :
    (primes : List Nat) → (lower : List Int) → Option (List Int)
  | [], lower => some lower
  | q :: primes, lower => do
    let channel ← p.channels[lower.length]?
    let x ← channel[k]?
    let d ← digitOf? table q lower x
    digitsFrom? table p k primes (lower ++ [d])

/-- The digits of a coefficient. -/
def digits? (table : List (List Nat)) (p : Poly) (k : Nat) : Option (List Int) :=
  digitsFrom? table p k p.basis.primes []

/-- A digit that is at most half its prime. -/
def IsCentred (q : Nat) (d : Int) : Prop :=
  -q < 2 * d ∧ 2 * d ≤ q

theorem isCentred_centre {r : Nat} (lt : r < q) : IsCentred q (Modular.centre r q) := by
  unfold IsCentred Modular.centre
  split <;> omega

theorem getElem?_of_split (split : primes = before ++ q :: after) :
    primes[before.length]? = some q := by
  rw [split, List.getElem?_append_right le_rfl, Nat.sub_self]
  rfl

/-- The sums go along with the weights: `done` are the places whose digits have
been added, `todo` those of the digits that are left. -/
theorem lowerSum?_eq (hq : IsModulus q) (split : primes = done ++ todo ++ q :: after)
    (length : lower.length = todo.length) (signed : ∀ d ∈ lower, IsSigned d) (hacc : acc < q) :
    lowerSum? (weightTable primes) (done ++ todo).length q done.length acc lower =
      some ((lower.zip (Place.weightsMod q (Place.weight done q) todo)).foldl
        (fun acc dw => (acc + Modular.mul (Modular.ofInt dw.1 q) dw.2 q) % q) acc) := by
  induction lower generalizing done todo acc with
  | nil => rfl
  | cons d lower ih =>
    cases todo with
    | nil => cases length
    | cons p todo =>
      obtain ⟨hd, signed⟩ := List.forall_mem_cons.mp signed
      have weight := lookup?_weightTable (split.trans (List.append_assoc ..)) (List.cons_ne_nil _ _)
        (getElem?_of_split split)
      have term := mulMod?_eq hq (Modular.ofInt_lt hq.pos d) (Place.weight_lt hq.pos done)
      have below := Modular.mul_lt hq.pos (Modular.ofInt d q) (Place.weight done q)
      have sum : acc + Modular.mul (Modular.ofInt d q) (Place.weight done q) q < wordSize := by
        have lt := hq.two_mul_lt
        have word : wordSize = 2 * Nat.pow 2 63 := rfl
        omega
      have shifted : primes = done ++ [p] ++ todo ++ q :: after := by simp [split]
      have next := ih shifted (Nat.succ.inj length) signed
        (Nat.mod_lt (acc + Modular.mul (Modular.ofInt d q) (Place.weight done q) q) hq.pos)
      have longer : (done ++ [p]).length = done.length + 1 := List.length_append
      rw [Place.weight_append, ← List.append_cons, longer] at next
      rw [lowerSum?, reduce?_eq hq hd, Option.bind_eq_bind, Option.bind_some, weight,
        Option.bind_some, term, Option.bind_some, add?_of_lt sum, Option.bind_some,
        mod?_of_pos hq.pos, Option.bind_some]
      exact next

/-- A digit is found in words: the own weight has an inverse, as the primes
before are others. -/
theorem digitOf?_eq (hq : IsModulus q) (split : primes = before ++ q :: after)
    (prime : ∀ p ∈ primes, p.Prime) (nodup : primes.Nodup) (length : lower.length = before.length)
    (signed : ∀ d ∈ lower, IsSigned d) (hx : x < q) :
    digitOf? (weightTable primes) q lower x = some ((Place.after before q).digit lower x) := by
  have sum : lowerSum? (weightTable primes) before.length q 0 0 lower =
      some ((Place.after before q).partialSum lower) :=
    lowerSum?_eq hq (show primes = [] ++ before ++ q :: after from split) length signed hq.pos
  have below := partialSum_lt hq.pos before lower
  have own := lookup?_weightTable split (List.cons_ne_nil _ _) (getElem?_of_split split)
  have nonzero : Place.weight before q % q ≠ 0 := by
    rw [split] at prime nodup
    exact Place.weight_mod_ne_zero (prime q (by simp))
      (fun p hp => prime p (List.mem_append_left _ hp)) fun hq =>
        List.disjoint_of_nodup_append nodup hq List.mem_cons_self
  have inverse := Modular.inv_lt hq.pos (Place.weight before q)
  simp only [digitOf?, length, sum, Option.bind_eq_bind, Option.bind_some, subMod?_eq hq below,
    own, inverse?_eq hq nonzero, mulMod?_eq hq (Modular.sub_lt hx) inverse]
  exact centre?_eq hq (Modular.mul_lt hq.pos _ _)

theorem drop_residuesAt {channel : List Nat} (found : p.channels[i]? = some channel)
    (entry : channel[k]? = some x) :
    (p.residuesAt k).drop i = x :: (p.residuesAt k).drop (i + 1) := by
  have residue : (p.residuesAt k)[i]? = some x := by
    rw [Poly.residuesAt, List.getElem?_map, found, Option.map_some, List.getD_eq_getElem?_getD,
      entry, Option.getD_some]
  obtain ⟨place, eq⟩ := List.getElem?_eq_some_iff.mp residue
  rw [List.drop_eq_getElem_cons place, eq]

/-- The digits from a place on, after those before have been found. -/
theorem digitsFrom?_eq (hp : p.IsOver B) (modulus : ∀ q ∈ B.primes, IsModulus q)
    (prime : ∀ q ∈ B.primes, q.Prime) (nodup : B.primes.Nodup) (lt : k < B.degree)
    (split : B.primes = before ++ todo) (length : lower.length = before.length)
    (signed : ∀ d ∈ lower, IsSigned d) :
    ∃ digits, digitsFrom? (weightTable B.primes) p k todo lower = some (lower ++ digits) ∧
      digitsAfter lower (Place.ofPrimesAfter before todo) ((p.residuesAt k).drop before.length) =
        lower ++ digits ∧
      List.Forall₂ IsCentred todo digits := by
  induction todo generalizing before lower with
  | nil => exact ⟨[], by simp [digitsFrom?, digitsAfter, Place.ofPrimesAfter]⟩
  | cons q todo ih =>
    have own := getElem?_of_split split
    have hq := modulus q (List.mem_of_getElem? own)
    obtain ⟨channel, found⟩ := hp.channel own
    have inside : k < (p.channel before.length).length := channel.length ▸ lt
    have entry := List.getElem?_eq_getElem inside
    have hx := channel.lt _ (List.getElem_mem inside)
    generalize (p.channel before.length)[k] = x at entry hx
    have residues := drop_residuesAt found entry
    have digit := digitOf?_eq hq split prime nodup length signed hx
    have product := Modular.mul_lt hq.pos
      (Modular.sub x ((Place.after before q).partialSum lower) q) (Place.after before q).inverse
    have word : IsSigned ((Place.after before q).digit lower x) := isSigned_centre hq product
    have half : IsCentred q ((Place.after before q).digit lower x) := isCentred_centre product
    -- The digit is found; the same is shown of the places after it, with one digit more.
    generalize hd : (Place.after before q).digit lower x = d at digit word half
    have longer : (before ++ [q]).length = before.length + 1 := List.length_append
    have shifted : B.primes = before ++ [q] ++ todo := split.trans (List.append_cons _ _ _)
    have length' : (lower ++ [d]).length = (before ++ [q]).length := by simp [length]
    have signed' : ∀ e ∈ lower ++ [d], IsSigned e := List.forall_mem_append.mpr
      ⟨signed, List.forall_mem_singleton.mpr word⟩
    obtain ⟨digits, found', after', each⟩ := ih shifted length' signed'
    rw [← List.append_cons] at found' after'
    refine ⟨d :: digits, ?_, ?_, .cons half each⟩
    · rw [digitsFrom?, length, found, Option.bind_eq_bind, Option.bind_some, entry,
        Option.bind_eq_bind, Option.bind_some, digit]
      exact found'
    · rw [residues, Place.ofPrimesAfter, digitsAfter, hd, ← longer]
      exact after'

/-- The digits that are read back are found in words, one for each prime. -/
theorem digits?_eq (hp : p.IsOver B) (modulus : ∀ q ∈ B.primes, IsModulus q)
    (prime : ∀ q ∈ B.primes, q.Prime) (nodup : B.primes.Nodup) (lt : k < B.degree) :
    digits? (weightTable B.primes) p k = some (Ring.digits B (p.residuesAt k)) ∧
      List.Forall₂ IsCentred B.primes (Ring.digits B (p.residuesAt k)) := by
  have start : B.primes = [] ++ B.primes := rfl
  obtain ⟨digits, found, eq, each⟩ := digitsFrom?_eq hp modulus prime nodup lt start
    (show ([] : List Int).length = _ from rfl) fun d hd => nomatch hd
  have same : Ring.digits B (p.residuesAt k) = digits := eq
  rw [digits?, hp.basis, same]
  exact ⟨found, each⟩

end InWords

end CipherFlow.Ring
