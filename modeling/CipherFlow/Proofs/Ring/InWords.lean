import CipherFlow.Proofs.Ring.Garner
import CipherFlow.Proofs.Ring.Rounding
import CipherFlow.Proofs.Ring.Schoolbook
import CipherFlow.Proofs.Ring.Wide

/-!
# Ring operations in machine words

The operations on elements, step by step in machine words: a step that leaves
the words, looks past an end or inverts a multiple of the prime gives nothing.
Over a basis that is accepted, and whose primes are primes, no step does. What
is computed from reduced elements is what the operation answers with, and it is
reduced again.

`Basis.stays_in_words` says so of all operations at once, in the form of
`Basis.StaysInWords`.

How the proof goes. Each operation is written a second time over `Option`, from the
operations on words of `CipherFlow.Proofs.Arith.Words`, and one lemma for each
(`add?_eq`, `ofInts?_eq`, `digit?_eq` and so on) says that it gives what the
operation gives. The lemmas go from residues to channels to elements, as the
operations do. Distinct primes are needed in one place only, where the last prime is
inverted modulo the others (`divideChannels?_eq`).
-/

namespace CipherFlow.Ring

open Word

variable {B target : Basis} {p p' : Poly} {q last : Nat} {c : List Nat}
  {coeffs remainders : List Int}

namespace InWords

/-! ## Operations

Each of these is the operation of its name with all its steps in words. A step that
is not possible there gives nothing, and then nor does the operation. -/

/-- Combines channel by channel two elements of one basis. -/
def zipChannels? (f : Nat → List Nat → List Nat → Option (List Nat)) (a b : Poly) :
    Option (Except Error Poly) :=
  if a.basis = b.basis then do
    let channels ← (a.basis.primes.zip (a.channels.zip b.channels)).mapM fun x =>
      f x.1 x.2.1 x.2.2
    return .ok ⟨a.basis, channels⟩
  else return .error .basisMismatch

/-- Combines two channels residue by residue. -/
def zipResidues? (f : Nat → Nat → Nat → Option Nat) (q : Nat) (c d : List Nat) :
    Option (List Nat) :=
  (c.zip d).mapM fun x => f x.1 x.2 q

def add? (a b : Poly) : Option (Except Error Poly) :=
  zipChannels? (zipResidues? addMod?) a b

def sub? (a b : Poly) : Option (Except Error Poly) :=
  zipChannels? (zipResidues? subMod?) a b

def mul? (a b : Poly) : Option (Except Error Poly) :=
  zipChannels? (mulChannel? a.degree) a b

def neg? (a : Poly) : Option Poly := do
  let channels ← (a.basis.primes.zip a.channels).mapM fun x => x.2.mapM (negMod? · x.1)
  return ⟨a.basis, channels⟩

/-- Makes an element of coefficients, as many as the degree. -/
def ofCoeffs? (f : Int → Nat → Option Nat) (b : Basis) (coeffs : List Int) : Option Poly :=
  if coeffs.length = b.degree then do
    let channels ← b.primes.mapM fun q => coeffs.mapM (f · q)
    return ⟨b, channels⟩
  else none

def ofInts? (b : Basis) (coeffs : List Int) : Option Poly :=
  ofCoeffs? reduce? b coeffs

/-- The residue of a rounded coefficient: a wide one is kept below the prime. -/
def wideResidue? (v : Int) (q : Nat) : Option Nat :=
  if v.natAbs < Poly.wideBound then reduce? v q
  else do
    let r ← fit? (Modular.ofInt v (Binary64.nearestFloat q))
    let top ← Word.sub? q 1
    return min r top

def ofFloats? (b : Basis) (coeffs : List Float) : Option Poly :=
  ofCoeffs? wideResidue? b (coeffs.map Binary64.truncate)

def dropTo? (p : Poly) (target : Basis) : Option (Except Error Poly) :=
  if target.degree ≠ p.degree ∨ p.channelCount < target.channelCount then
    return .error .basisMismatch
  else do
    let first ← slice? p.basis.primes target.channelCount
    if target.primes = first then do
      let channels ← slice? p.channels target.channelCount
      return .ok ⟨target, channels⟩
    else return .error .basisMismatch

/-- Takes a centred residue away from a residue and divides. -/
def divideResidue? (inverse q x : Nat) (r : Int) : Option Nat := do
  let r ← reduce? r q
  let difference ← subMod? x r q
  mulMod? difference inverse q

def divideChannel? (last : Nat) (remainders : List Int) (q : Nat) (c : List Nat) :
    Option (List Nat) := do
  let residue ← mod? last q
  let inverse ← inverse? residue q
  (c.zip remainders).mapM fun x => divideResidue? inverse q x.1 x.2

def divideByLast? (p : Poly) (target : Basis) : Option (Except Error Poly) := do
  let l ← Word.sub? p.channelCount 1
  if l = 0 then return .error .lastPrime
  else if target.channelCount ≠ l ∨ target.degree ≠ p.degree then return .error .basisMismatch
  else do
    let first ← slice? p.basis.primes l
    if target.primes = first then do
      let last ← p.basis.primes[l]?
      let channel ← p.channels[l]?
      let remainders ← channel.mapM (centre? · last)
      let kept ← slice? p.channels l
      let channels ← (target.primes.zip kept).mapM fun x =>
        divideChannel? last remainders x.1 x.2
      return .ok ⟨target, channels⟩
    else return .error .basisMismatch

def digit? (p : Poly) (index : Nat) : Option Poly := do
  let q ← p.basis.primes[index]?
  let channel ← p.channels[index]?
  let centred ← channel.mapM (centre? · q)
  ofInts? p.basis centred

/-! ## Guarantees -/

/-- A computation in words that reaches the result of an operation, a reduced
element. -/
def Reaches (words : Option Poly) (result : Except Error Poly) (B : Basis) : Prop :=
  ∃ r, words = some r ∧ result = .ok r ∧ r.IsOver B

/-- The same for an operation that also refuses operands. -/
def Answers (words : Option (Except Error Poly)) (result : Except Error Poly) (B : Basis) : Prop :=
  ∃ r, words = some (.ok r) ∧ result = .ok r ∧ r.IsOver B

/-- Operands that are refused, also in words. -/
def Refuses (words : Option (Except Error Poly)) (result : Except Error Poly) (e : Error) : Prop :=
  words = some (.error e) ∧ result = .error e

/-! ## Channel by channel

An operation works on residues that stand at one place. So it gives something if no
residue fails, and reduced residues do not. -/

theorem zip_mapM_some {α β γ : Type} {f : α → β → Option γ} {g : α → β → γ} {xs : List α}
    {ys : List β} (h : ∀ x ∈ xs.zip ys, f x.1 x.2 = some (g x.1 x.2)) :
    ((xs.zip ys).mapM fun x => f x.1 x.2) = some (List.zipWith g xs ys) := by
  rw [mapM_some h, List.zip, List.map_zipWith]

theorem isChannel_of_getElem? (hp : p.IsOver B) {i : Nat} (hq : B.primes[i]? = some q)
    (hc : p.channels[i]? = some c) : IsChannel B.degree q c := by
  obtain ⟨channel, found⟩ := hp.channel hq
  exact Option.some.inj (hc.symm.trans found) ▸ channel

theorem zipChannels?_eq {f : Nat → List Nat → List Nat → Option (List Nat)}
    {g : Nat → List Nat → List Nat → List Nat} (hp : p.IsOver B) (hp' : p'.IsOver B)
    (each : ∀ q ∈ B.primes, ∀ c c', IsChannel B.degree q c → IsChannel B.degree q c' →
      f q c c' = some (g q c c')) :
    zipChannels? f p p' = some (Poly.zipChannels g p p') := by
  have channels : ∀ x ∈ B.primes.zip (p.channels.zip p'.channels),
      f x.1 x.2.1 x.2.2 = some (g x.1 x.2.1 x.2.2) := by
    rintro ⟨q, c, c'⟩ hx
    obtain ⟨i, hi⟩ := List.mem_iff_getElem?.mp hx
    obtain ⟨hq, hcs⟩ := List.getElem?_zip_eq_some.mp hi
    obtain ⟨hc, hc'⟩ := List.getElem?_zip_eq_some.mp hcs
    exact each q (List.mem_of_getElem? hq) c c' (isChannel_of_getElem? hp hq hc)
      (isChannel_of_getElem? hp' hq hc')
  rw [zipChannels?, Poly.zipChannels, hp.basis, hp'.basis, if_pos rfl, if_pos rfl,
    mapM_some channels, List.zip, List.map_zipWith]
  rfl

section Arithmetic

variable (modulus : ∀ q ∈ B.primes, IsModulus q) (hp : p.IsOver B)

include modulus hp

theorem add?_eq (hp' : p'.IsOver B) : add? p p' = some (p.add p') := by
  refine zipChannels?_eq hp hp' fun q hq c c' hc hc' => ?_
  refine zip_mapM_some (f := (addMod? · · q)) (g := (Modular.add · · q)) fun x hx => ?_
  obtain ⟨mem, mem'⟩ := List.of_mem_zip hx
  exact addMod?_eq (modulus q hq) (hc.lt _ mem) (hc'.lt _ mem')

theorem sub?_eq (hp' : p'.IsOver B) : sub? p p' = some (p.sub p') := by
  refine zipChannels?_eq hp hp' fun q hq c c' _ hc' => ?_
  refine zip_mapM_some (f := (subMod? · · q)) (g := (Modular.sub · · q)) fun x hx => ?_
  exact subMod?_eq (modulus q hq) (hc'.lt _ (List.of_mem_zip hx).2)

theorem mul?_eq (hn : B.degree ≠ 0) (room : 2 * B.degree ≤ wordSize) (hp' : p'.IsOver B) :
    mul? p p' = some (p.mul p') := by
  refine zipChannels?_eq hp hp' fun q hq c c' hc hc' => ?_
  rw [Poly.degree, hp.basis]
  exact mulChannel?_eq (modulus q hq) hn room hc hc'

omit modulus in
theorem neg?_eq : neg? p = some p.neg := by
  have channels : ∀ x ∈ B.primes.zip p.channels,
      x.2.mapM (negMod? · x.1) = some (Channel.neg x.1 x.2) := by
    rintro ⟨q, c⟩ hx
    obtain ⟨i, hi⟩ := List.mem_iff_getElem?.mp hx
    obtain ⟨hq, hc⟩ := List.getElem?_zip_eq_some.mp hi
    exact mapM_some fun r hr => negMod?_eq ((isChannel_of_getElem? hp hq hc).lt r hr)
  rw [neg?, Poly.neg, hp.basis, mapM_some channels, List.zip, List.map_zipWith]
  rfl

end Arithmetic

/-! ## Coefficients

Signed words are reduced as they are. A wide coefficient is reduced by the number
that a modulus is as a `Float`, and that number is a word, too. -/

theorem ofCoeffs?_eq {f : Int → Nat → Option Nat} {g : Int → Nat → Nat}
    (length : coeffs.length = B.degree)
    (each : ∀ q ∈ B.primes, ∀ v ∈ coeffs, f v q = some (g v q)) :
    ofCoeffs? f B coeffs = some ⟨B, B.primes.map fun q => coeffs.map (g · q)⟩ := by
  have channels : ∀ q ∈ B.primes, coeffs.mapM (f · q) = some (coeffs.map (g · q)) :=
    fun q hq => mapM_some (each q hq)
  rw [ofCoeffs?, if_pos length, mapM_some channels]
  rfl

theorem ofInts?_eq (modulus : ∀ q ∈ B.primes, IsModulus q) (length : coeffs.length = B.degree)
    (signed : ∀ v ∈ coeffs, IsSigned v) : ofInts? B coeffs = some (Poly.ofInts B coeffs) :=
  ofCoeffs?_eq length fun q hq v hv => reduce?_eq (modulus q hq) (signed v hv)

/-- The number that a modulus is as a `Float` is a word. -/
theorem nearestFloat_lt (hq : IsModulus q) :
    0 < Binary64.nearestFloat q ∧ Binary64.nearestFloat q < wordSize := by
  have lt := hq.two_mul_lt
  have word : wordSize = 2 * Nat.pow 2 63 := rfl
  by_cases narrow : q < 2 ^ 53
  · rw [Binary64.nearestFloat_of_lt narrow]
    exact ⟨hq.pos, hq.lt_wordSize⟩
  · obtain ⟨r, least, -, eq, bound⟩ := Binary64.nearestFloat_of_le (Nat.le_of_not_lt narrow)
    rw [eq]
    exact ⟨Nat.mul_pos (Nat.lt_of_lt_of_le (by decide) least) (Nat.two_pow_pos _), by omega⟩

theorem wideResidue?_eq (hq : IsModulus q) (v : Int) :
    wideResidue? v q = some (Poly.residueOfWide v q) := by
  rw [wideResidue?, Poly.residueOfWide]
  split
  · rename_i small
    exact reduce?_eq hq (isSigned_of_natAbs (small.trans (by decide)))
  · obtain ⟨pos, lt⟩ := nearestFloat_lt hq
    rw [fit?_of_lt ((Modular.ofInt_lt pos v).trans lt), Option.bind_eq_bind, Option.bind_some,
      sub?_of_le hq.pos]
    rfl

theorem ofFloats?_eq (modulus : ∀ q ∈ B.primes, IsModulus q) {coeffs : List Float}
    (length : coeffs.length = B.degree) :
    ofFloats? B coeffs = some (Poly.ofWide B (coeffs.map Binary64.truncate)) :=
  ofCoeffs?_eq ((List.length_map _).trans length) fun q hq v _ => wideResidue?_eq (modulus q hq) v

/-! ## Fewer primes

Both operations keep the first primes. Division inverts the last prime modulo each
of those, and nothing else here needs numbers that are prime. -/

/-- The first primes of a basis are those of another exactly if it is initial. -/
theorem isInitialOf_iff (B target : Basis) : target.isInitialOf B = true ↔
    target.degree = B.degree ∧ target.primes.length ≤ B.primes.length ∧
      target.primes = B.primes.take target.primes.length := by
  simp only [Basis.isInitialOf, Bool.and_eq_true, beq_iff_eq, List.isPrefixOf_iff_prefix]
  refine and_congr_right fun _ => ?_
  rw [List.prefix_iff_eq_take]
  refine ⟨fun eq => ⟨?_, eq⟩, And.right⟩
  rw [eq]
  exact List.length_take_le' _ _

theorem dropTo?_eq (hp : p.IsOver B) (target : Basis) :
    dropTo? p target = some (p.dropTo target) := by
  have count : p.channels.length = B.primes.length := hp.basis ▸ hp.reduced.length_channels
  have initial := isInitialOf_iff B target
  rw [dropTo?, Poly.dropTo, Poly.degree, Poly.channelCount, Basis.channelCount, hp.basis, count]
  by_cases fits : target.degree ≠ B.degree ∨ B.primes.length < target.primes.length
  · have mismatch : ¬target.isInitialOf B = true := by
      rw [initial]
      omega
    rw [if_pos fits, if_neg mismatch]
    rfl
  · have le : target.primes.length ≤ B.primes.length := by omega
    rw [if_neg fits, slice?, if_pos le, slice?, count, if_pos le]
    by_cases same : target.primes = B.primes.take target.primes.length
    · rw [if_pos (initial.mpr ⟨by omega, le, same⟩)]
      exact if_pos same
    · rw [if_neg fun small => same (initial.mp small).2.2]
      exact if_neg same

theorem divideChannel?_eq {n : Nat} (hq : IsModulus q) (nonzero : last % q ≠ 0)
    (hc : IsChannel n q c) (signed : ∀ r ∈ remainders, IsSigned r) :
    divideChannel? last remainders q c = some (Poly.divideChannel last remainders q c) := by
  have inverse : inverse? (last % q) q = some (Modular.inv last q) := by
    rw [inverse?_eq hq (by rwa [Nat.mod_mod]), Modular.inv, Nat.mod_mod, Modular.inv]
  rw [divideChannel?, mod?_of_pos hq.pos, Option.bind_eq_bind, Option.bind_some, inverse,
    Option.bind_some]
  refine zip_mapM_some fun x hx => ?_
  obtain ⟨hx, hr⟩ := List.of_mem_zip hx
  rw [divideResidue?, reduce?_eq hq (signed _ hr), Option.bind_eq_bind, Option.bind_some,
    subMod?_eq hq (Modular.ofInt_lt hq.pos _), Option.bind_some]
  exact mulMod?_eq hq (Modular.sub_lt (hc.lt _ hx)) (Modular.inv_lt hq.pos last)

/-- One of two distinct primes does not divide the other. -/
theorem mod_ne_zero (own : q.Prime) (other : last.Prime) (ne : q ≠ last) : last % q ≠ 0 :=
  fun zero => ne ((Nat.prime_dvd_prime_iff_eq own other).mp (Nat.dvd_of_mod_eq_zero zero))

section Division

variable (modulus : ∀ q ∈ B.primes, IsModulus q) (prime : ∀ q ∈ B.primes, q.Prime)
  (nodup : B.primes.Nodup) (hp : p.IsOver B) (primes : B.primes = target.primes ++ [B.lastPrime])

include modulus prime nodup hp primes

/-- Each of the other primes inverts the last one. -/
theorem divideChannels?_eq (signed : ∀ r ∈ remainders, IsSigned r) :
    ((target.primes.zip p.channels).mapM fun x => divideChannel? B.lastPrime remainders x.1 x.2) =
      some (List.zipWith (Poly.divideChannel B.lastPrime remainders) target.primes p.channels) := by
  refine zip_mapM_some fun x hx => ?_
  obtain ⟨q, c⟩ := x
  obtain ⟨i, hi⟩ := List.mem_iff_getElem?.mp hx
  obtain ⟨hq, hc⟩ := List.getElem?_zip_eq_some.mp hi
  have own : q ∈ target.primes := List.mem_of_getElem? hq
  have ofAll : B.primes[i]? = some q := by
    rw [primes, List.getElem?_append_left (List.getElem?_eq_some_iff.mp hq).1, hq]
  have ne : q ≠ B.lastPrime := by
    rw [primes] at nodup
    exact fun eq => List.disjoint_of_nodup_append nodup own (eq ▸ List.mem_cons_self)
  have last : B.lastPrime ∈ B.primes := primes ▸ List.mem_append_right _ List.mem_cons_self
  have mem := List.mem_of_getElem? ofAll
  exact divideChannel?_eq (modulus q mem) (mod_ne_zero (prime q mem) (prime _ last) ne)
    (isChannel_of_getElem? hp ofAll hc) signed

theorem divideByLast?_of_isInitialOf (several : 2 ≤ B.primes.length)
    (small : target.isInitialOf B = true) :
    divideByLast? p target = some (p.divideByLast target) := by
  have count : p.channels.length = B.primes.length := hp.basis ▸ hp.reduced.length_channels
  have fewer : target.primes.length + 1 = B.primes.length := by
    rw [primes, List.length_append, List.length_singleton]
  obtain ⟨degree, le, initial⟩ := (isInitialOf_iff B target).mp small
  have found : B.primes[target.primes.length]? = some B.lastPrime := getElem?_of_split primes
  have hq := modulus _ (List.mem_of_getElem? found)
  obtain ⟨channel, held⟩ := hp.channel found
  have last : p.channels.getLastD [] = p.channel target.primes.length := by
    rw [List.getLastD_eq_getLast?, List.getLast?_eq_getElem?, count, ← fewer, Nat.add_sub_cancel,
      held, Option.getD_some]
  have remainders : (p.channel target.primes.length).mapM (centre? · B.lastPrime) =
      some ((p.channel target.primes.length).map (Modular.centre · B.lastPrime)) :=
    mapM_some fun r hr => centre?_eq hq (channel.lt r hr)
  have signed : ∀ r ∈ (p.channel target.primes.length).map (Modular.centre · B.lastPrime),
      IsSigned r := List.forall_mem_map.mpr fun x hx => isSigned_centre hq (channel.lt x hx)
  -- The last channel has no prime in the target beside it.
  have kept : target.primes.zip (p.channels.take target.primes.length) =
      target.primes.zip p.channels := by
    have trimmed : target.primes.zip p.channels = _ := List.zip_eq_zip_take_min
    rw [trimmed, Nat.min_eq_left (count ▸ le), List.take_length]
  have matching : ¬(target.primes.length ≠ target.primes.length ∨ target.degree ≠ B.degree) := by
    omega
  have some' : target.primes.length ≠ 0 := by omega
  have firstPrimes : slice? B.primes target.primes.length = some target.primes := by
    rw [slice?, if_pos le, ← initial]
  have firstChannels : slice? p.channels target.primes.length =
      some (p.channels.take target.primes.length) := if_pos (count ▸ le)
  rw [divideByLast_of_isInitialOf several small fewer hp.basis count, last]
  rw [divideByLast?, Poly.channelCount, count, ← fewer, sub?_of_le (Nat.le_add_left 1 _),
    Nat.add_sub_cancel, Option.bind_eq_bind, Option.bind_some, if_neg some', Basis.channelCount,
    Poly.degree, hp.basis, if_neg matching, firstPrimes, Option.bind_eq_bind, Option.bind_some,
    if_pos rfl]
  simp only [found, held, remainders, firstChannels, kept, Option.bind_eq_bind, Option.bind_some,
    divideChannels?_eq modulus prime nodup hp primes signed]
  rfl

end Division

/-- The only prime is not divided by. -/
theorem divideByLast_single (hp : p.IsOver B) (single : B.primes.length = 1) (target : Basis) :
    Refuses (divideByLast? p target) (p.divideByLast target) .lastPrime := by
  have count : p.channelCount = 1 := (hp.basis ▸ hp.reduced.length_channels).trans single
  refine ⟨?_, if_pos count.le⟩
  rw [divideByLast?, count]
  rfl

/-- Another target is refused. -/
theorem divideByLast_other (hp : p.IsOver B) (several : 2 ≤ B.primes.length)
    (other : ¬(target.primes.length + 1 = B.primes.length ∧ target.isInitialOf B = true)) :
    Refuses (divideByLast? p target) (p.divideByLast target) .basisMismatch := by
  have count : p.channelCount = B.primes.length := hp.basis ▸ hp.reduced.length_channels
  have initial := isInitialOf_iff B target
  constructor
  · rw [divideByLast?, count, sub?_of_le (by omega), Option.bind_eq_bind, Option.bind_some,
      if_neg (by omega), Basis.channelCount, Poly.degree, hp.basis]
    by_cases matching : target.primes.length ≠ B.primes.length - 1 ∨ target.degree ≠ B.degree
    · exact if_pos matching
    · have length : target.primes.length = B.primes.length - 1 := by omega
      have others : target.primes ≠ B.primes.take (B.primes.length - 1) := fun same =>
        other ⟨by omega, initial.mpr ⟨by omega, by omega, length ▸ same⟩⟩
      rw [if_neg matching, slice?, if_pos (Nat.sub_le _ _)]
      exact if_neg others
  · have mismatch : ¬(decide (target.channelCount + 1 = p.channelCount) &&
        target.isInitialOf p.basis) = true := by
      rw [Bool.and_eq_true, decide_eq_true_eq, count, hp.basis]
      exact other
    rw [Poly.divideByLast, if_neg (by omega), if_neg mismatch]

/-- A digit is a channel read around zero, and then reduced modulo all primes. -/
theorem digit?_eq (modulus : ∀ q ∈ B.primes, IsModulus q) (hp : p.IsOver B) {i : Nat}
    (hq : B.primes[i]? = some q) : digit? p i = some (Poly.ofInts B (p.centred i)) := by
  obtain ⟨channel, found⟩ := hp.channel hq
  have isModulus := modulus q (List.mem_of_getElem? hq)
  have prime : p.basis.primes.getD i 0 = q := by
    rw [hp.basis, List.getD_eq_getElem?_getD, hq, Option.getD_some]
  have centred : (p.channel i).mapM (centre? · q) = some (p.centred i) := by
    rw [Poly.centred, prime]
    exact mapM_some fun r hr => centre?_eq isModulus (channel.lt r hr)
  have signed : ∀ v ∈ p.centred i, IsSigned v := by
    rw [Poly.centred, prime]
    exact List.forall_mem_map.mpr fun r hr => isSigned_centre isModulus (channel.lt r hr)
  rw [digit?, hp.basis, hq, Option.bind_eq_bind, Option.bind_some, found, Option.bind_eq_bind,
    Option.bind_some, centred, Option.bind_eq_bind, Option.bind_some]
  exact ofInts?_eq modulus ((List.length_map _).trans channel.length) signed

end InWords

open InWords

/-- That operations with reduced elements over a basis are computed in machine
words, with reduced elements as results. -/
structure Basis.StaysInWords (B : Basis) : Prop where
  add : ∀ p p' : Poly, p.IsOver B → p'.IsOver B → Answers (InWords.add? p p') (p.add p') B
  sub : ∀ p p' : Poly, p.IsOver B → p'.IsOver B → Answers (InWords.sub? p p') (p.sub p') B
  mul : ∀ p p' : Poly, p.IsOver B → p'.IsOver B → Answers (InWords.mul? p p') (p.mul p') B
  neg : ∀ p : Poly, p.IsOver B → Reaches (InWords.neg? p) (.ok p.neg) B
  dropTo : ∀ (p : Poly) (target : Basis), p.IsOver B →
    if target.isInitialOf B then Answers (dropTo? p target) (p.dropTo target) target
    else Refuses (dropTo? p target) (p.dropTo target) .basisMismatch
  /-- One prime is left at least, and all but the last one are kept. -/
  divideByLast : ∀ (p : Poly) (target : Basis), p.IsOver B →
    if B.primes.length = 1 then
      Refuses (divideByLast? p target) (p.divideByLast target) .lastPrime
    else if target.primes.length + 1 = B.primes.length ∧ target.isInitialOf B then
      Answers (divideByLast? p target) (p.divideByLast target) target
    else Refuses (divideByLast? p target) (p.divideByLast target) .basisMismatch
  digit : ∀ (p : Poly) (i : Nat), p.IsOver B → i < B.primes.length →
    Reaches (InWords.digit? p i) (p.digit i) B
  ofInts : ∀ coeffs : List Int, coeffs.length = B.degree → (∀ v ∈ coeffs, IsSigned v) →
    Reaches (InWords.ofInts? B coeffs) (Poly.ofInts? B coeffs) B
  ofFloats : ∀ coeffs : List Float, coeffs.length = B.degree →
    Reaches (InWords.ofFloats? B coeffs) (Poly.ofFloats? B coeffs) B
  /-- There is a digit for each prime, at most half of it. -/
  digits : ∃ table, weightTable? B.primes = some table ∧
    ∀ p : Poly, p.IsOver B → ∀ k < B.degree, ∃ digits, digits? table p k = some digits ∧
      p.toFloats[k]? = some (floatSum digits (floatWeights 1 B.primes)) ∧
      List.Forall₂ IsCentred B.primes digits

theorem Basis.Valid.isModulus (valid : B.Valid) : ∀ q ∈ B.primes, IsModulus q :=
  fun q hq => ⟨valid.one_lt q hq, valid.lt_bound q hq⟩

/-- A power of two that is a word is at most half of all words. -/
theorem Basis.Valid.two_mul_degree_le (valid : B.Valid) (word : B.degree < wordSize) :
    2 * B.degree ≤ wordSize := by
  have pow : B.degree = 2 ^ B.degree.log2 := valid.degree_pow
  have bits : wordSize = 2 ^ 64 := rfl
  rw [pow, bits, Nat.pow_lt_pow_iff_right one_lt_two] at word
  rw [pow, bits, ← Nat.pow_succ']
  exact Nat.pow_le_pow_right two_pos word

theorem dropTo_inWords (hp : p.IsOver B) (target : Basis) :
    if target.isInitialOf B then Answers (dropTo? p target) (p.dropTo target) target
    else Refuses (dropTo? p target) (p.dropTo target) .basisMismatch := by
  have words := dropTo?_eq hp target
  split_ifs with small
  · obtain ⟨r, eq, isOver, -⟩ := dropTo_ok small hp
    exact ⟨r, eq ▸ words, eq, isOver⟩
  · have refused : p.dropTo target = .error .basisMismatch := by
      rw [Poly.dropTo, hp.basis, if_neg small]
    exact ⟨refused ▸ words, refused⟩

theorem Basis.Valid.divideByLast_inWords (valid : B.Valid) (prime : ∀ q ∈ B.primes, q.Prime)
    (hp : p.IsOver B) (target : Basis) :
    if B.primes.length = 1 then
      Refuses (divideByLast? p target) (p.divideByLast target) .lastPrime
    else if target.primes.length + 1 = B.primes.length ∧ target.isInitialOf B then
      Answers (divideByLast? p target) (p.divideByLast target) target
    else Refuses (divideByLast? p target) (p.divideByLast target) .basisMismatch := by
  have one : 0 < B.primes.length := List.length_pos_iff.mpr valid.primes_ne_nil
  split_ifs with single good
  · exact divideByLast_single hp single target
  · obtain ⟨fewer, small⟩ := good
    have several : 2 ≤ B.primes.length := by omega
    have primes := primes_eq_append_lastPrime small fewer
    have pos : ∀ q ∈ target.primes, 0 < q := fun q hq =>
      valid.pos q (primes ▸ List.mem_append_left _ hq)
    obtain ⟨r, eq, isOver, -⟩ := divideByLast_isOver pos several small fewer hp
    have words :=
      divideByLast?_of_isInitialOf valid.isModulus prime valid.nodup hp primes several small
    exact ⟨r, eq ▸ words, eq, isOver⟩
  · exact divideByLast_other hp (by omega) good

/-- Over a basis that is accepted, and whose primes are primes, no operation
with reduced elements leaves the machine words, and what it answers with is
reduced. -/
theorem Basis.stays_in_words {degree : Nat} {primes : List Nat}
    (h : Basis.ofPrimes degree primes = .ok B) (word : degree < wordSize)
    (prime : ∀ q ∈ primes, q.Prime) : B.StaysInWords := by
  obtain ⟨same, valid⟩ := Basis.valid_of_ofPrimes h
  replace word : B.degree < wordSize := same ▸ word
  replace prime : ∀ q ∈ B.primes, q.Prime := same ▸ prime
  have modulus := valid.isModulus
  refine {
    add := fun p p' hp hp' => ?_
    sub := fun p p' hp hp' => ?_
    mul := fun p p' hp hp' => ?_
    neg := fun p hp => ⟨p.neg, neg?_eq hp, rfl, (neg_ok hp).1⟩
    dropTo := fun p target hp => dropTo_inWords hp target
    divideByLast := fun p target hp => valid.divideByLast_inWords prime hp target
    digit := fun p i hp lt => ?_
    ofInts := fun coeffs length signed => ?_
    ofFloats := fun coeffs length => ?_
    digits := ⟨_, weightTable?_eq modulus, fun p hp k lt => ?_⟩ }
  · obtain ⟨r, eq, isOver, -⟩ := add_ok hp hp'
    exact ⟨r, eq ▸ add?_eq modulus hp hp', eq, isOver⟩
  · obtain ⟨r, eq, isOver, -⟩ := sub_ok hp hp'
    exact ⟨r, eq ▸ sub?_eq modulus hp hp', eq, isOver⟩
  · obtain ⟨r, eq, isOver, -⟩ := mul_ok valid.degree_ne hp hp'
    have room := valid.two_mul_degree_le word
    exact ⟨r, eq ▸ mul?_eq modulus hp valid.degree_ne room hp', eq, isOver⟩
  · have hq := List.getElem?_eq_getElem lt
    have length : (p.centred i).length = B.degree :=
      (List.length_map _).trans (hp.channel hq).1.length
    exact ⟨_, digit?_eq modulus hp hq, digit_ok hp hq, isOver_ofInts valid.pos length⟩
  · refine ⟨_, ofInts?_eq modulus length signed, ?_, isOver_ofInts valid.pos length⟩
    rw [Poly.ofInts?, Poly.checkLength, if_pos length]
    rfl
  · refine ⟨_, ofFloats?_eq modulus length, ?_,
      isOver_ofWide valid.pos ((List.length_map _).trans length)⟩
    rw [Poly.ofFloats?, Poly.checkLength, if_pos length]
    rfl
  · obtain ⟨found, each⟩ := digits?_eq hp modulus prime valid.nodup lt
    have read := Poly.getElem?_toFloats hp.reduced (hp.basis ▸ lt)
    rw [hp.basis] at read
    exact ⟨_, found, read, each⟩

/-- So is the product `-1` of `X ^ 3` and `X` over two small primes. -/
theorem Basis.stays_in_words_degree_four :
    Basis.ofPrimes 4 [457, 241] = .ok ⟨4, [457, 241]⟩ ∧
      InWords.mul? (Poly.ofInts ⟨4, [457, 241]⟩ [0, 0, 0, 1])
          (Poly.ofInts ⟨4, [457, 241]⟩ [0, 1, 0, 0]) =
        some (.ok (Poly.ofInts ⟨4, [457, 241]⟩ [-1, 0, 0, 0])) := by
  have accepted : Basis.ofPrimes 4 [457, 241] = .ok ⟨4, [457, 241]⟩ := rfl
  have prime : ∀ q ∈ [457, 241], Nat.Prime q := by norm_num
  have words := Basis.stays_in_words accepted (by decide) prime
  have pos : ∀ q ∈ [457, 241], 0 < q := by decide
  obtain ⟨r, computed, product, -⟩ := words.mul (Poly.ofInts ⟨4, [457, 241]⟩ [0, 0, 0, 1])
    (Poly.ofInts ⟨4, [457, 241]⟩ [0, 1, 0, 0]) (isOver_ofInts pos rfl) (isOver_ofInts pos rfl)
  have value : (Poly.ofInts ⟨4, [457, 241]⟩ [0, 0, 0, 1]).mul
      (Poly.ofInts ⟨4, [457, 241]⟩ [0, 1, 0, 0]) =
        .ok (Poly.ofInts ⟨4, [457, 241]⟩ [-1, 0, 0, 0]) := by rfl
  exact ⟨accepted, Except.ok.inj (product.symm.trans value) ▸ computed⟩

end CipherFlow.Ring
