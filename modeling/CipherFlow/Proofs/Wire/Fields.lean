import CipherFlow.Proofs.Fault
import CipherFlow.Wire.Bytes
import Mathlib.Data.List.Forall2

/-!
# Readers and what they accept

A reader and a writer belong together if the reader accepts exactly what the
writer produces: it takes the bytes of one value off the front, whatever
follows, and takes nothing else. Both round trips, the refusal of all other
bytes and the fact that fields can be put one after the other are in this one
equivalence, so it is what is shown for each kind of field.
-/

namespace CipherFlow.Wire

section Readers

variable {α β ε : Type} {read : StateT Bytes (Except ε) α} {write : α → Bytes} {P : α → Prop}
  {bytes rest : Bytes}

/-- On values with a property, the reader takes exactly what is written for
them off the front. -/
def Accepts (read : StateT Bytes (Except ε) α) (write : α → Bytes) (P : α → Prop) : Prop :=
  ∀ (bytes : Bytes) (x : α) (rest : Bytes),
    read.run bytes = .ok (x, rest) ↔ P x ∧ bytes = write x ++ rest

/-! ## Sequences of readers

With `Accepts.run_bind` a reader is taken apart field by field, and the bytes with
it. In the other direction the same lemma puts the fields together. -/

/-- A value given without reading. -/
theorem run_pure_eq_ok {x y : α} :
    (pure x : StateT Bytes (Except ε) α).run bytes = .ok (y, rest) ↔ x = y ∧ bytes = rest := by
  constructor
  · intro h
    exact Prod.mk.inj (Except.ok.inj h)
  · rintro ⟨rfl, rfl⟩
    rfl

/-- A field before a reader. -/
theorem Accepts.run_bind (h : Accepts read write P) {f : α → StateT Bytes (Except ε) β} {y : β} :
    (read >>= f).run bytes = .ok (y, rest) ↔
      ∃ x mid, P x ∧ bytes = write x ++ mid ∧ (f x).run mid = .ok (y, rest) := by
  simp only [run_bind_eq_ok, h _ _ _, and_assoc]

/-- What is written is read, before a reader of the rest. -/
theorem Accepts.bind_write (h : Accepts read write P) {x : α} (hx : P x)
    {f : α → StateT Bytes (Except ε) β} :
    (read >>= f).run (write x ++ bytes) = (f x).run bytes := by
  rw [StateT.run_bind, (h _ _ _).mpr ⟨hx, rfl⟩]
  rfl

/-- A refusal before a reader. -/
theorem run_check_eq_ok {c : Prop} [Decidable c] {e : ε} {k : PUnit → StateT Bytes (Except ε) α}
    {x : α} :
    (if c then throw e >>= k else k ⟨⟩ : StateT Bytes (Except ε) α).run bytes = .ok (x, rest) ↔
      ¬c ∧ (k ⟨⟩).run bytes = .ok (x, rest) := by
  by_cases h : c
  · rw [if_pos h]
    exact ⟨fun h' => (nomatch h'), fun h' => absurd h h'.1⟩
  · rw [if_neg h]
    exact (and_iff_right h).symm

/-- A property of the values can be weakened to what it says of the values
that are written. -/
theorem Accepts.congr {Q : α → Prop} (h : Accepts read write P) (iff : ∀ x, P x ↔ Q x) :
    Accepts read write Q := by
  intro bytes x rest
  rw [h bytes x rest, iff x]

/-- A step that computes, among readers. -/
theorem run_lift_eq_ok {ε' : Type} {x : Except ε' α} {f : ε' → ε} {y : α} :
    (StateT.lift (x.mapError f) : StateT Bytes (Except ε) α).run bytes = .ok (y, rest) ↔
      x = .ok y ∧ bytes = rest := by
  cases x with
  | error e => exact ⟨fun h => (nomatch h), fun h => (nomatch h.1)⟩
  | ok a =>
    constructor
    · intro h
      obtain ⟨rfl, rfl⟩ := Prod.mk.inj (Except.ok.inj h)
      exact ⟨rfl, rfl⟩
    · rintro ⟨h, rfl⟩
      obtain rfl := Except.ok.inj h
      rfl

end Readers

variable {α β : Type} {read : Reader α} {write : α → Bytes} {P : α → Prop} {bytes rest : Bytes}

/-! ## Whole numbers

The lowest byte comes first. As many bytes as the width, and the numbers below that
power of 256, are the same thing. -/

theorem length_natBytes (width n : Nat) : (natBytes width n).length = width := by
  induction width generalizing n with
  | zero => rfl
  | succ width ih => rw [natBytes, List.length_cons, ih]

theorem toNat_lowByte (n : Nat) : (n % 256).toUInt8.toNat = n % 256 := by
  rw [Nat.toUInt8, UInt8.toNat_ofNat', Nat.mod_mod]

theorem natOfBytes_natBytes {width n : Nat} (h : n < Nat.pow 256 width) :
    natOfBytes (natBytes width n) = n := by
  induction width generalizing n with
  | zero =>
    obtain rfl := Nat.lt_one_iff.mp h
    rfl
  | succ width ih =>
    have high : n / 256 < Nat.pow 256 width := Nat.div_lt_of_lt_mul (Nat.pow_succ' ▸ h)
    rw [natBytes, natOfBytes, ih high, toNat_lowByte]
    exact Nat.mod_add_div n 256

theorem natOfBytes_lt (bytes : Bytes) : natOfBytes bytes < Nat.pow 256 bytes.length := by
  induction bytes with
  | nil => exact Nat.one_pos
  | cons b bytes ih =>
    have low : b.toNat < 256 := b.toNat_lt
    have power : Nat.pow 256 (b :: bytes).length = 256 * Nat.pow 256 bytes.length := Nat.pow_succ'
    rw [natOfBytes, power]
    omega

theorem natBytes_natOfBytes (bytes : Bytes) :
    natBytes bytes.length (natOfBytes bytes) = bytes := by
  induction bytes with
  | nil => rfl
  | cons b bytes ih =>
    have low : b.toNat < 256 := b.toNat_lt
    have first : (b.toNat + 256 * natOfBytes bytes) % 256 = b.toNat := by omega
    have others : (b.toNat + 256 * natOfBytes bytes) / 256 = natOfBytes bytes := by omega
    rw [List.length_cons, natOfBytes, natBytes, first, others, ih]
    exact congrArg (· :: bytes) (UInt8.ofNat_toNat)

theorem takeBytes_accepts (count : Nat) :
    Accepts (takeBytes count) id (·.length = count) := by
  induction count with
  | zero =>
    intro bytes x rest
    refine run_pure_eq_ok.trans ⟨?_, ?_⟩
    · rintro ⟨rfl, rfl⟩
      exact ⟨rfl, rfl⟩
    · rintro ⟨length, rfl⟩
      obtain rfl := List.length_eq_zero_iff.mp length
      exact ⟨rfl, rfl⟩
  | succ count ih =>
    intro bytes x rest
    cases bytes with
    | nil =>
      refine ⟨fun h => (nomatch h), fun ⟨length, nil⟩ => ?_⟩
      obtain rfl : x = [] := (List.append_eq_nil_iff.mp nil.symm).1
      exact nomatch length
    | cons b bytes =>
      -- One byte is taken, then the others.
      have step : (takeBytes (count + 1)).run (b :: bytes) =
          (takeBytes count).run bytes >>= fun p => .ok (b :: p.1, p.2) := rfl
      rw [step]
      constructor
      · intro h
        obtain ⟨⟨taken, left⟩, htaken, cons⟩ := exists_of_bind_eq_ok h
        obtain ⟨length, eq⟩ := (ih bytes taken left).mp htaken
        obtain ⟨rfl, rfl⟩ := Prod.mk.inj (Except.ok.inj cons)
        exact ⟨congrArg (· + 1) length, congrArg (b :: ·) eq⟩
      · rintro ⟨length, eq⟩
        cases x with
        | nil => exact nomatch length
        | cons c taken =>
          obtain ⟨rfl, tail⟩ := List.cons.inj eq
          rw [(ih bytes taken rest).mpr ⟨Nat.succ.inj length, tail⟩]
          rfl

/-- A number is read from as many bytes as it is written in. -/
theorem readNat_accepts (width : Nat) :
    Accepts (readNat width) (natBytes width) (· < Nat.pow 256 width) := by
  intro bytes n rest
  rw [readNat, (takeBytes_accepts width).run_bind]
  constructor
  · rintro ⟨taken, mid, rfl, rfl, eq⟩
    obtain ⟨rfl, rfl⟩ := run_pure_eq_ok.mp eq
    exact ⟨natOfBytes_lt taken, by rw [natBytes_natOfBytes, id]⟩
  · rintro ⟨lt, rfl⟩
    exact ⟨natBytes width n, rest, length_natBytes width n, rfl,
      run_pure_eq_ok.mpr ⟨natOfBytes_natBytes lt, rfl⟩⟩

theorem length_wordBytes (n : Nat) : (wordBytes n).length = 8 :=
  length_natBytes 8 n

theorem readWord_accepts : Accepts readWord wordBytes (· < wordSize) :=
  readNat_accepts 8

theorem readByte_accepts : Accepts readByte (natBytes 1) (· < 256) :=
  readNat_accepts 1

/-! ## Floating-point numbers and level identifiers -/

theorem toNat_toUInt64 {n : Nat} (h : n < wordSize) : n.toUInt64.toNat = n := by
  rw [Nat.toUInt64, UInt64.toNat_ofNat']
  exact Nat.mod_eq_of_lt h

/-- All bits of a number are kept. -/
theorem readFloat_accepts : Accepts readFloat floatBytes fun _ => True := by
  intro bytes x rest
  rw [readFloat, readWord_accepts.run_bind, true_and]
  constructor
  · rintro ⟨n, mid, lt, rfl, eq⟩
    obtain ⟨rfl, rfl⟩ := run_pure_eq_ok.mp eq
    rw [floatBytes, toNat_toUInt64 lt]
  · rintro rfl
    exact ⟨x.bits.toNat, rest, x.bits.toNat_lt, rfl, run_pure_eq_ok.mpr ⟨by simp, rfl⟩⟩

theorem readLevelId_accepts : Accepts readLevelId levelIdBytes fun _ => True := by
  intro bytes id rest
  simp only [readLevelId, readWord_accepts.run_bind, run_pure_eq_ok, true_and]
  constructor
  · rintro ⟨a, _, ha, rfl, b, _, hb, rfl, c, _, hc, rfl, d, _, hd, rfl, rfl, rfl⟩
    simp [levelIdBytes, LevelId.words, toNat_toUInt64 ha, toNat_toUInt64 hb, toNat_toUInt64 hc,
      toNat_toUInt64 hd]
  · rintro rfl
    refine ⟨id.first.toNat, _, id.first.toNat_lt, ?_, id.second.toNat, _, id.second.toNat_lt, rfl,
      id.third.toNat, _, id.third.toNat_lt, rfl, id.fourth.toNat, rest, id.fourth.toNat_lt, rfl,
      ?_, rfl⟩
    · simp [levelIdBytes, LevelId.words]
    · simp

/-! ## Lists

How many values there are is known before, so a list needs no mark at its end. -/

/-- Values one after the other. -/
theorem readMany_accepts (h : Accepts read write P) (count : Nat) :
    Accepts (readMany read count) (·.flatMap write)
      fun xs => xs.length = count ∧ ∀ x ∈ xs, P x := by
  induction count with
  | zero =>
    intro bytes xs rest
    refine run_pure_eq_ok.trans ⟨?_, ?_⟩
    · rintro ⟨rfl, rfl⟩
      exact ⟨⟨rfl, fun x hx => (nomatch hx)⟩, rfl⟩
    · rintro ⟨⟨length, -⟩, rfl⟩
      obtain rfl := List.length_eq_zero_iff.mp length
      exact ⟨rfl, rfl⟩
  | succ count ih =>
    intro bytes xs rest
    simp only [readMany, h.run_bind, ih.run_bind, run_pure_eq_ok]
    constructor
    · rintro ⟨x, _, hx, rfl, ys, _, ⟨rfl, hys⟩, rfl, rfl, rfl⟩
      refine ⟨⟨rfl, List.forall_mem_cons.mpr ⟨hx, hys⟩⟩, ?_⟩
      rw [List.flatMap_cons, List.append_assoc]
    · rintro ⟨⟨length, all⟩, rfl⟩
      cases xs with
      | nil => exact nomatch length
      | cons x xs =>
        obtain ⟨hx, hxs⟩ := List.forall_mem_cons.mp all
        refine ⟨x, _, hx, ?_, xs, rest, ⟨Nat.succ.inj length, hxs⟩, rfl, rfl, rfl⟩
        rw [List.flatMap_cons, List.append_assoc]

/-- A list takes as many bytes as its values take at least. -/
theorem le_of_readMany {width : Nat} (h : ∀ {bytes rest : Bytes} {x : α},
      read.run bytes = .ok (x, rest) → rest.length + width ≤ bytes.length)
    {count : Nat} {xs : List α} (list : (readMany read count).run bytes = .ok (xs, rest)) :
    rest.length + width * count ≤ bytes.length := by
  induction count generalizing bytes xs with
  | zero =>
    obtain ⟨-, rfl⟩ := run_pure_eq_ok.mp list
    exact Nat.le_refl _
  | succ count ih =>
    obtain ⟨x, mid, first, list⟩ := run_bind_eq_ok.mp list
    obtain ⟨ys, mid', others, list⟩ := run_bind_eq_ok.mp list
    obtain ⟨-, rfl⟩ := run_pure_eq_ok.mp list
    have head := h first
    have tail := ih others
    rw [Nat.mul_succ]
    omega

/-- A field for each entry of a list. -/
theorem mapM_accepts {γ : Type} {reader : γ → Reader α} {Q : γ → α → Prop} {entries : List γ}
    (h : ∀ c ∈ entries, Accepts (reader c) write (Q c)) :
    Accepts (entries.mapM reader) (·.flatMap write) (List.Forall₂ Q entries) := by
  induction entries with
  | nil =>
    intro bytes xs rest
    rw [List.mapM_nil, run_pure_eq_ok, List.forall₂_nil_left_iff]
    constructor
    · rintro ⟨rfl, rfl⟩
      exact ⟨rfl, rfl⟩
    · rintro ⟨rfl, rfl⟩
      exact ⟨rfl, rfl⟩
  | cons c entries ih =>
    obtain ⟨first, others⟩ := List.forall_mem_cons.mp h
    intro bytes xs rest
    simp only [List.mapM_cons, first.run_bind, (ih others).run_bind, run_pure_eq_ok]
    constructor
    · rintro ⟨x, _, hx, rfl, ys, _, hys, rfl, rfl, rfl⟩
      refine ⟨.cons hx hys, ?_⟩
      rw [List.flatMap_cons, List.append_assoc]
    · rintro ⟨all, rfl⟩
      cases all with
      | cons hx hys =>
        refine ⟨_, _, hx, ?_, _, rest, hys, rfl, rfl, rfl⟩
        rw [List.flatMap_cons, List.append_assoc]

end CipherFlow.Wire
