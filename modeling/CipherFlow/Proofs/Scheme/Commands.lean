import CipherFlow.Proofs.Scheme.Homomorphism
import CipherFlow.Proofs.Scheme.Rescaling
import CipherFlow.Proofs.Session.KeyHolder

/-!
# Sequences of operations

An evaluator is used in any order: each operation takes ciphertexts and
plaintexts that are there already, and its result is there for the next ones.
As long as the keys are over the top basis, the level of a ciphertext always
tells over which basis its components are. So no operation ever meets elements
of two bases, and what it can still be refused for are its operands.

`Registers.run_keeps_proper` is about any sequence of commands, and about the
command that comes next.

How the proof goes. `Replies P` says that an operation ends with a value with the
property `P` or refuses its operands, and it is composed along the steps of an
operation (`replies_bind`). There is one such lemma for each operation,
`Operation.replies_perform` collects them, and the induction over the sequence is
`Registers.Proper.run`.
-/

namespace CipherFlow

open CipherFlow.Ring (Basis Poly)
open Returning (Returns)

/-! ## Refusals -/

/-- Whether an error is an answer about the operands: about their lanes,
levels, scales or sizes. -/
def Scheme.Error.isRefusal : Scheme.Error → Bool
  | .encoding e => !Faulty.isFault e
  | .scaleMismatch .. | .levelMismatch .. | .invalidLevel .. => true
  | .modulusChainExhausted | .unsupportedSize _ => true
  | _ => false

namespace Scheme

variable {α β : Type} {P Q : α → Prop} {x : Except Error α}

/-- An operation ends with a value that has a property, or with a refusal. -/
def Replies (x : Except Error α) (P : α → Prop) : Prop :=
  match x with
  | .ok a => P a
  | .error e => e.isRefusal = true

theorem replies_of_ok {a : α} (eq : x = .ok a) (h : P a) : Replies x P := by
  subst eq
  exact h

theorem replies_bind {f : α → Except Error β} {Q : β → Prop} (hx : Replies x P)
    (hf : ∀ a, P a → Replies (f a) Q) : Replies (x >>= f) Q := by
  cases x with
  | error e => exact hx
  | ok a => exact hf a hx

theorem replies_mono (h : Replies x P) (weaken : ∀ a, x = .ok a → P a → Q a) : Replies x Q := by
  cases x with
  | error e => exact h
  | ok a => exact weaken a rfl h

/-- An encoding that does not fault. -/
theorem replies_encoding {y : Except Slots.Error α} (h : Returns y P) :
    Replies (y.mapError .encoding) P := by
  cases y with
  | error e =>
    have returned : Faulty.isFault e = false := h
    show (!Faulty.isFault e) = true
    rw [returned]
    rfl
  | ok a => exact h

theorem replies_checkLevel (expected actual : Nat) :
    Replies (checkLevel expected actual) fun _ => expected = actual := by
  unfold checkLevel
  split
  · assumption
  · rfl

theorem replies_checkScale (expected actual : Float) :
    Replies (checkScale expected actual) fun _ => scalesMatch expected actual = true := by
  unfold checkScale
  split
  · assumption
  · rfl

end Scheme

open Scheme (Replies replies_of_ok replies_bind replies_mono)

/-! ## Operations -/

/-- An operation of an evaluator on ciphertexts of type `C` and plaintexts of
type `P`; an encryption has its coins. -/
inductive Operation (C P : Type) where
  | encrypt (lanes : List Float) (packing : Packing) (scale : Binary64) (level : Nat)
    (coins : Coins)
  | encryptPlain (p : P) (coins : Coins)
  | add (a b : C)
  | addPlain (a : C) (p : P)
  | multiply (a b : C)
  | multiplyPlain (a : C) (p : P)
  | rescale (a : C)
  | switchTo (a : C) (level : Nat)

/-- What the operations of a sequence have to work on. -/
structure Registers where
  ciphertexts : List Ciphertext
  plaintexts : List Plaintext

namespace Operation

/-- The result of an operation. -/
def perform (ev : Evaluator) : Operation Ciphertext Plaintext → Except Scheme.Error Ciphertext
  | encrypt lanes packing scale level coins =>
    ((ev.encrypt lanes packing scale level).run coins).map Prod.fst
  | encryptPlain p coins => ((p.encrypt ev.context ev.publicKey).run coins).map Prod.fst
  | add a b => ev.add a b
  | addPlain a p => ev.addPlain a p
  | multiply a b => ev.multiply a b
  | multiplyPlain a p => ev.multiplyPlain a p
  | rescale a => ev.rescale a
  | switchTo a level => ev.switchTo a level

/-- The levels of the operands, or the level that is asked for. -/
def levels : Operation Ciphertext Plaintext → List Nat
  | encrypt _ _ _ level _ => [level]
  | encryptPlain p _ => [p.level]
  | add a b => [a.level, b.level]
  | addPlain a p => [a.level, p.level]
  | multiply a b => [a.level, b.level]
  | multiplyPlain a p => [a.level, p.level]
  | rescale a => [a.level]
  | switchTo a level => [a.level, level]

/-- An operation on numbered operands, with the operands themselves. There is
none if a number is that of no operand. -/
def resolve (R : Registers) : Operation Nat Nat → Option (Operation Ciphertext Plaintext)
  | encrypt lanes packing scale level coins => some (encrypt lanes packing scale level coins)
  | encryptPlain p coins => R.plaintexts[p]?.map (encryptPlain · coins)
  | add a b => do return add (← R.ciphertexts[a]?) (← R.ciphertexts[b]?)
  | addPlain a p => do return addPlain (← R.ciphertexts[a]?) (← R.plaintexts[p]?)
  | multiply a b => do return multiply (← R.ciphertexts[a]?) (← R.ciphertexts[b]?)
  | multiplyPlain a p => do return multiplyPlain (← R.ciphertexts[a]?) (← R.plaintexts[p]?)
  | rescale a => R.ciphertexts[a]?.map rescale
  | switchTo a level => R.ciphertexts[a]?.map (switchTo · level)

end Operation

namespace Registers

/-- One operation: its result is added to the ciphertexts, if there is one. -/
def step (ev : Evaluator) (R : Registers) (c : Operation Nat Nat) : Registers :=
  match c.resolve R with
  | none => R
  | some op =>
    match op.perform ev with
    | .error _ => R
    | .ok r => { R with ciphertexts := R.ciphertexts ++ [r] }

/-- A sequence of operations. -/
def run (ev : Evaluator) (R : Registers) (cs : List (Operation Nat Nat)) : Registers :=
  cs.foldl (step ev) R

end Registers

/-! ## What is kept -/

/-- All operands to choose from are well formed. -/
structure Registers.Proper (ctx : Context) (R : Registers) : Prop where
  ciphertexts : ∀ c ∈ R.ciphertexts, c.Proper ctx
  plaintexts : ∀ p ∈ R.plaintexts, p.WellFormed ctx

/-- The operands of an operation are well formed. -/
def Operation.Proper (ctx : Context) : Operation Ciphertext Plaintext → Prop
  | encrypt .. => True
  | encryptPlain p _ => p.WellFormed ctx
  | add a b | multiply a b => a.Proper ctx ∧ b.Proper ctx
  | addPlain a p | multiplyPlain a p => a.Proper ctx ∧ p.WellFormed ctx
  | rescale a | switchTo a _ => a.Proper ctx

/-- All keys of an evaluator are over the top basis of a context. -/
structure Evaluator.IsOver (ctx : Context) (ev : Evaluator) : Prop where
  context : ev.context = ctx
  publicKey : ev.publicKey.IsOver ctx.topBasis
  relinKey : ev.relinKey.IsOver ctx.topBasis

namespace Evaluator

variable {ctx : Context} {ev : Evaluator} {a b : Ciphertext} {p : Plaintext} {x y : List Poly}
  {B : Basis} {level : Nat}

/-! ## Encryptions -/

theorem replies_encryptPlain (sound : ctx.Sound) (keys : ev.IsOver ctx) (hp : p.WellFormed ctx)
    (coins : Coins) :
    Replies (((p.encrypt ev.context ev.publicKey).run coins).map Prod.fst) fun r =>
      r.Proper ctx ∧ r.level = p.level := by
  obtain ⟨r, coins', tape, eq⟩ := Plaintext.exists_encrypt sound ev.publicKey p coins
  obtain ⟨hidden, hides⟩ := keys.publicKey.hides (.zero ctx.topBasis)
  obtain ⟨c0, c1, hc, over0, over1, -⟩ := Plaintext.encryptWith_pair sound hides hp tape
  rw [keys.context, eq, hc]
  exact ⟨⟨Ciphertext.wellFormed_pair hp.level over0 over1 _, List.cons_ne_nil _ _⟩, rfl⟩

/-- Lanes are refused by their encoding only. -/
theorem replies_encode (sound : ctx.Sound) (sized : ctx.Sized) (lanes : List Float)
    (packing : Packing) (scale : Binary64) (level : Nat) :
    Replies (ctx.encode lanes packing scale level) fun p => p.WellFormed ctx ∧ p.level = level := by
  refine replies_mono (P := fun _ => True) ?_ fun p eq _ => ?_
  · refine replies_bind (P := fun _ => True) ?_ fun _ _ => ?_
    · unfold Context.basis
      split
      · trivial
      · rfl
    refine replies_bind (Scheme.replies_encoding (Slots.pack_returns (sized.capacity_le packing)))
      fun _ _ => ?_
    exact replies_bind (Scheme.replies_encoding (Slots.Embedding.encode_returns _ _ _))
      fun _ _ => trivial
  · obtain ⟨wellFormed, -, levelEq⟩ := Context.wellFormed_of_encode sound eq
    exact ⟨wellFormed, levelEq⟩

theorem replies_encrypt (sound : ctx.Sound) (sized : ctx.Sized) (keys : ev.IsOver ctx)
    (lanes : List Float) (packing : Packing) (scale : Binary64) (level : Nat) (coins : Coins) :
    Replies (((ev.encrypt lanes packing scale level).run coins).map Prod.fst) fun r =>
      r.Proper ctx ∧ r.level = level := by
  have steps : ((ev.encrypt lanes packing scale level).run coins).map Prod.fst =
      ev.context.encode lanes packing scale level >>= fun p =>
        ((p.encrypt ev.context ev.publicKey).run coins).map Prod.fst := by
    unfold encrypt
    cases ev.context.encode lanes packing scale level <;> rfl
  rw [steps, keys.context]
  refine replies_bind (replies_encode sound sized lanes packing scale level) fun p ⟨hp, same⟩ => ?_
  have encrypted := replies_encryptPlain sound keys hp coins
  rwa [keys.context, same] at encrypted

/-! ## Sums -/

variable (ev) in
theorem replies_add (ha : a.Proper ctx) (hb : b.Proper ctx) :
    Replies (ev.add a b) fun r => r.Proper ctx ∧ r.level = a.level ∧ a.level = b.level := by
  by_cases level : a.level = b.level
  · by_cases scales : Scheme.scalesMatch a.scale b.scale = true
    · obtain ⟨r, hr, value⟩ := ev.add_ok ha hb level scales
      exact replies_of_ok hr ⟨value.proper, value.level, level⟩
    · exact replies_bind (Scheme.replies_checkLevel _ _) fun _ _ =>
        replies_bind (Scheme.replies_checkScale _ _) fun _ h => absurd h scales
  · exact replies_bind (Scheme.replies_checkLevel _ _) fun _ h => absurd h level

variable (ev) in
theorem replies_addPlain (ha : a.Proper ctx) (hp : p.WellFormed ctx) :
    Replies (ev.addPlain a p) fun r => r.Proper ctx ∧ r.level = a.level ∧ a.level = p.level := by
  by_cases level : a.level = p.level
  · by_cases scales : Scheme.scalesMatch a.scale p.scale = true
    · obtain ⟨r, hr, value⟩ := ev.addPlain_ok ha hp level scales
      exact replies_of_ok hr ⟨value.proper, value.level, level⟩
    · exact replies_bind (Scheme.replies_checkLevel _ _) fun _ _ =>
        replies_bind (Scheme.replies_checkScale _ _) fun _ h => absurd h scales
  · exact replies_bind (Scheme.replies_checkLevel _ _) fun _ h => absurd h level

/-! ## Component by component -/

/-- What is done to every component, if it succeeds on each. -/
theorem replies_mapM {f : Poly → Except Ring.Error Poly} (nonempty : x ≠ [])
    (each : ∀ c ∈ x, ∃ r, f c = .ok r ∧ r.IsOver B) :
    Replies (x.mapM fun c => (f c).mapError Scheme.Error.ring) fun r =>
      r ≠ [] ∧ ∀ c ∈ r, c.IsOver B := by
  have lifted : ∀ (i : Nat) (c : Poly), x[i]? = some c →
      ∃ r, (f c).mapError Scheme.Error.ring = .ok r ∧ r.IsOver B := by
    intro i c hc
    obtain ⟨r, hr, isOver⟩ := each c (List.mem_of_getElem? hc)
    exact ⟨r, by rw [hr]; rfl, isOver⟩
  obtain ⟨r, hr, length, isOver⟩ := mapM_ok lifted
  have some : r ≠ [] := List.ne_nil_of_length_pos (length ▸ List.length_pos_iff.mpr nonempty)
  refine replies_of_ok hr ⟨some, fun c hc => ?_⟩
  obtain ⟨i, hi⟩ := List.mem_iff_getElem?.mp hc
  exact isOver i c hi

variable (ev) in
theorem replies_multiplyPlain (sound : ctx.Sound) (ha : a.Proper ctx) (hp : p.WellFormed ctx) :
    Replies (ev.multiplyPlain a p) fun r =>
      r.Proper ctx ∧ r.level = a.level ∧ a.level = p.level := by
  by_cases level : a.level = p.level
  · obtain ⟨r, hr, value⟩ := ev.multiplyPlain_ok sound ha hp level
    exact replies_of_ok hr ⟨value.proper, value.level, level⟩
  · exact replies_bind (Scheme.replies_checkLevel _ _) fun _ h => absurd h level

theorem replies_switchTo (same : ev.context = ctx) (ha : a.Proper ctx) (level : Nat) :
    Replies (ev.switchTo a level) fun r => r.Proper ctx ∧ r.level = level ∧ level ≤ a.level := by
  by_cases le : level ≤ a.level
  · obtain ⟨r, hr, value⟩ := switchTo_ok same ha le
    exact replies_of_ok hr ⟨value.proper, value.level, le⟩
  · rw [switchTo, if_pos (Nat.lt_of_not_le le)]
    rfl

theorem replies_rescale (sound : ctx.Sound) (same : ev.context = ctx) (ha : a.Proper ctx) :
    Replies (ev.rescale a) fun r => r.Proper ctx ∧ r.level + 1 = a.level := by
  unfold rescale
  rw [same]
  split
  · rfl
  · rename_i q modulus
    have pos : a.level ≠ 0 := by
      intro zero
      rw [Context.rescaleModulus, if_pos zero] at modulus
      cases modulus
    have lt := ha.wellFormed.level
    have below : a.level - 1 < ctx.primes.length := by omega
    refine replies_bind (replies_of_ok (Context.basis_ok below) rfl) fun target same => ?_
    subst same
    refine replies_bind (replies_mapM (B := ctx.basisAt (a.level - 1)) ha.nonempty fun c hc => ?_)
      fun r hr => ⟨⟨⟨below, hr.2⟩, hr.1⟩, Nat.succ_pred pos⟩
    have length := Context.length_basisAt lt
    have length' := Context.length_basisAt below
    obtain ⟨r, hr, isOver, -⟩ := Ring.divideByLast_isOver (sound.valid_basisAt (a.level - 1)).pos
      (by omega) (ctx.isInitialOf_basisAt (by omega)) (by omega) (ha.wellFormed.components c hc)
    exact ⟨r, hr, isOver⟩

/-! ## Products -/

theorem replies_multiply (sound : ctx.Sound) (keys : ev.IsOver ctx) (ha : a.Proper ctx)
    (hb : b.Proper ctx) :
    Replies (ev.multiply a b) fun r =>
      r.Proper ctx ∧ r.size = 2 ∧ r.level = a.level ∧ a.level = b.level := by
  obtain ⟨componentsA, σ, level⟩ := a
  obtain ⟨componentsB, τ, levelB⟩ := b
  by_cases sizes : componentsA.length = 2 ∧ componentsB.length = 2
  · obtain ⟨a0, a1, rfl⟩ := List.length_eq_two.mp sizes.1
    obtain ⟨b0, b1, rfl⟩ := List.length_eq_two.mp sizes.2
    by_cases same : level = levelB
    · subst same
      by_cases scales : Scheme.scalesMatch σ τ = true
      · obtain ⟨hidden, hides⟩ := keys.relinKey.hides (.zero ctx.topBasis)
        have overA := List.forall_mem_cons.mp ha.wellFormed.components
        have overB := List.forall_mem_cons.mp hb.wellFormed.components
        obtain ⟨r0, r1, -, hr, over0, over1, -⟩ := multiply_hidden
          (ctx.isInitialOf_topBasis level) keys.relinKey.length hides (sound.valid_basisAt level)
          overA.1 (List.forall_mem_singleton.mp overA.2) overB.1
          (List.forall_mem_singleton.mp overB.2) scales level
        exact replies_of_ok hr ⟨⟨Ciphertext.wellFormed_pair ha.wellFormed.level over0 over1 _,
          List.cons_ne_nil _ _⟩, rfl, rfl, rfl⟩
      · exact replies_bind (Scheme.replies_checkLevel _ _) fun _ _ =>
          replies_bind (Scheme.replies_checkScale _ _) fun _ h => absurd h scales
    · exact replies_bind (Scheme.replies_checkLevel _ _) fun _ h => absurd h same
  · refine replies_bind (Scheme.replies_checkLevel _ _) fun _ _ =>
      replies_bind (Scheme.replies_checkScale _ _) fun _ _ => ?_
    split
    · rename_i eqA eqB
      exact absurd ⟨congrArg List.length eqA, congrArg List.length eqB⟩ sizes
    · rfl

end Evaluator

/-! ## Sequences -/

section Sequences

variable {ctx : Context} {ev : Evaluator} {R : Registers}

/-- What comes of an operation: a well-formed ciphertext at no higher level
than those of the operands, with two components if it is a product. -/
structure Operation.Gives (ctx : Context) (op : Operation Ciphertext Plaintext) (r : Ciphertext) :
    Prop where
  proper : r.Proper ctx
  level_le : ∀ l ∈ op.levels, r.level ≤ l
  size : ∀ a b, op = .multiply a b → r.size = 2

/-- One operation, by cases. -/
theorem Operation.replies_perform (sound : ctx.Sound) (sized : ctx.Sized) (keys : ev.IsOver ctx)
    {op : Operation Ciphertext Plaintext} (h : op.Proper ctx) :
    Replies (op.perform ev) (op.Gives ctx) := by
  cases op with
  | encrypt lanes packing scale level coins =>
    refine replies_mono (Evaluator.replies_encrypt sound sized keys lanes packing scale level coins)
      fun r _ ⟨proper, eq⟩ => ⟨proper, ?_, nofun⟩
    simp [levels, eq]
  | encryptPlain p coins =>
    refine replies_mono (Evaluator.replies_encryptPlain sound keys h coins)
      fun r _ ⟨proper, eq⟩ => ⟨proper, ?_, nofun⟩
    simp [levels, eq]
  | add a b =>
    refine replies_mono (ev.replies_add h.1 h.2)
      fun r _ ⟨proper, eq, same⟩ => ⟨proper, ?_, nofun⟩
    simp [levels, eq, same]
  | addPlain a p =>
    refine replies_mono (ev.replies_addPlain h.1 h.2)
      fun r _ ⟨proper, eq, same⟩ => ⟨proper, ?_, nofun⟩
    simp [levels, eq, same]
  | multiply a b =>
    refine replies_mono (Evaluator.replies_multiply sound keys h.1 h.2)
      fun r _ ⟨proper, size, eq, same⟩ => ⟨proper, ?_, fun _ _ _ => size⟩
    simp [levels, eq, same]
  | multiplyPlain a p =>
    refine replies_mono (ev.replies_multiplyPlain sound h.1 h.2)
      fun r _ ⟨proper, eq, same⟩ => ⟨proper, ?_, nofun⟩
    simp [levels, eq, same]
  | rescale a =>
    refine replies_mono (Evaluator.replies_rescale sound keys.context h)
      fun r _ ⟨proper, eq⟩ => ⟨proper, ?_, nofun⟩
    simp [levels, ← eq]
  | switchTo a level =>
    refine replies_mono (Evaluator.replies_switchTo keys.context h level)
      fun r _ ⟨proper, eq, le⟩ => ⟨proper, ?_, nofun⟩
    simp [levels, eq, le]

/-- Operands that are found are well formed. -/
theorem Registers.Proper.resolve (h : R.Proper ctx) {c : Operation Nat Nat}
    {op : Operation Ciphertext Plaintext} (found : c.resolve R = some op) : op.Proper ctx := by
  have ciphertext : ∀ {i : Nat} {a : Ciphertext}, R.ciphertexts[i]? = some a → a.Proper ctx :=
    fun hi => h.ciphertexts _ (List.mem_of_getElem? hi)
  have plaintext : ∀ {i : Nat} {p : Plaintext}, R.plaintexts[i]? = some p → p.WellFormed ctx :=
    fun hi => h.plaintexts _ (List.mem_of_getElem? hi)
  cases c with
  | encrypt lanes packing scale level coins =>
    obtain rfl := Option.some.inj found
    trivial
  | encryptPlain p coins =>
    obtain ⟨_, hp, rfl⟩ := Option.map_eq_some_iff.mp found
    exact plaintext hp
  | add a b =>
    obtain ⟨_, ha, found⟩ := Option.bind_eq_some_iff.mp found
    obtain ⟨_, hb, found⟩ := Option.bind_eq_some_iff.mp found
    obtain rfl := Option.some.inj found
    exact ⟨ciphertext ha, ciphertext hb⟩
  | addPlain a p =>
    obtain ⟨_, ha, found⟩ := Option.bind_eq_some_iff.mp found
    obtain ⟨_, hp, found⟩ := Option.bind_eq_some_iff.mp found
    obtain rfl := Option.some.inj found
    exact ⟨ciphertext ha, plaintext hp⟩
  | multiply a b =>
    obtain ⟨_, ha, found⟩ := Option.bind_eq_some_iff.mp found
    obtain ⟨_, hb, found⟩ := Option.bind_eq_some_iff.mp found
    obtain rfl := Option.some.inj found
    exact ⟨ciphertext ha, ciphertext hb⟩
  | multiplyPlain a p =>
    obtain ⟨_, ha, found⟩ := Option.bind_eq_some_iff.mp found
    obtain ⟨_, hp, found⟩ := Option.bind_eq_some_iff.mp found
    obtain rfl := Option.some.inj found
    exact ⟨ciphertext ha, plaintext hp⟩
  | rescale a =>
    obtain ⟨_, ha, rfl⟩ := Option.map_eq_some_iff.mp found
    exact ciphertext ha
  | switchTo a level =>
    obtain ⟨_, ha, rfl⟩ := Option.map_eq_some_iff.mp found
    exact ciphertext ha

theorem Registers.Proper.step (sound : ctx.Sound) (sized : ctx.Sized) (keys : ev.IsOver ctx)
    (h : R.Proper ctx) (c : Operation Nat Nat) : (R.step ev c).Proper ctx := by
  unfold Registers.step
  split
  · exact h
  · rename_i op found
    have replies := Operation.replies_perform sound sized keys (h.resolve found)
    split
    · exact h
    · rename_i r performed
      rw [performed] at replies
      refine ⟨fun c hc => ?_, h.plaintexts⟩
      rcases List.mem_append.mp hc with hc | hc
      · exact h.ciphertexts c hc
      · rw [List.mem_singleton.mp hc]
        exact replies.proper

/-- By induction on the sequence: every prefix of it leaves well-formed
operands for the rest. -/
theorem Registers.Proper.run (sound : ctx.Sound) (sized : ctx.Sized) (keys : ev.IsOver ctx)
    (h : R.Proper ctx) (cs : List (Operation Nat Nat)) : (R.run ev cs).Proper ctx := by
  unfold Registers.run
  induction cs generalizing R with
  | nil => exact h
  | cons c cs ih => exact ih (h.step sound sized keys c)

end Sequences

/-- After any sequence of operations on well-formed operands, with keys over
the top basis, all ciphertexts are well formed. The next operation gives a
well-formed ciphertext again, at no higher level than its operands and with two
components if it is a product, or it is refused for its operands: never for the
rings or the keys. -/
theorem Registers.run_keeps_proper [Primitives] {params : Params} {ctx : Context}
    (hctx : Context.ofParams params = .ok ctx) {publicKey : PublicKey} {relinKey : RelinKey}
    {ev : Evaluator} (hev : Evaluator.ofKeys ctx publicKey relinKey = .ok ev)
    (overPublic : publicKey.b.IsOver ctx.topBasis ∧ publicKey.a.IsOver ctx.topBasis)
    (overRelin : ∀ d ∈ relinKey.digits, d.1.IsOver ctx.topBasis ∧ d.2.IsOver ctx.topBasis)
    {R : Registers} (start : R.Proper ctx) (cs : List (Operation Nat Nat)) :
    (R.run ev cs).Proper ctx ∧
      ∀ (c : Operation Nat Nat) (op : Operation Ciphertext Plaintext),
        c.resolve (R.run ev cs) = some op →
        (∀ r, op.perform ev = .ok r → op.Gives ctx r) ∧
        ∀ e, op.perform ev = .error e →
          e.isRefusal = true ∧ (∀ x, e ≠ .ring x) ∧ ∀ x, e ≠ .key x := by
  have sound := Context.sound_of_ofParams hctx
  have sized := Context.sized_of_ofParams hctx
  have keys : ev.IsOver ctx := by
    unfold Evaluator.ofKeys at hev
    split at hev
    · exact nomatch hev
    · split at hev
      · exact nomatch hev
      · rename_i count
        obtain rfl := Except.ok.inj hev
        exact ⟨rfl, ⟨overPublic.1, overPublic.2⟩, ⟨not_not.mp count, overRelin⟩⟩
  have after := start.run sound sized keys cs
  refine ⟨after, fun c op found => ?_⟩
  have replies := Operation.replies_perform sound sized keys (after.resolve found)
  refine ⟨fun r performed => ?_, fun e performed => ?_⟩
  · rwa [performed] at replies
  · rw [performed] at replies
    have refusal : e.isRefusal = true := replies
    refine ⟨refusal, ?_, ?_⟩
    · rintro x rfl
      exact nomatch refusal
    · rintro x rfl
      exact nomatch refusal

namespace Registers.Tiny

/-- An element over both primes. -/
def element : Poly :=
  .ofInts Context.tiny.topBasis [11, -7, 100, 3]

/-- An evaluator with the element for all its keys. -/
def evaluator : Evaluator :=
  ⟨Context.tiny, ⟨element, element⟩, ⟨[(element, element), (element, element)]⟩⟩

/-- Two ciphertexts and a plaintext at the top level. -/
def registers : Registers :=
  ⟨[⟨[element, element], .ofFloat 16, 1⟩, ⟨[element, element], .ofFloat 16, 1⟩],
    [⟨element, .ofFloat 16, 1⟩]⟩

/-- A product, its quotient by the upper prime, a sum with a plaintext, a
passage to the lower level, and a sum that is refused, as the scales differ. -/
def sequence : List (Operation Nat Nat) :=
  [.multiply 0 1, .rescale 2, .addPlain 0 0, .switchTo 4 0, .add 3 5]

theorem isOver_element : element.IsOver Context.tiny.topBasis :=
  Context.sound_tiny.isOver_ofInts 1 rfl

attribute [local instance] Primitives.coarse

/-- Four of the five operations have a result. -/
theorem run_keeps_proper_tiny :
    Context.ofParams Context.tiny.params = .ok Context.tiny ∧
      Evaluator.ofKeys Context.tiny evaluator.publicKey evaluator.relinKey = .ok evaluator ∧
      registers.Proper Context.tiny ∧ (registers.run evaluator sequence).Proper Context.tiny ∧
      (registers.run evaluator sequence).ciphertexts.map (fun c => (c.size, c.level)) =
        [(2, 1), (2, 1), (2, 1), (2, 0), (2, 1), (2, 0)] := by
  have accepted : Evaluator.ofKeys Context.tiny evaluator.publicKey evaluator.relinKey =
      .ok evaluator := rfl
  have isOver : element.IsOver (Context.tiny.basisAt 1) := isOver_element
  have pair : Ciphertext.Proper Context.tiny ⟨[element, element], .ofFloat 16, 1⟩ :=
    ⟨Ciphertext.wellFormed_pair Nat.one_lt_two isOver isOver _, List.cons_ne_nil _ _⟩
  have start : registers.Proper Context.tiny :=
    ⟨List.forall_mem_cons.mpr ⟨pair, List.forall_mem_singleton.mpr pair⟩,
      List.forall_mem_singleton.mpr ⟨Nat.one_lt_two, isOver_element⟩⟩
  have digits : ∀ d ∈ evaluator.relinKey.digits,
      d.1.IsOver Context.tiny.topBasis ∧ d.2.IsOver Context.tiny.topBasis :=
    List.forall_mem_cons.mpr ⟨⟨isOver_element, isOver_element⟩,
      List.forall_mem_singleton.mpr ⟨isOver_element, isOver_element⟩⟩
  exact ⟨Context.ofParams_tiny, accepted, start,
    (run_keeps_proper Context.ofParams_tiny accepted ⟨isOver_element, isOver_element⟩ digits start
      sequence).1, by decide +kernel⟩

end Registers.Tiny

end CipherFlow
