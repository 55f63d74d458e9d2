import CipherFlow.Proofs.Scheme.Commands
import CipherFlow.Tensor.Elements

/-!
# Sums and products that return

A sum or product of two elements ends with an element or with an error about
the operands, under keys over the top basis, whatever the packing, the level
and the scale of the operands. There is one exception: two lists of plain lanes
of which neither has as many lanes as the other nor a single lane for all of
them.

`faults_iff_unpaired` says that this is the only fault, for both operations at once.

How the proof goes. What the evaluator answers to well-formed operands is known: a
result or a refusal, and no refusal is a fault (`returns_of_replies`). Each
operation is followed step by step to its end, plain with plain (`lanes_returns`),
then ciphertexts and known zeros, and with it goes what comes of the operands
(`ComesOf`), which those need who apply one operation to the results of others.
-/

namespace CipherFlow

open CipherFlow.Element (Compute)
open Returning

/-! ## Plain lanes -/

namespace Lanes

variable {α β γ : Type} {xs : List α} {ys : List β}

/-- Lists that can be combined lane by lane: as many lanes on either side, or a
single lane that goes with every lane of the other side. -/
def Pair (xs : List α) (ys : List β) : Prop :=
  xs.length = ys.length ∨ (xs.length = 1 ∧ ys ≠ []) ∨ (ys.length = 1 ∧ xs ≠ [])

instance (xs : List α) (ys : List β) : Decidable (Pair xs ys) :=
  inferInstanceAs (Decidable (_ ∨ _))

/-- Lanes are combined up to the longer side. -/
theorem zipWith_of_pair (f : α → β → γ) (pair : Pair xs ys) :
    ∃ zs, zipWith f xs ys = .ok zs ∧ zs.length = max xs.length ys.length := by
  unfold zipWith
  split
  · rename_i same
    exact ⟨_, rfl, by simp [same]⟩
  · rename_i differ
    rcases pair with same | ⟨single, some⟩ | ⟨single, some⟩
    · exact absurd same differ
    · obtain ⟨x, rfl⟩ := List.length_eq_one_iff.mp single
      obtain ⟨y, ys, rfl⟩ := List.exists_cons_of_ne_nil some
      exact ⟨_, rfl, by simp⟩
    · obtain ⟨y, rfl⟩ := List.length_eq_one_iff.mp single
      match xs, some with
      | [x], _ => exact absurd rfl differ
      | x :: x' :: xs, _ => exact ⟨_, rfl, by simp⟩

theorem zipWith_of_not_pair (f : α → β → γ) (unpaired : ¬ Pair xs ys) :
    zipWith f xs ys = .error (.lengthMismatch xs.length ys.length) := by
  unfold zipWith
  split
  · exact absurd (.inl ‹_›) unpaired
  · split
    · exact absurd (.inr (.inl ⟨rfl, List.cons_ne_nil _ _⟩)) unpaired
    · exact absurd (.inr (.inr ⟨rfl, List.cons_ne_nil _ _⟩)) unpaired
    · rfl

end Lanes

/-! ## Errors of the evaluator -/

/-- An answer about the operands comes from no fault. -/
theorem Scheme.Error.isFault_of_isRefusal {e : Scheme.Error} (refusal : e.isRefusal = true) :
    Faulty.isFault e = false := by
  cases e with
  | encoding e =>
    have returned : (!Faulty.isFault e) = true := refusal
    show Faulty.isFault e = false
    simpa using returned
  | scaleMismatch => rfl
  | levelMismatch => rfl
  | invalidLevel => rfl
  | modulusChainExhausted => rfl
  | unsupportedSize => rfl
  | _ => exact nomatch refusal

theorem returns_of_replies {α : Type} {P : α → Prop} {x : Except Scheme.Error α}
    (h : Scheme.Replies x P) : Returns (x.mapError Element.Error.scheme) P := by
  cases x with
  | ok a => exact h
  | error e => exact Scheme.Error.isFault_of_isRefusal h

/-- A command that takes no coins, among computations on elements. -/
theorem returns_lift_of_replies {α : Type} {P : α → Prop} {x : Except Scheme.Error α}
    (h : Scheme.Replies x P) : Returns (liftM x : Compute α) P := by
  intro coins
  cases x with
  | ok a => exact h
  | error e => exact Scheme.Error.isFault_of_isRefusal h

/-- And one that takes coins. -/
theorem returns_of_replies_map {α : Type} {P : α → Prop} {x : Scheme.Sampling α}
    (h : ∀ coins, Scheme.Replies ((x.run coins).map Prod.fst) P) :
    Returns (liftM x : Compute α) P := by
  intro coins
  have replies := h coins
  show Returns ((x.run coins).mapError Element.Error.scheme) _
  cases eq : x.run coins with
  | ok r =>
    rw [eq] at replies
    exact replies
  | error e =>
    rw [eq] at replies
    exact Scheme.Error.isFault_of_isRefusal replies

/-! ## Encrypted elements -/

/-- The ciphertext, if there is one, is well formed. -/
def Handle.Proper (ctx : Context) (h : Handle) : Prop :=
  ∀ ct, h.state = .encrypted ct → ct.Proper ctx

theorem Handle.proper_zero (ctx : Context) (packing : Packing) (scale : Binary64) (level : Nat) :
    (Handle.zero packing scale level).Proper ctx :=
  fun _ h => nomatch h

theorem Handle.proper_ofCiphertext {ctx : Context} {ct : Ciphertext} (h : ct.Proper ctx)
    (packing : Packing) : (Handle.ofCiphertext ct packing).Proper ctx := by
  intro ct' eq
  rwa [← CipherState.encrypted.inj eq]

namespace Element

variable {ctx : Context} {ev : Evaluator} {x y : Handle} {p : List Float} {a b : Element}

theorem checkOperands_returns (x y : Handle) : Returns (checkOperands x y) fun _ => True := by
  refine returns_ite (fun _ => rfl) fun _ => ?_
  refine returns_bind (P := fun _ => True) ?_ fun _ _ => ?_
  · exact returns_mono (returns_of_replies (Scheme.replies_checkLevel _ _)) fun _ _ _ => trivial
  · exact returns_mono (returns_of_replies (Scheme.replies_checkScale _ _)) fun _ _ _ => trivial

section Keys

variable (sound : ctx.Sound) (sized : ctx.Sized) (keys : ev.IsOver ctx)

include sound sized keys

theorem addPlain_returns (hx : x.Proper ctx) : Returns (addPlain ev x p) (Handle.Proper ctx) := by
  refine returns_ite (fun _ => returns_pure hx) fun _ => ?_
  obtain ⟨packing, ⟨scale, level⟩ | ct⟩ := x
  · refine returns_bind (returns_of_replies_map
      (Evaluator.replies_encrypt sound sized keys p packing scale level)) fun ct h => ?_
    exact returns_pure (Handle.proper_ofCiphertext h.1 packing)
  · have encoding : Scheme.Replies (ev.context.encode p packing ct.scale ct.level) fun q =>
        q.WellFormed ctx ∧ q.level = ct.level := by
      rw [keys.context]
      exact Evaluator.replies_encode sound sized p packing ct.scale ct.level
    refine returns_bind (returns_lift_of_replies encoding) fun q hq => ?_
    refine returns_bind (returns_lift_of_replies (ev.replies_addPlain (hx ct rfl) hq.1))
      fun sum h => ?_
    exact returns_pure (Handle.proper_ofCiphertext h.1 packing)

omit sound sized keys in
theorem addCipher_returns (hx : x.Proper ctx) (hy : y.Proper ctx) :
    Returns (addCipher ev x y) (Handle.Proper ctx) := by
  refine returns_bind (checkOperands_returns x y) fun _ _ => ?_
  obtain ⟨packing, ⟨scale, level⟩ | l⟩ := x
  · exact hy
  · obtain ⟨packing', ⟨scale, level⟩ | r⟩ := y
    · exact hx
    · refine returns_bind (returns_of_replies (ev.replies_add (hx l rfl) (hy r rfl)))
        fun sum h => ?_
      exact returns_pure (Handle.proper_ofCiphertext h.1 packing)

omit sound sized keys in
theorem factorLanes_returns (packing : Packing) (p : List Float) :
    Returns (factorLanes packing p) fun _ => True := by
  unfold factorLanes
  cases packing with
  | real => trivial
  | complex => cases Lanes.uniform? p <;> trivial

theorem multiplyPlain_returns (hx : x.Proper ctx) :
    Returns (multiplyPlain ev x p) (Handle.Proper ctx) := by
  obtain ⟨packing, ⟨scale, level⟩ | ct⟩ := x
  · exact returns_of_ok rfl (Handle.proper_zero _ _ _ _)
  · refine returns_ite (fun _ => returns_of_ok rfl (Handle.proper_zero _ _ _ _)) fun _ => ?_
    refine returns_bind (factorLanes_returns packing p) fun lanes _ => ?_
    have encoding : Scheme.Replies
        (ev.context.encode lanes .real (plainScale ev.context ct.level) ct.level) fun q =>
          q.WellFormed ctx ∧ q.level = ct.level := by
      rw [keys.context]
      exact Evaluator.replies_encode sound sized lanes .real _ ct.level
    refine returns_bind (returns_of_replies encoding) fun q hq => ?_
    refine returns_bind (returns_of_replies (ev.replies_multiplyPlain sound (hx ct rfl) hq.1))
      fun product h => ?_
    exact returns_pure (Handle.proper_ofCiphertext h.1 packing)

omit sized in
theorem multiplyCipher_returns (hx : x.Proper ctx) (hy : y.Proper ctx) :
    Returns (multiplyCipher ev x y) (Handle.Proper ctx) := by
  refine returns_ite (fun _ => rfl) fun _ => ?_
  refine returns_bind (checkOperands_returns x y) fun _ _ => ?_
  obtain ⟨packing, ⟨scale, level⟩ | l⟩ := x
  · exact returns_of_ok rfl (Handle.proper_zero _ _ _ _)
  · obtain ⟨packing', ⟨scale, level⟩ | r⟩ := y
    · exact returns_of_ok rfl (Handle.proper_zero _ _ _ _)
    · refine returns_bind
        (returns_of_replies (Evaluator.replies_multiply sound keys (hx l rfl) (hy r rfl)))
        fun product h => ?_
      exact returns_pure (Handle.proper_ofCiphertext h.1 packing)

end Keys

/-! ## Elements of both kinds -/

/-- Plain lanes in any number, or an encrypted element that is well formed. -/
def Proper (ctx : Context) : Element → Prop
  | .plain _ => True
  | .cipher h => h.Proper ctx

/-- What comes of two operands: a well-formed encrypted element, or of plain
lanes as many as the longer operand has. -/
def ComesOf (ctx : Context) (a b : Element) : Element → Prop
  | .plain zs => ∃ xs ys, a = .plain xs ∧ b = .plain ys ∧ zs.length = max xs.length ys.length
  | .cipher h => h.Proper ctx

/-- Plain lanes are combined where they can be. -/
theorem lanes_returns {f : Float → Float → Float} {xs ys : List Float} (pair : Lanes.Pair xs ys) :
    Returns (do return .plain (← Lanes.zipWith f xs ys) : Compute Element)
      (ComesOf ctx (.plain xs) (.plain ys)) := by
  obtain ⟨zs, eq, length⟩ := Lanes.zipWith_of_pair f pair
  rw [eq]
  exact returns_pure ⟨xs, ys, rfl, rfl, length⟩

/-- An encrypted result is one of both operands. -/
theorem cipher_returns {m : Compute Handle} (h : Returns m (Handle.Proper ctx)) :
    Returns (do return .cipher (← m)) (ComesOf ctx a b) :=
  returns_bind h fun _ proper => returns_pure proper

section Keys

variable (sound : ctx.Sound) (sized : ctx.Sized) (keys : ev.IsOver ctx) (ha : a.Proper ctx)
  (hb : b.Proper ctx) (pair : ∀ xs ys, a = .plain xs → b = .plain ys → Lanes.Pair xs ys)

include sound sized keys ha hb pair

theorem add_returns : Returns (add ev a b) (ComesOf ctx a b) := by
  cases a with
  | plain xs =>
    cases b with
    | plain ys => exact lanes_returns (pair xs ys rfl rfl)
    | cipher y => exact cipher_returns (addPlain_returns sound sized keys hb)
  | cipher x =>
    cases b with
    | plain ys => exact cipher_returns (addPlain_returns sound sized keys ha)
    | cipher y => exact cipher_returns (returns_lift (addCipher_returns ha hb))

theorem multiply_returns : Returns (multiply ev a b) (ComesOf ctx a b) := by
  cases a with
  | plain xs =>
    cases b with
    | plain ys => exact lanes_returns (pair xs ys rfl rfl)
    | cipher y => exact cipher_returns (returns_lift (multiplyPlain_returns sound sized keys hb))
  | cipher x =>
    cases b with
    | plain ys => exact cipher_returns (returns_lift (multiplyPlain_returns sound sized keys ha))
    | cipher y => exact cipher_returns (returns_lift (multiplyCipher_returns sound keys ha hb))

end Keys

/-- A computation that ends with a fault. -/
def Faults {α : Type} (m : Compute α) (c : Coins) : Prop :=
  ∃ e, m.run c = .error e ∧ Faulty.isFault e = true

theorem not_faults_of_returns {α : Type} {m : Compute α} {P : α → Prop} (h : Returns m P)
    (c : Coins) : ¬ Faults m c := by
  rintro ⟨e, eq, fault⟩
  exact nomatch (error_of_returns (h c) eq).symm.trans fault

theorem faults_lanes {f : Float → Float → Float} {xs ys : List Float}
    (unpaired : ¬ Lanes.Pair xs ys) (c : Coins) :
    Faults (do return .plain (← Lanes.zipWith f xs ys) : Compute Element) c := by
  rw [Lanes.zipWith_of_not_pair f unpaired]
  exact ⟨_, rfl, rfl⟩

/-- The sum and the product of two elements end with a fault exactly if both
are plain and their lanes cannot be combined. -/
theorem faults_iff_unpaired [Primitives] {params : Params}
    (hctx : Context.ofParams params = .ok ctx)
    (keys : ev.IsOver ctx) (ha : a.Proper ctx) (hb : b.Proper ctx) (c : Coins) :
    (Faults (add ev a b) c ↔
      ∃ xs ys, a = .plain xs ∧ b = .plain ys ∧ ¬ Lanes.Pair xs ys) ∧
    (Faults (multiply ev a b) c ↔
      ∃ xs ys, a = .plain xs ∧ b = .plain ys ∧ ¬ Lanes.Pair xs ys) := by
  have sound := Context.sound_of_ofParams hctx
  have sized := Context.sized_of_ofParams hctx
  by_cases unpaired : ∃ xs ys, a = .plain xs ∧ b = .plain ys ∧ ¬ Lanes.Pair xs ys
  · obtain ⟨xs, ys, rfl, rfl, unpaired'⟩ := unpaired
    exact ⟨iff_of_true (faults_lanes unpaired' c) ⟨xs, ys, rfl, rfl, unpaired'⟩,
      iff_of_true (faults_lanes unpaired' c) ⟨xs, ys, rfl, rfl, unpaired'⟩⟩
  · have pair : ∀ xs ys, a = .plain xs → b = .plain ys → Lanes.Pair xs ys := by
      intro xs ys hxs hys
      by_contra unpaired'
      exact unpaired ⟨xs, ys, hxs, hys, unpaired'⟩
    have sum := not_faults_of_returns (add_returns sound sized keys ha hb pair) c
    have product := not_faults_of_returns (multiply_returns sound sized keys ha hb pair) c
    exact ⟨iff_of_false sum unpaired, iff_of_false product unpaired⟩

end Element

namespace Registers.Tiny

open Element

/-- A ciphertext at the top level as an element. -/
def held : Element :=
  .cipher (.ofCiphertext ⟨[element, element], .ofFloat 16, 1⟩ .real)

theorem isOver_evaluator : evaluator.IsOver Context.tiny :=
  ⟨rfl, ⟨isOver_element, isOver_element⟩, rfl,
    List.forall_mem_cons.mpr ⟨⟨isOver_element, isOver_element⟩,
      List.forall_mem_singleton.mpr ⟨isOver_element, isOver_element⟩⟩⟩

theorem proper_held : held.Proper Context.tiny := by
  have isOver : element.IsOver (Context.tiny.basisAt 1) := isOver_element
  exact Handle.proper_ofCiphertext
    ⟨Ciphertext.wellFormed_pair Nat.one_lt_two isOver isOver _, List.cons_ne_nil _ _⟩ .real

attribute [local instance] Primitives.coarse

/-- Three plain lanes are no fault beside a ciphertext, but beside two plain
lanes they are. -/
theorem faults_iff_unpaired_lanes :
    Context.ofParams Context.tiny.params = .ok Context.tiny ∧ evaluator.IsOver Context.tiny ∧
    (Element.plain [1, 2, 3]).Proper Context.tiny ∧ (Element.plain [1, 2]).Proper Context.tiny ∧
    held.Proper Context.tiny ∧ ¬ Faults (add evaluator held (.plain [1, 2, 3])) default ∧
    Faults (add evaluator (.plain [1, 2]) (.plain [1, 2, 3])) default := by
  have encrypted := faults_iff_unpaired (a := held) (b := .plain [1, 2, 3]) Context.ofParams_tiny
    isOver_evaluator proper_held trivial default
  have plain := faults_iff_unpaired (a := .plain [1, 2]) (b := .plain [1, 2, 3])
    Context.ofParams_tiny isOver_evaluator trivial trivial default
  refine ⟨Context.ofParams_tiny, isOver_evaluator, trivial, trivial, proper_held, ?_, ?_⟩
  · rintro faults
    obtain ⟨xs, ys, cipher, -⟩ := encrypted.1.mp faults
    exact nomatch cipher
  · exact plain.1.mpr ⟨[1, 2], [1, 2, 3], rfl, rfl, by simp [Lanes.Pair]⟩

/-- Two and three plain lanes are well formed, and neither their sum nor their
product is an answer. -/
theorem unpaired_lanes_fault :
    evaluator.IsOver Context.tiny ∧ (Element.plain [1, 2]).Proper Context.tiny ∧
    (Element.plain [1, 2, 3]).Proper Context.tiny ∧
    Faults (add evaluator (.plain [1, 2]) (.plain [1, 2, 3])) default ∧
    Faults (multiply evaluator (.plain [1, 2]) (.plain [1, 2, 3])) default :=
  ⟨isOver_evaluator, trivial, trivial, ⟨_, rfl, rfl⟩, ⟨_, rfl, rfl⟩⟩

end Registers.Tiny

end CipherFlow
