import CipherFlow.Proofs.Run.Grouping
import CipherFlow.Proofs.Scheme.Draws
import CipherFlow.Proofs.Session.Contents
import CipherFlow.Session.Client

/-!
# What the holder of the secret key computes

Keys can be drawn over every context, from all coins. With such keys the coins
do not decide whether something can be encrypted, decrypted or rectified: a
step fails from all coins with one error, or succeeds from all of them. What
it gives is well-formed, and stands where it is asked to.

`Decided` is this: one outcome for all coins, up to the value. It is kept by every
combination of steps, so a program is decided if the steps are. Main lemmas:
`KeySet.generate_ok`, `Evaluator.encrypt_decided` and
`Nonlinear.applyWithKey_decided`.

A draw succeeds from all coins (`always_draw`), and what is computed from what was
drawn can fail for the size of the lanes, the level or the scale, none of which
depends on the draw.
-/

namespace CipherFlow

open Returning
open CipherFlow.Ring (Basis Poly IsTernary)

/-! ## Steps that take coins

`Always` and `Decided` are kept by sequencing. Before a step that is decided there
may only be steps that succeed from all coins, or that take none: the coins that it
starts from are then of no account. -/

section Coins

variable {α β ε ε' : Type} [Faulty ε] [Faulty ε'] {P : α → Prop} {Q : β → Prop}
  {x : StateT Coins (Except ε) α} {f : α → StateT Coins (Except ε) β}

/-- From all coins, the step gives a value with a property. -/
def Always (x : StateT Coins (Except ε) α) (P : α → Prop) : Prop :=
  ∀ c, ∃ a c', x.run c = .ok (a, c') ∧ P a

/-- The coins do not decide whether the step succeeds; if it does not, it
fails with one error, which comes from no fault. -/
def Decided (x : StateT Coins (Except ε) α) (P : α → Prop) : Prop :=
  Always x P ∨ ∃ e, Faulty.isFault e = false ∧ ∀ c, x.run c = .error e

omit [Faulty ε] in
theorem always_pure {a : α} (h : P a) : Always (pure a : StateT Coins (Except ε) α) P :=
  fun c => ⟨a, c, rfl, h⟩

omit [Faulty ε] in
theorem always_bind (h : Always x P) (hf : ∀ a, P a → Always (f a) Q) : Always (x >>= f) Q := by
  intro c
  obtain ⟨a, c₁, hx, ha⟩ := h c
  obtain ⟨b, c₂, hb, hq⟩ := hf a ha c₁
  refine ⟨b, c₂, ?_, hq⟩
  rw [StateT.run_bind, hx]
  exact hb

omit [Faulty ε] in
theorem always_draw {d : Draw α} (h : d.Gives P) :
    Always (liftM d : StateT Coins (Except ε) α) P :=
  fun c => ⟨(d.run c).1, (d.run c).2, rfl, h c⟩

omit [Faulty ε] in
theorem always_lift {y : Except ε α} {a : α} (eq : y = .ok a) (h : P a) :
    Always (StateT.lift y : StateT Coins (Except ε) α) P := by
  subst eq
  exact fun c => ⟨a, c, rfl, h⟩

omit [Faulty ε] in
theorem always_mapM {f : α → StateT Coins (Except ε) β} {R : α → β → Prop} {xs : List α}
    (h : ∀ a ∈ xs, Always (f a) (R a)) : Always (xs.mapM f) (List.Forall₂ R xs) := by
  induction xs with
  | nil =>
    rw [List.mapM_nil]
    exact always_pure .nil
  | cons a xs ih =>
    obtain ⟨first, others⟩ := List.forall_mem_cons.mp h
    rw [List.mapM_cons]
    exact always_bind first fun b hb => always_bind (ih others) fun bs hbs =>
      always_pure (.cons hb hbs)

/-- A step that succeeds from some coins succeeds from all of them. -/
theorem always_of_decided (h : Decided x P) {c : Coins} {r : α × Coins} (eq : x.run c = .ok r) :
    Always x P := by
  rcases h with always | ⟨e, -, fails⟩
  · exact always
  · exact nomatch (fails c).symm.trans eq

/-- A step that computes, before steps that take coins. -/
theorem decided_lift_bind {y : Except ε α} (h : Returns y P)
    (hf : ∀ a, y = .ok a → P a → Decided (f a) Q) : Decided (StateT.lift y >>= f) Q := by
  cases eq : y with
  | ok a => exact hf a eq (ok_of_returns h eq)
  | error e => exact .inr ⟨e, error_of_returns h eq, fun _ => rfl⟩

/-- After a step that is decided, all further ones have to succeed from all coins. -/
theorem decided_bind (h : Decided x P) (hf : ∀ a, P a → Always (f a) Q) : Decided (x >>= f) Q := by
  rcases h with always | ⟨e, answer, fails⟩
  · exact .inl (always_bind always hf)
  · refine .inr ⟨e, answer, fun c => ?_⟩
    rw [StateT.run_bind, fails c]
    rfl

theorem returns_of_decided (h : Decided x P) : Returns x P := by
  rcases h with always | ⟨e, answer, fails⟩
  · intro c
    obtain ⟨a, c', hx, ha⟩ := always c
    exact returns_of_ok hx ha
  · intro c
    rw [fails c]
    exact answer

theorem decided_mapError {g : ε → ε'} [TakesOver g] (h : Decided x P) :
    Decided (fun c => (x.run c).mapError g : StateT Coins (Except ε') α) P := by
  rcases h with always | ⟨e, answer, fails⟩
  · refine .inl fun c => ?_
    obtain ⟨a, c', hx, ha⟩ := always c
    exact ⟨a, c', by show (x.run c).mapError g = _; rw [hx]; rfl, ha⟩
  · refine .inr ⟨g e, (TakesOver.isFault_eq e).trans answer, fun c => ?_⟩
    show (x.run c).mapError g = _
    rw [fails c]
    rfl

/-- Steps that are decided one by one are decided as a whole: the first that fails does so
from all coins. -/
theorem decided_mapM {f : α → StateT Coins (Except ε) β} {R : α → β → Prop} {xs : List α}
    (h : ∀ a ∈ xs, Decided (f a) (R a)) : Decided (xs.mapM f) (List.Forall₂ R xs) := by
  induction xs with
  | nil =>
    rw [List.mapM_nil]
    exact .inl (always_pure .nil)
  | cons a xs ih =>
    obtain ⟨first, others⟩ := List.forall_mem_cons.mp h
    rw [List.mapM_cons]
    rcases ih others with always | ⟨e, answer, fails⟩
    · exact decided_bind first fun b hb => always_bind always fun bs hbs =>
        always_pure (.cons hb hbs)
    · rcases first with first | ⟨e', answer', fails'⟩
      · refine .inr ⟨e, answer, fun c => ?_⟩
        obtain ⟨b, c', hb, -⟩ := first c
        rw [StateT.run_bind, hb]
        show (xs.mapM f >>= fun bs => pure (b :: bs)).run c' = _
        rw [StateT.run_bind, fails c']
        rfl
      · refine .inr ⟨e', answer', fun c => ?_⟩
        rw [StateT.run_bind, fails' c]
        rfl

end Coins

/-! ## Keys -/

/-- A secret over the top basis of a context, with the public keys of samples
over that basis. -/
structure KeySet.Sound (ctx : Context) (keys : KeySet) : Prop where
  secret : keys.secret.poly.IsOver ctx.topBasis
  publicKey : ∃ e : List Int, Key.Hides ctx.topBasis keys.secret.poly (·.image e)
    (keys.publicKey.b, keys.publicKey.a)
  relinKey : keys.relinKey.IsOver ctx.topBasis

variable {ctx : Context} {B : Basis}

theorem KeySet.Sound.publicKey_isOver {keys : KeySet} (h : keys.Sound ctx) :
    keys.publicKey.IsOver ctx.topBasis :=
  let ⟨_, hides⟩ := h.publicKey
  ⟨hides.isOver.1, hides.isOver.2⟩

/-- A secret can be drawn as its weight is at most the degree. -/
theorem SecretKey.generate_always {weight : Nat} (le : weight ≤ B.degree)
    (fits : 8 * B.degree < Nat.pow 2 63) (pos : ∀ q ∈ B.primes, 0 < q) :
    Always (generate B weight) (·.poly.IsOver B) := by
  have reserve : B.reserve = .ok () := by
    rw [Basis.reserve, Fault.reserve, if_pos fits]
    rfl
  unfold generate
  rw [if_neg (Nat.not_lt.mpr le)]
  refine always_bind (P := fun _ => True) (always_lift (by rw [reserve]; rfl) trivial) fun _ _ => ?_
  refine always_bind (always_draw (Coins.ternary_gives le)) fun coeffs ternary => ?_
  exact always_pure (Ring.isOver_ofInts pos ternary.length)

theorem PublicKey.generate_always (valid : B.Valid) {s : SecretKey} (hs : s.poly.IsOver B)
    {deviation : Float} (positive : Binary64.isPositive deviation = true) :
    Always (generate s deviation) fun k =>
      ∃ e : List Int, Key.Hides B s.poly (·.image e) (k.b, k.a) := by
  have deviates : Key.checkDeviation deviation = .ok () := if_pos positive
  unfold generate
  refine always_bind (P := fun _ => True) (always_lift deviates trivial) fun _ _ => ?_
  rw [hs.basis]
  refine always_bind (always_draw (Key.uniformPoly_gives valid.pos)) fun a ha => ?_
  refine always_bind (always_draw (Coins.gaussian_gives _ _)) fun e he => ?_
  rw [Ring.Poly.degree, hs.basis] at he
  obtain ⟨key, eq, hides⟩ := PublicKey.ofSamples_ok valid hs ha he
  exact always_lift eq ⟨e, hides⟩

theorem RelinKey.generate_always (valid : B.Valid) {s : SecretKey} (hs : s.poly.IsOver B)
    {deviation : Float} (positive : Binary64.isPositive deviation = true) :
    Always (generate s deviation) (RelinKey.IsOver B) := by
  have deviates : Key.checkDeviation deviation = .ok () := if_pos positive
  have one : Draw.Gives (do
      let a ← Key.uniformPoly s.poly.basis
      let e ← Coins.gaussian s.poly.degree deviation
      return (a, e)) fun x => x.1.IsOver B ∧ x.2.length = B.degree := by
    rw [Ring.Poly.degree, hs.basis]
    exact (Key.uniformPoly_gives valid.pos).bind fun a ha =>
      (Coins.gaussian_gives B.degree deviation).bind fun e he => .pure ⟨ha, he⟩
  unfold generate
  refine always_bind (P := fun _ => True) (always_lift deviates trivial) fun _ _ => ?_
  refine always_bind (always_draw (one.repeated _)) fun samples drawn => ?_
  obtain ⟨length, each⟩ := drawn
  rw [hs.basis] at length
  obtain ⟨key, eq, count, hides⟩ := RelinKey.ofSamples_ok valid hs ⟨length, each⟩
  refine always_lift eq ⟨count, fun d hd => ?_⟩
  obtain ⟨i, lt, rfl⟩ := List.mem_iff_getElem.mp hd
  exact (hides i _ (List.getElem?_eq_getElem lt)).isOver

/-- Accepted parameters have a deviation to draw errors with. -/
theorem Params.isPositive_errorStd {p : Params} (h : p.problem? = none) :
    Binary64.isPositive p.errorStd = true := by
  unfold problem? at h
  repeat
    split at h
    · exact nomatch h
  rename_i deviation _
  simpa using deviation

/-- Keys can be drawn over every context, from all coins. -/
theorem KeySet.generate_ok [Primitives] {params : Params}
    (ofParams : Context.ofParams params = .ok ctx)
    (coins : Coins) :
    ∃ keys coins', KeySet.generate ctx coins = .ok (keys, coins') ∧ keys.Sound ctx := by
  have sound := Context.sound_of_ofParams ofParams
  have sized := Context.sized_of_ofParams ofParams
  have positive : Binary64.isPositive ctx.params.errorStd = true := by
    obtain ⟨accepted, _, _, _, -, -, -, -, rfl⟩ := Context.ofParams_eq_ok_iff.mp ofParams
    exact Params.isPositive_errorStd accepted
  have degree : ctx.degree ≤ 32768 := sized.params.degree
  have fits : 8 * ctx.topBasis.degree < Nat.pow 2 63 :=
    lt_of_le_of_lt (show 8 * ctx.degree ≤ 262144 by omega) (by decide)
  -- The public keys hide the secret that was drawn before them.
  have always : Always (KeySet.draw ctx) (KeySet.Sound ctx) := by
    refine always_bind (SecretKey.generate_always sound.weight fits sound.valid.pos) fun s hs => ?_
    refine always_bind (PublicKey.generate_always sound.valid hs positive) fun pk hpk => ?_
    refine always_bind (RelinKey.generate_always sound.valid hs positive) fun rk hrk => ?_
    exact always_pure ⟨hs, hpk, hrk⟩
  obtain ⟨keys, coins', eq, hkeys⟩ := always coins
  refine ⟨keys, coins', ?_, hkeys⟩
  show ((draw ctx).run coins).mapError Scheme.Error.key = _
  rw [eq]
  rfl

/-! ## Encryption and decryption -/

/-- Lanes are laid out, or there are too many of them; that the slots fit into memory is
known from the degree. -/
theorem Slots.pack_returns {packing : Packing} {lanes : List Float} {slots : Nat}
    (few : packing.capacity slots ≤ 32768) :
    Returns (Slots.pack packing lanes slots) fun _ => True := by
  have size : packing.capacity? slots = .ok (packing.capacity slots) :=
    if_pos (few.trans_lt (by decide))
  have slotsLe : slots ≤ packing.capacity slots := by
    cases packing
    · exact Nat.le_mul_of_pos_right slots Nat.one_pos
    · exact Nat.le_mul_of_pos_right slots Nat.two_pos
  have reserve : Fault.reserve slotWidth slots = .ok () := by
    have room : slotWidth * slots ≤ 524288 := by
      show 16 * slots ≤ 524288
      omega
    exact if_pos (room.trans_lt (by decide))
  unfold Slots.pack Slots.layOut
  rw [size, reserve]
  refine returns_bind (P := fun _ => True) trivial fun capacity _ => ?_
  refine returns_ite (fun _ => rfl) fun _ => ?_
  exact returns_ite (fun _ => trivial) fun _ => trivial

theorem Slots.Embedding.checkSlots_returns (slots : List (Slot Float)) :
    Returns (slots.forM checkSlot) fun _ => True := by
  induction slots with
  | nil => trivial
  | cons z slots ih =>
    refine returns_bind (P := fun _ => True) ?_ fun _ _ => ih
    exact returns_ite (fun _ => trivial) fun _ => rfl

theorem Slots.Embedding.encode_returns (e : Embedding) (slots : List (Slot Float)) (scale : Float) :
    Returns (e.encode slots scale) fun _ => Binary64.isPositive scale = true := by
  refine returns_ite (fun _ => rfl) fun _ => returns_ite (fun _ => rfl) fun positive => ?_
  refine returns_bind (checkSlots_returns slots) fun _ _ => ?_
  refine returns_mono (P := fun _ => True) ?_ fun _ _ _ => by simpa using positive
  refine returns_mono (returns_mapM (Q := fun _ => True) fun z _ => ?_) fun _ _ _ => trivial
  unfold roundCoefficient
  split
  · trivial
  · rfl

/-- A message that is encoded stands at the level and the scale asked for. -/
theorem Context.encode_returns (sound : ctx.Sound) (sized : ctx.Sized) (lanes : List Float)
    (packing : Packing) (scale : Binary64) (level : Nat) :
    Returns (ctx.encode lanes packing scale level) fun p =>
      p.WellFormed ctx ∧ p.scale = scale ∧ p.level = level ∧
        Binary64.isPositive scale = true := by
  refine returns_mono (P := fun _ => Binary64.isPositive scale = true) ?_ fun p eq positive => ?_
  · refine returns_bind (P := fun _ => True) ?_ fun basis _ => ?_
    · unfold Context.basis
      exact returns_ite (fun _ => trivial) fun _ => rfl
    refine returns_bind (returns_mapError (Slots.pack_returns (sized.capacity_le packing)))
      fun slots _ => ?_
    exact returns_bind (returns_mapError (Slots.Embedding.encode_returns _ _ _))
      fun coeffs positive => returns_pure positive
  · obtain ⟨wellFormed, scaleEq, levelEq⟩ := Context.wellFormed_of_encode sound eq
    exact ⟨wellFormed, scaleEq, levelEq, positive⟩

/-- A ciphertext as an element at a level and a scale. -/
structure Ciphertext.StandsAt (ctx : Context) (scale : Binary64) (level : Nat) (ct : Ciphertext) :
    Prop where
  wellFormed : ∀ packing, Handle.WellFormed ctx packing (.ofCiphertext ct packing)
  scale : ct.scale = scale
  level : ct.level = level

/-- The coins do not decide whether lanes can be encrypted. -/
theorem Evaluator.encrypt_decided {ev : Evaluator} (sound : ctx.Sound) (sized : ctx.Sized)
    (same : ev.context = ctx) {s : Poly} {e : List Int}
    (hides : Key.Hides ctx.topBasis s (·.image e) (ev.publicKey.b, ev.publicKey.a))
    (lanes : List Float) (packing : Packing) (scale : Binary64) (level : Nat) :
    Decided (ev.encrypt lanes packing scale level) (Ciphertext.StandsAt ctx scale level) := by
  unfold Evaluator.encrypt
  rw [same]
  refine decided_lift_bind (Context.encode_returns sound sized lanes packing scale level)
    fun p _ ⟨wellFormed, scaleEq, levelEq, positive⟩ => .inl fun c => ?_
  obtain ⟨r, c', tape, eq⟩ := Plaintext.exists_encrypt sound ev.publicKey p c
  obtain ⟨c0, c1, hpair, over0, over1, -⟩ := Plaintext.encryptWith_pair sound hides wellFormed tape
  refine ⟨⟨[c0, c1], p.scale, p.level⟩, c', by rw [eq, hpair]; rfl, fun packing => ?_, scaleEq,
    levelEq⟩
  refine ⟨rfl, wellFormed.level, ?_, fun ct h => ?_, fun ct h => ?_⟩
  · show Binary64.isPositive p.scale = true
    rw [scaleEq]
    exact positive
  · obtain rfl := CipherState.encrypted.inj h
    exact .inl rfl
  · obtain rfl := CipherState.encrypted.inj h
    exact List.forall_mem_cons.mpr ⟨over0, List.forall_mem_singleton.mpr over1⟩

/-- A coefficient of a ring element is read as one number. -/
theorem Ring.length_toFloats {p : Poly} (h : p.IsOver B) : p.toFloats.length = B.degree := by
  obtain ⟨rfl, channels⟩ := Ring.Poly.isOver_iff.mp h
  have columns : ∀ {primes : List Nat} {cs : List (List Nat)},
      List.Forall₂ (Ring.IsChannel p.basis.degree) primes cs →
      (cs.foldr (fun c rest => List.zipWith (· :: ·) c rest)
        (List.replicate p.basis.degree [])).length = p.basis.degree := by
    intro primes cs all
    induction all with
    | nil => exact List.length_replicate
    | cons first _ ih => rw [List.foldr_cons, List.length_zipWith, ih, first.length, Nat.min_self]
  rw [Poly.toFloats, List.length_map, Poly.columns, columns channels]

/-- A well-formed ciphertext can be decrypted, and its lanes can be read. -/
theorem Handle.WellFormed.decrypt_ok {packing : Packing} {ct : Ciphertext} {key : SecretKey}
    (sound : ctx.Sound) (hs : key.poly.IsOver ctx.topBasis)
    (h : Handle.WellFormed ctx packing ⟨packing, .encrypted ct⟩) :
    ∃ p, ct.decrypt key = .ok p ∧
      ∀ count, ∃ values, ctx.decode p packing count = .ok values := by
  have some : ct.components ≠ [] := by
    intro nil
    rcases h.size ct rfl with size | size
    · exact absurd (nil ▸ size : ([] : List Poly).length = 2) (by decide)
    · exact absurd (nil ▸ size : ([] : List Poly).length = 3) (by decide)
  obtain ⟨p, hp, -, -, isOver, -⟩ := Ciphertext.decrypt_ok (sound.valid_basisAt ct.level)
    (ctx.isInitialOf_topBasis ct.level) hs some (h.components ct rfl)
  have length : p.poly.toFloats.length = ctx.embedding.degree := Ring.length_toFloats isOver
  refine ⟨p, hp, fun count => ?_⟩
  rw [Context.decode, Slots.Embedding.decode, if_neg (not_not.mpr length)]
  exact ⟨_, rfl⟩

/-! ## Nonlinear functions -/

section Holder

variable {packing : Packing} {h : Handle} {secret : SecretKey} {ev : Evaluator} {lanes : Nat}

/-- What the holder of a key set computes with: the secret, and an evaluator
with the public keys. -/
structure HoldsKeys (ctx : Context) (secret : SecretKey) (ev : Evaluator) : Prop where
  context : ev.context = ctx
  keys : KeySet.Sound ctx ⟨secret, ev.publicKey, ev.relinKey⟩

theorem reserve_lanes (few : lanes ≤ 32768) : Fault.reserve 8 lanes = .ok () :=
  if_pos (lt_of_le_of_lt (show 8 * lanes ≤ 262144 by omega) (by decide))

theorem Nonlinear.openLanes_ok (sound : ctx.Sound) (holds : HoldsKeys ctx secret ev)
    (wellFormed : h.WellFormed ctx packing) (few : lanes ≤ 32768) :
    ∃ values, openLanes h lanes secret ev = .ok values := by
  obtain ⟨packing', state⟩ := h
  cases state with
  | zero scale level =>
    show ∃ values, (do
      Fault.reserve 8 lanes
      return List.replicate lanes 0 : Except Element.Error (List Float)) = .ok values
    rw [reserve_lanes few]
    exact ⟨_, rfl⟩
  | encrypted ct =>
    obtain rfl : packing' = packing := wellFormed.packing
    obtain ⟨p, hp, readable⟩ := wellFormed.decrypt_ok sound holds.keys.secret
    obtain ⟨values, eq⟩ := readable lanes
    refine ⟨values, ?_⟩
    show (do
      let p ← ct.decrypt secret
      ev.context.decode p packing' lanes : Except Element.Error (List Float)) = _
    rw [hp, holds.context]
    show (ctx.decode p packing' lanes).mapError _ = _
    rw [eq]
    rfl

/-- The coins do not decide whether a function can be applied. What it gives
stands where the element stood. -/
theorem Nonlinear.applyWithKey_decided (f : Nonlinear) (sound : ctx.Sound) (sized : ctx.Sized)
    (holds : HoldsKeys ctx secret ev) (wellFormed : h.WellFormed ctx packing)
    (few : lanes ≤ 32768) :
    Decided (f.applyWithKey h lanes secret ev) fun r =>
      r.WellFormed ctx packing ∧ r.level = h.level ∧ r.scale = h.scale := by
  obtain ⟨e, hides⟩ := holds.keys.publicKey
  unfold applyWithKey
  split
  · exact .inl (always_pure ⟨wellFormed, rfl, rfl⟩)
  obtain ⟨values, opened⟩ := openLanes_ok sound holds wellFormed few
  refine decided_lift_bind (returns_of_ok (P := fun _ => True) opened trivial) fun values _ _ => ?_
  refine decided_bind (decided_mapError (Evaluator.encrypt_decided sound sized holds.context hides
    (values.map f.apply) h.packing h.scale h.level)) fun ct stands => always_pure ?_
  exact ⟨wellFormed.packing ▸ stands.wellFormed h.packing, stands.level, stands.scale⟩

/-! ## Tensors -/

namespace BatchedTensor

/-- A tensor that fits a session: its elements are encrypted and well-formed,
and as many as its shape has groups of lanes. -/
structure Fits (ctx : Context) (packing : Packing) (t : BatchedTensor) : Prop where
  sized : t.type.shape.size?.isSome
  packs : ∃ packed, Packs t.batch t.type.shape packed ∧ t.values.length = packed.size
  encrypted : ∃ handles : List Handle, t.values = handles.map .cipher ∧
    ∀ h ∈ handles, h.WellFormed ctx packing

theorem exists_handles {α : Type} {P : Handle → Prop} {xs : List α} {values : List Element}
    (each : List.Forall₂ (fun _ x => ∃ h, x = .cipher h ∧ P h) xs values) :
    ∃ handles : List Handle, values = handles.map .cipher ∧ ∀ h ∈ handles, P h := by
  induction each with
  | nil => exact ⟨[], rfl, fun h hh => nomatch hh⟩
  | cons first _ ih =>
    obtain ⟨h, rfl, hh⟩ := first
    obtain ⟨handles, rfl, others⟩ := ih
    exact ⟨h :: handles, rfl, List.forall_mem_cons.mpr ⟨hh, others⟩⟩

/-- The coins do not decide whether groups of lanes can be encrypted. -/
theorem encryptLanes_decided (sound : ctx.Sound) (sized : ctx.Sized)
    (holds : HoldsKeys ctx secret ev) (packing : Packing) (lanes : List (List Float)) :
    Decided (lanes.mapM fun xs => do
      let ct ← ev.encrypt xs packing ctx.defaultScale ctx.topLevel
      return Element.cipher (.ofCiphertext ct packing) : Run.Sampling (List Element))
      (List.Forall₂ (fun _ x => ∃ h, x = .cipher h ∧ h.WellFormed ctx packing) lanes) := by
  obtain ⟨e, hides⟩ := holds.keys.publicKey
  exact decided_mapM fun xs _ =>
    decided_bind (decided_mapError (Evaluator.encrypt_decided sound sized holds.context hides xs
      packing ctx.defaultScale ctx.topLevel)) fun ct stands =>
        always_pure ⟨_, rfl, stands.wellFormed packing⟩

/-- Data that fit into memory are encrypted, or refused. -/
theorem encrypt_returns (sound : ctx.Sound) (sized : ctx.Sized) (holds : HoldsKeys ctx secret ev)
    {data : List Float} (fits : 8 * data.length < Nat.pow 2 63) (type : TensorType) (batch : Nat)
    (packing : Packing) : Returns (encrypt ev type batch data packing) fun _ => True := by
  unfold encrypt
  rw [holds.context]
  refine returns_ite (fun _ _ => rfl) fun _ => ?_
  refine returns_bind (returns_lift (groupLanes_returns fits)) fun lanes _ => ?_
  refine returns_bind (returns_of_decided (encryptLanes_decided sound sized holds packing lanes))
    fun values _ => ?_
  exact returns_lift (returns_mono (ofValues_returns type batch values) fun _ _ _ => trivial)

/-- Data that have been encrypted make a tensor that fits. -/
theorem of_encrypt (sound : ctx.Sound) (sized : ctx.Sized) (holds : HoldsKeys ctx secret ev)
    {type : TensorType} {batch : Nat} {data : List Float} {t : BatchedTensor} {coins coins' : Coins}
    (h : (encrypt ev type batch data packing).run coins = .ok (t, coins')) :
    t.type = type ∧ t.batch = batch ∧ batch ≤ packing.capacity ctx.slotCount ∧
      t.Fits ctx packing := by
  unfold encrypt at h
  rw [holds.context] at h
  dsimp only at h
  split at h
  · exact nomatch h
  · rename_i room
    obtain ⟨⟨lanes, c₁⟩, -, h⟩ := exists_of_bind_eq_ok h
    obtain ⟨⟨values, c₂⟩, made, h⟩ := exists_of_bind_eq_ok h
    obtain ⟨t', whole, eq⟩ := exists_of_bind_eq_ok h
    obtain ⟨rfl, -⟩ := Prod.mk.inj (Except.ok.inj eq)
    obtain ⟨shaped, packs, rfl⟩ := ofValues_eq_ok_iff.mp whole
    have each := ok_of_returns
      (returns_of_decided (encryptLanes_decided sound sized holds packing lanes) c₁) made
    exact ⟨rfl, rfl, Nat.not_lt.mp room, shaped, packs, exists_handles each⟩

theorem cipherElements_cipher (handles : List Handle) :
    Backend.cipherElements (handles.map .cipher) = handles := by
  rw [Backend.cipherElements, List.filterMap_map]
  exact List.filterMap_some

/-- A tensor that fits is an input that fits. -/
theorem Fits.exists_input {t : BatchedTensor} (h : t.Fits ctx packing)
    (room : t.batch ≤ packing.capacity ctx.slotCount) :
    ∃ handles, t.values = handles.map .cipher ∧
      Session.Input.Fits ctx ⟨packing, t.type, t.batch, handles⟩ ∧
      ofValues t.type t.batch (handles.map .cipher) = .ok t := by
  obtain ⟨packed, packs, places⟩ := h.packs
  obtain ⟨handles, same, wellFormed⟩ := h.encrypted
  obtain ⟨n, found⟩ := Option.isSome_iff_exists.mp h.sized
  have size := packs.size_eq h.sized
  rw [Shape.size, found, Option.getD_some, ← places, same, List.length_map] at size
  refine ⟨handles, same, ⟨packs.pos, room, found.trans (congrArg _ size), wellFormed⟩, ?_⟩
  rw [← same]
  exact ofValues_eq_ok_iff.mpr ⟨h.sized, h.packs, rfl⟩

/-- Other well-formed elements can stand where its elements stood. -/
theorem Fits.withElements {t : BatchedTensor} (h : t.Fits ctx packing) {handles : List Handle}
    (length : handles.length = t.values.length)
    (wellFormed : ∀ h ∈ handles, h.WellFormed ctx packing) :
    Fits ctx packing { t with values := handles.map .cipher } := by
  obtain ⟨packed, packs, places⟩ := h.packs
  refine ⟨h.sized, ⟨packed, packs, ?_⟩, handles, rfl, wellFormed⟩
  rw [List.length_map, length, places]

/-- A well-formed element can be opened with a secret over the top basis. -/
theorem openElement_ok (sound : ctx.Sound) (hs : secret.poly.IsOver ctx.topBasis) {batch : Nat}
    (few : batch ≤ 32768) (wellFormed : h.WellFormed ctx packing) :
    ∃ values, openElement ctx (some secret) batch (.cipher h) = .ok values := by
  obtain ⟨packing', state⟩ := h
  cases state with
  | zero scale level =>
    show ∃ values, (do
      Fault.reserve 8 batch
      return List.replicate batch 0 : Except Run.Problem (List Float)) = .ok values
    rw [reserve_lanes few]
    exact ⟨_, rfl⟩
  | encrypted ct =>
    obtain rfl : packing' = packing := wellFormed.packing
    obtain ⟨p, hp, readable⟩ := wellFormed.decrypt_ok sound hs
    obtain ⟨values, eq⟩ := readable batch
    refine ⟨values, ?_⟩
    show (do
      let p ← ct.decrypt secret
      ctx.decode p packing' batch : Except Run.Problem (List Float)) = _
    rw [hp]
    show (ctx.decode p packing' batch).mapError _ = _
    rw [eq]
    rfl

/-- A tensor of well-formed elements can be read just if its values fit into
memory. -/
theorem exists_read_iff (sound : ctx.Sound) (hs : secret.poly.IsOver ctx.topBasis)
    {t : BatchedTensor} (few : t.batch ≤ 32768) {handles : List Handle}
    (encrypted : t.values = handles.map .cipher)
    (wellFormed : ∀ h ∈ handles, h.WellFormed ctx packing) :
    (∃ values, t.read (some secret) ctx = .ok values) ↔
      8 * t.type.shape.size < Nat.pow 2 63 := by
  have each : ∀ (i : Nat) (x : Element), t.values[i]? = some x →
      ∃ values, openElement ctx (some secret) t.batch x = .ok values ∧ True := by
    intro i x hx
    rw [encrypted, List.getElem?_map] at hx
    obtain ⟨h, found, rfl⟩ := Option.map_eq_some_iff.mp hx
    obtain ⟨values, eq⟩ := openElement_ok sound hs few (wellFormed h (List.mem_of_getElem? found))
    exact ⟨values, eq, trivial⟩
  obtain ⟨lanes, opened, -⟩ := mapM_ok each
  rw [read, opened, Fault.reserve]
  constructor
  · rintro ⟨values, eq⟩
    by_contra large
    rw [if_neg large] at eq
    cases eq
  · intro fits
    rw [if_pos fits]
    exact ⟨_, rfl⟩

end BatchedTensor

end Holder

end CipherFlow
