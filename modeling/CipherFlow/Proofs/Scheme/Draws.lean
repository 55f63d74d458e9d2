import CipherFlow.Proofs.Ring.Integers
import CipherFlow.Proofs.Scheme.Encryption

/-!
# What is drawn

Keys and encryptions are functions of their samples. The samples that are
drawn from coins are such as these functions expect them: reduced ring
elements, error polynomials of the right length, ternary polynomials with the
number of nonzero coefficients that was asked for.
-/

namespace CipherFlow

open CipherFlow.Ring (Basis Poly IsChannel IsTernary)

variable {α β : Type}

/-! ## Draws -/

/-- From all coins, the value drawn has a property. -/
def Draw.Gives (d : Draw α) (P : α → Prop) : Prop :=
  ∀ c : Coins, P (d.run c).1

namespace Draw.Gives

variable {P : α → Prop} {Q : β → Prop} {d : Draw α}

theorem pure {x : α} (h : P x) : Gives (pure x) P :=
  fun _ => h

theorem bind {f : α → Draw β} (h : d.Gives P) (hf : ∀ x, P x → (f x).Gives Q) :
    Gives (d >>= f) Q :=
  fun c => hf (d.run c).1 (h c) (d.run c).2

theorem any (d : Draw α) : d.Gives fun _ => True :=
  fun _ => trivial

theorem repeated (h : d.Gives P) (n : Nat) :
    Gives (Coins.repeated d n) fun xs => xs.length = n ∧ ∀ x ∈ xs, P x := by
  induction n with
  | zero => exact .pure ⟨rfl, fun _ hx => nomatch hx⟩
  | succ n ih =>
    refine h.bind fun x hx => ih.bind fun xs hxs => .pure ⟨?_, ?_⟩
    · rw [List.length_cons, hxs.1]
    · exact List.forall_mem_cons.mpr ⟨hx, hxs.2⟩

end Draw.Gives

/-! ## Samples -/

theorem Coins.below_gives {bound : Nat} (pos : 0 < bound) : (below bound).Gives (· < bound) :=
  fun _ => Nat.mod_lt _ pos

theorem Coins.residues_gives {n q : Nat} (pos : 0 < q) : (residues n q).Gives (IsChannel n q) :=
  fun c => ⟨((below_gives pos).repeated n c).1, ((below_gives pos).repeated n c).2⟩

theorem Coins.gaussian_gives (n : Nat) (deviation : Float) :
    (gaussian n deviation).Gives (·.length = n) :=
  fun c => ((Draw.Gives.any _).repeated n c).1

/-- A ternary draw has the weight that is asked for. A place is taken with
certainty if as many are left as are needed. -/
theorem Coins.ternary_gives {n weight : Nat} (h : weight ≤ n) :
    (ternary n weight).Gives (IsTernary n weight) := by
  induction n generalizing weight with
  | zero =>
    obtain rfl := Nat.le_zero.mp h
    exact .pure ⟨rfl, fun _ hv => (nomatch hv), rfl⟩
  | succ n ih =>
    refine (below_gives n.succ_pos).bind ?_
    intro place lt
    by_cases taken : place < weight
    · rw [if_pos taken]
      refine (Draw.Gives.any _).bind fun sign _ =>
        (ih (show weight - 1 ≤ n by omega)).bind fun rest hrest => .pure ?_
      have more : weight - 1 + 1 = weight := by omega
      rw [← more]
      refine hrest.unit_cons ?_
      split
      · exact .inl rfl
      · exact .inr rfl
    · rw [if_neg taken]
      exact (ih (show weight ≤ n by omega)).bind fun rest hrest => .pure hrest.zero_cons

theorem Coins.channels_gives {n : Nat} {primes : List Nat} (pos : ∀ q ∈ primes, 0 < q) :
    Draw.Gives (primes.mapM (residues n ·)) fun channels =>
      channels.length = primes.length ∧ ∀ (i q : Nat) (c : List Nat),
        primes[i]? = some q → channels[i]? = some c → IsChannel n q c := by
  induction primes with
  | nil => exact .pure ⟨rfl, fun i q c hq => nomatch hq⟩
  | cons q primes ih =>
    obtain ⟨first, rest⟩ := List.forall_mem_cons.mp pos
    rw [List.mapM_cons]
    refine (residues_gives first).bind fun c hc => (ih rest).bind fun cs hcs => .pure ⟨?_, ?_⟩
    · rw [List.length_cons, List.length_cons, hcs.1]
    · intro i p d hp hd
      cases i with
      | zero =>
        obtain rfl := Option.some.inj hp
        obtain rfl := Option.some.inj hd
        exact hc
      | succ i => exact hcs.2 i p d hp hd

theorem Key.uniformPoly_gives {B : Basis} (pos : ∀ q ∈ B.primes, 0 < q) :
    (uniformPoly B).Gives (·.IsOver B) :=
  (Coins.channels_gives pos).bind fun _ h => .pure (Ring.Poly.isOver_of_channel h.1 h.2)

/-! ## Keys -/

section Runs

variable {ε : Type} {c c' : Coins}

/-- A draw in the course of such steps. -/
theorem exists_of_run_draw {d : Draw α} {P : α → Prop} (hd : d.Gives P)
    {f : α → StateT Coins (Except ε) β} {r : β × Coins}
    (h : ((liftM d : StateT Coins (Except ε) α) >>= f).run c = .ok r) :
    ∃ x c', P x ∧ (f x).run c' = .ok r :=
  ⟨(d.run c).1, (d.run c).2, hd c, h⟩

variable {B : Basis} {s : SecretKey} {deviation : Float}

/-- A public key that is drawn is the key of a sample. -/
theorem PublicKey.exists_of_generate {key : PublicKey} (pos : ∀ q ∈ B.primes, 0 < q)
    (hs : s.poly.IsOver B) (h : (generate s deviation).run c = .ok (key, c')) :
    ∃ a e, a.IsOver B ∧ e.length = B.degree ∧ ofSamples s a e = .ok key := by
  unfold generate at h
  obtain ⟨_, -, h⟩ := exists_of_bind_eq_ok h
  rw [hs.basis] at h
  obtain ⟨a, c1, ha, h⟩ := exists_of_run_draw (Key.uniformPoly_gives pos) h
  obtain ⟨e, c2, he, h⟩ := exists_of_run_draw (Coins.gaussian_gives s.poly.degree deviation) h
  rw [Ring.Poly.degree, hs.basis] at he
  obtain ⟨_, hkey, h⟩ := exists_of_bind_eq_ok h
  obtain rfl := congrArg Prod.fst (Except.ok.inj h)
  exact ⟨a, e, ha, he, hkey⟩

/-- A relinearisation key that is drawn is the key of as many samples as the
basis has primes. -/
theorem RelinKey.exists_of_generate {key : RelinKey} (pos : ∀ q ∈ B.primes, 0 < q)
    (hs : s.poly.IsOver B) (h : (generate s deviation).run c = .ok (key, c')) :
    ∃ samples, AreSamples B samples ∧ ofSamples s samples = .ok key := by
  have one : Draw.Gives (do
      let a ← Key.uniformPoly s.poly.basis
      let e ← Coins.gaussian s.poly.degree deviation
      return (a, e)) fun x => x.1.IsOver B ∧ x.2.length = B.degree := by
    rw [Ring.Poly.degree, hs.basis]
    exact (Key.uniformPoly_gives pos).bind fun a ha =>
      (Coins.gaussian_gives B.degree deviation).bind fun e he => .pure ⟨ha, he⟩
  unfold generate at h
  obtain ⟨_, -, h⟩ := exists_of_bind_eq_ok h
  obtain ⟨samples, c1, ⟨length, each⟩, h⟩ := exists_of_run_draw (one.repeated _) h
  rw [hs.basis] at length
  obtain ⟨_, hkey, h⟩ := exists_of_bind_eq_ok h
  obtain rfl := congrArg Prod.fst (Except.ok.inj h)
  exact ⟨samples, ⟨length, each⟩, hkey⟩

/-- An encryption with fresh coins is the encryption with a tape of the weight
of the parameters. -/
theorem Plaintext.exists_encrypt {ctx : Context} (sound : ctx.Sound) (key : PublicKey)
    (p : Plaintext) (c : Coins) :
    ∃ r c', r.IsTape ctx.degree ctx.params.hammingWeight ∧
      (p.encrypt ctx key).run c = (p.encryptWith ctx key r).map (·, c') := by
  let first := (Coins.ternary ctx.degree ctx.params.hammingWeight).run c
  let second := (Coins.gaussian ctx.degree ctx.params.errorStd).run first.2
  let third := (Coins.gaussian ctx.degree ctx.params.errorStd).run second.2
  refine ⟨⟨first.1, second.1, third.1⟩, third.2, ⟨Coins.ternary_gives sound.weight c,
    Coins.gaussian_gives _ _ first.2, Coins.gaussian_gives _ _ second.2⟩, ?_⟩
  show (p.encryptWith ctx key ⟨first.1, second.1, third.1⟩ >>= fun r => .ok (r, third.2)) = _
  cases p.encryptWith ctx key ⟨first.1, second.1, third.1⟩ <;> rfl

end Runs

end CipherFlow
