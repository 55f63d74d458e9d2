import CipherFlow.Run.Tensor

/-!
# Oracles

A nonlinear function of a ciphertext cannot be computed without the secret
key. An oracle computes it: it answers a list of encrypted elements with as
many, in their order, each at the level and scale of the one it answers. A
run may change the state of its oracle.
-/

namespace CipherFlow.Run

/-- Why a run failed: by itself, or because its oracle did. -/
inductive Failure (ε : Type) where
  | problem (p : Problem)
  | oracle (e : ε)
deriving Repr

/-- The wording of a failure. -/
def Failure.message [ToString ε] : Failure ε → String
  | problem p => toString p
  | oracle e => toString e

instance [ToString ε] : ToString (Failure ε) := ⟨Failure.message⟩

/-- A run with an oracle of state `σ` that fails with `ε`. What happened to
the oracle's state stays when the run fails. -/
abbrev Eval (σ ε : Type) := ExceptT (Failure ε) (StateM (Coins × σ))

variable {σ ε α : Type}

/-- A part of a run that needs neither coins nor the oracle. -/
def require (x : Except Problem α) : Eval σ ε α :=
  match x with
  | .ok a => return a
  | .error p => throw (.problem p)

/-- A part of a run that takes coins. -/
def sample (x : Sampling α) : Eval σ ε α := fun (coins, s) =>
  match x.run coins with
  | .ok (a, coins) => (.ok a, (coins, s))
  | .error p => (.error (.problem p), (coins, s))

/-- Runs with given coins and an oracle in a given state. -/
def Eval.runFrom (x : Eval σ ε α) (coins : Coins) (s : σ) : Except (Failure ε) α × σ :=
  let (r, _, s) := x.run.run (coins, s)
  (r, s)

/-- Answers a function of encrypted elements, of each the first lanes. -/
abbrev Oracle (σ ε : Type) :=
  (f : Nonlinear) → (lanes : Nat) → (batch : List Handle) → Eval σ ε (List Handle)

/-- The oracle of a party that holds the secret key. The elements of a batch take
coins one after the other. A party that works on several at once may take them in
another order, which is this order again on the tape where the same outcomes stand
at other places. -/
def Oracle.ofKey (key : SecretKey) (ev : Evaluator) : Oracle σ ε := fun f lanes batch =>
  sample (batch.mapM fun h => (f.applyWithKey h lanes key ev :))

/-- A question to an oracle. -/
structure Question where
  f : Nonlinear
  lanes : Nat
  batch : List Handle
deriving Repr, BEq

/-- Prepared answers, and the questions that have been asked. -/
structure Script where
  answers : List (List Handle)
  asked : List Question
deriving Repr, BEq

/-- An oracle that gives prepared answers in turn, and gives elements back as
they are once there is none left. -/
def Oracle.ofScript : Oracle Script ε := fun f lanes batch => do
  let (coins, s) ← get
  set (coins, Script.mk s.answers.tail (s.asked ++ [⟨f, lanes, batch⟩]))
  return s.answers.headD batch

end CipherFlow.Run
