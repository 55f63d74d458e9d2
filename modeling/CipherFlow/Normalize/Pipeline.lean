import CipherFlow.Normalize.Fusion

/-!
# Normalization

The passes are run in rounds until a whole round changes nothing.
-/

namespace CipherFlow.Normalize

/-- The passes over whole graphs. -/
inductive Pass where
  | fuse
  | insertRescales
  | mergeRescales
deriving Repr, DecidableEq

/-- Runs a pass once. -/
def Pass.run : Pass → Edit Bool
  | fuse => Normalize.fuse
  | insertRescales => Normalize.insertRescales
  | mergeRescales => Normalize.mergeRescales

/-- The passes over a graph that is to be evaluated on ciphertexts. -/
def pipeline : List Pass :=
  [.fuse, .insertRescales, .mergeRescales]

/-- The number of rounds that are tried. -/
def maxRounds : Nat := 32

/-- Runs passes one after the other, and tells whether one of them changed
anything. -/
def runOnce : List Pass → Edit Bool
  | [] => return false
  | p :: passes => do
    let here ← p.run
    let later ← runOnce passes
    return here || later

/-- Runs further rounds, counting from the number of those before. -/
def runRounds (passes : List Pass) : (left done : Nat) → Edit Nat
  | 0, done => throw (.noFixpoint done)
  | left + 1, done => do
    let changed ← runOnce passes
    let _ ← change Graph.prune
    if changed then runRounds passes left (done + 1) else return done

/-- Runs passes in rounds, each followed by retiring what is not needed,
and gives the number of rounds that changed the graph. -/
def run (passes : List Pass) (rounds : Nat) : Edit Nat :=
  runRounds passes rounds 0

/-- A graph ready for evaluation, and the number of rounds it took. -/
structure Compiled where
  graph : Graph
  rounds : Nat
deriving Repr

/-- Runs the pipeline on a graph. -/
def compile (g : Graph) : Except Error Compiled :=
  match (run pipeline maxRounds).run.run g with
  | (.ok rounds, g) => .ok ⟨g, rounds⟩
  | (.error e, _) => .error e

end CipherFlow.Normalize
