import CipherFlow.Proofs.Normalize.Sweep

/-!
# Applying rules

What the first of some rules does at a node: where its pattern is not found,
or its edit declines, the next one has its turn.
-/

namespace CipherFlow.Normalize

variable {g g' : Graph} {id : NodeId} {result : Pattern.Found}

theorem applyFirst_dead {rules : List Rule} (dead : g.isLive id = false) :
    (applyFirst rules id).run.run g = (.ok false, g) := by
  cases rules with
  | nil => rfl
  | cons rule rules =>
    rw [applyFirst, run_bind_ok (run_get g), dead]
    rfl

theorem applyFirst_unmatched {rule : Rule} {rules : List Rule} (live : g.isLive id = true)
    (unmatched : rule.pattern.matchAt? g id = none) :
    (applyFirst (rule :: rules) id).run.run g = (applyFirst rules id).run.run g := by
  rw [applyFirst, run_bind_ok (run_get g), live, unmatched]
  rfl

theorem applyFirst_applied {rule : Rule} {rules : List Rule} (live : g.isLive id = true)
    (matched : rule.pattern.matchAt? g id = some result)
    (applied : (rule.apply id result).run.run g = (.ok true, g')) :
    (applyFirst (rule :: rules) id).run.run g = (.ok true, g') := by
  rw [applyFirst, run_bind_ok (run_get g), live, matched]
  simp only [Bool.not_true, Bool.false_eq_true, if_false, run_bind_ok applied]
  rfl

theorem applyFirst_declined {rule : Rule} {rules : List Rule} (live : g.isLive id = true)
    (matched : rule.pattern.matchAt? g id = some result)
    (declined : (rule.apply id result).run.run g = (.ok false, g)) :
    (applyFirst (rule :: rules) id).run.run g = (applyFirst rules id).run.run g := by
  rw [applyFirst, run_bind_ok (run_get g), live, matched]
  simp only [Bool.not_true, Bool.false_eq_true, if_false, run_bind_ok declined]

end CipherFlow.Normalize
