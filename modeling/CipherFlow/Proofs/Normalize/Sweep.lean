import CipherFlow.Normalize.Pipeline
import CipherFlow.Proofs.Fault
import CipherFlow.Proofs.Graph.Arena

/-!
# Running edits

An edit answers and leaves a graph behind. The passes walk along an order of
nodes that was computed before they started, so an invariant of a walk speaks
of the nodes that have been met and of those that are still to come.
-/

namespace CipherFlow.Normalize

variable {α β : Type} {e : Edit α} {f : α → Edit β} {g g' : Graph} {a : α} {r : Except Error β}

/-! ## Sequences of changes -/

theorem run_get (g : Graph) : (get : Edit Graph).run.run g = (.ok g, g) := rfl

theorem change_run {b : Graph.Build α} (h : b.run g = .ok (a, g')) :
    (change b).run.run g = (.ok a, g') := by
  simp only [change, ExceptT.run, StateT.run] at h ⊢
  rw [h]

theorem change_run_error {b : Graph.Build α} {x : Graph.Error} (h : b.run g = .error x) :
    (change b).run.run g = (.error (.graph x), g) := by
  simp only [change, ExceptT.run, StateT.run] at h ⊢
  rw [h]

theorem node_run {id : NodeId} {n : Node} (h : g.node? id = some n) :
    (node id).run.run g = (.ok n, g) := by
  refine change_run ?_
  simp only [StateT.run, Graph.node_ok h]
  rfl

theorem node_run_error {id : NodeId} (h : g.node? id = none) :
    (node id).run.run g = (.error (.graph (.unknownNode id)), g) := by
  refine change_run_error ?_
  simp only [StateT.run, Graph.node, h]
  rfl

theorem order_run {ids : List NodeId} (h : g.order = .ok ids) :
    order.run.run g = (.ok ids, g) := by
  refine change_run ?_
  simp only [StateT.run, h]
  rfl

/-! ## Walks -/

variable {step : NodeId → Edit Bool}

theorem sweep_cons {id : NodeId} {rest : List NodeId} {here later : Bool} {g'' : Graph}
    (first : (step id).run.run g = (.ok here, g'))
    (second : (sweep step rest).run.run g' = (.ok later, g'')) :
    (sweep step (id :: rest)).run.run g = (.ok (here || later), g'') := by
  rw [sweep, run_bind_ok first, run_bind_ok second]
  rfl

/-- What every step of a walk keeps holds at its end, unless one of the steps
fails; then the walk fails there. The answer is that something changed, or
nothing did. -/
theorem sweep_or_fails {P : List NodeId → Graph → Prop} {E : NodeId → Error → Prop}
    {ids : List NodeId}
    (next : ∀ met id coming g, ids = met ++ id :: coming → P met g →
      (∃ c g', (step id).run.run g = (.ok c, g') ∧ P (met ++ [id]) g' ∧ (c = false → g' = g)) ∨
        ∃ x g', (step id).run.run g = (.error x, g') ∧ E id x)
    (start : P [] g) :
    (∃ c g', (sweep step ids).run.run g = (.ok c, g') ∧ P ids g' ∧ (c = false → g' = g)) ∨
      ∃ id ∈ ids, ∃ x g', (sweep step ids).run.run g = (.error x, g') ∧ E id x := by
  suffices walk : ∀ coming met g, ids = met ++ coming → P met g →
      (∃ c g', (sweep step coming).run.run g = (.ok c, g') ∧ P ids g' ∧ (c = false → g' = g)) ∨
        ∃ id ∈ coming, ∃ x g', (sweep step coming).run.run g = (.error x, g') ∧ E id x from
    walk ids [] g rfl start
  intro coming
  induction coming with
  | nil =>
    intro met g eq here
    obtain rfl : ids = met := by simpa using eq
    exact .inl ⟨false, g, rfl, here, fun _ => rfl⟩
  | cons id coming ih =>
    intro met g eq here
    rcases next met id coming g eq here with ⟨c, g', run, after, same⟩ | ⟨x, g', run, fails⟩
    · rcases ih (met ++ [id]) g' (by simpa using eq) after with
        ⟨c', g'', run', done, same'⟩ | ⟨i, mem, x, g'', run', fails⟩
      · refine .inl ⟨c || c', g'', sweep_cons run run', done, fun h => ?_⟩
        obtain ⟨rfl, rfl⟩ := Bool.or_eq_false_iff.mp h
        rw [same' rfl, same rfl]
      · refine .inr ⟨i, List.mem_cons_of_mem _ mem, x, g'', ?_, fails⟩
        rw [sweep, run_bind_ok run, run_bind_error run']
    · exact .inr ⟨id, List.mem_cons_self, x, g', by rw [sweep, run_bind_error run], fails⟩

/-- A walk of steps that do not fail. -/
theorem sweep_run {P : List NodeId → Graph → Prop} {ids : List NodeId}
    (next : ∀ met id coming g, ids = met ++ id :: coming → P met g →
      ∃ c g', (step id).run.run g = (.ok c, g') ∧ P (met ++ [id]) g' ∧ (c = false → g' = g))
    (start : P [] g) :
    ∃ c g', (sweep step ids).run.run g = (.ok c, g') ∧ P ids g' ∧ (c = false → g' = g) := by
  have walk := sweep_or_fails (E := fun _ _ => False)
    (fun met id coming g eq here => .inl (next met id coming g eq here)) start
  simpa using walk

/-- A walk whose steps change nothing changes nothing. -/
theorem sweep_idle {ids : List NodeId}
    (idle : ∀ id ∈ ids, (step id).run.run g = (.ok false, g)) :
    (sweep step ids).run.run g = (.ok false, g) := by
  induction ids with
  | nil => rfl
  | cons id ids ih =>
    have rest := ih fun i hi => idle i (List.mem_cons_of_mem _ hi)
    exact sweep_cons (idle id List.mem_cons_self) rest

end CipherFlow.Normalize
