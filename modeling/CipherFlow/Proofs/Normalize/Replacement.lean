import CipherFlow.Proofs.Graph.Foreign
import CipherFlow.Proofs.Graph.Retiring
import CipherFlow.Proofs.Normalize.Sweep

/-!
# Replacing a node by any other

The new node may have another type than the old one, so what is left of a
graph need not be sound. What a replacement needs is kept by every one that is
made: operands and results are live, no node depends on itself, and parameters
have no operands.

`replace_answers` gives the two errors, each exactly where it occurs, and in every
other case the graph that is left, described by `Replaced`.

How the proof goes. A replacement is first shown to be the same step by step on the
graph itself (`change_replace`): whatever refuses it comes before the first change,
so a refused one changes nothing. Then uses move and the old node goes
(`Orderly.replaced`). Graphs that commands, replacements and prunings make are
orderly by induction (`Reworked.orderly`).
-/

namespace CipherFlow

namespace Graph

variable {g g' : Graph} {old new : NodeId}

/-! ## Orderly graphs -/

/-- A regular graph whose parameters have no operands. -/
structure Orderly (g : Graph) : Prop extends g.Regular where
  sources : ∀ p ∈ g.parameters, g.inputs p = []

theorem Sound.orderly (h : g.Sound) : g.Orderly :=
  ⟨h.regular, fun _ => h.inputs_parameter⟩

theorem Regular.ne_size (h : g.Regular) {p : NodeId} (hp : p ∈ g.parameters) : p ≠ g.size := by
  obtain ⟨n, hn, -⟩ := kind?_eq_some.mp (h.parameters p hp)
  exact Nat.ne_of_lt (lt_size_of_node? hn)

/-- One command keeps a graph orderly. -/
theorem Orderly.grown (h : g.Orderly) (grown : Grown g g') : g'.Orderly := by
  refine ⟨h.toRegular.grown grown, ?_⟩
  cases grown with
  | node =>
    intro p hp
    rw [inputs_push_of_ne _ (h.ne_size hp)]
    exact h.sources p hp
  | parameter type =>
    intro p hp
    show (g.push ⟨.parameter g.parameters.length, type, [], 1⟩).2.inputs p = []
    rcases List.mem_append.mp hp with hp | hp
    · rw [inputs_push_of_ne _ (h.ne_size hp)]
      exact h.sources p hp
    · rw [List.mem_singleton.mp hp]
      exact inputs_of_node? (node?_push_size _)
  | result => exact h.sources

theorem Rewired.orderly {moves : NodeId → Bool} (h : Rewired old new moves g g')
    (orderly : g.Orderly) (live : g.isLive new = true)
    (apart : ∀ c, moves c = true → old ∈ g.inputs c → ¬ g.Reaches new c) : g'.Orderly where
  toRegular := h.regular orderly.toRegular live apart
  sources := by
    intro p hp
    rw [h.inputs, orderly.sources p (h.parameters ▸ hp)]
    exact ite_self []

theorem Retired.orderly {gone : NodeId → Prop} (h : Retired gone g g') (orderly : g.Orderly) :
    g'.Orderly where
  toRegular := h.regular orderly.toRegular
  sources := by
    intro p hp
    rw [h.parameters] at hp
    have eq := h.node?_of_left p (h.parameters_left p hp)
    simpa only [inputs, eq] using orderly.sources p hp

/-! ## What a replacement does -/

/-- What a replacement makes of a graph: where the old node was used, as an
operand or as a result, the new one is, and the old one is retired unless it
is a parameter. -/
structure Replaced (old new : NodeId) (g g' : Graph) : Prop where
  unused : ∀ id, old ∉ g'.inputs id
  notResult : old ∉ g'.results
  results : g'.results = g.results.map (renamed old new)
  retired : g'.node? old = if old ∈ g.parameters then g.node? old else none
  others : ∀ id, id ≠ old →
    g'.node? id = (g.node? id).map fun n => { n with inputs := n.inputs.map (renamed old new) }
  parameters : g'.parameters = g.parameters
  size : g'.size = g.size

theorem redirect_of_notMem {n : Node} (unused : old ∉ n.inputs) : n.redirect old new = n := by
  have same : n.inputs.map (renamed old new) = n.inputs := by
    refine (List.map_congr_left fun i hi => renamed_of_ne ?_).trans (List.map_id _)
    rintro rfl
    exact unused hi
  exact congrArg (fun inputs => { n with inputs }) same

/-- The new node is passed over when uses are moved. This makes no difference,
as it does not use the old one. -/
theorem node?_moved (apart : ¬ g.Reaches new old) (id : NodeId) :
    (g.redirectUses old new [new]).node? id = (g.node? id).map (Node.redirect old new) := by
  rw [node?_redirectUses]
  by_cases same : id ∈ [new]
  · obtain rfl := List.mem_singleton.mp same
    rw [if_pos same]
    cases hn : g.node? id with
    | none => rfl
    | some n =>
      have unused : old ∉ n.inputs := fun user =>
        apart (.head (inputs_of_node? hn ▸ user) (.refl old))
      rw [Option.map_some, redirect_of_notMem unused]
  · rw [if_neg same]

/-- Uses move, then the old node goes. -/
theorem Orderly.replaced (h : g.Orderly) (live : g.isLive new = true)
    (apart : ¬ g.Reaches new old) :
    Replaced old new g ((g.redirectUses old new [new]).retire old) ∧
      ((g.redirectUses old new [new]).retire old).Orderly := by
  have ne : new ≠ old := fun eq => apart (eq ▸ .refl _)
  have rewired := rewired_redirectUses g old new [new]
  have unused := unused_of_not_reaches (g := g) apart
  have notResult := notMem_results_redirectUses (g := g) ne [new]
  -- A user of the old node that the new one reached would lead on to the old one.
  have moved : (g.redirectUses old new [new]).Orderly :=
    rewired.orderly h live fun c _ user path => apart (path.tail user)
  by_cases mem : old ∈ g.parameters
  · rw [retire_of_mem (by rwa [parameters_redirectUses])]
    refine ⟨?_, moved⟩
    exact {
      unused, notResult
      results := results_redirectUses old new [new]
      retired := by
        rw [node?_moved apart, if_pos mem]
        cases hn : g.node? old with
        | none => rfl
        | some n =>
          have none : n.inputs = [] := inputs_of_node? hn ▸ h.sources old mem
          rw [Option.map_some, redirect_of_notMem (by simp [none])]
      others := fun id _ => node?_moved apart id
      parameters := rfl
      size := rewired.size }
  · have retired := retired_retire unused notResult mem
    refine ⟨?_, retired.orderly moved⟩
    exact {
      unused := fun id user => unused id (retired.mem_inputs_iff.mp user).2
      notResult := by rwa [retired.results]
      results := retired.results.trans (results_redirectUses old new [new])
      retired := by rw [if_neg mem, retired.node?_of_gone old rfl]
      others := fun id other => by
        rw [retired.node?_of_left id other, node?_moved apart]
        rfl
      parameters := retired.parameters
      size := retired.size.trans rewired.size }

/-! ## Reworked graphs -/

/-- What commands, replacements and prunings make of the empty graph, in any
order. What is refused leaves the graph as it was. -/
inductive Reworked : Graph → Prop where
  | empty : Reworked .empty
  | command {g g' : Graph} (c : Command) : Reworked g → c.run.run g = .ok ((), g') → Reworked g'
  | replace {g g' : Graph} (old new : NodeId) : Reworked g →
      (Graph.replace old new).run g = .ok ((), g') → Reworked g'
  | prune {g g' : Graph} (count : Nat) : Reworked g → Graph.prune.run g = .ok (count, g') →
      Reworked g'

theorem Reworked.orderly (h : g.Reworked) : g.Orderly := by
  induction h with
  | empty => exact sound_empty.orderly
  | command c _ run ih => exact ih.grown (c.grown run)
  | replace old new _ run ih =>
    obtain ⟨-, live, apart, eq⟩ := replace_inv ih.closed run
    obtain rfl := eq
    exact (ih.replaced live apart).2
  | prune count _ run ih =>
    obtain ⟨count', g', run', retired⟩ := ih.toRegular.prune_run ih.sources
    obtain rfl := congrArg Prod.snd (Except.ok.inj (run'.symm.trans run))
    exact retired.orderly ih

end Graph

namespace Normalize

open CipherFlow.Graph

variable {g : Graph} {old new : NodeId}

/-! ## Answers -/

/-- A replacement that is made on the graph itself, step by step: all that can
refuse it comes before the first change. -/
def replaceStepwise (old new : NodeId) : Edit Unit := do
  let _ ← node old
  let _ ← node new
  let cyclic ← change fun g => ((g.reaches new old).mapError .fault).map (·, g)
  if cyclic then throw (.graph (.cycle old new))
  modify fun g => g.redirectUses old new [new]
  modify fun g => g.retire old

/-- What a change reads first can be read in a step of its own. -/
theorem change_bind {α β : Type} (read : Graph → Except Graph.Error α)
    (rest : α → Graph.Build β) :
    change (fun g => read g >>= fun a => rest a g) =
      change (fun g => (read g).map (·, g)) >>= fun a => change (rest a) := by
  funext g
  show change _ g = (change _ >>= _ : Edit β).run.run g
  cases eq : read g with
  | error x =>
    have refused : (change fun g => (read g).map (·, g)).run.run g = (.error (.graph x), g) :=
      change_run_error (by simp only [StateT.run, eq]; rfl)
    rw [run_bind_error refused]
    simp only [change, StateT.run, eq]
    rfl
  | ok a =>
    have done : (change fun g => (read g).map (·, g)).run.run g = (.ok a, g) :=
      change_run (by simp only [StateT.run, eq]; rfl)
    rw [run_bind_ok done]
    simp only [change, StateT.run, eq]
    rfl

theorem change_replace (old new : NodeId) :
    change (Graph.replace old new) = replaceStepwise old new := by
  unfold Graph.replace replaceStepwise
  rw [change_bind]
  refine bind_congr fun n => ?_
  rw [change_bind]
  refine bind_congr fun m => ?_
  rw [change_bind]
  refine bind_congr fun cyclic => ?_
  cases cyclic <;> rfl

theorem replace_unknown (dead : g.isLive old = false ∨ g.isLive new = false) :
    ∃ id, (change (Graph.replace old new)).run.run g =
      (.error (.graph (.unknownNode id)), g) := by
  have absent : ∀ {id}, g.isLive id = false → g.node? id = none := fun h => by
    simpa [isLive] using h
  rw [change_replace, replaceStepwise]
  cases hold : g.node? old with
  | none => exact ⟨old, run_bind_error (node_run_error hold)⟩
  | some n =>
    have live : g.isLive old ≠ false := ne_false_of_eq_true (isLive_of_node? hold)
    have hnew := absent (dead.resolve_left live)
    exact ⟨new, by rw [run_bind_ok (node_run hold), run_bind_error (node_run_error hnew)]⟩

theorem replace_cycle (closed : g.Closed) (oldLive : g.isLive old = true)
    (newLive : g.isLive new = true) (path : g.Reaches new old) :
    (change (Graph.replace old new)).run.run g = (.error (.graph (.cycle old new)), g) := by
  obtain ⟨n, hold⟩ := isLive_iff.mp oldLive
  obtain ⟨m, hnew⟩ := isLive_iff.mp newLive
  obtain ⟨found, eq, iff⟩ := reaches_iff closed (lt_size_of_node? hnew) old
  obtain rfl := iff.mpr path
  have searched : (change fun g => ((g.reaches new old).mapError .fault).map (·, g)).run.run g =
      (.ok true, g) := by
    refine change_run ?_
    simp only [StateT.run, eq]
    rfl
  rw [change_replace, replaceStepwise, run_bind_ok (node_run hold), run_bind_ok (node_run hnew),
    run_bind_ok searched]
  rfl

/-- Whether a replacement is made, why it is refused otherwise, and what it
does. -/
theorem replace_answers (h : g.Reworked) (old new : NodeId) :
    ((∃ id, (change (Graph.replace old new)).run.run g =
        (.error (.graph (.unknownNode id)), g)) ↔ g.isLive old = false ∨ g.isLive new = false) ∧
      ((change (Graph.replace old new)).run.run g = (.error (.graph (.cycle old new)), g) ↔
        g.isLive old = true ∧ g.isLive new = true ∧ g.Reaches new old) ∧
      ((∃ g', (change (Graph.replace old new)).run.run g = (.ok (), g') ∧
          Replaced old new g g' ∧ g'.Closed ∧ g'.Acyclic) ↔
        g.isLive old = true ∧ g.isLive new = true ∧ ¬ g.Reaches new old) := by
  have closed := h.orderly.closed
  by_cases dead : g.isLive old = false ∨ g.isLive new = false
  · obtain ⟨id, run⟩ := replace_unknown dead
    have notBoth : g.isLive old = true → g.isLive new = true → False := by
      intro oldLive newLive
      rw [oldLive, newLive] at dead
      exact dead.elim (fun eq => nomatch eq) fun eq => nomatch eq
    refine ⟨iff_of_true ⟨id, run⟩ dead, iff_of_false ?_ fun ⟨o, n, _⟩ => notBoth o n,
      iff_of_false ?_ fun ⟨o, n, _⟩ => notBoth o n⟩
    · exact fun other => nomatch congrArg Prod.fst (run.symm.trans other)
    · exact fun ⟨_, other, _⟩ => nomatch congrArg Prod.fst (run.symm.trans other)
  · obtain ⟨oldLive, newLive⟩ : g.isLive old = true ∧ g.isLive new = true := by
      simpa using dead
    by_cases path : g.Reaches new old
    · have run := replace_cycle closed oldLive newLive path
      refine ⟨iff_of_false ?_ dead, iff_of_true run ⟨oldLive, newLive, path⟩,
        iff_of_false ?_ fun ⟨_, _, apart⟩ => apart path⟩
      · exact fun ⟨_, other⟩ => nomatch congrArg Prod.fst (run.symm.trans other)
      · exact fun ⟨_, other, _⟩ => nomatch congrArg Prod.fst (run.symm.trans other)
    · have run := change_run (replace_ok closed oldLive newLive path)
      obtain ⟨replaced, orderly⟩ := h.orderly.replaced newLive path
      refine ⟨iff_of_false ?_ dead, iff_of_false ?_ fun ⟨_, _, cycle⟩ => path cycle,
        iff_of_true ⟨_, run, replaced, orderly.closed, orderly.acyclic⟩
          ⟨oldLive, newLive, path⟩⟩
      · exact fun ⟨_, other⟩ => nomatch congrArg Prod.fst (run.symm.trans other)
      · exact fun other => nomatch congrArg Prod.fst (run.symm.trans other)

/-- A rectified value, its double and a second parameter of another shape. -/
def doubledRectified : Graph where
  nodes := [some ⟨.parameter 0, ⟨.f64, [2]⟩, [], 1⟩, some ⟨.relu, ⟨.f64, [2]⟩, [0], 1⟩,
    some ⟨.add, ⟨.f64, [2]⟩, [1, 1], 1⟩, some ⟨.parameter 1, ⟨.f64, [3]⟩, [], 1⟩]
  parameters := [0, 3]
  results := [2, 1]

/-- The second parameter takes the place of the rectified value, as an operand
and as a result. -/
theorem replace_answers_parameter :
    Reworked doubledRectified ∧
      ∃ g', (change (Graph.replace 1 3)).run.run doubledRectified = (.ok (), g') ∧
        Replaced 1 3 doubledRectified g' ∧ g'.Closed ∧ g'.Acyclic := by
  have reworked : Reworked doubledRectified :=
    .command (.addResult 1) (.command (.addResult 2) (.command (.parameter ⟨.f64, [3]⟩)
      (.command (.add 1 1) (.command (.relu 0) (.command (.parameter ⟨.f64, [2]⟩)
        .empty rfl) rfl) rfl) rfl) rfl) rfl
  have apart : ¬ doubledRectified.Reaches 3 1 := by
    intro path
    rcases path.cases with eq | ⟨b, hb, -⟩
    · exact nomatch eq
    · exact nomatch hb
  exact ⟨reworked, (replace_answers reworked 1 3).2.2.mpr ⟨rfl, rfl, apart⟩⟩

end Normalize

end CipherFlow
