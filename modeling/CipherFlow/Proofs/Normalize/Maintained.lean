import CipherFlow.Proofs.Normalize.Compiled

/-!
# Graphs in use

A graph is made and changed by calls: of building functions, of replacements
of a node by one of the same type, of pruning and of passes, in any order. No
sequence of them breaks the invariants. In particular each node has the type
that its building function infers from the operands it has come to have.

`Maintained.invariants` lists them; that every node is the one its command would
append is the form in which types are stated there.

How the proof goes. `Intact` is kept by each call (`Call.intact`), and by induction
along any number of calls (`Maintained.intact`). Commands and passes are edits of
sound graphs, for which this is known; a replacement of a node by one of its own
type is a rewiring, as `Intact.replace` shows. A call that is refused leaves the
graph as it was (`intact_change`).
-/

namespace CipherFlow

open CipherFlow.Graph

variable {g g' : Graph} {n : Node} {old new : NodeId} {α : Type}

/-! ## Nodes made again -/

/-- The command that makes a node, given its operands as they are. Parameters
are left out, as a command gives them the next index. -/
def Node.command? (n : Node) : Option Command :=
  match n.op, n.inputs with
  | .constant values, [] => some (.constant n.type values)
  | .broadcast, [x] => some (.broadcast x n.type.shape)
  | .add, [a, b] => some (.add a b)
  | .multiply, [a, b] => some (.multiply a b)
  | .minimum, [a, b] => some (.minimum a b)
  | .dot, [a, b] => some (.dot a b)
  | .convolution strides, [data, filter] => some (.convolution data filter strides)
  | .averagePool window strides, [x] => some (.averagePool x window strides)
  | .relu, [x] => some (.relu x)
  | .boundedRelu bound, [x] => some (.boundedRelu x bound)
  | .rescale, [x] => some (.rescale x)
  | _, _ => none

namespace Graph

theorem discard_ok {m : Build α} {r : α × Graph} (run : m.run g = .ok r) :
    (do let _ ← m : Build Unit).run g = .ok ((), r.2) := by
  rw [StateT.run_bind, run]
  rfl

theorem constant_ok {type : TensorType} {values : List Float}
    (size : values.length = type.shape.size) :
    (Graph.constant type values).run g = .ok (g.push ⟨.constant values, type, [], 1⟩) := by
  rw [Graph.constant, if_neg (not_not.mpr size)]
  exact insert_ok (by simp)

/-- The command of a typed node appends this very node. -/
theorem WellTyped.remade (h : g.WellTyped n) (computed : n.kind ≠ .parameter) :
    ∃ c, n.command? = some c ∧ c.run.run g = .ok ((), (g.push n).2) := by
  obtain ⟨op, type, inputs, outputs⟩ := n
  obtain ⟨ts, types, gives⟩ := h.types
  obtain rfl : outputs = 1 := h.outputs
  match ts with
  | [] =>
    obtain rfl : inputs = [] := List.map_eq_nil_iff.mp types
    cases op with
    | parameter => exact absurd rfl computed
    | constant values => exact ⟨_, rfl, discard_ok (constant_ok gives)⟩
    | _ => exact gives.elim
  | [t] =>
    obtain ⟨x, rfl, hx⟩ := List.map_eq_singleton_iff.mp types
    cases op with
    | broadcast => exact ⟨_, rfl, discard_ok (unary_ok hx gives)⟩
    | averagePool => exact ⟨_, rfl, discard_ok (unary_ok hx gives)⟩
    | relu | boundedRelu | rescale =>
      obtain rfl : type = t := gives
      exact ⟨_, rfl, discard_ok (unary_ok hx rfl)⟩
    | _ => exact gives.elim
  | [ta, tb] =>
    obtain ⟨a, rest, rfl, ha, hrest⟩ := List.map_eq_cons_iff.mp types
    obtain ⟨b, rfl, hb⟩ := List.map_eq_singleton_iff.mp hrest
    cases op with
    | add | multiply | minimum | dot | convolution =>
      exact ⟨_, rfl, discard_ok (binary_ok ha hb gives)⟩
    | _ => exact gives.elim
  | _ :: _ :: _ :: _ => cases op <;> exact gives.elim

/-! ## Intact graphs -/

/-- A sound graph in which every parameter is listed at its index. -/
structure Intact (g : Graph) : Prop where
  sound : g.Sound
  lists : g.ListsParameters

theorem Rewired.listsParameters {moves : NodeId → Bool} (h : Rewired old new moves g g')
    (lists : g.ListsParameters) : g'.ListsParameters := by
  intro id n' index hn' op
  rw [h.node?] at hn'
  obtain ⟨n, hn, rfl⟩ := Option.map_eq_some_iff.mp hn'
  rw [h.parameters]
  refine lists id n index hn ?_
  split at op <;> exact op

theorem Retired.intact {gone : NodeId → Prop} (h : Retired gone g g') (intact : g.Intact) :
    g'.Intact where
  sound := h.sound intact.sound
  lists id n index hn op := by
    rw [h.parameters]
    exact intact.lists id n index (h.node?_of_some hn) op

/-- A replacement that is made keeps a graph intact if both nodes have one
type. -/
theorem Intact.replace (h : g.Intact) (types : g.type? new = g.type? old)
    (live : g.isLive new = true) (apart : ¬ g.Reaches new old) :
    ((g.redirectUses old new [new]).retire old).Intact := by
  have rewired := rewired_redirectUses g old new [new]
  -- A user of the old node that the new one reached would lead on to the old one.
  have moved : (g.redirectUses old new [new]).Intact :=
    ⟨rewired.sound h.sound types live fun c _ user path => apart (path.tail user),
      rewired.listsParameters h.lists⟩
  by_cases mem : old ∈ g.parameters
  · rwa [retire_of_mem (by rwa [parameters_redirectUses])]
  · have ne : new ≠ old := fun eq => apart (eq ▸ .refl _)
    exact (retired_retire (unused_of_not_reaches apart)
      (notMem_results_redirectUses ne [new]) mem).intact moved

end Graph

namespace Normalize

/-! ## Calls -/

/-- A call that changes a graph. -/
inductive Call where
  | build (c : Command)
  | replace (old new : NodeId)
  | prune
  | pass (p : Pass)

/-- Carries a call out; its answer is not needed. -/
def Call.perform : Call → Edit Unit
  | .build c => change c.run
  | .replace old new => change (Graph.replace old new)
  | .prune => do let _ ← change Graph.prune
  | .pass p => do let _ ← p.run

/-- The graph after a call, whether the call succeeds or not. -/
def Call.after (c : Call) (g : Graph) : Graph :=
  (c.perform.run.run g).2

/-- Nodes are replaced by nodes of the same type only. -/
def Call.Admissible (g : Graph) : Call → Prop
  | .replace old new => ∀ t t', g.type? old = some t → g.type? new = some t' → t = t'
  | _ => True

/-- What calls make of the empty graph. -/
inductive Maintained : Graph → Prop where
  | empty : Maintained .empty
  | step {g : Graph} (c : Call) : Maintained g → c.Admissible g → Maintained (c.after g)

theorem after_discard (e : Edit α) :
    ((do let _ ← e : Edit Unit).run.run g).2 = (e.run.run g).2 := by
  match eq : e.run.run g with
  | (.ok a, g') =>
    rw [run_bind_ok eq]
    rfl
  | (.error x, g') => rw [run_bind_error eq]

/-- One change keeps a graph intact if it does where it succeeds. -/
theorem intact_change {b : Build α} (h : g.Intact)
    (made : ∀ r, b.run g = .ok r → r.2.Intact) : ((change b).run.run g).2.Intact := by
  cases eq : b.run g with
  | ok r =>
    rw [change_run eq]
    exact made r eq
  | error e =>
    rwa [change_run_error eq]

/-- On a sound graph no pass fails, and what it does is an edit. -/
theorem Pass.edited (sound : g.Sound) (p : Pass) :
    ∃ c g', p.run.run.run g = (.ok c, g') ∧ Edited g g' := by
  cases p with
  | fuse =>
    obtain ⟨c, g', run, edited, -⟩ := fuse_pass sound
    exact ⟨c, g', run, edited⟩
  | insertRescales =>
    rcases insert_pass sound.regular with
      ⟨_, c, g', _, run, done, -⟩ | ⟨id, _, _, _, _, n, hn, -, several, -⟩
    · exact ⟨c, g', run, done.edited⟩
    · exact absurd (sound.typed id n hn).outputs several
  | mergeRescales =>
    obtain ⟨c, g', _, run, edited, -⟩ := merge_pass sound
    exact ⟨c, g', run, edited⟩

/-- One call keeps a graph intact. -/
theorem Call.intact (c : Call) (h : g.Intact) (admissible : c.Admissible g) :
    (c.after g).Intact := by
  cases c with
  | build c =>
    refine intact_change h fun r run => ?_
    have grown : Grown g r.2 := c.grown run
    exact ⟨h.sound.grown grown, h.lists.grown grown⟩
  | replace old new =>
    refine intact_change h fun r run => ?_
    obtain ⟨oldLive, newLive, apart, eq⟩ := replace_inv h.sound.closed run
    obtain ⟨m, hm⟩ := isLive_iff.mp oldLive
    obtain ⟨n, hn⟩ := isLive_iff.mp newLive
    have types : g.type? new = g.type? old := by
      rw [type?_of_node? hm, type?_of_node? hn,
        admissible _ _ (type?_of_node? hm) (type?_of_node? hn)]
    exact eq ▸ h.replace types newLive apart
  | prune =>
    rw [Call.after, Call.perform, after_discard]
    refine intact_change h fun r run => ?_
    obtain ⟨count, g', run', retired⟩ := h.sound.prune_run
    obtain rfl := Except.ok.inj (run'.symm.trans run)
    exact retired.intact h
  | pass p =>
    rw [Call.after, Call.perform, after_discard]
    obtain ⟨changed, g', run, edited⟩ := p.edited h.sound
    rw [run]
    exact ⟨edited.sound h.sound, edited.listsParameters h.sound h.lists⟩

theorem Maintained.intact (h : Maintained g) : g.Intact := by
  induction h with
  | empty => exact ⟨sound_empty, Built.empty.listsParameters⟩
  | step c _ admissible ih => exact c.intact ih admissible

/-- Whatever calls a graph has come from, operands and results are live, the
parameters stand at their indices, no node depends on itself, and a node that
is no parameter is the one that its command would append to the graph, of the
type that the operands give it. -/
theorem Maintained.invariants (h : Maintained g) :
    (∀ id n, g.node? id = some n → ∀ i ∈ n.inputs, g.isLive i = true) ∧
      (∀ r ∈ g.results, g.isLive r = true) ∧
      (∀ i id, g.parameters[i]? = some id → ∃ t, g.node? id = some ⟨.parameter i, t, [], 1⟩) ∧
      (∀ id, ∀ i ∈ g.inputs id, ¬ g.Reaches i id) ∧
      ∀ id n, g.node? id = some n →
        (∃ i, g.parameters[i]? = some id ∧ n = ⟨.parameter i, n.type, [], 1⟩) ∨
          ∃ c, n.command? = some c ∧ c.run.run g = .ok ((), (g.push n).2) := by
  obtain ⟨sound, lists⟩ := h.intact
  refine ⟨fun id n hn i hi => (sound.typed id n hn).live_input hi, sound.results,
    sound.parameters, fun id i hi => sound.acyclic.not_reaches hi, fun id n hn => ?_⟩
  by_cases computed : n.kind = .parameter
  · obtain ⟨i, op⟩ : ∃ i, n.op = .parameter i := by
      unfold Node.kind at computed
      cases op : n.op <;> rw [op] at computed <;> first | exact ⟨_, rfl⟩ | exact nomatch computed
    have listed := lists id n i hn op
    obtain ⟨t, ht⟩ := sound.parameters i id listed
    obtain rfl := Option.some.inj (hn.symm.trans ht)
    exact .inl ⟨i, listed, rfl⟩
  · exact .inr ((sound.typed id n hn).remade computed)

/-- The square of a parameter, which is rescaled in vain. -/
def rescaledInVain : Graph where
  nodes := [some ⟨.parameter 0, ⟨.f64, [2]⟩, [], 1⟩, some ⟨.rescale, ⟨.f64, [2]⟩, [0], 1⟩,
    some ⟨.multiply, ⟨.f64, [2]⟩, [1, 1], 1⟩]
  parameters := [0]
  results := [2]

/-- A parameter takes the place of its own rescaling; then the square gets
one. -/
theorem Maintained.invariants_replaced :
    Maintained ((Call.pass .insertRescales).after ((Call.replace 1 0).after rescaledInVain)) ∧
      ∀ r ∈ ((Call.pass .insertRescales).after ((Call.replace 1 0).after rescaledInVain)).results,
        ((Call.pass .insertRescales).after
          ((Call.replace 1 0).after rescaledInVain)).isLive r = true := by
  have built : Maintained rescaledInVain :=
    .step (.build (.addResult 2)) (.step (.build (.multiply 1 1)) (.step (.build (.rescale 0))
      (.step (.build (.parameter ⟨.f64, [2]⟩)) .empty trivial) trivial) trivial) trivial
  have types : (Call.replace 1 0).Admissible rescaledInVain := by
    intro t t' ht ht'
    exact (Option.some.inj ht).symm.trans (Option.some.inj ht')
  have maintained := built.step (.replace 1 0) types |>.step (.pass .insertRescales) trivial
  exact ⟨maintained, maintained.invariants.2.1⟩

end Normalize

end CipherFlow
