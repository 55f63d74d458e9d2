import CipherFlow.Proofs.Graph.Parameters
import CipherFlow.Proofs.Normalize.Fixpoint

/-!
# Compiled graphs

A graph that is evaluated is one that has been built, or what normalization
makes of it. Edits keep the types of the results and of the parameters, add no
type that no node had, and leave every operation that they do not add as it
was. So what is asked of the nodes of a built graph holds of the compiled one.
-/

namespace CipherFlow

namespace Graph

variable {g g' : Graph} {id : NodeId} {n : Node}

/-! ## What edits keep -/

/-- Results change only to nodes of the same type. -/
theorem Change.types_results (sound : g.Sound) (h : Change g g') :
    g'.results.map g'.type? = g.results.map g.type? := by
  cases h with
  | append n _ _ eq =>
    subst eq
    refine List.map_congr_left ?_
    intro r hr
    obtain ⟨m, hm⟩ := isLive_iff.mp (sound.results r hr)
    rw [type?_of_node? hm, type?_push_of_some n (type?_of_node? hm)]
  | rewire old new moves h _ stands =>
    rcases h.results with eq | eq <;> rw [eq]
    · exact List.map_congr_left fun r _ => h.type? r
    · exact h.map_type? (stands.type? sound) g.results
  | retire gone h =>
    rw [h.results]
    exact List.map_congr_left fun r hr => h.type?_of_left (h.results_left r hr)

theorem Edited.types_results (sound : g.Sound) (h : Edited g g') :
    g'.results.map g'.type? = g.results.map g.type? := by
  induction h with
  | refl => rfl
  | tail before step ih => rw [step.types_results (Edited.sound before sound), ih]

/-- A type that occurs has occurred before: the nodes that are added keep the
types of their operands. -/
theorem Change.exists_type (h : Change g g') {t : TensorType}
    (ht : g'.type? id = some t) : ∃ i, g.type? i = some t := by
  cases h with
  | append n typed added eq =>
    subst eq
    obtain ⟨m, hm, rfl⟩ := type?_eq_some.mp ht
    rw [node?_push] at hm
    split at hm
    · obtain rfl := Option.some.inj hm
      have keeps : n.kind.keepsType = true := by
        cases h : n.kind <;> rw [h] at added <;> first | rfl | exact nomatch added
      obtain ⟨x, -, hx⟩ := typed.keeps keeps
      exact ⟨x, hx⟩
    · exact ⟨id, type?_of_node? hm⟩
  | rewire old new moves h => exact ⟨id, h.type? id ▸ ht⟩
  | retire gone h =>
    obtain ⟨m, hm, rfl⟩ := type?_eq_some.mp ht
    exact ⟨id, type?_of_node? (h.node?_of_some hm)⟩

theorem Edited.exists_type (h : Edited g g') {t : TensorType}
    (ht : g'.type? id = some t) : ∃ i, g.type? i = some t := by
  induction h generalizing id with
  | refl => exact ⟨id, ht⟩
  | tail _ step ih =>
    obtain ⟨i, hi⟩ := step.exists_type ht
    exact ih hi

/-- A node of a kind that is not added was there before, with its operation
and its type. -/
theorem Edited.node (sound : g.Sound) (h : Edited g g') (hn : g'.node? id = some n)
    (notAdded : n.kind.isAdded = false) : ∃ inputs, g.node? id = some { n with inputs } := by
  induction h generalizing n with
  | refl => exact ⟨n.inputs, hn⟩
  | tail before step ih =>
    obtain ⟨inputs, hm, -⟩ := step.node (Edited.sound before sound) hn notAdded
    exact @ih { n with inputs } hm notAdded

/-- A parameter keeps its type. -/
theorem Edited.type?_parameter (sound : g.Sound) (h : Edited g g') {p : NodeId}
    (hp : p ∈ g.parameters) : g'.type? p = g.type? p := by
  obtain ⟨i, lt, rfl⟩ := List.mem_iff_getElem.mp hp
  obtain ⟨t, ht⟩ := (h.sound sound).parameters i _
    (by rw [h.parameters, List.getElem?_eq_getElem lt])
  obtain ⟨inputs, before⟩ := h.node sound ht rfl
  rw [type?_of_node? ht, type?_of_node? before]

/-- The nodes of parameters are those of before. -/
theorem Edited.listsParameters (sound : g.Sound) (h : Edited g g') (lists : g.ListsParameters) :
    g'.ListsParameters := by
  intro id n index hn op
  obtain ⟨inputs, before⟩ := h.node sound hn (by rw [Node.kind, op]; rfl)
  rw [h.parameters]
  exact lists id _ index before op

end Graph

/-! ## Compiling -/

open CipherFlow.Graph (Built Edited)

/-- Compiling a sound graph succeeds, and edits it. -/
theorem Normalize.exists_compile {g : Graph} (sound : g.Sound) :
    ∃ compiled, compile g = .ok compiled ∧ Edited g compiled.graph := by
  obtain ⟨r, g', whole, -, edited, -⟩ := run_pipeline sound 29
  refine ⟨⟨g', r⟩, ?_, edited⟩
  unfold compile
  rw [show maxRounds = 29 + 3 from rfl, whole]

theorem Normalize.edited_of_compile {g : Graph} {compiled : Compiled} (sound : g.Sound)
    (h : compile g = .ok compiled) : Edited g compiled.graph := by
  obtain ⟨compiled', h', edited⟩ := exists_compile sound
  rw [Except.ok.inj (h.symm.trans h')]
  exact edited

/-- A graph that has been built, or normalization of one. -/
inductive Graph.Prepared : Graph → Prop where
  | built {g : Graph} : Built g → Prepared g
  | compiled {g : Graph} {c : Normalize.Compiled} : Built g → Normalize.compile g = .ok c →
      Prepared c.graph

theorem Graph.Prepared.sound {g : Graph} (h : g.Prepared) : g.Sound := by
  cases h with
  | built built => exact built.sound
  | compiled built made => exact (Normalize.edited_of_compile built.sound made).sound built.sound

theorem Graph.Prepared.listsParameters {g : Graph} (h : g.Prepared) : g.ListsParameters := by
  cases h with
  | built built => exact built.listsParameters
  | compiled built made =>
    exact (Normalize.edited_of_compile built.sound made).listsParameters built.sound
      built.listsParameters

end CipherFlow
