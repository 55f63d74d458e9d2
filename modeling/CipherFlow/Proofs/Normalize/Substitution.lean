import CipherFlow.Proofs.Normalize.Change

/-!
# Putting a new node in the place of another

Fusing and merging both append a node and replace an old one by it. What the
graph looks like afterwards is read off here once, from the three steps that
this takes.
-/

namespace CipherFlow.Graph

variable {g g' : Graph} {old : NodeId} {n : Node}

/-- A new node has been appended and put in the place of an old one. -/
structure Substituted (old : NodeId) (n : Node) (g g' : Graph) : Prop where
  edited : Edited g g'
  gone : g'.node? old = none
  new : g'.node? g.size = some n
  node? : ∀ i, i ≠ old → i ≠ g.size →
    g'.node? i = (g.node? i).map (Node.redirect old g.size)
  results : g'.results = g.results ∨ g'.results = g.results.map (renamed old g.size)

/-! ## Carrying it out

What is known of nodes is known of them after another is appended. -/

theorem Reaches.push (n : Node) {a b : NodeId} (h : g.Reaches a b) :
    (g.push n).2.Reaches a b := by
  induction h with
  | refl => exact .refl a
  | tail _ edge ih =>
    refine ih.tail ?_
    obtain ⟨m, hm, hi⟩ := mem_inputs.mp edge
    exact mem_inputs.mpr ⟨m, node?_push_of_some n hm, hi⟩

theorem Rescales.push (n : Node) {y x : NodeId} (h : g.Rescales y x) :
    (g.push n).2.Rescales y x where
  kind := kind?_push_of_some n h.kind
  inputs := (inputs_push_of_kind n h.kind).trans h.inputs

theorem Clamps.push (n : Node) {m r c x k : NodeId} {t : TensorType} {values : List Float}
    (h : g.Clamps m r c x k t values) : (g.push n).2.Clamps m r c x k t values where
  minimum := kind?_push_of_some n h.minimum
  operands := by
    rw [inputs_push_of_kind n h.minimum]
    exact h.operands
  relu := kind?_push_of_some n h.relu
  rectified := (inputs_push_of_kind n h.relu).trans h.rectified
  repeated := h.repeated.imp_right fun ⟨broadcast, inputs⟩ =>
    ⟨kind?_push_of_some n broadcast, (inputs_push_of_kind n broadcast).trans inputs⟩
  bound := kind?_push_of_some n h.bound
  constant := node?_push_of_some n h.constant
  type := type?_push_of_some n h.type
  real := h.real

/-- A node is put in the place of another that it stands for, if it uses only
what is reached through operands of that one. -/
theorem substitute_run (sound : g.Sound) (typed : g.WellTyped n) (added : n.kind.isAdded = true)
    {m : Node} (hm : g.node? old = some m) (kind : m.kind ≠ .parameter)
    (through : ∀ x ∈ n.inputs, ∃ y ∈ g.inputs old, g.Reaches y x)
    (stands : (g.push n).2.StandsFor g.size old) :
    ∃ g', (replace old g.size).run (g.push n).2 = .ok ((), g') ∧ Substituted old n g g' := by
  have step₁ : Change g (g.push n).2 := .append n typed added rfl
  have sound₁ := step₁.sound sound
  have ne : g.size ≠ old := (Nat.ne_of_lt (lt_size_of_node? hm)).symm
  have hm₁ := node?_push_of_some n hm
  have through₁ : ∀ x ∈ (g.push n).2.inputs g.size, ∃ y ∈ (g.push n).2.inputs old,
      (g.push n).2.Reaches y x := by
    intro x hx
    rw [inputs_of_node? (node?_push_size n)] at hx
    obtain ⟨y, hy, path⟩ := through x hx
    rw [inputs_of_node? hm₁, ← inputs_of_node? hm]
    exact ⟨y, hy, path.push n⟩
  -- No path leads from the new node to the old one, so its uses can move there.
  obtain ⟨g₂, g₃, run, rewired, retired⟩ := replace_run sound₁.closed (isLive_of_node? hm₁)
    stands.isLive (sound₁.acyclic.not_reaches_of_through ne through₁)
    (sound₁.notMem_parameters hm₁ kind)
  have step₂ : Change (g.push n).2 g₂ := .rewire _ _ _ rewired (by simp) stands
  have step₃ : Change g₂ g₃ := .retire _ retired
  refine ⟨g₃, run, step₁.edited.trans (step₂.edited.trans step₃.edited),
    retired.node?_of_gone old rfl, ?_, ?_, ?_⟩
  · rw [retired.node?_of_left _ ne, rewired.node?, node?_push_size]
    simp
  · intro i neOld neNew
    rw [retired.node?_of_left _ neOld, rewired.node?, node?_push_of_ne n neNew]
    simp [neNew]
  · rw [retired.results]
    exact rewired.results

/-! ## Reading it off

The old node is gone, and where it was an operand or a result there is the new one.
All else is as before. -/

variable (h : Substituted old n g g')
include h

theorem Substituted.isLive_ne {i : NodeId} (live : g'.isLive i = true) : i ≠ old := by
  rintro rfl
  simp [isLive, h.gone] at live

theorem Substituted.kind?_eq {i : NodeId} (neOld : i ≠ old) (neNew : i ≠ g.size) :
    g'.kind? i = g.kind? i := by
  simp only [Graph.kind?, h.node? i neOld neNew, Option.map_map]
  rfl

theorem Substituted.kind?_new : g'.kind? g.size = some n.kind :=
  kind?_of_node? h.new

theorem Substituted.inputs_new : g'.inputs g.size = n.inputs :=
  inputs_of_node? h.new

theorem Substituted.inputs_eq {c : NodeId} (neOld : c ≠ old) (neNew : c ≠ g.size) :
    g'.inputs c = (g.inputs c).map (renamed old g.size) := by
  simp only [Graph.inputs, h.node? c neOld neNew]
  cases g.node? c with
  | none => rfl
  | some m => rfl

/-- An operand is one of the new node, or it was one before, or it is the new
node in place of the old. -/
theorem Substituted.mem_inputs {c i : NodeId} (hi : i ∈ g'.inputs c) :
    (c = g.size ∧ i ∈ n.inputs) ∨
      (c ≠ old ∧ c ≠ g.size ∧ (i ∈ g.inputs c ∨ i = g.size ∧ old ∈ g.inputs c)) := by
  have neOld : c ≠ old := by
    obtain ⟨m, hm, -⟩ := Graph.mem_inputs.mp hi
    exact h.isLive_ne (isLive_of_node? hm)
  by_cases new : c = g.size
  · subst new
    exact .inl ⟨rfl, h.inputs_new ▸ hi⟩
  · rw [h.inputs_eq neOld new] at hi
    obtain ⟨j, hj, eq⟩ := List.mem_map.mp hi
    by_cases same : j = old
    · rw [same, renamed_old] at eq
      exact .inr ⟨neOld, new, .inr ⟨eq.symm, same ▸ hj⟩⟩
    · rw [renamed_of_ne same] at eq
      exact .inr ⟨neOld, new, .inl (eq ▸ hj)⟩

/-- Who uses a third node: those who did, and perhaps the new node. -/
theorem Substituted.mem_inputs_iff {q c : NodeId} (neOld : q ≠ old) (neNew : q ≠ g.size) :
    q ∈ g'.inputs c ↔ (c = g.size ∧ q ∈ n.inputs) ∨ (c ≠ old ∧ q ∈ g.inputs c) := by
  constructor
  · intro hq
    rcases h.mem_inputs hq with new | ⟨neOld, -, hq | ⟨eq, -⟩⟩
    · exact .inl new
    · exact .inr ⟨neOld, hq⟩
    · exact absurd eq neNew
  · rintro (⟨rfl, hq⟩ | ⟨cOld, hq⟩)
    · rwa [h.inputs_new]
    · obtain ⟨m, hm, -⟩ := Graph.mem_inputs.mp hq
      rw [h.inputs_eq cOld (Nat.ne_of_lt (lt_size_of_node? hm))]
      exact List.mem_map.mpr ⟨q, hq, renamed_of_ne neOld⟩

theorem Substituted.mem_results_iff {q : NodeId} (neOld : q ≠ old) (neNew : q ≠ g.size) :
    q ∈ g'.results ↔ q ∈ g.results := by
  rcases h.results with eq | eq <;> rw [eq]
  constructor
  · intro hq
    obtain ⟨j, hj, eq⟩ := List.mem_map.mp hq
    by_cases same : j = old
    · rw [same, renamed_old] at eq
      exact absurd eq.symm neNew
    · rwa [← eq, renamed_of_ne same]
  · intro hq
    exact List.mem_map.mpr ⟨q, hq, renamed_of_ne neOld⟩

/-- Among the results, too, the new node takes the place of the old. -/
theorem Substituted.results_eq (closed : g'.Closed) :
    g'.results = g.results.map (renamed old g.size) := by
  rcases h.results with eq | eq
  · have same : ∀ r ∈ g.results, renamed old g.size r = r := fun r hr =>
      renamed_of_ne (h.isLive_ne (closed.results r (eq ▸ hr)))
    rw [eq, List.map_congr_left same, List.map_id']
  · exact eq

end CipherFlow.Graph
