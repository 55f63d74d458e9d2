import CipherFlow.Proofs.Graph.Sound

/-!
# Rewired graphs

All edits come down to four steps: a node is appended, the uses of one node
move to another, a node that nothing uses is retired, and everything that no
result depends on is retired. The second step is the one with content: it
keeps a graph sound if both nodes have one type and no user that moves is
reached from the new node.

Main lemmas: `Rewired.sound`, `Rewired.regular` and `Rewired.needed`. A cycle is
excluded by a new ranking: whatever reaches a user that moves is put above the new
node (`Rewired.acyclic`). To look for a cycle in the graph after the step would need
its paths to be cut where they pass the new edges.
-/

namespace CipherFlow.Graph

variable {g g' : Graph} {old new : NodeId} {moves : NodeId → Bool}

/-! ## Moving uses -/

/-- A use after the uses of one node have moved to another. -/
def renamed (old new i : NodeId) : NodeId :=
  if i = old then new else i

@[simp] theorem renamed_old (old new : NodeId) : renamed old new old = new :=
  if_pos rfl

theorem renamed_of_ne {i : NodeId} (h : i ≠ old) : renamed old new i = i :=
  if_neg h

theorem redirect_inputs (n : Node) :
    (n.redirect old new).inputs = n.inputs.map (renamed old new) := rfl

/-- In some nodes, and possibly among the results, the uses of one node have
moved to another. -/
structure Rewired (old new : NodeId) (moves : NodeId → Bool) (g g' : Graph) : Prop where
  node? : ∀ id, g'.node? id =
    (g.node? id).map fun n => if moves id then n.redirect old new else n
  results : g'.results = g.results ∨ g'.results = g.results.map (renamed old new)
  parameters : g'.parameters = g.parameters
  size : g'.size = g.size

theorem rewired_redirectUses (g : Graph) (old new : NodeId) (except : List NodeId) :
    Rewired old new (fun id => !except.contains id) g (g.redirectUses old new except) where
  node? := by
    intro id
    rw [node?_redirectUses]
    by_cases mem : id ∈ except <;> simp [mem]
  results := .inr (results_redirectUses old new except)
  parameters := rfl
  size := size_redirectUses old new except

/-- A live consumer is redirected, and the answer tells whether it used the
node. -/
theorem redirectConsumer_run {c : NodeId} {n : Node} (hn : g.node? c = some n) :
    ∃ g', (redirectConsumer c old new).run g = .ok (n.inputs.contains old, g') ∧
      Rewired old new (fun id => id == c) g g' := by
  refine ⟨{ g with nodes := g.nodes.set c (some (n.redirect old new)) }, ?_, ?_⟩
  · show (g.node c >>= _) = _
    rw [node_ok hn]
    rfl
  · refine ⟨fun id => ?_, .inl rfl, rfl, by simp [size]⟩
    rw [node?_set _ (lt_size_of_node? hn)]
    by_cases eq : id = c
    · simp [eq, hn]
    · simp [eq]

theorem Rewired.isLive (h : Rewired old new moves g g') (id : NodeId) :
    g'.isLive id = g.isLive id := by
  simp [Graph.isLive, h.node?]

theorem Rewired.kind? (h : Rewired old new moves g g') (id : NodeId) :
    g'.kind? id = g.kind? id := by
  simp only [Graph.kind?, h.node?, Option.map_map]
  congr 1
  funext n
  by_cases m : moves id <;> simp [m, Node.redirect, Node.kind]

theorem Rewired.type? (h : Rewired old new moves g g') (id : NodeId) :
    g'.type? id = g.type? id := by
  simp only [Graph.type?, h.node?, Option.map_map]
  congr 1
  funext n
  by_cases m : moves id <;> simp [m, Node.redirect]

theorem Rewired.inputs (h : Rewired old new moves g g') (id : NodeId) :
    g'.inputs id =
      if moves id then (g.inputs id).map (renamed old new) else g.inputs id := by
  simp only [Graph.inputs, h.node?]
  cases g.node? id with
  | none => simp
  | some n => by_cases m : moves id <;> simp [m, redirect_inputs]

/-- An operand was one before, or it is the new node in place of the old. -/
theorem Rewired.mem_inputs (h : Rewired old new moves g g') {a i : NodeId}
    (hi : i ∈ g'.inputs a) :
    i ∈ g.inputs a ∨ (i = new ∧ moves a = true ∧ old ∈ g.inputs a) := by
  rw [h.inputs] at hi
  split at hi
  · rename_i m
    obtain ⟨j, hj, rfl⟩ := List.mem_map.mp hi
    by_cases eq : j = old
    · subst eq
      exact .inr ⟨renamed_old _ _, m, hj⟩
    · exact .inl (by rwa [renamed_of_ne eq])
  · exact .inl hi

/-- Who uses a third node does not change. -/
theorem Rewired.mem_inputs_iff (h : Rewired old new moves g g') {a i : NodeId} (neOld : i ≠ old)
    (neNew : i ≠ new) : i ∈ g'.inputs a ↔ i ∈ g.inputs a := by
  refine ⟨fun hi => (h.mem_inputs hi).resolve_right fun ⟨eq, _⟩ => neNew eq, ?_⟩
  intro hi
  rw [h.inputs]
  split
  · exact List.mem_map.mpr ⟨i, hi, renamed_of_ne neOld⟩
  · exact hi

/-- The nodes that move no longer use the old node. -/
theorem Rewired.old_mem_inputs_iff (h : Rewired old new moves g g') (ne : new ≠ old)
    {a : NodeId} : old ∈ g'.inputs a ↔ moves a = false ∧ old ∈ g.inputs a := by
  rw [h.inputs]
  by_cases m : moves a
  · simp only [m, if_true, Bool.true_eq_false, false_and, iff_false]
    rintro hi
    obtain ⟨j, -, eq⟩ := List.mem_map.mp hi
    by_cases same : j = old
    · exact ne (by rw [← eq, same, renamed_old])
    · exact same (by rwa [renamed_of_ne same] at eq)
  · simp [m]

theorem Rewired.mem_results (h : Rewired old new moves g g') {r : NodeId} (hr : r ∈ g'.results) :
    r ∈ g.results ∨ (r = new ∧ old ∈ g.results) := by
  rcases h.results with eq | eq <;> rw [eq] at hr
  · exact .inl hr
  · obtain ⟨j, hj, rfl⟩ := List.mem_map.mp hr
    by_cases same : j = old
    · subst same
      exact .inr ⟨renamed_old _ _, hj⟩
    · exact .inl (by rwa [renamed_of_ne same])

theorem Rewired.mem_results_iff (h : Rewired old new moves g g') {r : NodeId} (neOld : r ≠ old)
    (neNew : r ≠ new) : r ∈ g'.results ↔ r ∈ g.results := by
  refine ⟨fun hr => (h.mem_results hr).resolve_right fun ⟨eq, _⟩ => neNew eq, ?_⟩
  intro hr
  rcases h.results with eq | eq <;> rw [eq]
  · exact hr
  · exact List.mem_map.mpr ⟨r, hr, renamed_of_ne neOld⟩

/-! ## Rewiring a sound graph -/

/-- A node from which a user of the old node that moves is reached. -/
def ReachesMoved (g : Graph) (old : NodeId) (moves : NodeId → Bool) (a : NodeId) : Prop :=
  ∃ c, moves c = true ∧ old ∈ g.inputs c ∧ g.Reaches a c

/-- If no user that moves is reached from the new node, no cycle arises: rank
every node that reaches such a user above the new node. -/
theorem Rewired.acyclic (h : Rewired old new moves g g') (acyclic : g.Acyclic)
    (apart : ∀ c, moves c = true → old ∈ g.inputs c → ¬ g.Reaches new c) : g'.Acyclic := by
  classical
  obtain ⟨rank, ranked⟩ := acyclic
  have newBelow : ¬ g.ReachesMoved old moves new := fun ⟨c, m, user, path⟩ =>
    apart c m user path
  refine ⟨fun a => if g.ReachesMoved old moves a then rank a + (rank new + 1) else rank a, ?_⟩
  intro a b hb
  rcases h.mem_inputs hb with edge | ⟨rfl, m, user⟩
  · have lt := ranked a b edge
    by_cases hb' : g.ReachesMoved old moves b
    · obtain ⟨c, m, user, path⟩ := hb'
      have ha : g.ReachesMoved old moves a := ⟨c, m, user, path.head edge⟩
      have hb : g.ReachesMoved old moves b := ⟨c, m, user, path⟩
      simp only [ha, hb, if_true]
      omega
    · simp only [hb', if_false]
      split <;> omega
  · have ha : g.ReachesMoved old moves a := ⟨a, m, user, .refl a⟩
    simp only [ha, newBelow, if_true, if_false]
    omega

theorem Rewired.map_type? (h : Rewired old new moves g g') (types : g.type? new = g.type? old)
    (ids : List NodeId) : (ids.map (renamed old new)).map g'.type? = ids.map g.type? := by
  rw [List.map_map]
  refine List.map_congr_left ?_
  intro i _
  by_cases eq : i = old
  · subst eq
    simp [h.type?, types]
  · simp [renamed_of_ne eq, h.type?]

/-- A node whose operands are reached from the old node reaches no user of
it. -/
theorem Rewired.apart (acyclic : g.Acyclic) (below : ∀ x ∈ g.inputs new, g.Reaches old x)
    (fixed : moves new = false) {c : NodeId} (m : moves c = true) (user : old ∈ g.inputs c) :
    ¬ g.Reaches new c := by
  intro path
  rcases path.cases with rfl | ⟨x, hx, path⟩
  · rw [fixed] at m
    exact nomatch m
  · exact acyclic.not_reaches user ((below x hx).trans path)

theorem Rewired.isLive_result (h : Rewired old new moves g g')
    (results : ∀ r ∈ g.results, g.isLive r = true) (live : g.isLive new = true) :
    ∀ r ∈ g'.results, g'.isLive r = true := by
  intro r hr
  rw [h.isLive]
  rcases h.mem_results hr with hr | ⟨rfl, -⟩
  · exact results r hr
  · exact live

/-- Moving uses to a node that reaches no user of them keeps a graph
regular. -/
theorem Rewired.regular (h : Rewired old new moves g g') (regular : g.Regular)
    (live : g.isLive new = true)
    (apart : ∀ c, moves c = true → old ∈ g.inputs c → ¬ g.Reaches new c) : g'.Regular where
  closed := by
    refine ⟨fun a i hi => ?_, h.isLive_result regular.closed.results live⟩
    rw [h.isLive]
    rcases h.mem_inputs hi with hi | ⟨rfl, -⟩
    · exact regular.closed.inputs a i hi
    · exact live
  acyclic := h.acyclic regular.acyclic apart
  parameters := fun p hp => (h.kind? p).trans (regular.parameters p (h.parameters ▸ hp))
  rescale := by
    intro id hk
    obtain ⟨x, eq⟩ := regular.rescale id ((h.kind? id).symm.trans hk)
    rw [h.inputs, eq]
    split
    · exact ⟨_, rfl⟩
    · exact ⟨x, rfl⟩

/-- If both nodes have one type, it keeps a graph sound. -/
theorem Rewired.sound (h : Rewired old new moves g g') (sound : g.Sound)
    (types : g.type? new = g.type? old) (live : g.isLive new = true)
    (apart : ∀ c, moves c = true → old ∈ g.inputs c → ¬ g.Reaches new c) : g'.Sound where
  typed := by
    intro id n' hn'
    rw [h.node?] at hn'
    obtain ⟨n, hn, rfl⟩ := Option.map_eq_some_iff.mp hn'
    have typed := sound.typed id n hn
    by_cases m : moves id
    · obtain ⟨ts, eq, gives⟩ := typed.types
      rw [if_pos m]
      exact ⟨typed.outputs, ts, by rw [redirect_inputs, h.map_type? types, eq], gives⟩
    · rw [if_neg m]
      exact typed.mono fun i _ t ht => by rwa [h.type?]
  results := h.isLive_result sound.results live
  parameters := by
    intro i id hi
    rw [h.parameters] at hi
    obtain ⟨t, ht⟩ := sound.parameters i id hi
    refine ⟨t, ?_⟩
    rw [h.node?, ht]
    by_cases m : moves id <;> simp [m, Node.redirect]
  acyclic := h.acyclic sound.acyclic apart

/-- What is needed was needed before, or it is the new node and the old one
was, provided that the new node needs nothing that the old one does not. -/
theorem Rewired.needed (h : Rewired old new moves g g')
    (below : ∀ x ∈ g.inputs new, g.Reaches old x) (fixed : moves new = false) {a : NodeId}
    (ha : g'.Needed a) : g.Needed a ∨ (a = new ∧ g.Needed old) := by
  refine ha.induction (P := fun a => g.Needed a ∨ (a = new ∧ g.Needed old)) ?_ ?_
  · intro r hr
    exact (h.mem_results hr).imp .of_result fun ⟨eq, hold⟩ => ⟨eq, .of_result hold⟩
  · intro a ha b hb
    rcases ha with ha | ⟨rfl, r, hr, path⟩
    · exact (h.mem_inputs hb).imp ha.tail fun ⟨eq, _, user⟩ => ⟨eq, ha.tail user⟩
    · have hb : b ∈ g.inputs a := by rwa [h.inputs, fixed, if_neg Bool.false_ne_true] at hb
      exact .inl ⟨r, hr, path.trans (below b hb)⟩

end CipherFlow.Graph
