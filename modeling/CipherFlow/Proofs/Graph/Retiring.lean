import CipherFlow.Proofs.Fault
import CipherFlow.Proofs.Graph.Rewiring

/-!
# Retired nodes

Nodes may be retired if nothing that is left uses them. This is the case for
a node after all its uses have moved to another, and for everything that no
result depends on.

Main lemmas: `replace_run` for the replacement of a node, with `replace_ok` and
`replace_inv` for the condition under which it is made, and `Regular.prune_run` for
pruning. Both retire nodes in the sense of `Retired`, which keeps graphs regular and
sound (`Retired.regular`, `Retired.sound`) and changes nothing about what is needed
(`Retired.needed_iff`).
-/

namespace CipherFlow.Graph

variable {g g' : Graph} {old new : NodeId} {gone : NodeId → Prop}

/-- Some nodes have been retired; no node that is left, no result and no
parameter names one of them. -/
structure Retired (gone : NodeId → Prop) (g g' : Graph) : Prop where
  node?_of_gone : ∀ i, gone i → g'.node? i = none
  node?_of_left : ∀ i, ¬ gone i → g'.node? i = g.node? i
  unused : ∀ a, ¬ gone a → ∀ i ∈ g.inputs a, ¬ gone i
  results_left : ∀ r ∈ g.results, ¬ gone r
  parameters_left : ∀ p ∈ g.parameters, ¬ gone p
  results : g'.results = g.results
  parameters : g'.parameters = g.parameters
  size : g'.size = g.size

/-! ## Retiring from a sound graph -/

theorem Retired.left_of_node? (h : Retired gone g g') {i : NodeId} {n : Node}
    (hn : g'.node? i = some n) : ¬ gone i := by
  intro out
  rw [h.node?_of_gone i out] at hn
  exact nomatch hn

/-- A node that is left was there before. -/
theorem Retired.node?_of_some (h : Retired gone g g') {i : NodeId} {n : Node}
    (hn : g'.node? i = some n) : g.node? i = some n := by
  rw [← h.node?_of_left i (h.left_of_node? hn), hn]

theorem Retired.kind?_of_some (h : Retired gone g g') {i : NodeId} {kind : OpKind}
    (hk : g'.kind? i = some kind) : g.kind? i = some kind := by
  obtain ⟨n, hn, rfl⟩ := kind?_eq_some.mp hk
  exact kind?_of_node? (h.node?_of_some hn)

theorem Retired.mem_inputs_iff (h : Retired gone g g') {a i : NodeId} :
    i ∈ g'.inputs a ↔ ¬ gone a ∧ i ∈ g.inputs a := by
  simp only [Graph.mem_inputs]
  constructor
  · rintro ⟨n, hn, hi⟩
    exact ⟨h.left_of_node? hn, n, h.node?_of_some hn, hi⟩
  · rintro ⟨left, n, hn, hi⟩
    exact ⟨n, by rw [h.node?_of_left a left, hn], hi⟩

theorem Retired.type?_of_left (h : Retired gone g g') {i : NodeId} (left : ¬ gone i) :
    g'.type? i = g.type? i := by
  simp only [Graph.type?, h.node?_of_left i left]

theorem Retired.kind?_of_left (h : Retired gone g g') {i : NodeId} (left : ¬ gone i) :
    g'.kind? i = g.kind? i := by
  simp only [Graph.kind?, h.node?_of_left i left]

theorem Retired.acyclic (h : Retired gone g g') (acyclic : g.Acyclic) : g'.Acyclic := by
  obtain ⟨rank, ranked⟩ := acyclic
  exact ⟨rank, fun a b hb => ranked a b (h.mem_inputs_iff.mp hb).2⟩

theorem Retired.isLive_result (h : Retired gone g g')
    (results : ∀ r ∈ g.results, g.isLive r = true) : ∀ r ∈ g'.results, g'.isLive r = true := by
  intro r hr
  rw [h.results] at hr
  rw [isLive, h.node?_of_left r (h.results_left r hr)]
  exact results r hr

/-- What is left of a regular graph is regular. -/
theorem Retired.regular (h : Retired gone g g') (regular : g.Regular) : g'.Regular where
  closed := by
    refine ⟨fun a i hi => ?_, h.isLive_result regular.closed.results⟩
    obtain ⟨left, hi⟩ := h.mem_inputs_iff.mp hi
    rw [isLive, h.node?_of_left i (h.unused a left i hi)]
    exact regular.closed.inputs a i hi
  acyclic := h.acyclic regular.acyclic
  parameters := by
    intro p hp
    rw [h.parameters] at hp
    rw [h.kind?_of_left (h.parameters_left p hp)]
    exact regular.parameters p hp
  rescale := by
    intro id hk
    obtain ⟨n, hn, -⟩ := kind?_eq_some.mp hk
    obtain ⟨x, eq⟩ := regular.rescale id (h.kind?_of_some hk)
    refine ⟨x, ?_⟩
    rw [inputs_of_node? hn, ← inputs_of_node? (h.node?_of_some hn), eq]

/-- What is left of a sound graph is sound. -/
theorem Retired.sound (h : Retired gone g g') (sound : g.Sound) : g'.Sound where
  typed := by
    intro i n hn
    have left := h.left_of_node? hn
    have hn := h.node?_of_some hn
    refine (sound.typed i n hn).mono ?_
    intro j hj t ht
    rwa [h.type?_of_left (h.unused i left j (inputs_of_node? hn ▸ hj))]
  results := h.isLive_result sound.results
  parameters := by
    intro i p hp
    rw [h.parameters] at hp
    obtain ⟨t, ht⟩ := sound.parameters i p hp
    exact ⟨t, by rw [h.node?_of_left p (h.parameters_left p (List.mem_of_getElem? hp)), ht]⟩
  acyclic := h.acyclic sound.acyclic

theorem Retired.left_of_needed (h : Retired gone g g') {a : NodeId} (ha : g.Needed a) :
    ¬ gone a :=
  ha.induction (P := fun a => ¬ gone a) h.results_left fun a left b hb => h.unused a left b hb

/-- The same nodes are needed as before. -/
theorem Retired.needed_iff (h : Retired gone g g') {a : NodeId} : g'.Needed a ↔ g.Needed a := by
  constructor
  · exact fun ha => ha.induction (P := g.Needed) (fun _ hr => .of_result (h.results ▸ hr))
      fun _ ha _ hb => ha.tail (h.mem_inputs_iff.mp hb).2
  · exact fun ha => ha.induction (P := fun a => g'.Needed a ∧ g.Needed a)
      (fun _ hr => ⟨.of_result (h.results.symm ▸ hr), .of_result hr⟩)
      (fun _ ha _ hb =>
        ⟨ha.1.tail (h.mem_inputs_iff.mpr ⟨h.left_of_needed ha.2, hb⟩), ha.2.tail hb⟩) |>.1

/-! ## Replacements -/

/-- After all uses of a node have moved, it may be retired. -/
theorem retired_retire (unused : ∀ a, old ∉ g.inputs a) (notResult : old ∉ g.results)
    (notParameter : old ∉ g.parameters) : Retired (· = old) g (g.retire old) where
  node?_of_gone := by
    rintro _ rfl
    rw [node?_retire notParameter, if_pos rfl]
  node?_of_left := fun i left => by rw [node?_retire notParameter, if_neg left]
  unused := fun a _ i hi eq => unused a (eq ▸ hi)
  results_left := fun r hr eq => notResult (eq ▸ hr)
  parameters_left := fun p hp eq => notParameter (eq ▸ hp)
  results := results_retire
  parameters := parameters_retire
  size := size_retire

theorem notMem_results_redirectUses (ne : new ≠ old) (except : List NodeId) :
    old ∉ (g.redirectUses old new except).results := by
  intro hr
  rw [results_redirectUses] at hr
  obtain ⟨r, -, eq⟩ := List.mem_map.mp hr
  split at eq
  · exact ne eq
  · exact absurd eq ‹_›

/-- A node does not depend on another if it uses only what is reached through
the operands of that one. -/
theorem Acyclic.not_reaches_of_through (acyclic : g.Acyclic) (ne : new ≠ old)
    (through : ∀ x ∈ g.inputs new, ∃ y ∈ g.inputs old, g.Reaches y x) : ¬ g.Reaches new old := by
  intro path
  rcases path.cases with eq | ⟨x, hx, path⟩
  · exact ne eq
  · obtain ⟨y, hy, path'⟩ := through x hx
    exact acyclic.not_reaches hy (path'.trans path)

/-- After a replacement by a node that does not depend on the old one, nothing
uses the old one. -/
theorem unused_of_not_reaches (apart : ¬ g.Reaches new old) (a : NodeId) :
    old ∉ (g.redirectUses old new [new]).inputs a := by
  have ne : new ≠ old := fun eq => apart (eq ▸ .refl _)
  intro user
  obtain ⟨stays, user⟩ := ((rewired_redirectUses g old new [new]).old_mem_inputs_iff ne).mp user
  have eq : a = new := by simpa using stays
  exact apart (.head (eq ▸ user) (.refl old))

/-- A replacement is made if the new node does not depend on the old one. -/
theorem replace_ok (closed : g.Closed) (oldLive : g.isLive old = true)
    (newLive : g.isLive new = true) (apart : ¬ g.Reaches new old) :
    (replace old new).run g = .ok ((), (g.redirectUses old new [new]).retire old) := by
  obtain ⟨n, hn⟩ := isLive_iff.mp oldLive
  obtain ⟨m, hm⟩ := isLive_iff.mp newLive
  have found := reaches_eq_false closed (lt_size_of_node? hm) apart
  simp only [StateT.run, replace, node_ok hn, node_ok hm, found]
  rfl

/-- Only then: a replacement that would make a cycle is refused. -/
theorem replace_inv {r : Unit × Graph} (closed : g.Closed)
    (run : (replace old new).run g = .ok r) :
    g.isLive old = true ∧ g.isLive new = true ∧ ¬ g.Reaches new old ∧
      r.2 = (g.redirectUses old new [new]).retire old := by
  obtain ⟨n, hn, run⟩ := exists_of_bind_eq_ok (x := g.node old) run
  obtain ⟨m, hm, run⟩ := exists_of_bind_eq_ok (x := g.node new) run
  have live := node?_of_node hm
  obtain ⟨found, eq, iff⟩ := reaches_iff closed (lt_size_of_node? live) old
  rw [eq] at run
  cases found with
  | true => exact nomatch run
  | false =>
    refine ⟨isLive_of_node? (node?_of_node hn), isLive_of_node? live,
      fun path => Bool.false_ne_true (iff.mpr path), ?_⟩
    exact (congrArg Prod.snd (Except.ok.inj run)).symm

/-- A node that is no parameter is replaced by another: uses move, then the
node is retired. -/
theorem replace_run (closed : g.Closed) (oldLive : g.isLive old = true)
    (newLive : g.isLive new = true) (apart : ¬ g.Reaches new old)
    (notParameter : old ∉ g.parameters) :
    ∃ g₁ g', (replace old new).run g = .ok ((), g') ∧
      Rewired old new (fun id => !([new].contains id)) g g₁ ∧ Retired (· = old) g₁ g' :=
  have ne : new ≠ old := fun eq => apart (eq ▸ .refl _)
  ⟨_, _, replace_ok closed oldLive newLive apart, rewired_redirectUses g old new [new],
    retired_retire (unused_of_not_reaches apart) (notMem_results_redirectUses ne [new])
      notParameter⟩

/-! ## Pruning -/

/-- Live, but neither a parameter nor needed for a result. -/
def Spare (g : Graph) (id : NodeId) : Prop :=
  g.isLive id = true ∧ id ∉ g.parameters ∧ ¬ g.Needed id

/-- No node is spare. -/
def Pruned (g : Graph) : Prop :=
  ∀ id, ¬ g.Spare id

theorem Pruned.needed (h : g.Pruned) {id : NodeId} (live : g.isLive id = true)
    (notParameter : id ∉ g.parameters) : g.Needed id :=
  Classical.byContradiction fun notNeeded => h id ⟨live, notParameter, notNeeded⟩

theorem node?_foldl_retire (ids : List NodeId) (apart : ∀ i ∈ ids, i ∉ g.parameters)
    (i : NodeId) : (ids.foldl retire g).node? i = if i ∈ ids then none else g.node? i := by
  induction ids generalizing g with
  | nil => simp
  | cons id ids ih =>
    have head := apart id List.mem_cons_self
    have tail : ∀ i ∈ ids, i ∉ (g.retire id).parameters := by
      intro i hi
      rw [parameters_retire]
      exact apart i (List.mem_cons_of_mem _ hi)
    rw [List.foldl_cons, ih tail, node?_retire head]
    by_cases eq : i = id <;> simp [eq]

theorem foldl_retire (ids : List NodeId) :
    (ids.foldl retire g).results = g.results ∧ (ids.foldl retire g).parameters = g.parameters ∧
      (ids.foldl retire g).size = g.size := by
  induction ids generalizing g with
  | nil => simp
  | cons id ids ih =>
    obtain ⟨results, parameters, size⟩ := ih (g := g.retire id)
    exact ⟨by rw [List.foldl_cons, results, results_retire],
      by rw [List.foldl_cons, parameters, parameters_retire],
      by rw [List.foldl_cons, size, size_retire]⟩

theorem isDead_iff {kept : List NodeId} (order : g.IsOrder kept) {id : NodeId} :
    g.isDead kept id = true ↔ g.Spare id := by
  simp only [isDead, Spare, Bool.and_eq_true, Bool.not_eq_true', List.contains_iff_mem,
    ← Bool.not_eq_true, order.mem_iff]
  tauto

/-- What pruning retires, given what it keeps. -/
def deadNodes (g : Graph) (kept : List NodeId) : List NodeId :=
  (List.range g.size).filter (g.isDead kept)

theorem nodup_deadNodes (g : Graph) (kept : List NodeId) : (g.deadNodes kept).Nodup :=
  List.nodup_range.filter _

/-- The places of dead nodes are the spare ones. -/
theorem mem_deadNodes_iff {kept : List NodeId} (order : g.IsOrder kept) {id : NodeId} :
    id ∈ g.deadNodes kept ↔ g.Spare id := by
  rw [deadNodes, List.mem_filter, isDead_iff order, List.mem_range]
  refine and_iff_right_of_imp ?_
  intro spare
  obtain ⟨n, hn⟩ := isLive_iff.mp spare.1
  exact lt_size_of_node? hn

theorem prune_run_eq {kept : List NodeId} (eq : g.order = .ok kept) :
    prune.run g = .ok ((g.deadNodes kept).length, (g.deadNodes kept).foldl retire g) := by
  simp only [StateT.run, prune, eq]
  rfl

/-- If parameters have no operands, what uses a spare node is spare. -/
theorem not_spare_input (sources : ∀ p ∈ g.parameters, g.inputs p = []) {a i : NodeId}
    (ha : ¬ g.Spare a) (hi : i ∈ g.inputs a) : ¬ g.Spare i := by
  rintro ⟨-, -, notNeeded⟩
  obtain ⟨n, hn, -⟩ := mem_inputs.mp hi
  refine ha ⟨isLive_of_node? hn, fun mem => ?_, fun needed => notNeeded (needed.tail hi)⟩
  rw [sources a mem] at hi
  exact nomatch hi

/-- Pruning a regular graph succeeds and retires the spare nodes. -/
theorem Regular.prune_run (regular : g.Regular) (sources : ∀ p ∈ g.parameters, g.inputs p = []) :
    ∃ count g', prune.run g = .ok (count, g') ∧ Retired g.Spare g g' := by
  obtain ⟨kept, eq, order⟩ := regular.order
  have dead : ∀ i, i ∈ g.deadNodes kept ↔ g.Spare i := fun i => mem_deadNodes_iff order
  have apart : ∀ i ∈ g.deadNodes kept, i ∉ g.parameters := fun i hi => ((dead i).mp hi).2.1
  obtain ⟨results, parameters, size⟩ := foldl_retire (g := g) (g.deadNodes kept)
  exact ⟨_, _, prune_run_eq eq, {
    node?_of_gone := fun i out => by
      rw [node?_foldl_retire _ apart, if_pos ((dead i).mpr out)]
    node?_of_left := fun i left => by
      rw [node?_foldl_retire _ apart, if_neg fun mem => left ((dead i).mp mem)]
    unused := fun a ha i hi => not_spare_input sources ha hi
    results_left := fun r hr spare => spare.2.2 (.of_result hr)
    parameters_left := fun p hp spare => spare.2.1 hp
    results, parameters, size }⟩

theorem Sound.prune_run (sound : g.Sound) :
    ∃ count g', prune.run g = .ok (count, g') ∧ Retired g.Spare g g' :=
  sound.regular.prune_run fun _ => sound.inputs_parameter

/-- Pruning changes nothing where no node is spare. -/
theorem prune_run_of_pruned (sound : g.Sound) (pruned : g.Pruned) : prune.run g = .ok (0, g) := by
  obtain ⟨kept, eq, order⟩ := sound.order
  have none : g.deadNodes kept = [] :=
    List.eq_nil_iff_forall_not_mem.mpr fun i hi => pruned i ((mem_deadNodes_iff order).mp hi)
  rw [prune_run_eq eq, none]
  rfl

/-- After pruning no node is spare. -/
theorem Retired.pruned (h : Retired g.Spare g g') : g'.Pruned := by
  rintro id ⟨live, notParameter, notNeeded⟩
  obtain ⟨n, hn⟩ := isLive_iff.mp live
  rw [h.parameters] at notParameter
  rw [h.needed_iff] at notNeeded
  exact h.left_of_node? hn ⟨isLive_of_node? (h.node?_of_some hn), notParameter, notNeeded⟩

/-- A live node of another kind is no parameter, so after pruning it is one
that was needed. -/
theorem Retired.needed_of_kind (h : Retired g.Spare g g') (sound : g.Sound) {id : NodeId}
    {kind : OpKind} (hk : g'.kind? id = some kind) (other : kind ≠ .parameter) : g.Needed id := by
  obtain ⟨n, hn, rfl⟩ := kind?_eq_some.mp hk
  have hn := h.node?_of_some hn
  exact Classical.byContradiction fun notNeeded => h.left_of_node? ‹_›
    ⟨isLive_of_node? hn, sound.notMem_parameters hn other, notNeeded⟩

end CipherFlow.Graph
