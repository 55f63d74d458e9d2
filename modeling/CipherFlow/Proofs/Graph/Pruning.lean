import CipherFlow.Proofs.Graph.Retiring
import Mathlib.Data.Finset.Card

/-!
# Pruning to the order of evaluation

In a closed graph where no node depends on itself, the search lists what the
results need, and pruning retires the live nodes outside this list, parameters
apart. The search looks at the operands of needed nodes only, and these stay; so
it lists the same after pruning. Nothing is asked of the kinds and the types of
the nodes, nor that parameters are without operands.

`order_prunes` states it: the order exists, it is the order of the needed nodes, and
pruning leaves just these and the parameters.

How the proof goes. The search of `CipherFlow.Proofs.Graph.Order` needs a rank that
falls along operands. Where no node depends on itself the number of nodes that a
node depends on is one (`Closed.acyclic`). That pruning does not change the order is
shown without repeating the search: two graphs that agree on the operands of needed
nodes are searched alike, step by step (`visit_congr`).
-/

namespace CipherFlow.Graph

variable {g g' : Graph} {kept : List NodeId}

/-! ## Cycles -/

/-- The places that a node depends on. -/
noncomputable def descendants (g : Graph) (a : NodeId) : Finset NodeId :=
  open Classical in (Finset.range g.size).filter fun b => Relation.TransGen g.Edge a b

theorem mem_descendants (closed : g.Closed) {a b : NodeId} :
    b ∈ g.descendants a ↔ Relation.TransGen g.Edge a b := by
  classical
  rw [descendants, Finset.mem_filter, Finset.mem_range]
  refine and_iff_right_of_imp fun path => ?_
  obtain ⟨c, -, edge⟩ := Relation.TransGen.tail'_iff.mp path
  exact closed.lt_size edge

/-- Where no node depends on itself, operands depend on fewer nodes. So the number
of these is a rank. -/
theorem Closed.acyclic (closed : g.Closed) (irrefl : ∀ a, ¬ Relation.TransGen g.Edge a a) :
    g.Acyclic := by
  refine ⟨fun a => (g.descendants a).card, fun a b edge => Finset.card_lt_card ?_⟩
  have edge : g.Edge a b := edge
  refine Finset.ssubset_iff_of_subset (fun c hc => ?_) |>.mpr ⟨b, ?_, ?_⟩
  · exact (mem_descendants closed).mpr (.head edge ((mem_descendants closed).mp hc))
  · exact (mem_descendants closed).mpr (.single edge)
  · exact fun hb => irrefl b ((mem_descendants closed).mp hb)

theorem Ranked.lt_of_transGen {rank : NodeId → Nat} (ranked : g.Ranked rank) {a b : NodeId}
    (path : Relation.TransGen g.Edge a b) : rank b < rank a := by
  induction path with
  | single edge => exact ranked _ _ edge
  | tail _ edge ih => exact Nat.lt_trans (ranked _ _ edge) ih

theorem Ranked.irrefl {rank : NodeId → Nat} (ranked : g.Ranked rank) (a : NodeId) :
    ¬ Relation.TransGen g.Edge a a :=
  fun path => Nat.lt_irrefl _ (ranked.lt_of_transGen path)

/-! ## What the search looks at -/

/-- Two graphs of one size in which needed nodes have the same operands are
searched alike. -/
theorem visit_congr (size : g'.size = g.size)
    (same : ∀ a, g.Needed a → g'.inputs a = g.inputs a) {seen order : List NodeId}
    {stack : List Step} (needed : ∀ s ∈ stack, g.Needed s.node) :
    visit g' seen order stack = visit g seen order stack := by
  fun_induction visit g seen order stack with
  | case1 seen order => rw [visit]
  | case2 seen order id stack ih =>
    rw [visit]
    exact ih fun s hs => needed s (List.mem_cons_of_mem _ hs)
  | case3 seen order id stack out => rw [visit, dif_pos (size ▸ out), size]
  | case4 seen order id stack inside old ih =>
    rw [visit, dif_neg (size ▸ inside), dif_pos old]
    exact ih fun s hs => needed s (List.mem_cons_of_mem _ hs)
  | case5 seen order id stack inside new ih =>
    have first : g.Needed id := needed (.enter id) List.mem_cons_self
    rw [visit, dif_neg (size ▸ inside), dif_neg new, same id first]
    exact ih (needed_enter needed)

theorem order_congr (size : g'.size = g.size) (results : g'.results = g.results)
    (same : ∀ a, g.Needed a → g'.inputs a = g.inputs a) : g'.order = g.order := by
  rw [order, results]
  refine visit_congr size same fun s hs => ?_
  obtain ⟨r, hr, rfl⟩ := List.mem_map.mp hs
  exact .of_result hr

/-! ## What pruning does -/

/-- What is live, no parameter and outside a list is retired and counted. All else
stays as it was, the order of evaluation with it. -/
structure Prunes (g : Graph) (kept : List NodeId) (count : Nat) (g' : Graph) : Prop where
  node? : ∀ i, g'.node? i =
    if g.isLive i = true ∧ i ∉ g.parameters ∧ i ∉ kept then none else g.node? i
  counted : ∃ gone : List NodeId, gone.Nodup ∧ gone.length = count ∧
    ∀ i, i ∈ gone ↔ g.isLive i = true ∧ i ∉ g.parameters ∧ i ∉ kept
  results : g'.results = g.results
  parameters : g'.parameters = g.parameters
  size : g'.size = g.size
  order : g'.order = g.order

theorem IsOrder.spare_iff (order : g.IsOrder kept) {i : NodeId} :
    g.Spare i ↔ g.isLive i = true ∧ i ∉ g.parameters ∧ i ∉ kept := by
  rw [Spare, order.mem_iff]

/-- Pruning a graph that has an order of evaluation. -/
theorem IsOrder.prunes (order : g.IsOrder kept) (eq : g.order = .ok kept) :
    ∃ count g', prune.run g = .ok (count, g') ∧ g.Prunes kept count g' := by
  have dead : ∀ i, i ∈ g.deadNodes kept ↔ g.isLive i = true ∧ i ∉ g.parameters ∧ i ∉ kept :=
    fun i => (mem_deadNodes_iff order).trans order.spare_iff
  have apart : ∀ i ∈ g.deadNodes kept, i ∉ g.parameters := fun i hi => ((dead i).mp hi).2.1
  have node? := node?_foldl_retire _ apart
  obtain ⟨results, parameters, size⟩ := foldl_retire (g := g) (g.deadNodes kept)
  refine ⟨_, _, prune_run_eq eq, {
    node? := fun i => ?_
    counted := ⟨g.deadNodes kept, nodup_deadNodes g kept, rfl, dead⟩
    results, parameters, size
    order := order_congr size results fun a needed => ?_ }⟩
  · simp only [node?, dead]
  · have listed : a ∉ g.deadNodes kept := fun mem =>
      ((dead a).mp mem).2.2 ((order.mem_iff a).mpr needed)
    rw [inputs, node?, if_neg listed, inputs]

/-- The order of evaluation and what pruning leaves, in every closed graph where
no node depends on itself. -/
theorem order_prunes (closed : g.Closed) (irrefl : ∀ a, ¬ Relation.TransGen g.Edge a a) :
    ∃ ids, g.order = .ok ids ∧ g.IsOrder ids ∧
      ∃ count g', prune.run g = .ok (count, g') ∧ g.Prunes ids count g' := by
  obtain ⟨ids, eq, order⟩ := order_isOrder closed (closed.acyclic irrefl)
  exact ⟨ids, eq, order, order.prunes eq⟩

/-- A sum of a parameter with itself, used by a product and by a rescaling that no
result needs; the product is a result twice, and there is a second parameter that
nothing uses. -/
def shared : Graph where
  nodes := [⟨.parameter 0, ⟨.f32, [4]⟩, [], 1⟩, ⟨.parameter 1, ⟨.f32, [4]⟩, [], 1⟩,
    ⟨.add, ⟨.f32, [4]⟩, [0, 0], 1⟩, ⟨.rescale, ⟨.f32, [4]⟩, [2], 1⟩,
    ⟨.multiply, ⟨.f32, [4]⟩, [2, 0], 1⟩].map some
  parameters := [0, 1]
  results := [4, 2, 4]

theorem inputs_shared {a i : NodeId} (h : i ∈ shared.inputs a) : (i = 0 ∨ i = 2) ∧ i < a := by
  match a with
  | 0 | 1 => exact nomatch h
  | 2 | 3 | 4 =>
    revert i
    decide
  | a + 5 => exact nomatch h

theorem spare_shared (i : NodeId) :
    (shared.isLive i = true ∧ i ∉ shared.parameters ∧ i ∉ [0, 2, 4]) ↔ i = 3 := by
  match i with
  | 0 | 1 | 2 | 3 | 4 => decide
  | i + 5 => exact iff_of_false (fun h => nomatch h.1) (by simp)

/-- The product is listed once, after the sum; the rescaling is retired, but not the
parameter that nothing uses. -/
theorem order_prunes_shared :
    (shared.Closed ∧ ∀ a, ¬ Relation.TransGen shared.Edge a a) ∧
      shared.order = .ok [0, 2, 4] ∧
      ∃ g', prune.run shared = .ok (1, g') ∧ g'.node? 3 = none ∧
        g'.node? 1 = shared.node? 1 ∧ g'.order = .ok [0, 2, 4] := by
  have closed : shared.Closed := by
    refine ⟨fun a i h => ?_, by decide⟩
    rcases (inputs_shared h).1 with rfl | rfl <;> rfl
  have ranked : shared.Ranked id := fun a b h => (inputs_shared h).2
  have listed : shared.order = .ok [0, 2, 4] := by
    simp [order, visit, shared, size, inputs, node?]
  obtain ⟨ids, eq, -, count, g', run, prunes⟩ := order_prunes closed ranked.irrefl
  obtain rfl := Except.ok.inj (listed.symm.trans eq)
  obtain ⟨gone, nodup, rfl, mem⟩ := prunes.counted
  have one : gone.Perm [3] := (List.perm_ext_iff_of_nodup nodup (List.nodup_singleton 3)).mpr
    fun i => ((mem i).trans (spare_shared i)).trans List.mem_singleton.symm
  rw [one.length_eq] at run
  refine ⟨⟨closed, ranked.irrefl⟩, listed, g', run, ?_, ?_, prunes.order.trans listed⟩
  · exact (prunes.node? 3).trans (if_pos (by decide))
  · exact (prunes.node? 1).trans (if_neg (by decide))

end CipherFlow.Graph
