import CipherFlow.Graph.Edit

/-!
# The table of nodes

What each change of a graph does to the node of an identifier. Two views of a
graph carry all later proofs: `node?`, the node of an identifier, and
`inputs`, its operands. Consumers and live nodes are read off these two, so
no other module looks at the table itself.
-/

namespace CipherFlow.Graph

variable {g : Graph} {id : NodeId} {n : Node}

/-! ## Live nodes -/

theorem lt_size_of_node? (h : g.node? id = some n) : id < g.size := by
  by_cases lt : id < g.nodes.length
  · exact lt
  · simp [node?, List.getElem?_eq_none (Nat.not_lt.mp lt)] at h

theorem node?_eq_none_of_size_le (h : g.size ≤ id) : g.node? id = none := by
  simp [node?, List.getElem?_eq_none h]

theorem isLive_iff : g.isLive id = true ↔ ∃ n, g.node? id = some n := by
  simp [isLive, Option.isSome_iff_exists]

theorem isLive_of_node? (h : g.node? id = some n) : g.isLive id = true :=
  isLive_iff.mpr ⟨n, h⟩

theorem node_ok (h : g.node? id = some n) : g.node id = .ok n := by
  simp [node, h]

theorem node?_of_node (h : g.node id = .ok n) : g.node? id = some n := by
  unfold node at h
  cases hn : g.node? id with
  | none => simp [hn] at h
  | some m => simpa [hn] using h

theorem kind?_of_node? (h : g.node? id = some n) : g.kind? id = some n.kind := by
  simp [kind?, h]

theorem kind?_eq_some {k : OpKind} :
    g.kind? id = some k ↔ ∃ n, g.node? id = some n ∧ n.kind = k := by
  simp [kind?]

theorem inputs_of_node? (h : g.node? id = some n) : g.inputs id = n.inputs := by
  simp [inputs, h]

/-- Only live nodes have operands. -/
theorem mem_inputs {i : NodeId} :
    i ∈ g.inputs id ↔ ∃ n, g.node? id = some n ∧ i ∈ n.inputs := by
  unfold inputs
  cases g.node? id <;> simp

theorem isResult_eq_false : g.isResult id = false ↔ id ∉ g.results := by
  simp [isResult]

theorem mem_live : (id, n) ∈ g.live ↔ g.node? id = some n := by
  simp only [live, List.mem_filterMap, Prod.exists, Option.map_eq_some_iff, Prod.mk.injEq]
  constructor
  · rintro ⟨slot, i, mem, m, rfl, rfl, rfl⟩
    have h := List.mk_mem_zipIdx_iff_getElem?.mp mem
    simp [node?, h]
  · intro h
    refine ⟨some n, id, List.mk_mem_zipIdx_iff_getElem?.mpr ?_, n, rfl, rfl, rfl⟩
    simpa [node?, Option.join_eq_some_iff] using h

/-! ## Consumers -/

theorem mem_consumers {c : NodeId} : c ∈ g.consumers id ↔ id ∈ g.inputs c := by
  simp [consumers, mem_inputs, mem_live]

/-- The live nodes are listed in the order of the table, each once. -/
theorem pairwise_live : g.live.Pairwise fun a b => a.1 < b.1 := by
  have order : (g.nodes.zipIdx.map Prod.snd).Pairwise (· < ·) := by
    rw [List.zipIdx_map_snd]
    exact List.pairwise_lt_range'
  rw [List.pairwise_map] at order
  unfold live
  rw [List.pairwise_filterMap]
  refine order.imp ?_
  rintro ⟨slot, i⟩ ⟨slot', j⟩ lt x hx y hy
  obtain ⟨m, -, rfl⟩ := Option.map_eq_some_iff.mp hx
  obtain ⟨m', -, rfl⟩ := Option.map_eq_some_iff.mp hy
  exact lt

theorem nodup_consumers : (g.consumers id).Nodup := by
  unfold consumers List.Nodup
  rw [List.pairwise_map]
  exact (pairwise_live.filter _).imp Nat.ne_of_lt

/-- A node with one consumer, in terms of operands. -/
theorem consumers_eq_singleton {k : NodeId} :
    g.consumers id = [k] ↔ ∀ c, id ∈ g.inputs c ↔ c = k := by
  constructor
  · intro h c
    rw [← mem_consumers, h, List.mem_singleton]
  · intro h
    have mem : ∀ c, c ∈ g.consumers id ↔ c = k := fun c => mem_consumers.trans (h c)
    have nodup : (g.consumers id).Nodup := nodup_consumers
    -- Consumers are listed once, so there cannot be two of them that are equal.
    match eq : g.consumers id with
    | [] => simpa [eq] using mem k
    | [c] => rw [(mem c).mp (by simp [eq])]
    | c :: d :: rest =>
      rw [eq] at nodup
      have hc := (mem c).mp (by simp [eq])
      have hd := (mem d).mp (by simp [eq])
      simp [hc, hd] at nodup

/-! ## Appending

A new node gets the first identifier that has not been used. All other nodes stay. -/

theorem node?_push (n : Node) (i : NodeId) :
    (g.push n).2.node? i = if i = g.size then some n else g.node? i := by
  by_cases lt : i < g.nodes.length
  · have ne : i ≠ g.size := Nat.ne_of_lt lt
    simp [push, node?, List.getElem?_append_left lt, ne]
  · by_cases eq : i = g.size
    · subst eq
      simp [push, node?, size]
    · have le : g.nodes.length ≤ i := Nat.not_lt.mp lt
      have gt : g.nodes.length + 1 ≤ i := Nat.lt_of_le_of_ne le (Ne.symm eq)
      have out : g.nodes[i]? = none := List.getElem?_eq_none le
      have out' : (g.nodes ++ [some n])[i]? = none :=
        List.getElem?_eq_none (by simpa using gt)
      simp [push, node?, eq, out, out']

theorem node?_push_of_ne (n : Node) {i : NodeId} (ne : i ≠ g.size) :
    (g.push n).2.node? i = g.node? i := by
  rw [node?_push, if_neg ne]

theorem node?_push_size (n : Node) : (g.push n).2.node? g.size = some n := by
  rw [node?_push, if_pos rfl]

@[simp] theorem size_push (n : Node) : (g.push n).2.size = g.size + 1 := by
  simp [push, size]

@[simp] theorem parameters_push (n : Node) : (g.push n).2.parameters = g.parameters := rfl

@[simp] theorem results_push (n : Node) : (g.push n).2.results = g.results := rfl

/-- A live node keeps its place when another is appended. -/
theorem node?_push_of_some {m : Node} (n : Node) {i : NodeId} (h : g.node? i = some m) :
    (g.push n).2.node? i = some m := by
  rw [node?_push_of_ne n (Nat.ne_of_lt (lt_size_of_node? h)), h]

theorem kind?_push_of_some {kind : OpKind} (n : Node) {i : NodeId} (h : g.kind? i = some kind) :
    (g.push n).2.kind? i = some kind := by
  obtain ⟨m, hm, rfl⟩ := kind?_eq_some.mp h
  exact kind?_of_node? (node?_push_of_some n hm)

theorem inputs_push_of_kind {kind : OpKind} (n : Node) {i : NodeId} (h : g.kind? i = some kind) :
    (g.push n).2.inputs i = g.inputs i := by
  obtain ⟨m, hm, -⟩ := kind?_eq_some.mp h
  rw [inputs_of_node? hm, inputs_of_node? (node?_push_of_some n hm)]

/-! ## Redirecting

Operands are renamed in all nodes but a few, and among the results. -/

theorem node?_redirectUses (old new : NodeId) (except : List NodeId) (i : NodeId) :
    (g.redirectUses old new except).node? i =
      if i ∈ except then g.node? i else (g.node? i).map (Node.redirect old new) := by
  simp only [redirectUses, node?, List.getElem?_mapIdx]
  cases g.nodes[i]? with
  | none => simp
  | some slot => by_cases mem : i ∈ except <;> cases slot <;> simp [mem]

@[simp] theorem size_redirectUses (old new : NodeId) (except : List NodeId) :
    (g.redirectUses old new except).size = g.size := by
  simp [redirectUses, size]

@[simp] theorem parameters_redirectUses (old new : NodeId) (except : List NodeId) :
    (g.redirectUses old new except).parameters = g.parameters := rfl

theorem results_redirectUses (old new : NodeId) (except : List NodeId) :
    (g.redirectUses old new except).results =
      g.results.map fun r => if r = old then new else r := rfl

/-- The table with another node at a place. -/
theorem node?_set (m : Node) {i j : NodeId} (lt : i < g.size) :
    ({ g with nodes := g.nodes.set i (some m) } : Graph).node? j =
      if j = i then some m else g.node? j := by
  simp only [node?, List.getElem?_set]
  by_cases eq : i = j
  · subst eq
    have lt : i < g.nodes.length := lt
    simp [lt]
  · simp [eq, Ne.symm eq]

/-! ## Retiring

The place of a retired node stays behind, so that no identifier is used again. -/

/-- A parameter stays. -/
theorem retire_of_mem (mem : id ∈ g.parameters) : g.retire id = g :=
  if_pos (by simpa using mem)

theorem node?_retire (notParameter : id ∉ g.parameters) (i : NodeId) :
    (g.retire id).node? i = if i = id then none else g.node? i := by
  have h : g.parameters.contains id = false := by simpa using notParameter
  simp only [retire, h, node?, List.getElem?_set, Bool.false_eq_true, if_false]
  by_cases eq : id = i
  · subst eq
    by_cases lt : id < g.nodes.length <;> simp [lt]
  · simp [eq, Ne.symm eq]

@[simp] theorem size_retire : (g.retire id).size = g.size := by
  unfold retire
  split <;> simp [size]

@[simp] theorem parameters_retire : (g.retire id).parameters = g.parameters := by
  unfold retire
  split <;> rfl

@[simp] theorem results_retire : (g.retire id).results = g.results := by
  unfold retire
  split <;> rfl

end CipherFlow.Graph
