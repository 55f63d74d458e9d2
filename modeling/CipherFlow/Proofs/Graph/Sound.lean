import CipherFlow.Graph.Builder
import CipherFlow.Proofs.Graph.Order

/-!
# Sound graphs

A graph is sound if every node has the type that its operands give it, the
results are live, each parameter is in its place, and no node depends on
itself. Graphs that are made with the building functions are sound. That
operands are live need not be asked for: an operand has a type, so it is
live.

Editing does not need the types. What it needs is `Regular`, which every sound graph
is (`Sound.regular`), and which graphs with foreign nodes may be, too. Main lemmas:
`Sound.order`, `Regular.push` and `Sound.push`.
-/

namespace CipherFlow

/-- The type that an operation gives to operands of given types. -/
def Op.Gives : Op → List TensorType → TensorType → Prop
  | .parameter _, [], _ => True
  | .constant values, [], t => values.length = t.shape.size
  | .broadcast, [a], t => a.broadcast t.shape = .ok t
  | .add, [a, b], t => TensorType.elementwise .add a b = .ok t
  | .multiply, [a, b], t => TensorType.elementwise .multiply a b = .ok t
  | .minimum, [a, b], t => TensorType.elementwise .minimum a b = .ok t
  | .dot, [a, b], t => TensorType.dot a b = .ok t
  | .convolution strides, [a, b], t => TensorType.convolution strides a b = .ok t
  | .averagePool window strides, [a], t => TensorType.averagePool window strides a = .ok t
  | .relu, [a], t => t = a
  | .boundedRelu _, [a], t => t = a
  | .rescale, [a], t => t = a
  | _, _, _ => False

/-- Operations of one operand, whose type they keep. -/
def OpKind.keepsType : OpKind → Bool
  | .relu | .boundedRelu | .rescale => true
  | _ => false

namespace Graph

variable {g : Graph} {id : NodeId} {n : Node}

/-- The type of a live node. -/
def type? (g : Graph) (id : NodeId) : Option TensorType :=
  (g.node? id).map Node.type

/-- A node of one value, of the type that its operands give it. -/
structure WellTyped (g : Graph) (n : Node) : Prop where
  outputs : n.outputs = 1
  types : ∃ ts, n.inputs.map g.type? = ts.map some ∧ n.op.Gives ts n.type

/-- The invariant of graphs. -/
structure Sound (g : Graph) : Prop where
  typed : ∀ id n, g.node? id = some n → g.WellTyped n
  results : ∀ r ∈ g.results, g.isLive r = true
  parameters : ∀ i id, g.parameters[i]? = some id →
    ∃ t, g.node? id = some ⟨.parameter i, t, [], 1⟩
  acyclic : g.Acyclic

/-- What editing rests on, whatever the types are. Graphs with foreign nodes
have this much, too. -/
structure Regular (g : Graph) : Prop where
  closed : g.Closed
  acyclic : g.Acyclic
  parameters : ∀ p ∈ g.parameters, g.kind? p = some .parameter
  rescale : ∀ id, g.kind? id = some .rescale → ∃ x, g.inputs id = [x]

theorem type?_of_node? (h : g.node? id = some n) : g.type? id = some n.type := by
  simp [type?, h]

theorem type?_eq_some {t : TensorType} :
    g.type? id = some t ↔ ∃ n, g.node? id = some n ∧ n.type = t := by
  simp [type?]

theorem isLive_of_type? {t : TensorType} (h : g.type? id = some t) : g.isLive id = true := by
  obtain ⟨n, hn, -⟩ := type?_eq_some.mp h
  exact isLive_of_node? hn

/-- An operand of a typed node has a type. -/
theorem WellTyped.live_input (h : g.WellTyped n) {i : NodeId} (hi : i ∈ n.inputs) :
    g.isLive i = true := by
  obtain ⟨ts, types, -⟩ := h.types
  have mem : g.type? i ∈ ts.map some := types ▸ List.mem_map_of_mem hi
  obtain ⟨t, -, ht⟩ := List.mem_map.mp mem
  exact isLive_of_type? ht.symm

theorem Sound.closed (h : g.Sound) : g.Closed where
  results := h.results
  inputs := by
    intro a i hi
    obtain ⟨n, hn, hi⟩ := mem_inputs.mp hi
    exact (h.typed a n hn).live_input hi

/-! ## Operands by kind -/

theorem gives_of_keepsType {op : Op} {ts : List TensorType} {t : TensorType}
    (k : op.kind.keepsType = true) (h : op.Gives ts t) : ts = [t] := by
  cases op <;> simp only [Op.kind, OpKind.keepsType, Bool.false_eq_true] at k
  all_goals
    rcases ts with _ | ⟨a, _ | ⟨b, ts⟩⟩ <;> simp only [Op.Gives] at h
    rw [h]

theorem eq_of_elementwise {kind : OpKind} {a b t : TensorType}
    (h : TensorType.elementwise kind a b = .ok t) : a = t ∧ b = t := by
  obtain ⟨ea, sa⟩ := a
  obtain ⟨eb, sb⟩ := b
  unfold TensorType.elementwise TensorType.checkElementType at h
  by_cases he : ea = eb
  · by_cases hs : sa = sb
    · subst he hs
      simpa [bind, Except.bind, pure, Except.pure] using h
    · simp [he, hs, bind, Except.bind, throw, throwThe, MonadExceptOf.throw] at h
  · simp [he, bind, Except.bind] at h

theorem gives_of_minimum {op : Op} {ts : List TensorType} {t : TensorType}
    (k : op.kind = .minimum) (h : op.Gives ts t) : ts = [t, t] := by
  cases op <;> simp only [Op.kind, reduceCtorEq] at k
  rcases ts with _ | ⟨a, _ | ⟨b, _ | ⟨c, ts⟩⟩⟩ <;> simp only [Op.Gives] at h
  obtain ⟨rfl, rfl⟩ := eq_of_elementwise h
  rfl

theorem gives_of_isProduct {op : Op} {ts : List TensorType} {t : TensorType}
    (k : op.kind.isProduct = true) (h : op.Gives ts t) : ∃ a b, ts = [a, b] := by
  cases op <;> simp only [Op.kind, OpKind.isProduct, Bool.false_eq_true] at k
  all_goals
    rcases ts with _ | ⟨a, _ | ⟨b, _ | ⟨c, ts⟩⟩⟩ <;> simp only [Op.Gives] at h
    exact ⟨a, b, rfl⟩

theorem gives_of_broadcast {op : Op} {ts : List TensorType} {t : TensorType}
    (k : op.kind = .broadcast) (h : op.Gives ts t) :
    ∃ a, ts = [a] ∧ a.broadcast t.shape = .ok t := by
  cases op <;> simp only [Op.kind, reduceCtorEq] at k
  rcases ts with _ | ⟨a, _ | ⟨b, ts⟩⟩ <;> simp only [Op.Gives] at h
  exact ⟨a, rfl, h⟩

/-- An operation that keeps the type has one operand, of its own type. -/
theorem WellTyped.keeps (h : g.WellTyped n) (k : n.kind.keepsType = true) :
    ∃ x, n.inputs = [x] ∧ g.type? x = some n.type := by
  obtain ⟨ts, types, gives⟩ := h.types
  rw [gives_of_keepsType k gives, List.map_singleton] at types
  obtain ⟨x, eq, hx⟩ := List.map_eq_singleton_iff.mp types
  exact ⟨x, eq, hx⟩

/-- A minimum has two operands of its own type. -/
theorem WellTyped.minimum (h : g.WellTyped n) (k : n.kind = .minimum) :
    ∃ a b, n.inputs = [a, b] ∧ g.type? a = some n.type ∧ g.type? b = some n.type := by
  obtain ⟨ts, types, gives⟩ := h.types
  rw [gives_of_minimum k gives] at types
  obtain ⟨a, rest, eq, ha, hrest⟩ := List.map_eq_cons_iff.mp types
  obtain ⟨b, rfl, hb⟩ := List.map_eq_singleton_iff.mp hrest
  exact ⟨a, b, eq, ha, hb⟩

/-- A product has two operands. -/
theorem WellTyped.product (h : g.WellTyped n) (k : n.kind.isProduct = true) :
    ∃ a b, n.inputs = [a, b] := by
  obtain ⟨ts, types, gives⟩ := h.types
  obtain ⟨ta, tb, rfl⟩ := gives_of_isProduct k gives
  obtain ⟨a, rest, eq, -, hrest⟩ := List.map_eq_cons_iff.mp types
  obtain ⟨b, rfl, -⟩ := List.map_eq_singleton_iff.mp hrest
  exact ⟨a, b, eq⟩

/-- A repetition has one operand, which can be repeated to its shape. -/
theorem WellTyped.broadcast (h : g.WellTyped n) (k : n.kind = .broadcast) :
    ∃ x t, n.inputs = [x] ∧ g.type? x = some t ∧ t.broadcast n.type.shape = .ok n.type := by
  obtain ⟨ts, types, gives⟩ := h.types
  obtain ⟨t, rfl, ht⟩ := gives_of_broadcast k gives
  obtain ⟨x, eq, hx⟩ := List.map_eq_singleton_iff.mp types
  exact ⟨x, t, eq, hx, ht⟩

/-- A constant has no operands. -/
theorem WellTyped.constant (h : g.WellTyped n) {values : List Float}
    (op : n.op = .constant values) : n = ⟨.constant values, n.type, [], 1⟩ := by
  obtain ⟨_, type, inputs, _⟩ := n
  obtain ⟨ts, types, gives⟩ := h.types
  obtain rfl := h.outputs
  obtain rfl : _ = Op.constant values := op
  cases ts with
  | nil =>
    obtain rfl : inputs = [] := List.map_eq_nil_iff.mp types
    rfl
  | cons t ts => exact gives.elim

/-! ## Regular graphs -/

/-- A parameter is not a node of any other operation. -/
theorem Regular.notMem_parameters (h : g.Regular) (hn : g.node? id = some n)
    (kind : n.kind ≠ .parameter) : id ∉ g.parameters :=
  fun mem => kind (Option.some.inj ((kind?_of_node? hn).symm.trans (h.parameters id mem)))

theorem Sound.node?_parameter (h : g.Sound) (mem : id ∈ g.parameters) :
    ∃ i t, g.node? id = some ⟨.parameter i, t, [], 1⟩ := by
  obtain ⟨i, lt, eq⟩ := List.mem_iff_getElem.mp mem
  exact ⟨i, h.parameters i id (by rw [List.getElem?_eq_getElem lt, eq])⟩

theorem Sound.inputs_parameter (h : g.Sound) (mem : id ∈ g.parameters) : g.inputs id = [] := by
  obtain ⟨i, t, ht⟩ := h.node?_parameter mem
  exact inputs_of_node? ht

theorem Sound.regular (h : g.Sound) : g.Regular where
  closed := h.closed
  acyclic := h.acyclic
  parameters := by
    intro id mem
    obtain ⟨i, t, ht⟩ := h.node?_parameter mem
    exact kind?_of_node? ht
  rescale := by
    intro id hk
    obtain ⟨n, hn, kind⟩ := kind?_eq_some.mp hk
    obtain ⟨x, eq, -⟩ := (h.typed id n hn).keeps (by rw [kind]; rfl)
    exact ⟨x, (inputs_of_node? hn).trans eq⟩

/-- The order of evaluation exists. -/
theorem Regular.order (h : g.Regular) : ∃ ids, g.order = .ok ids ∧ g.IsOrder ids :=
  order_isOrder h.closed h.acyclic

theorem Sound.order (h : g.Sound) : ∃ ids, g.order = .ok ids ∧ g.IsOrder ids :=
  h.regular.order

theorem Sound.notMem_parameters (h : g.Sound) (hn : g.node? id = some n)
    (kind : n.kind ≠ .parameter) : id ∉ g.parameters :=
  h.regular.notMem_parameters hn kind

/-! ## Appending a node -/

/-- A typed node stays typed where its operands keep their types. -/
theorem WellTyped.mono {g' : Graph} (h : g.WellTyped n)
    (types : ∀ i ∈ n.inputs, ∀ t, g.type? i = some t → g'.type? i = some t) :
    g'.WellTyped n where
  outputs := h.outputs
  types := by
    obtain ⟨ts, eq, gives⟩ := h.types
    refine ⟨ts, ?_, gives⟩
    rw [← eq]
    refine List.map_congr_left ?_
    intro i hi
    obtain ⟨m, hm⟩ := isLive_iff.mp (h.live_input hi)
    rw [type?_of_node? hm]
    exact types i hi _ (type?_of_node? hm)

theorem type?_push_of_some {t : TensorType} (n : Node) {i : NodeId} (h : g.type? i = some t) :
    (g.push n).2.type? i = some t := by
  obtain ⟨m, hm, rfl⟩ := type?_eq_some.mp h
  exact type?_of_node? (node?_push_of_some n hm)

theorem inputs_push_of_ne (n : Node) {i : NodeId} (ne : i ≠ g.size) :
    (g.push n).2.inputs i = g.inputs i := by
  simp only [inputs, node?_push_of_ne n ne]

/-- A node that has just been appended is not needed. -/
theorem needed_of_push (closed : g.Closed) (h : (g.push n).2.Needed id) : g.Needed id := by
  refine Needed.induction (g := (g.push n).2) (P := g.Needed) (fun r hr => .of_result hr) ?_ h
  intro a ha b hb
  obtain ⟨m, hm⟩ := isLive_iff.mp (closed.isLive_of_needed ha)
  rw [inputs_push_of_ne n (Nat.ne_of_lt (lt_size_of_node? hm))] at hb
  exact ha.tail hb

theorem exists_rank_bound (rank : NodeId → Nat) (ids : List NodeId) :
    ∃ bound, ∀ i ∈ ids, rank i < bound := by
  induction ids with
  | nil => exact ⟨0, by simp⟩
  | cons id ids ih =>
    obtain ⟨bound, le⟩ := ih
    refine ⟨max bound (rank id + 1), ?_⟩
    intro i hi
    rcases List.mem_cons.mp hi with rfl | hi
    · exact Nat.le_max_right _ _
    · exact Nat.lt_of_lt_of_le (le i hi) (Nat.le_max_left _ _)

/-- A new node ranks above its operands. -/
theorem Acyclic.push (closed : g.Closed) (acyclic : g.Acyclic)
    (live : ∀ i ∈ n.inputs, g.isLive i = true) : (g.push n).2.Acyclic := by
  obtain ⟨rank, ranked⟩ := acyclic
  obtain ⟨bound, lt⟩ := exists_rank_bound rank n.inputs
  have old : ∀ i, g.isLive i = true → i ≠ g.size := by
    intro i hi
    obtain ⟨m, hm⟩ := isLive_iff.mp hi
    exact Nat.ne_of_lt (lt_size_of_node? hm)
  refine ⟨fun i => if i = g.size then bound else rank i, ?_⟩
  intro a i hi
  by_cases eq : a = g.size
  · subst eq
    have hi : i ∈ n.inputs := by simpa [inputs, node?_push_size] using hi
    simpa [old i (live i hi)] using lt i hi
  · rw [inputs_push_of_ne n eq] at hi
    simpa [eq, old i (closed.inputs a i hi)] using ranked a i hi

theorem isLive_push_of_isLive (n : Node) {i : NodeId} (h : g.isLive i = true) :
    (g.push n).2.isLive i = true := by
  obtain ⟨m, hm⟩ := isLive_iff.mp h
  exact isLive_of_node? (node?_push_of_some n hm)

/-- A node with live operands may be appended to a regular graph. -/
theorem Regular.push (h : g.Regular) (live : ∀ i ∈ n.inputs, g.isLive i = true)
    (rescale : n.kind = .rescale → ∃ x, n.inputs = [x]) : (g.push n).2.Regular where
  closed := by
    refine ⟨fun a i hi => isLive_push_of_isLive n ?_, fun r hr => ?_⟩
    · by_cases new : a = g.size
      · subst new
        exact live i (by rwa [inputs_of_node? (node?_push_size n)] at hi)
      · exact h.closed.inputs a i (by rwa [inputs_push_of_ne n new] at hi)
    · exact isLive_push_of_isLive n (h.closed.results r hr)
  acyclic := h.acyclic.push h.closed live
  parameters := fun p hp => kind?_push_of_some n (h.parameters p hp)
  rescale := by
    intro id hk
    by_cases new : id = g.size
    · subst new
      rw [kind?_of_node? (node?_push_size n)] at hk
      rw [inputs_of_node? (node?_push_size n)]
      exact rescale (Option.some.inj hk)
    · rw [Graph.kind?, node?_push_of_ne n new] at hk
      rw [inputs_push_of_ne n new]
      exact h.rescale id hk

/-- A typed node may be appended to a sound graph. -/
theorem Sound.push (h : g.Sound) (typed : g.WellTyped n) : (g.push n).2.Sound where
  typed := by
    intro i m hm
    rw [node?_push] at hm
    split at hm
    · obtain rfl := Option.some.inj hm
      exact typed.mono fun _ _ _ => type?_push_of_some n
    · exact (h.typed i m hm).mono fun _ _ _ => type?_push_of_some n
  results := fun r hr => isLive_push_of_isLive n (h.results r hr)
  parameters := by
    intro i id hi
    obtain ⟨t, ht⟩ := h.parameters i id hi
    exact ⟨t, node?_push_of_some n ht⟩
  acyclic := h.acyclic.push h.closed fun _ hi => typed.live_input hi

end Graph

end CipherFlow
