import CipherFlow.Proofs.Graph.Foreign
import CipherFlow.Proofs.Normalize.Placement

/-!
# The insertion pass

The pass walks along the order of evaluation and settles the products that it
meets. It asks of the nodes that multiply that they have one value, and fails
at the first that has not, which can only be a foreign node. A product that a
rescaling used already gets no further one. Types do not matter here: the pass
does the same on any regular graph.

`insertRescales_settles` is the answer in both cases, with what the graph has become
and with the second run, which finds nothing.

How the proof goes. `Inserting` is the invariant between two nodes of the walk:
products met so far are settled, and products to come are used as they were at the
start. The second half is what makes the step work, for a product that is met may be
an operand of others (`Inserting.place`). From the step `insert_step` the walk is an
induction along the order (`insert_pass`), and pruning the result gives `Inserted`.
-/

namespace CipherFlow

/-- Kinds of operations that multiply: products, and averages, which multiply
by a constant. -/
def OpKind.multiplies : OpKind → Bool
  | .multiply | .dot | .convolution | .averagePool => true
  | _ => false

theorem OpKind.multiplies_of_isProduct {kind : OpKind} (h : kind.isProduct = true) :
    kind.multiplies = true := by
  cases kind <;> first | rfl | exact nomatch h

namespace Graph

variable {g g' h h' : Graph} {p q k id : NodeId} {n : Node} {met coming ids : List NodeId}

/-- Of the nodes that are needed, those that multiply have one value each. -/
def SingleValued (g : Graph) : Prop :=
  ∀ id n, g.Needed id → g.node? id = some n → n.kind.multiplies = true → n.outputs = 1

/-- A rescaling of another node stays one. -/
theorem Placing.rescales (placing : Placing p g g') (regular : g'.Regular) (hq : g.NoRescale q)
    (ne : q ≠ p) (hk : g.Rescales k q) : g'.Rescales k q := by
  have user : q ∈ g'.inputs k := (placing.uses q hq ne k).mpr hk.mem_inputs
  exact regular.rescales ((placing.edited.kind?_of_user hk.mem_inputs user).trans hk.kind) user

/-! ## The state of the pass -/

/-- The state of the pass between two nodes. -/
structure Inserting (g : Graph) (met : List NodeId) (h : Graph) : Prop where
  edited : Edited g h
  node : ∀ q n, n.kind ≠ .rescale → g.node? q = some n →
    ∃ inputs, h.node? q = some { n with inputs }
  single : ∀ q ∈ met, ∀ n, g.node? q = some n → n.kind.multiplies = true → n.outputs = 1
  settled : ∀ q ∈ met, g.IsProduct q → h.Settled q
  /-- What uses a node that has not been met is what used it before. -/
  uses : ∀ q, g.NoRescale q → q ∉ met → ∀ c, q ∈ h.inputs c ↔ q ∈ g.inputs c
  appended : ∀ k, g.size ≤ k → k < h.size → ∃ q ∈ met, g.IsProduct q ∧ g.Bare q ∧ h.Rescales k q

theorem inserting_start (g : Graph) : Inserting g [] g where
  edited := .refl g
  node _ n _ hn := ⟨n.inputs, hn⟩
  single _ mem := nomatch mem
  settled _ mem := nomatch mem
  uses _ _ _ _ := Iff.rfl
  appended _ le lt := absurd lt (Nat.not_lt.mpr le)

theorem Inserting.noRescale (here : Inserting g met h) (hq : g.NoRescale q) : h.NoRescale q := by
  obtain ⟨kind, hk, ne⟩ := hq
  obtain ⟨n, hn, rfl⟩ := kind?_eq_some.mp hk
  obtain ⟨inputs, hn'⟩ := here.node q n ne hn
  exact ⟨n.kind, (kind?_of_node? hn').trans rfl, ne⟩

/-- Products stay products. -/
theorem Inserting.isProduct (here : Inserting g met h) (hp : g.IsProduct p) :
    h.IsProduct p := by
  obtain ⟨kind, hk, product⟩ := hp
  obtain ⟨n, hn, rfl⟩ := kind?_eq_some.mp hk
  obtain ⟨inputs, kept⟩ := here.node p n
    (fun eq => by rw [eq] at product; exact nomatch product) hn
  exact ⟨n.kind, (kind?_of_node? kept).trans rfl, product⟩

/-- No product has come to be needed. -/
theorem Inserting.needed_of_isProduct (here : Inserting g met h) (regular : g.Regular)
    (needed : h.Needed p) (hp : h.IsProduct p) : g.Needed p := by
  obtain ⟨kind, hk, product⟩ := hp
  refine here.edited.needed_of_kind regular needed hk (Bool.eq_false_iff.mpr fun added => ?_)
  exact nomatch (OpKind.isProduct_of_isAdded added).symm.trans product

/-- A node of one value, or one that does not multiply, is met and left as it
is if it is no product. -/
theorem Inserting.skip (here : Inserting g met h) (hn : g.node? id = some n)
    (single : n.kind.multiplies = true → n.outputs = 1) (other : ¬ n.kind.isProduct = true) :
    Inserting g (met ++ [id]) h where
  edited := here.edited
  node := here.node
  single := by
    intro q mem m hm multiplies
    rcases List.mem_append.mp mem with mem | mem
    · exact here.single q mem m hm multiplies
    · rw [List.mem_singleton.mp mem, hn] at hm
      exact Option.some.inj hm ▸ single (Option.some.inj hm ▸ multiplies)
  settled := by
    rintro q mem ⟨kind, hk, product⟩
    rcases List.mem_append.mp mem with mem | mem
    · exact here.settled q mem ⟨kind, hk, product⟩
    · rw [List.mem_singleton.mp mem, kind?_of_node? hn] at hk
      exact absurd (Option.some.inj hk ▸ product) other
  uses q hq new := here.uses q hq fun mem => new (List.mem_append_left _ mem)
  appended k le lt := by
    obtain ⟨q, mem, rest⟩ := here.appended k le lt
    exact ⟨q, List.mem_append_left _ mem, rest⟩

/-- A product of one value is met and settled. -/
theorem Inserting.place (here : Inserting g met h) (regular : g.Regular) (new : id ∉ met)
    (hn : g.node? id = some n) (product : n.kind.isProduct = true) (single : n.outputs = 1)
    (placed : Placed id h h') : Inserting g (met ++ [id]) h' where
  edited := here.edited.trans placed.placing.edited
  node := by
    intro q m ne hm
    obtain ⟨inputs, hm⟩ := here.node q m ne hm
    exact placed.placing.node q { m with inputs } ne hm
  single := by
    intro q mem m hm multiplies
    rcases List.mem_append.mp mem with mem | mem
    · exact here.single q mem m hm multiplies
    · rw [List.mem_singleton.mp mem, hn] at hm
      exact Option.some.inj hm ▸ single
  settled := by
    intro q mem hq
    rcases List.mem_append.mp mem with mem | mem
    · exact placed.placing.settled (here.noRescale hq.noRescale) (ne_of_mem_of_not_mem mem new)
        (here.settled q mem hq)
    · rw [List.mem_singleton.mp mem]
      exact placed.settled
  uses := by
    intro q hq unmet c
    obtain ⟨unmet, ne⟩ : q ∉ met ∧ q ≠ id := by simpa using unmet
    exact (placed.placing.uses q (here.noRescale hq) ne c).trans (here.uses q hq unmet c)
  appended := by
    have regular' := placed.placing.edited.regular (here.edited.regular regular)
    have before : ∀ k, g.size ≤ k → k < h.size → ∃ q ∈ met ++ [id], g.IsProduct q ∧ g.Bare q ∧
        h'.Rescales k q := by
      intro k le lt
      obtain ⟨q, mem, hq, bare, hk⟩ := here.appended k le lt
      exact ⟨q, List.mem_append_left _ mem, hq, bare, placed.placing.rescales regular'
        (here.noRescale hq.noRescale) (ne_of_mem_of_not_mem mem new) hk⟩
    intro k le lt
    rcases placed.appended with size | ⟨size, rescales, bare⟩
    · exact before k le (size ▸ lt)
    · rcases Nat.lt_succ_iff_lt_or_eq.mp (size ▸ lt) with lt | rfl
      · exact before k le lt
      · have hp : g.IsProduct id := ⟨n.kind, kind?_of_node? hn, product⟩
        -- What used the product in the beginning uses it still, as it had not been met.
        refine ⟨id, by simp, hp, fun c user rescaling => ?_, rescales⟩
        have user' := (here.uses id hp.noRescale new c).mpr user
        exact bare c user' ((here.edited.kind?_of_user user user').trans rescaling)

end Graph

namespace Normalize

open CipherFlow.Graph

variable {g g' h : Graph} {p id : NodeId} {n : Node} {met coming ids : List NodeId}

/-! ## One node -/

theorem rescaleAt_dead (dead : g.node? p = none) :
    (rescaleAt p).run.run g = (.ok false, g) := by
  rw [rescaleAt, run_bind_ok (run_get g), Graph.kind?, dead]
  rfl

theorem rescaleAt_product (hn : g.node? p = some n) (product : n.kind.isProduct = true) :
    (rescaleAt p).run.run g = (ensureRescaleAfter p).run.run g := by
  rw [rescaleAt, run_bind_ok (run_get g), kind?_of_node? hn]
  cases kind : n.kind <;> rw [kind] at product <;> first | rfl | exact nomatch product

theorem rescaleAt_other (hn : g.node? p = some n)
    (single : n.kind.multiplies = true → n.outputs = 1) (other : ¬ n.kind.isProduct = true) :
    (rescaleAt p).run.run g = (.ok false, g) := by
  rw [rescaleAt, run_bind_ok (run_get g), kind?_of_node? hn]
  cases kind : n.kind with
  | averagePool => exact run_bind_ok (checkSingleOutput_run hn (single (by rw [kind]; rfl)))
  | multiply | dot | convolution => exact absurd (by rw [kind]; rfl) other
  | _ => rfl

/-- The error for a node that multiplies and has not one value. -/
def Refuses (g : Graph) (id : NodeId) (e : Error) : Prop :=
  ∃ n, g.node? id = some n ∧ n.kind.multiplies = true ∧ n.outputs ≠ 1 ∧
    e = .multipleOutputs id n.kind n.outputs

theorem rescaleAt_refused (hn : g.node? p = some n) (multiplies : n.kind.multiplies = true)
    (several : n.outputs ≠ 1) :
    (rescaleAt p).run.run g = (.error (.multipleOutputs p n.kind n.outputs), g) := by
  have refused : (checkSingleOutput p).run.run g =
      (.error (.multipleOutputs p n.kind n.outputs), g) := by
    rw [checkSingleOutput, run_bind_ok (node_run hn), if_pos several]
    rfl
  by_cases product : n.kind.isProduct = true
  · rw [rescaleAt_product hn product, ensureRescaleAfter, run_bind_error refused]
  · have kind : n.kind = .averagePool := by
      cases kind : n.kind <;> simp_all [OpKind.multiplies, OpKind.isProduct]
    rw [rescaleAt, run_bind_ok (run_get g), kind?_of_node? hn]
    simp only [kind] at refused ⊢
    exact run_bind_error refused

/-- The pass meets one node. -/
theorem insert_step (regular : g.Regular) (order : g.IsOrder ids) (eq : ids = met ++ id :: coming)
    (here : Inserting g met h) :
    (∃ c h', (rescaleAt id).run.run h = (.ok c, h') ∧ Inserting g (met ++ [id]) h' ∧
        (c = false → h' = h)) ∨
      ∃ e h', (rescaleAt id).run.run h = (.error e, h') ∧ Refuses g id e := by
  have new : id ∉ met := fun mem =>
    (List.nodup_append.mp (eq ▸ order.nodup)).2.2 id mem id List.mem_cons_self rfl
  have needed : g.Needed id := (order.mem_iff id).mp (eq ▸ by simp)
  obtain ⟨n, hn⟩ := isLive_iff.mp (regular.closed.isLive_of_needed needed)
  have kept : n.kind.multiplies = true → ∃ inputs, h.node? id = some { n with inputs } :=
    fun multiplies =>
      here.node id n (fun eq => by rw [eq] at multiplies; exact nomatch multiplies) hn
  -- A node that multiplies and has several values is refused, whatever the pass has done so
  -- far.
  by_cases refused : n.kind.multiplies = true ∧ n.outputs ≠ 1
  · obtain ⟨inputs, hn'⟩ := kept refused.1
    exact .inr ⟨_, h, rescaleAt_refused hn' refused.1 refused.2, n, hn, refused.1, refused.2, rfl⟩
  have single : n.kind.multiplies = true → n.outputs = 1 := fun multiplies =>
    Classical.byContradiction fun several => refused ⟨multiplies, several⟩
  refine .inl ?_
  by_cases product : n.kind.isProduct = true
  · have multiplies := OpKind.multiplies_of_isProduct product
    obtain ⟨inputs, hn'⟩ := kept multiplies
    obtain ⟨c, h', run, placed, same⟩ := ensureRescaleAfter_run (here.edited.regular regular) hn'
      product (single multiplies)
    exact ⟨c, h', (rescaleAt_product hn' product).trans run,
      here.place regular new hn product (single multiplies) placed, same⟩
  · refine ⟨false, h, ?_, here.skip hn single product, fun _ => rfl⟩
    cases hm : h.node? id with
    | none => exact rescaleAt_dead hm
    | some m =>
      have kind : m.kind = n.kind := by
        have same := here.edited.kind?_eq (lt_size_of_node? hn) (isLive_of_node? hm)
        rwa [kind?_of_node? hm, kind?_of_node? hn, Option.some.injEq] at same
      refine rescaleAt_other hm (fun multiplies => ?_) (kind ▸ product)
      obtain ⟨inputs, hn'⟩ := kept (kind ▸ multiplies)
      rw [Option.some.inj (hm.symm.trans hn')]
      exact single (kind ▸ multiplies)

/-! ## The pass -/

theorem insertRescales_eq (order : g.order = .ok ids) :
    insertRescales.run.run g = (sweep rescaleAt ids).run.run g := by
  rw [insertRescales, run_bind_ok (order_run order)]

/-- The pass succeeds, or it is refused for one of the nodes. -/
theorem insert_pass (regular : g.Regular) :
    (∃ ids c g', g.IsOrder ids ∧ insertRescales.run.run g = (.ok c, g') ∧ Inserting g ids g' ∧
        (c = false → g' = g)) ∨
      ∃ id e g', insertRescales.run.run g = (.error e, g') ∧ g.Needed id ∧ Refuses g id e := by
  obtain ⟨ids, eq, order⟩ := regular.order
  rw [insertRescales_eq eq]
  rcases sweep_or_fails (P := Inserting g) (E := Refuses g)
    (fun met id coming h eq here => insert_step regular order eq here) (inserting_start g) with
    ⟨c, g', run, done, same⟩ | ⟨id, mem, e, g', run, refuses⟩
  · exact .inl ⟨ids, c, g', order, run, done, same⟩
  · exact .inr ⟨id, e, g', run, (order.mem_iff id).mp mem, refuses⟩

/-- Where products are settled, none is found that is not. -/
theorem insertRescales_idle (regular : g.Regular) (single : g.SingleValued)
    (settled : ∀ p, g.Needed p → g.IsProduct p → g.Settled p) :
    insertRescales.run.run g = (.ok false, g) := by
  obtain ⟨ids, eq, order⟩ := regular.order
  rw [insertRescales_eq eq]
  refine sweep_idle ?_
  intro id mem
  have needed := (order.mem_iff id).mp mem
  obtain ⟨n, hn⟩ := isLive_iff.mp (regular.closed.isLive_of_needed needed)
  by_cases product : n.kind.isProduct = true
  · rw [rescaleAt_product hn product]
    exact ensureRescaleAfter_settled hn
      (single id n needed hn (OpKind.multiplies_of_isProduct product))
      (settled id needed ⟨n.kind, kind?_of_node? hn, product⟩)
  · exact rescaleAt_other hn (single id n needed hn) product

/-! ## What the pass comes to -/

/-- What the pass makes of a graph, and its answer. -/
structure Inserted (g : Graph) (changed : Bool) (g' : Graph) : Prop where
  /-- A product that is needed, before or after, is no result, and a rescaling
  is all that uses it. -/
  settled : ∀ p, g.Needed p ∧ g.IsProduct p ∨ g'.Needed p ∧ g'.IsProduct p →
    g'.IsProduct p ∧ p ∉ g'.results ∧
      ∃ k, g'.consumers p = [k] ∧ g'.kind? k = some .rescale
  /-- What has been appended are rescalings of products that no rescaling
  used. -/
  appended : ∀ k, g.size ≤ k → k < g'.size → ∃ p, g.Needed p ∧ g.IsProduct p ∧
    (∀ c ∈ g.consumers p, g.kind? c ≠ some .rescale) ∧ g'.Rescales k p
  /-- No two of them are of one product. -/
  one : ∀ k k' p, g.size ≤ k → g.size ≤ k' → g'.Rescales k p → g'.Rescales k' p → k = k'
  unchanged_iff : changed = false ↔ g' = g
  again : insertRescales.run.run g' = (.ok false, g')

/-- A node that multiplies and is needed afterwards is one of before. -/
theorem singleValued_of_inserting (regular : g.Regular) (single : g.SingleValued)
    (done : Inserting g ids g') : g'.SingleValued := by
  intro id n' needed hn' multiplies
  have notAdded : n'.kind.isAdded = false := by
    cases kind : n'.kind <;> rw [kind] at multiplies <;> first | rfl | exact nomatch multiplies
  have before := done.edited.needed_of_kind regular needed (kind?_of_node? hn') notAdded
  obtain ⟨n, hn⟩ := isLive_iff.mp (regular.closed.isLive_of_needed before)
  have kind : n'.kind = n.kind := by
    have same := done.edited.kind?_eq (lt_size_of_node? hn) (isLive_of_node? hn')
    rwa [kind?_of_node? hn', kind?_of_node? hn, Option.some.injEq] at same
  rw [kind] at multiplies
  obtain ⟨inputs, kept⟩ := done.node id n
    (fun eq => by rw [eq] at multiplies; exact nomatch multiplies) hn
  rw [Option.some.inj (hn'.symm.trans kept)]
  exact single id n before hn multiplies

theorem inserted_of_inserting (regular : g.Regular) (single : g.SingleValued)
    (order : g.IsOrder ids) {c : Bool} (run : insertRescales.run.run g = (.ok c, g'))
    (done : Inserting g ids g') (same : c = false → g' = g) : Inserted g c g' := by
  have settled : ∀ p, g.Needed p → g.IsProduct p → g'.Settled p := fun p needed =>
    done.settled p ((order.mem_iff p).mpr needed)
  have appended : ∀ k, g.size ≤ k → k < g'.size → ∃ p, g.Needed p ∧ g.IsProduct p ∧
      (∀ c ∈ g.consumers p, g.kind? c ≠ some .rescale) ∧ g'.Rescales k p := by
    intro k le lt
    obtain ⟨p, mem, hp, bare, hk⟩ := done.appended k le lt
    exact ⟨p, (order.mem_iff p).mp mem, hp, fun c hc => bare c (mem_consumers.mp hc), hk⟩
  have again : insertRescales.run.run g' = (.ok false, g') :=
    insertRescales_idle (done.edited.regular regular)
      (singleValued_of_inserting regular single done)
      fun p needed hp => settled p (done.needed_of_isProduct regular needed hp)
        (done.edited.isProduct hp)
  constructor
  case settled =>
    intro p either
    have ⟨needed, hp⟩ : g.Needed p ∧ g.IsProduct p := either.elim id fun after =>
      ⟨done.needed_of_isProduct regular after.1 after.2, done.edited.isProduct after.2⟩
    exact ⟨done.isProduct hp, (settled p needed hp).1, (settled p needed hp).exists_consumer⟩
  case appended => exact appended
  case one =>
    intro k k' p le le' hk hk'
    obtain ⟨n, hn, -⟩ := kind?_eq_some.mp hk.kind
    obtain ⟨q, needed, hq, -, rescales⟩ := appended k le (lt_size_of_node? hn)
    obtain rfl : q = p := by simpa [rescales.inputs] using hk.inputs
    -- Both use the product, and a settled product has one consumer.
    obtain ⟨j, consumers, -⟩ := (settled q needed hq).exists_consumer
    have user := mem_consumers.mpr hk.mem_inputs
    have user' := mem_consumers.mpr hk'.mem_inputs
    rw [consumers, List.mem_singleton] at user user'
    rw [user, user']
  case unchanged_iff =>
    refine ⟨same, ?_⟩
    rintro rfl
    exact Except.ok.inj (congrArg Prod.fst (run.symm.trans again))
  case again => exact again

/-- Where foreign nodes multiply, the pass is refused exactly if a node that
multiplies and is needed has not one value; it ends well in every other case.
-/
theorem insertRescales_settles (built : Assembled (fun kind => kind.multiplies = true) g) :
    ((∃ id kind outputs g',
        insertRescales.run.run g = (.error (.multipleOutputs id kind outputs), g')) ↔
      ∃ id n, g.Needed id ∧ g.node? id = some n ∧ n.kind.multiplies = true ∧ n.outputs ≠ 1) ∧
    (g.SingleValued → ∃ changed g',
      insertRescales.run.run g = (.ok changed, g') ∧ Inserted g changed g') := by
  have regular := built.regular Bool.false_ne_true
  rcases insert_pass regular with
    ⟨ids, changed, g', order, run, done, same⟩ | ⟨id, e, g', run, needed, n, hn, mult, several, rfl⟩
  · have single : g.SingleValued := fun id n needed =>
      done.single id ((order.mem_iff id).mpr needed) n
    refine ⟨⟨?_, ?_⟩, fun _ =>
      ⟨changed, g', run, inserted_of_inserting regular single order run done same⟩⟩
    · rintro ⟨id, kind, outputs, g'', failed⟩
      exact nomatch congrArg Prod.fst (run.symm.trans failed)
    · rintro ⟨id, n, needed, hn, multiplies, several⟩
      exact absurd (single id n needed hn multiplies) several
  · exact ⟨⟨fun _ => ⟨id, n, needed, hn, mult, several⟩, fun _ => ⟨id, n.kind, n.outputs, g', run⟩⟩,
      fun single => absurd (single id n needed hn mult) several⟩

/-- The cube of a parameter, made at once by a foreign product. -/
def cube : Graph where
  nodes := [some ⟨.parameter 0, ⟨.f64, [2]⟩, [], 1⟩, some ⟨.multiply, ⟨.f64, [2]⟩, [0, 0, 0], 1⟩]
  parameters := [0]
  results := [1]

theorem assembled_cube : Assembled (fun kind => kind.multiplies = true) cube :=
  .step (.addResult 1) (.foreign .multiply [0, 0, 0] 1
    (.step (.parameter ⟨.f64, [2]⟩) .empty rfl) rfl rfl) rfl

theorem insertRescales_settles_cube :
    Assembled (fun kind => kind.multiplies = true) cube ∧ cube.SingleValued ∧ ∃ changed g',
      insertRescales.run.run cube = (.ok changed, g') ∧ Inserted cube changed g' := by
  have single : cube.SingleValued := by
    intro id n _ hn _
    match id with
    | 0 => exact Option.some.inj hn ▸ rfl
    | 1 => exact Option.some.inj hn ▸ rfl
    | _ + 2 => exact nomatch hn
  exact ⟨assembled_cube, single, (insertRescales_settles assembled_cube).2 single⟩

end Normalize

end CipherFlow
