import CipherFlow.Proofs.Graph.Built
import CipherFlow.Proofs.Graph.Finding
import CipherFlow.Proofs.Normalize.Rules
import CipherFlow.Proofs.Normalize.Placement
import CipherFlow.Proofs.Normalize.Substitution

/-!
# The merging pass

A chain of rescalings is merged from its bottom upwards. The order of the walk
guarantees it: what lies below a node has been met before the node, so it is
merged already, and a rescaling of no rescaling. So the pass never comes upon
three rescalings in a row, which it would refuse. What it makes of a graph is
described by one function, which sends the head of each chain to the
rescaling that takes its place.

`mergeRescales_collapses` is the result: the pass never refuses a graph that
commands make, and what stands in place of the head of a chain rescales what the
chain ends in.

How the proof goes. That function is `moved`, and `Collapsed heads` says that the
chains with these heads are merged and all else is as before. A chain is found for
every rescaling by its rank (`Regular.exists_chain`), and it is the only one
(`Chain.unique`), so the state after each step depends on the heads alone. One step
adds one head (`merge_step`, through `collapsed_of_merged`), and the induction along
the order is `merge_pass`.
-/

namespace CipherFlow

open CipherFlow.Graph

variable {g g' h h' : Graph} {a b id r x y : NodeId} {n : Node} {result : Pattern.Found}

namespace Graph

/-! ## Chains -/

/-- A number of rescalings one below the other, from the head of the chain down
to a node that is no rescaling. -/
inductive Chain (g : Graph) (x : NodeId) : NodeId → Nat → Prop where
  | one {id : NodeId} : g.Rescales id x → g.NoRescale x → Chain g x id 1
  | more {id r : NodeId} {k : Nat} : g.Rescales id r → Chain g x r k → Chain g x id (k + 1)

/-- The head of a chain that can be merged. -/
def Head (g : Graph) (id : NodeId) : Prop :=
  ∃ x k, g.Chain x id k ∧ 2 ≤ k

/-- A rescaling of a node that is none. -/
def Flat (g : Graph) (id : NodeId) : Prop :=
  g.kind? id = some .rescale ∧ ∀ i ∈ g.inputs id, g.kind? i ≠ some .rescale

theorem Rescales.unique (hx : g.Rescales id x) (hy : g.Rescales id y) : x = y := by
  simpa [hx.inputs] using hy.inputs

theorem Rescales.isLive (hx : g.Rescales id x) : g.isLive id = true := by
  obtain ⟨n, hn, -⟩ := kind?_eq_some.mp hx.kind
  exact isLive_of_node? hn

variable {k k' : Nat}

theorem Chain.kind (chain : g.Chain x id k) : g.kind? id = some .rescale := by
  cases chain with
  | one outer => exact outer.kind
  | more outer => exact outer.kind

theorem Chain.noRescale (chain : g.Chain x id k) : g.NoRescale x := by
  induction chain with
  | one _ bottom => exact bottom
  | more _ _ ih => exact ih

theorem Chain.pos (chain : g.Chain x id k) : 1 ≤ k := by
  cases chain <;> simp

theorem Chain.reaches (chain : g.Chain x id k) : g.Reaches id x := by
  induction chain with
  | one outer => exact .head outer.mem_inputs (.refl x)
  | more outer _ ih => exact .head outer.mem_inputs ih

/-- Below the head of a chain that can be merged there is another chain. -/
theorem Chain.next (chain : g.Chain x id k) (two : 2 ≤ k) :
    ∃ r j, g.Rescales id r ∧ g.Chain x r j := by
  cases chain with
  | one => exact absurd two (by decide)
  | more outer rest => exact ⟨_, _, outer, rest⟩

/-- What a chain ends in is determined by its head. -/
theorem Chain.unique (chain : g.Chain x id k) (other : g.Chain y id k') : x = y := by
  induction chain generalizing k' with
  | one outer bottom =>
    cases other with
    | one outer' => exact outer.unique outer'
    | more outer' rest => exact absurd rest.kind (outer.unique outer' ▸ bottom.kind?_ne)
  | more outer rest ih =>
    cases other with
    | one outer' bottom => exact absurd rest.kind (outer'.unique outer ▸ bottom.kind?_ne)
    | more outer' rest' => exact ih (outer.unique outer' ▸ rest')

/-- Every rescaling is the head of a chain, as ranks fall along operands. -/
theorem Regular.exists_chain (regular : g.Regular) (kind : g.kind? id = some .rescale) :
    ∃ x k, g.Chain x id k := by
  obtain ⟨rank, ranked⟩ := regular.acyclic
  induction eq : rank id using Nat.strongRecOn generalizing id with
  | _ _ ih =>
    obtain ⟨r, inputs⟩ := regular.rescale id kind
    have outer : g.Rescales id r := ⟨kind, inputs⟩
    by_cases inner : g.kind? r = some .rescale
    · obtain ⟨x, k, rest⟩ := ih (rank r) (eq ▸ ranked id r outer.mem_inputs) inner rfl
      exact ⟨x, k + 1, .more outer rest⟩
    · obtain ⟨n, hn⟩ := isLive_iff.mp (regular.closed.inputs id r outer.mem_inputs)
      have bottom : g.NoRescale r :=
        ⟨n.kind, kind?_of_node? hn, fun eq => inner ((kind?_of_node? hn).trans (by rw [eq]))⟩
      exact ⟨r, 1, .one outer bottom⟩

/-- A head is a rescaling of a rescaling. -/
theorem Regular.head_iff (regular : g.Regular) :
    g.Head id ↔ ∃ r, g.Rescales id r ∧ g.kind? r = some .rescale := by
  constructor
  · rintro ⟨x, k, chain, two⟩
    obtain ⟨r, j, outer, rest⟩ := chain.next two
    exact ⟨r, outer, rest.kind⟩
  · rintro ⟨r, outer, inner⟩
    obtain ⟨x, k, rest⟩ := regular.exists_chain inner
    exact ⟨x, k + 1, .more outer rest, Nat.succ_le_succ rest.pos⟩

theorem Head.kind (head : g.Head id) : g.kind? id = some .rescale := by
  obtain ⟨x, k, chain, -⟩ := head
  exact chain.kind

/-- Without chains, every rescaling is one of no rescaling. -/
theorem Unchained.flat (unchained : g.Unchained) (a : NodeId) (_ : g.Needed a)
    (kind : g.kind? a = some .rescale) : g.Flat a :=
  ⟨kind, unchained a kind⟩

/-- Pruning extends to all rescalings what holds of those that are needed. -/
theorem Retired.unchained (h : Retired g.Spare g g') (sound : g.Sound)
    (flat : ∀ a, g.Needed a → g.kind? a = some .rescale → g.Flat a) : g'.Unchained := by
  intro a ha i hi hk
  have needed := h.needed_of_kind sound ha (fun eq => nomatch eq)
  exact (flat a needed (h.kind?_of_some ha)).2 i (h.mem_inputs_iff.mp hi).2 (h.kind?_of_some hk)

/-! ## Merged chains -/

/-- The chains with some heads have been merged: in place of each head stands a
new rescaling of what its chain ends in, and nothing else has changed. -/
structure Collapsed (g : Graph) (heads : NodeId → Prop) (moved : NodeId → NodeId) (h : Graph) :
    Prop where
  head : ∀ a, heads a → g.Head a
  gone : ∀ a, heads a → h.node? a = none
  /-- Other nodes are left, with the same operands up to the heads. -/
  node? : ∀ a n, ¬ heads a → g.node? a = some n →
    h.node? a = some { n with inputs := n.inputs.map moved }
  results : h.results = g.results.map moved
  fixed : ∀ a, ¬ heads a → moved a = a
  replaced : ∀ a, heads a → g.size ≤ moved a ∧ ∀ x k, g.Chain x a k → h.Rescales (moved a) x
  /-- No other node is new. -/
  added : ∀ a, g.size ≤ a → h.isLive a = true → ∃ b, heads b ∧ moved b = a

theorem Collapsed.start (g : Graph) : Collapsed g (fun _ => False) (fun a => a) g where
  head _ no := no.elim
  gone _ no := no.elim
  node? a n _ hn := by rw [List.map_id']; exact hn
  results := (List.map_id' _).symm
  fixed _ _ := rfl
  replaced _ no := no.elim
  added a le live := by
    obtain ⟨n, hn⟩ := isLive_iff.mp live
    exact absurd (lt_size_of_node? hn) (Nat.not_lt.mpr le)

section

variable {heads : NodeId → Prop} {moved : NodeId → NodeId} (here : Collapsed g heads moved h)
include here

theorem Collapsed.not_head (hx : g.NoRescale x) : ¬ heads x :=
  fun merged => hx.kind?_ne (here.head x merged).kind

theorem Collapsed.kind? (other : ¬ heads a) (live : g.isLive a = true) :
    h.kind? a = g.kind? a := by
  obtain ⟨n, hn⟩ := isLive_iff.mp live
  rw [kind?_of_node? (here.node? a n other hn), kind?_of_node? hn]
  rfl

theorem Collapsed.inputs (other : ¬ heads a) (live : g.isLive a = true) :
    h.inputs a = (g.inputs a).map moved := by
  obtain ⟨n, hn⟩ := isLive_iff.mp live
  rw [inputs_of_node? (here.node? a n other hn), inputs_of_node? hn]

theorem Collapsed.noRescale (hx : g.NoRescale x) : h.NoRescale x := by
  obtain ⟨kind, hk, ne⟩ := hx
  obtain ⟨n, hn, -⟩ := kind?_eq_some.mp hk
  exact ⟨kind, (here.kind? (here.not_head ⟨kind, hk, ne⟩) (isLive_of_node? hn)).trans hk, ne⟩

theorem Collapsed.rescales (other : ¬ heads a) (ha : g.Rescales a r) : h.Rescales a (moved r) where
  kind := (here.kind? other ha.isLive).trans ha.kind
  inputs := by rw [here.inputs other ha.isLive, ha.inputs, List.map_singleton]

/-- What stands in the place of the head of a chain, long or short, rescales
what the chain ends in. -/
theorem Collapsed.bottom {k : Nat} (chain : g.Chain x r k) (done : g.Head r → heads r) :
    h.Rescales (moved r) x := by
  by_cases merged : heads r
  · exact (here.replaced r merged).2 x k chain
  · rw [here.fixed r merged]
    cases chain with
    | one outer bottom =>
      have rescales := here.rescales merged outer
      rwa [here.fixed x (here.not_head bottom)] at rescales
    | more outer rest =>
      exact absurd (done ⟨x, _, .more outer rest, Nat.succ_le_succ rest.pos⟩) merged

/-- A rescaling of a rescaling was the head of a chain. -/
theorem Collapsed.head_of_rescales (regular : g.Regular) (other : ¬ heads a)
    (hn : g.node? a = some n) (outer : h.Rescales a y) (inner : h.kind? y = some .rescale) :
    g.Head a := by
  have live := isLive_of_node? hn
  have kind := (here.kind? other live).symm.trans outer.kind
  obtain ⟨r, inputs⟩ := regular.rescale a kind
  have outer' : g.Rescales a r := ⟨kind, inputs⟩
  refine regular.head_iff.mpr ⟨r, outer', ?_⟩
  by_cases merged : heads r
  · exact (here.head r merged).kind
  · obtain rfl : moved r = y := (here.rescales other outer').unique outer
    rw [here.fixed r merged] at inner
    rwa [← here.kind? merged (regular.closed.inputs a r outer'.mem_inputs)]

theorem Collapsed.flat_moved (merged : heads a) : h.Flat (moved a) := by
  obtain ⟨x, k, chain, -⟩ := here.head a merged
  have rescales := (here.replaced a merged).2 x k chain
  refine ⟨rescales.kind, fun i hi => ?_⟩
  rw [rescales.inputs, List.mem_singleton] at hi
  exact hi ▸ (here.noRescale chain.noRescale).kind?_ne

/-- What is needed stands in the place of something that was. -/
theorem Collapsed.needed (regular : g.Regular) (needed : h.Needed a) :
    ∃ b, g.Needed b ∧ moved b = a := by
  refine needed.induction (P := fun a => ∃ b, g.Needed b ∧ moved b = a) ?_ ?_
  · intro q hq
    rw [here.results] at hq
    obtain ⟨b, hb, eq⟩ := List.mem_map.mp hq
    exact ⟨b, .of_result hb, eq⟩
  · rintro _ ⟨b, needed, rfl⟩ i hi
    by_cases merged : heads b
    · obtain ⟨x, k, chain, -⟩ := here.head b merged
      rw [((here.replaced b merged).2 x k chain).inputs, List.mem_singleton] at hi
      obtain ⟨q, hq, path⟩ := needed
      exact ⟨x, ⟨q, hq, path.trans chain.reaches⟩,
        hi ▸ here.fixed x (here.not_head chain.noRescale)⟩
    · rw [here.fixed b merged, here.inputs merged (regular.closed.isLive_of_needed needed)] at hi
      obtain ⟨j, hj, eq⟩ := List.mem_map.mp hi
      exact ⟨j, needed.tail hj, eq⟩

theorem Collapsed.needed_or_flat (regular : g.Regular) (needed : h.Needed a) :
    g.Needed a ∨ h.Flat a := by
  obtain ⟨b, before, rfl⟩ := here.needed regular needed
  by_cases merged : heads b
  · exact .inr (here.flat_moved merged)
  · exact .inl (by rwa [here.fixed b merged])

end

/-- When all heads that are needed have been merged, what is needed afterwards
is no rescaling of a rescaling. -/
theorem Collapsed.flat {moved : NodeId → NodeId} (regular : g.Regular)
    (here : Collapsed g (fun a => g.Needed a ∧ g.Head a) moved h) (needed : h.Needed a)
    (kind : h.kind? a = some .rescale) : h.Flat a := by
  obtain ⟨b, before, rfl⟩ := here.needed regular needed
  by_cases merged : g.Needed b ∧ g.Head b
  · exact here.flat_moved merged
  · have live := regular.closed.isLive_of_needed before
    rw [here.fixed b merged] at kind ⊢
    refine ⟨kind, fun i hi => ?_⟩
    rw [here.inputs merged live] at hi
    obtain ⟨j, hj, rfl⟩ := List.mem_map.mp hi
    have outer := regular.rescales ((here.kind? merged live).symm.trans kind) hj
    have inner : g.kind? j ≠ some .rescale := fun inner =>
      merged ⟨before, regular.head_iff.mpr ⟨j, outer, inner⟩⟩
    have other : ¬ (g.Needed j ∧ g.Head j) := fun both => inner both.2.kind
    rwa [here.fixed j other, here.kind? other (regular.closed.inputs b j hj)]

end Graph

namespace Normalize

/-! ## The step of the pass -/

/-- The pattern is found at the rescalings of rescalings. -/
theorem matchAt?_mergeRescale (sound : g.Sound) :
    mergeRescale.pattern.matchAt? g id = some result ↔
      ∃ r x, g.Rescales id r ∧ g.Rescales r x ∧ result = ⟨[("x", x)], [id, r]⟩ := by
  have unary : OpKind.rescale.isCommutative = false := rfl
  simp only [Pattern.matchAt?_eq, mergeRescale, Pattern.find?_unary unary, Pattern.find?_any]
  constructor
  · rintro ⟨outer, r, outerInput, inner, x, innerInput, -, eq⟩
    exact ⟨r, x, ⟨outer, outerInput⟩, ⟨inner, innerInput⟩, (Option.some.inj eq).symm⟩
  · rintro ⟨r, x, outer, inner, rfl⟩
    exact ⟨outer.kind, r, outer.inputs, inner.kind, x, inner.inputs,
      sound.closed.inputs r x inner.mem_inputs, rfl⟩

/-- The node that takes the place of two rescalings. -/
def mergedNode (x : NodeId) (t : TensorType) : Node :=
  ⟨.rescale, t, [x], 1⟩

/-- Two rescalings of a node that is none are merged. -/
theorem merge_run (sound : g.Sound) (outer : g.Rescales id r) (inner : g.Rescales r x)
    (bottom : g.kind? x ≠ some .rescale) :
    ∃ t g', (mergeRescale.apply id ⟨[("x", x)], [id, r]⟩).run.run g = (.ok true, g') ∧
      Substituted id (mergedNode x t) g g' := by
  obtain ⟨nx, hx⟩ := isLive_iff.mp (sound.closed.inputs r x inner.mem_inputs)
  obtain ⟨n, hn, kind⟩ := kind?_eq_some.mp outer.kind
  have type := type?_of_node? hx
  have typed : g.WellTyped (mergedNode x nx.type) :=
    ⟨rfl, [nx.type], by simp [mergedNode, type], rfl⟩
  have through : ∀ y ∈ (mergedNode x nx.type).inputs, ∃ z ∈ g.inputs id, g.Reaches z y := by
    intro y hy
    rw [List.mem_singleton.mp hy]
    exact ⟨r, outer.mem_inputs, .head inner.mem_inputs (.refl x)⟩
  have new : (g.push (mergedNode x nx.type)).2.Rescales g.size x :=
    ⟨kind?_of_node? (node?_push_size _), inputs_of_node? (node?_push_size _)⟩
  obtain ⟨g', run, substituted⟩ := substitute_run sound typed rfl hn (by simp [kind]) through
    (.merged (outer.push _) (inner.push _) new)
  refine ⟨nx.type, g', ?_, substituted⟩
  have pushed : (Graph.rescale x).run g = .ok (g.size, (g.push (mergedNode x nx.type)).2) :=
    unary_ok type rfl
  have boundX : (bound ⟨[("x", x)], [id, r]⟩ "x").run.run g = (.ok x, g) := rfl
  simp only [mergeRescale, run_bind_ok boundX, run_bind_ok (run_get g), if_neg bottom]
  rw [run_bind_ok (change_run pushed), run_bind_ok (change_run run)]
  rfl

variable {heads : NodeId → Prop} {moved : NodeId → NodeId}

/-- With a merged rescaling in its place, one more head is gone. -/
theorem collapsed_of_merged (closed : h'.Closed) (le : g.size ≤ h.size)
    (here : Collapsed g heads moved h) (new : ¬ heads id) {k : Nat} (chain : g.Chain x id k)
    (two : 2 ≤ k) {t : TensorType} (sub : Substituted id (mergedNode x t) h h') :
    Collapsed g (fun a => heads a ∨ a = id) (renamed id h.size ∘ moved) h' := by
  obtain ⟨n, hn, -⟩ := kind?_eq_some.mp chain.kind
  have idLt : id < g.size := lt_size_of_node? hn
  have same : ∀ a, heads a → renamed id h.size (moved a) = moved a := fun a merged =>
    renamed_of_ne (Nat.ne_of_gt (Nat.lt_of_lt_of_le idLt (here.replaced a merged).1))
  have inside : ∀ a, g.isLive a = true → a ≠ h.size := by
    intro a live
    obtain ⟨m, hm⟩ := isLive_iff.mp live
    exact Nat.ne_of_lt (Nat.lt_of_lt_of_le (lt_size_of_node? hm) le)
  -- Rescalings of what chains end in stay, as that is never a head itself.
  have kept : ∀ b y, b ≠ id → g.NoRescale y → h.Rescales b y → h'.Rescales b y := by
    intro b y ne bottom rescales
    obtain ⟨m, hm⟩ := isLive_iff.mp rescales.isLive
    have neNew : b ≠ h.size := Nat.ne_of_lt (lt_size_of_node? hm)
    refine ⟨(sub.kind?_eq ne neNew).trans rescales.kind, ?_⟩
    rw [sub.inputs_eq ne neNew, rescales.inputs, List.map_singleton,
      renamed_of_ne (bottom.ne chain.kind)]
  constructor
  case head =>
    rintro a (merged | rfl)
    · exact here.head a merged
    · exact ⟨x, k, chain, two⟩
  case gone =>
    rintro a (merged | rfl)
    · have ne : a ≠ id := fun eq => new (eq ▸ merged)
      obtain ⟨m, hm, -⟩ := kind?_eq_some.mp (here.head a merged).kind
      rw [sub.node? a ne (inside a (isLive_of_node? hm)), here.gone a merged]
      rfl
    · exact sub.gone
  case node? =>
    intro a m other hm
    obtain ⟨other, ne⟩ := not_or.mp other
    rw [sub.node? a ne (inside a (isLive_of_node? hm)), here.node? a m other hm,
      ← List.map_map]
    rfl
  case results => rw [sub.results_eq closed, here.results, List.map_map]
  case fixed =>
    intro a other
    obtain ⟨other, ne⟩ := not_or.mp other
    rw [Function.comp, here.fixed a other, renamed_of_ne ne]
  case replaced =>
    rintro a (merged | rfl)
    · -- The new node is put for `id` only, so what stands for the heads before it is left there.
      rw [Function.comp, same a merged]
      obtain ⟨outside, rescales⟩ := here.replaced a merged
      refine ⟨outside, fun y j other => kept _ y ?_ other.noRescale (rescales y j other)⟩
      exact Nat.ne_of_gt (Nat.lt_of_lt_of_le idLt outside)
    · rw [Function.comp, here.fixed a new, renamed_old]
      refine ⟨le, fun y j other => ?_⟩
      rw [← chain.unique other]
      exact ⟨sub.kind?_new, sub.inputs_new⟩
  case added =>
    intro a outside live
    by_cases eq : a = h.size
    · exact ⟨id, .inr rfl, by rw [Function.comp, here.fixed id new, renamed_old, eq]⟩
    · have before : h.isLive a = true := by
        rw [isLive, sub.node? a (sub.isLive_ne live) eq, Option.isSome_map] at live
        exact live
      obtain ⟨b, merged, moved⟩ := here.added a outside before
      exact ⟨b, .inl merged, by rw [Function.comp, same b merged, moved]⟩

/-- The state of the pass between two nodes: the chains with heads that have been
met are merged. -/
structure Merging (g : Graph) (met : List NodeId) (h : Graph) : Prop where
  edited : Edited g h
  collapsed : ∃ moved, Collapsed g (fun a => a ∈ met ∧ g.Head a) moved h

theorem merging_start (g : Graph) : Merging g [] g where
  edited := .refl g
  collapsed := ⟨_, by simpa only [List.not_mem_nil, false_and] using Collapsed.start g⟩

/-- The pass meets one node. -/
theorem merge_step (sound : g.Sound) {ids met coming : List NodeId} (order : g.IsOrder ids)
    (eq : ids = met ++ id :: coming) (merging : Merging g met h) :
    ∃ c h', (applyFirst [mergeRescale] id).run.run h = (.ok c, h') ∧
      Merging g (met ++ [id]) h' ∧ (c = false → h' = h) := by
  obtain ⟨edited, moved, here⟩ := merging
  have regular := sound.regular
  have soundH := edited.sound sound
  have needed : g.Needed id := (order.mem_iff id).mp (eq ▸ by simp)
  obtain ⟨n, hn⟩ := isLive_iff.mp (sound.closed.isLive_of_needed needed)
  have new : ¬ (id ∈ met ∧ g.Head id) := fun mem =>
    (List.nodup_append.mp (eq ▸ order.nodup)).2.2 id mem.1 id List.mem_cons_self rfl
  have live : h.isLive id = true := isLive_of_node? (here.node? id n new hn)
  by_cases head : g.Head id
  · have ⟨x, k, chain, two⟩ := head
    obtain ⟨r, j, outer, rest⟩ := chain.next two
    -- The operand of the head stands before it in the order, so its own chain is merged.
    have outerH := here.rescales new outer
    have innerH := here.bottom rest fun head =>
      ⟨order.before met id coming eq r outer.mem_inputs, head⟩
    obtain ⟨t, h', run, sub⟩ := merge_run soundH outerH innerH
      (here.noRescale chain.noRescale).kind?_ne
    have matched := (matchAt?_mergeRescale soundH).mpr ⟨_, _, outerH, innerH, rfl⟩
    have edited' := edited.trans sub.edited
    refine ⟨true, h', applyFirst_applied live matched run,
      ⟨edited', renamed id h.size ∘ moved, ?_⟩, fun no => nomatch no⟩
    have collapsed := collapsed_of_merged (edited'.sound sound).closed edited.size_le here new
      chain two sub
    have heads : ∀ a, a ∈ met ++ [id] ∧ g.Head a ↔ (a ∈ met ∧ g.Head a) ∨ a = id := by
      intro a
      rw [List.mem_append, List.mem_singleton, or_and_right]
      exact or_congr_right (and_iff_left_of_imp fun eq => eq ▸ head)
    simpa only [heads] using collapsed
  · refine ⟨false, h, ?_, ⟨edited, moved, ?_⟩, fun _ => rfl⟩
    · cases matched : mergeRescale.pattern.matchAt? h id with
      | none => exact applyFirst_unmatched live matched
      | some found =>
        obtain ⟨r', x', outerH, innerH, -⟩ := (matchAt?_mergeRescale soundH).mp matched
        exact absurd (here.head_of_rescales regular new hn outerH innerH.kind) head
    · have heads : ∀ a, a ∈ met ++ [id] ∧ g.Head a ↔ a ∈ met ∧ g.Head a := by
        intro a
        rw [List.mem_append, List.mem_singleton, or_and_right]
        exact or_iff_left fun both => head (both.1 ▸ both.2)
      simpa only [heads] using here

/-! ## The pass -/

theorem mergeRescales_eq {ids : List NodeId} (order : g.order = .ok ids) :
    mergeRescales.run.run g = (sweep (applyFirst [mergeRescale]) ids).run.run g := by
  rw [mergeRescales, applyRules, run_bind_ok (order_run order)]

/-- The pass succeeds, and it merges all chains that are needed. -/
theorem merge_pass (sound : g.Sound) :
    ∃ c g' moved, mergeRescales.run.run g = (.ok c, g') ∧ Edited g g' ∧
      Collapsed g (fun a => g.Needed a ∧ g.Head a) moved g' ∧ (c = false → g' = g) := by
  obtain ⟨ids, eq, order⟩ := sound.order
  obtain ⟨c, g', run, ⟨edited, moved, done⟩, same⟩ :=
    sweep_run (P := Merging g) (fun _ _ _ _ => merge_step sound order) (merging_start g)
  refine ⟨c, g', moved, (mergeRescales_eq eq).trans run, edited, ?_, same⟩
  simpa only [order.mem_iff] using done

/-- Where no rescaling that is needed is above another, the pass does
nothing. -/
theorem merge_idle (sound : g.Sound)
    (flat : ∀ a, g.Needed a → g.kind? a = some .rescale → g.Flat a) :
    mergeRescales.run.run g = (.ok false, g) := by
  obtain ⟨ids, eq, order⟩ := sound.order
  rw [mergeRescales_eq eq]
  refine sweep_idle ?_
  intro id mem
  have needed := (order.mem_iff id).mp mem
  have live := sound.closed.isLive_of_needed needed
  cases matched : mergeRescale.pattern.matchAt? g id with
  | none => exact applyFirst_unmatched live matched
  | some found =>
    obtain ⟨r, x, outer, inner, -⟩ := (matchAt?_mergeRescale sound).mp matched
    exact absurd inner.kind ((flat id needed outer.kind).2 r outer.mem_inputs)

/-- On a built graph the pass succeeds. Each chain that is needed gives way to
one rescaling, and nothing else changes; nothing is left to merge, before
pruning or after it. -/
theorem mergeRescales_collapses (built : Built g) :
    ∃ changed g' moved, mergeRescales.run.run g = (.ok changed, g') ∧
      Collapsed g (fun a => g.Needed a ∧ g.Head a) moved g' ∧
      (∀ a, g'.Needed a → g'.kind? a = some .rescale →
        ∀ i ∈ g'.inputs a, g'.kind? i ≠ some .rescale) ∧
      mergeRescales.run.run g' = (.ok false, g') ∧
      ∃ count g'', Graph.prune.run g' = .ok (count, g'') ∧
        mergeRescales.run.run g'' = (.ok false, g'') := by
  have sound := built.sound
  obtain ⟨changed, g', moved, run, edited, collapsed, -⟩ := merge_pass sound
  have sound' := edited.sound sound
  have flat : ∀ a, g'.Needed a → g'.kind? a = some .rescale → g'.Flat a := fun a =>
    collapsed.flat sound.regular
  obtain ⟨count, g'', pruned, retired⟩ := sound'.prune_run
  refine ⟨changed, g', moved, run, collapsed, fun a needed kind => (flat a needed kind).2,
    merge_idle sound' flat, count, g'', pruned, merge_idle (retired.sound sound') ?_⟩
  exact (retired.unchained sound' flat).flat

/-- A parameter below three rescalings. The topmost is a result, and so is the
sum of the other two. -/
def tower : Graph where
  nodes := [some ⟨.parameter 0, ⟨.f64, [2]⟩, [], 1⟩, some ⟨.rescale, ⟨.f64, [2]⟩, [0], 1⟩,
    some ⟨.rescale, ⟨.f64, [2]⟩, [1], 1⟩, some ⟨.rescale, ⟨.f64, [2]⟩, [2], 1⟩,
    some ⟨.add, ⟨.f64, [2]⟩, [1, 2], 1⟩]
  parameters := [0]
  results := [3, 4]

theorem built_tower : Built tower :=
  .step (.addResult 4) (.step (.addResult 3) (.step (.add 1 2) (.step (.rescale 2)
    (.step (.rescale 1) (.step (.rescale 0) (.step (.parameter ⟨.f64, [2]⟩) .empty rfl) rfl) rfl)
      rfl) rfl) rfl) rfl

theorem mergeRescales_collapses_tower :
    Built tower ∧ ∃ changed g' moved, mergeRescales.run.run tower = (.ok changed, g') ∧
      Collapsed tower (fun a => tower.Needed a ∧ tower.Head a) moved g' := by
  obtain ⟨changed, g', moved, run, collapsed, -⟩ := mergeRescales_collapses built_tower
  exact ⟨built_tower, changed, g', moved, run, collapsed⟩

end Normalize

end CipherFlow
