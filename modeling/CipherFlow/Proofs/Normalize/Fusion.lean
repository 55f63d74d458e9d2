import CipherFlow.Proofs.Graph.Finding
import CipherFlow.Proofs.Normalize.Rules
import CipherFlow.Proofs.Normalize.Placement
import CipherFlow.Proofs.Normalize.Substitution

/-!
# The fusing pass

The pattern of a bounded rectifier is found exactly at the minimums of a
rectified value and a constant. Where the constant is uniform they are fused,
and edits do not make new ones that could be. The same pass settles every
product, and the order in which it meets the nodes does not matter: nothing
that it does later unsettles a product.

Main lemmas: `fuse_pass`, and `fuse_idle` for a graph that is left as it is.

The rules are tried in turn, and each changes the graph in its own way; `Fusing` has
what all of them keep and what holds of the node that was met, so the walk does not
tell them apart. That later steps do not undo it is `Fusing.keeps`. Between two nodes
the walk is described by `FusedAlong`: every node met so far is done with.
-/

namespace CipherFlow

open CipherFlow.Graph

variable {g g' : Graph} {m r c x k p id : NodeId} {found result : Pattern.Found}

/-! ## Finding bounded rectifiers

The pattern is a minimum of a rectifier and a constant, in either order, and the
constant may be repeated to a shape. -/

namespace Pattern

/-- A constant is found at its place, or below a repetition. -/
theorem find?_bound (sound : g.Sound) (live : g.isLive c = true) (name : String) :
    find? g (.skip (.label name (·.kind = .constant)) (·.kind = .broadcast)) c found =
        some result ↔
      ∃ k, (c = k ∨ g.kind? c = some .broadcast ∧ g.inputs c = [k]) ∧
        g.kind? k = some .constant ∧ found.bind? name k = some result := by
  obtain ⟨n, hn⟩ := isLive_iff.mp live
  have hk := kind?_of_node? hn
  by_cases kind : n.kind = .broadcast
  · obtain ⟨y, t, inputs, -⟩ := (sound.typed c n hn).broadcast kind
    rw [kind] at hk
    rw [find?_across hn inputs (by simp [kind]), find?_label]
    simp only [decide_eq_true_eq, ← kind?_eq_some]
    constructor
    · rintro ⟨constant, bind⟩
      exact ⟨y, .inr ⟨hk, (inputs_of_node? hn).trans inputs⟩, constant, bind⟩
    · rintro ⟨k, rfl | ⟨-, eq⟩, constant, bind⟩
      · exact absurd (hk.symm.trans constant) (by simp)
      · obtain rfl : y = k := by simpa [inputs_of_node? hn, inputs] using eq
        exact ⟨constant, bind⟩
  · rw [find?_here hn (by simp [kind]), find?_label]
    simp only [decide_eq_true_eq, ← kind?_eq_some]
    constructor
    · rintro ⟨constant, bind⟩
      exact ⟨c, .inl rfl, constant, bind⟩
    · rintro ⟨k, rfl | ⟨broadcast, -⟩, constant, bind⟩
      · exact ⟨constant, bind⟩
      · exact absurd (Option.some.inj (hk.symm.trans broadcast)) kind

/-- The operands of a minimum in one order. -/
theorem findArgs?_bounded (sound : g.Sound) (live : g.isLive c = true) :
    findArgs? g [.op .relu [.any "x"],
        .skip (.label "alpha" (·.kind = .constant)) (·.kind = .broadcast)] [r, c]
        (Found.nothing.note m) = some result ↔
      ∃ x k, (g.kind? r = some .relu ∧ g.inputs r = [x] ∧
        (c = k ∨ g.kind? c = some .broadcast ∧ g.inputs c = [k]) ∧
        g.kind? k = some .constant) ∧ result = ⟨[("x", x), ("alpha", k)], [m, r]⟩ := by
  have bind : ∀ x k between, ((Found.nothing.note m).note r).bind? "x" x = some between →
      (between.bind? "alpha" k = some result ↔
        result = ⟨[("x", x), ("alpha", k)], [m, r]⟩) := by
    intro x k between eq
    obtain rfl : ⟨[("x", x)], [m, r]⟩ = between := Option.some.inj eq
    exact Option.some_inj.trans eq_comm
  rw [findArgs?_pair]
  simp only [find?_unary (by rfl : OpKind.relu.isCommutative = false), find?_any,
    find?_bound sound live]
  constructor
  · rintro ⟨between, ⟨relu, x, inputs, -, eq⟩, k, repeated, constant, last⟩
    exact ⟨x, k, ⟨relu, inputs, repeated, constant⟩, (bind x k between eq).mp last⟩
  · rintro ⟨x, k, ⟨relu, inputs, repeated, constant⟩, eq⟩
    have liveX := sound.closed.inputs r x (by simp [inputs])
    exact ⟨_, ⟨relu, x, inputs, liveX, rfl⟩, k, repeated, constant, (bind x k _ rfl).mpr eq⟩

end Pattern

namespace Normalize

/-- The bound of a rectified value is itself no rectifier. -/
theorem kind?_bound_ne (h : g.Bounds m r c x k) : g.kind? c ≠ some .relu := by
  rcases h.repeated with rfl | ⟨broadcast, -⟩
  · simp [h.bound]
  · simp [broadcast]

/-- The pattern is found at the minimums of a rectified value and a
constant. -/
theorem matchAt?_fuseBounded (sound : g.Sound) {n : Node} (hn : g.node? m = some n) :
    fuseBounded.pattern.matchAt? g m = some result ↔
      ∃ r c x k, g.Bounds m r c x k ∧ result = ⟨[("x", x), ("alpha", k)], [m, r]⟩ := by
  have hk := kind?_of_node? hn
  by_cases kind : n.kind = .minimum
  · obtain ⟨a, b, inputs, ha, hb⟩ := (sound.typed m n hn).minimum kind
    have operands : g.inputs m = [a, b] := (inputs_of_node? hn).trans inputs
    have match_eq : fuseBounded.pattern.find? g m .nothing = _ :=
      kind ▸ Pattern.find?_commutative hn inputs (by rw [kind]; rfl)
    rw [Pattern.matchAt?_eq, match_eq, Option.or_eq_some_iff,
      Pattern.findArgs?_bounded sound (isLive_of_type? hb),
      Pattern.findArgs?_bounded sound (isLive_of_type? ha)]
    rw [kind] at hk
    constructor
    · rintro (⟨x, k, ⟨relu, rectified, repeated, bound⟩, eq⟩ |
        ⟨-, x, k, ⟨relu, rectified, repeated, bound⟩, eq⟩)
      · exact ⟨a, b, x, k, ⟨hk, .inl operands, relu, rectified, repeated, bound⟩, eq⟩
      · exact ⟨b, a, x, k, ⟨hk, .inr operands, relu, rectified, repeated, bound⟩, eq⟩
    · rintro ⟨r, c, x, k, h, eq⟩
      rcases h.operands with order | order <;> rw [operands] at order
      · obtain ⟨rfl, rfl⟩ : a = r ∧ b = c := by simpa using order
        exact .inl ⟨x, k, ⟨h.relu, h.rectified, h.repeated, h.bound⟩, eq⟩
      · obtain ⟨rfl, rfl⟩ : a = c ∧ b = r := by simpa using order
        refine .inr ⟨?_, x, k, ⟨h.relu, h.rectified, h.repeated, h.bound⟩, eq⟩
        -- The first order is tried before; it finds nothing, since a bound is no rectifier.
        refine Option.eq_none_iff_forall_ne_some.mpr ?_
        intro other found
        obtain ⟨_, _, ⟨relu, -⟩, -⟩ :=
          (Pattern.findArgs?_bounded sound (isLive_of_type? hb)).mp found
        exact kind?_bound_ne h relu
  · have none : fuseBounded.pattern.matchAt? g m = none :=
      Pattern.matchAt?_of_kind_ne hn kind
    rw [none]
    simp only [reduceCtorEq, false_iff]
    rintro ⟨r, c, x, k, h, -⟩
    exact absurd (Option.some.inj (hk.symm.trans h.minimum)) kind

/-! ## Fusing one minimum

Whether a minimum that was found is fused is up to a test of three nodes. In a sound
graph the test is a property of the minimum (`uniformBound?_iff`). -/

variable {n nx nk : Node} {t : TensorType} {values : List Float} {value : Float}

theorem uniformBound?_eq_some :
    uniformBound? n nx nk = some value ↔
      n.type.elementType.isReal = true ∧ nk.type = nx.type ∧
        ∃ values, nk.op = .constant values ∧ Uniform values value := by
  unfold uniformBound? Uniform
  by_cases guard : (n.type.elementType.isReal && nk.type == nx.type) = true
  · rw [if_pos guard]
    simp only [Bool.and_eq_true, beq_iff_eq] at guard
    simp only [guard, true_and]
    rcases nk with ⟨op, _, _, _⟩
    cases op with
    | constant values =>
      rcases values with _ | ⟨first, rest⟩
      · simp [Node.constant?]
      · simp only [Node.constant?, Op.constant.injEq, exists_eq_left', List.head?_cons,
          Option.some.injEq, List.forall_mem_cons]
        constructor
        · intro h
          split at h
          · rename_i all
            simp only [Bool.and_eq_true, List.all_eq_true] at all
            obtain rfl := Option.some.inj h
            exact ⟨rfl, all.2, all.1⟩
          · cases h
        · rintro ⟨rfl, first, rest⟩
          simpa [first] using rest
    | _ => simp [Node.constant?]
  · rw [if_neg guard]
    simp only [Bool.and_eq_true, beq_iff_eq, not_and] at guard
    simp only [reduceCtorEq, false_iff]
    rintro ⟨real, type, -⟩
    exact guard real type

/-- In a sound graph, the test of the constant is that of the minimum. -/
theorem uniformBound?_iff (sound : g.Sound) (h : g.Bounds m r c x k) (hm : g.node? m = some n)
    (hx : g.node? x = some nx) (hk : g.node? k = some nk) :
    uniformBound? n nx nk = some value ↔
      ∃ t values, g.Clamps m r c x k t values ∧ Uniform values value := by
  have type : n.type = nx.type := by
    simpa [type?_of_node? hm, type?_of_node? hx] using (h.type?_minimum sound).1
  rw [uniformBound?_eq_some, type]
  constructor
  · rintro ⟨real, same, values, op, uniform⟩
    have constant := (sound.typed k nk hk).constant op
    rw [same] at constant
    exact ⟨nx.type, values, ⟨h, constant ▸ hk, type?_of_node? hx, real⟩, uniform⟩
  · rintro ⟨t, values, clamps, uniform⟩
    obtain rfl : nk = ⟨.constant values, t, [], 1⟩ :=
      Option.some.inj (hk.symm.trans clamps.constant)
    obtain rfl : nx.type = t := Option.some.inj ((type?_of_node? hx).symm.trans clamps.type)
    exact ⟨clamps.real, rfl, values, rfl, uniform⟩

/-- The rule tests the bound, and fuses the minimum if there is one. -/
theorem apply_run (hm : g.node? m = some n) (hx : g.node? x = some nx)
    (hk : g.node? k = some nk) :
    (fuseBounded.apply m ⟨[("x", x), ("alpha", k)], [m, r]⟩).run.run g =
      match uniformBound? n nx nk with
      | none => (.ok false, g)
      | some value => (do
          let fused ← change (Graph.boundedRelu x (.ofFloat value))
          change (Graph.replace m fused)
          return true : Edit Bool).run.run g := by
  have boundX : (bound ⟨[("x", x), ("alpha", k)], [m, r]⟩ "x").run.run g = (.ok x, g) := rfl
  have boundAlpha : (bound ⟨[("x", x), ("alpha", k)], [m, r]⟩ "alpha").run.run g =
      (.ok k, g) := rfl
  simp only [fuseBounded, run_bind_ok boundX, run_bind_ok boundAlpha, run_bind_ok (node_run hm),
    run_bind_ok (node_run hx), run_bind_ok (node_run hk)]
  cases uniformBound? n nx nk <;> rfl

/-- The node that takes the place of a minimum. -/
def fusedNode (x : NodeId) (t : TensorType) (value : Float) : Node :=
  ⟨.boundedRelu (.ofFloat value), t, [x], 1⟩

/-- A minimum with a uniform bound is fused. -/
theorem fuse_run (sound : g.Sound) (h : g.Clamps m r c x k t values)
    (uniform : Uniform values value) :
    ∃ g', (do
        let fused ← change (Graph.boundedRelu x (.ofFloat value))
        change (Graph.replace m fused)
        return true : Edit Bool).run.run g = (.ok true, g') ∧
      Substituted m (fusedNode x t value) g g' := by
  have typed : g.WellTyped (fusedNode x t value) := ⟨rfl, [t], by simp [fusedNode, h.type], rfl⟩
  obtain ⟨n, hn, kind⟩ := kind?_eq_some.mp h.minimum
  have through : ∀ y ∈ (fusedNode x t value).inputs, ∃ z ∈ g.inputs m, g.Reaches z y := by
    intro y hy
    rw [List.mem_singleton.mp hy]
    exact ⟨r, h.relu_mem, .head (by simp [h.rectified]) (.refl x)⟩
  have stands : (g.push (fusedNode x t value)).2.StandsFor g.size m :=
    .clamped (h.push _) uniform (node?_push_size _)
  obtain ⟨g', run, substituted⟩ := substitute_run sound typed rfl hn (by simp [kind]) through stands
  refine ⟨g', ?_, substituted⟩
  have pushed : (Graph.boundedRelu x (.ofFloat value)).run g =
      .ok (g.size, (g.push (fusedNode x t value)).2) := unary_ok h.type rfl
  rw [run_bind_ok (change_run pushed), run_bind_ok (change_run run)]
  rfl

/-! ## The step of the pass

The rules for products differ in the kind that they look for, and a node is of one
kind. So among all of them there is one placement, whichever rule comes first. -/

/-- A rule for products of a kind is found at all of them. -/
theorem matchAt?_rescaleProduct (sound : g.Sound) (hn : g.node? id = some n) {a b : NodeId}
    (inputs : n.inputs = [a, b]) :
    ∃ found, (rescaleProduct n.kind).pattern.matchAt? g id = some found := by
  have live : ∀ i ∈ n.inputs, ∃ m, g.node? i = some m := fun i hi =>
    isLive_iff.mp ((sound.typed id n hn).live_input hi)
  obtain ⟨na, ha⟩ := live a (by simp [inputs])
  obtain ⟨nb, hb⟩ := live b (by simp [inputs])
  have args : Pattern.findArgs? g [.any "a", .any "b"] [a, b] (Pattern.Found.nothing.note id) =
      some ⟨[("a", a), ("b", b)], [id]⟩ :=
    Pattern.findArgs?_pair.mpr ⟨⟨[("a", a)], [id]⟩, (Pattern.find?_label "a").mpr
      ⟨⟨na, ha, rfl⟩, rfl⟩, (Pattern.find?_label "b").mpr ⟨⟨nb, hb, rfl⟩, rfl⟩⟩
  refine ⟨⟨[("a", a), ("b", b)], [id]⟩, ?_⟩
  simp [Pattern.matchAt?_eq, rescaleProduct, Pattern.find?, hn, inputs, args]

theorem applyFirst_otherKinds (hn : g.node? id = some n) {kinds : List OpKind}
    (other : n.kind ∉ kinds) :
    (applyFirst (kinds.map rescaleProduct) id).run.run g = (.ok false, g) := by
  induction kinds with
  | nil => rfl
  | cons kind kinds ih =>
    obtain ⟨ne, other⟩ := not_or.mp (List.mem_cons.not.mp other)
    rw [List.map_cons, applyFirst_unmatched (isLive_of_node? hn), ih other]
    exact Pattern.matchAt?_of_kind_ne hn ne

/-- The rules for several kinds place one rescaling. -/
theorem applyFirst_rescaleProduct (sound : g.Sound) (hn : g.node? id = some n) {a b : NodeId}
    (inputs : n.inputs = [a, b]) {changed : Bool}
    (run : (ensureRescaleAfter id).run.run g = (.ok changed, g'))
    (same : changed = false → g' = g) {kinds : List OpKind} (mem : n.kind ∈ kinds) :
    (applyFirst (kinds.map rescaleProduct) id).run.run g = (.ok changed, g') := by
  have live := isLive_of_node? hn
  induction kinds with
  | nil => exact nomatch mem
  | cons kind kinds ih =>
    rw [List.map_cons]
    by_cases eq : n.kind = kind
    · subst eq
      obtain ⟨found, matched⟩ := matchAt?_rescaleProduct sound hn inputs
      cases changed with
      | true => exact applyFirst_applied live matched run
      | false =>
        obtain rfl := same rfl
        rw [applyFirst_declined live matched run]
        by_cases mem : n.kind ∈ kinds
        · exact ih mem
        · exact applyFirst_otherKinds hn mem
    · have unmatched : (rescaleProduct kind).pattern.matchAt? g id = none :=
        Pattern.matchAt?_of_kind_ne hn eq
      rw [applyFirst_unmatched live unmatched]
      exact ih ((List.mem_cons.mp mem).resolve_left eq)

end Normalize

/-! ## The pass -/

namespace Graph

/-- A minimum of a rectified value `x` and a constant of the real type of `x`
with at least one element, all of which compare equal. -/
def Fusable (g : Graph) (m : NodeId) : Prop :=
  ∃ r c x k t values value, g.Clamps m r c x k t values ∧ Uniform values value

theorem Edited.fusable (sound : g.Sound) (h : Edited g g') (fusable : g'.Fusable m) :
    g.Fusable m := by
  obtain ⟨r, c, x, k, t, values, value, clamps, uniform⟩ := fusable
  obtain ⟨y, clamps⟩ := h.clamps sound clamps
  exact ⟨r, c, y, k, t, values, value, clamps, uniform⟩

/-- What the pass makes true of a node. -/
structure Met (g : Graph) (id : NodeId) : Prop where
  settled : g.IsProduct id → g.Settled id
  unfusable : ¬ g.Fusable id

/-- Products stay settled when a minimum is fused: the value below it is that
of a rectifier, which a settled product is not. -/
theorem Substituted.settled {t : TensorType} {values : List Float} {n : Node}
    (h : Substituted m n g g') (clamps : g.Clamps m r c x k t values) (inputs : n.inputs = [x])
    (hp : g.IsProduct p) (settled : g.Settled p) : g'.Settled p := by
  obtain ⟨kind, hk, product⟩ := id hp
  obtain ⟨notResult, s, hs, users⟩ := settled
  obtain ⟨np, hnp, -⟩ := kind?_eq_some.mp hk
  have pm : p ≠ m := by
    rintro rfl
    obtain rfl := Option.some.inj (hk.symm.trans clamps.minimum)
    exact nomatch product
  have pNew : p ≠ g.size := Nat.ne_of_lt (lt_size_of_node? hnp)
  have px : p ≠ x := by
    rintro rfl
    obtain rfl := (users r).mp (by simp [clamps.rectified])
    exact nomatch Option.some.inj (hs.symm.trans clamps.relu)
  have sm : s ≠ m := by
    rintro rfl
    exact nomatch Option.some.inj (hs.symm.trans clamps.minimum)
  obtain ⟨ns, hns, -⟩ := kind?_eq_some.mp hs
  refine ⟨fun hr => notResult ((h.mem_results_iff pm pNew).mp hr), s, ?_, fun c => ?_⟩
  · rw [h.kind?_eq sm (Nat.ne_of_lt (lt_size_of_node? hns)), hs]
  · rw [h.mem_inputs_iff pm pNew, inputs, List.mem_singleton, users]
    constructor
    · rintro (⟨-, eq⟩ | ⟨-, eq⟩)
      · exact absurd eq px
      · exact eq
    · rintro rfl
      exact .inr ⟨sm, rfl⟩

/-- Fusing puts nothing below a rescaling that is one. -/
theorem Substituted.unchained {n : Node} (h : Substituted m n g g') (sound : g.Sound)
    (kind : n.kind ≠ .rescale) (unchained : g.Unchained) : g'.Unchained := by
  intro a ha i hi
  rcases h.mem_inputs hi with ⟨rfl, -⟩ | ⟨aOld, aNew, hi | ⟨rfl, -⟩⟩
  · rw [h.kind?_new] at ha
    exact absurd (Option.some.inj ha) kind
  · rw [h.kind?_eq aOld aNew] at ha
    have live := (h.edited.sound sound).closed.inputs a i ‹_›
    rw [h.kind?_eq (h.isLive_ne live) (Nat.ne_of_lt (sound.closed.lt_size hi))]
    exact unchained a ha i hi
  · rw [h.kind?_new]
    exact fun eq => kind (Option.some.inj eq)

end Graph

namespace Normalize

/-- What the pass does at one node. -/
structure Fusing (id : NodeId) (g g' : Graph) : Prop where
  edited : Edited g g'
  met : g'.Met id
  settled : ∀ q, g.IsProduct q → g.Settled q → g'.Settled q
  unchained : g.Unchained → g'.Unchained

theorem Fusing.keeps (h : Fusing id g g') (sound : g.Sound) {q : NodeId} (met : g.Met q) :
    g'.Met q where
  settled hq := h.settled q (h.edited.isProduct hq) (met.settled (h.edited.isProduct hq))
  unfusable fusable := met.unfusable (h.edited.fusable sound fusable)

/-- The rules of the pass. -/
def fuseRules : List Rule :=
  fuseBounded :: [.dot, .multiply, .convolution].map rescaleProduct

theorem isProduct_iff_mem {kind : OpKind} :
    kind.isProduct = true ↔ kind ∈ [OpKind.dot, .multiply, .convolution] := by
  cases kind <;> simp [OpKind.isProduct]

/-- Where no minimum is to be fused, a product is settled. -/
theorem productRules_run (sound : g.Sound) {n : Node} (hn : g.node? id = some n)
    (unfusable : ¬ g.Fusable id) :
    ∃ c g', (applyFirst ([.dot, .multiply, .convolution].map rescaleProduct) id).run.run g =
        (.ok c, g') ∧ Fusing id g g' ∧ (c = false → g' = g) ∧ (g.Met id → c = false) := by
  by_cases product : n.kind.isProduct = true
  · have hp : g.IsProduct id := ⟨n.kind, kind?_of_node? hn, product⟩
    obtain ⟨a, b, inputs⟩ := (sound.typed id n hn).product product
    have single := (sound.typed id n hn).outputs
    obtain ⟨c, g', run, ⟨placing, settled, -⟩, same⟩ :=
      ensureRescaleAfter_run sound.regular hn product single
    have edited := placing.edited
    refine ⟨c, g', applyFirst_rescaleProduct sound hn inputs run same
      (isProduct_iff_mem.mp product), ⟨edited, ⟨fun _ => settled, ?_⟩, ?_, placing.unchained⟩,
      same, ?_⟩
    · exact fun fusable => unfusable (edited.fusable sound fusable)
    · intro q hq before
      by_cases eq : q = id
      · exact eq ▸ settled
      · exact placing.settled hq.noRescale eq before
    · intro met
      have idle := ensureRescaleAfter_settled hn single (met.settled hp)
      exact Except.ok.inj (congrArg Prod.fst (run.symm.trans idle))
  · refine ⟨false, g, applyFirst_otherKinds hn fun mem => product (isProduct_iff_mem.mpr mem),
      ⟨.refl g, ⟨?_, unfusable⟩, fun _ _ h => h, fun h => h⟩, fun _ => rfl, fun _ => rfl⟩
    rintro ⟨kind, hk, isProduct⟩
    obtain rfl := Option.some.inj (hk.symm.trans (kind?_of_node? hn))
    exact absurd isProduct product

/-- Nothing is to be done where no node is. -/
theorem met_of_dead (dead : g.isLive id = false) : g.Met id where
  settled := by
    rintro ⟨kind, hk, -⟩
    obtain ⟨n, hn, -⟩ := kind?_eq_some.mp hk
    exact absurd (isLive_of_node? hn) (by simp [dead])
  unfusable := by
    rintro ⟨r, c, x, k, t, values, value, clamps, -⟩
    obtain ⟨n, hn, -⟩ := kind?_eq_some.mp clamps.minimum
    exact absurd (isLive_of_node? hn) (by simp [dead])

/-- A minimum that could be fused is found, and its test succeeds. -/
theorem matchAt?_of_fusable (sound : g.Sound) {n : Node} (hn : g.node? id = some n)
    (h : g.Fusable id) :
    ∃ r x k nx nk value, fuseBounded.pattern.matchAt? g id =
        some ⟨[("x", x), ("alpha", k)], [id, r]⟩ ∧
      g.node? x = some nx ∧ g.node? k = some nk ∧ uniformBound? n nx nk = some value := by
  obtain ⟨r, c, x, k, t, values, value, clamps, uniform⟩ := h
  obtain ⟨nx, hx, -⟩ := type?_eq_some.mp clamps.type
  refine ⟨r, x, k, nx, _, value, ?_, hx, clamps.constant, ?_⟩
  · exact (matchAt?_fuseBounded sound hn).mpr ⟨r, c, x, k, clamps.toBounds, rfl⟩
  · exact (uniformBound?_iff sound clamps.toBounds hn hx clamps.constant).mpr
      ⟨t, values, clamps, uniform⟩

/-- The pass meets one node. -/
theorem fuse_step (sound : g.Sound) (id : NodeId) :
    ∃ c g', (applyFirst fuseRules id).run.run g = (.ok c, g') ∧ Fusing id g g' ∧
      (c = false → g' = g) ∧ (g.Met id → c = false) := by
  cases live : g.isLive id with
  | false =>
    exact ⟨false, g, applyFirst_dead live,
      ⟨.refl g, met_of_dead live, fun _ _ h => h, fun h => h⟩, fun _ => rfl, fun _ => rfl⟩
  | true =>
    obtain ⟨n, hn⟩ := isLive_iff.mp live
    cases matched : fuseBounded.pattern.matchAt? g id with
    | none =>
      obtain ⟨c, g', run, rest⟩ := productRules_run sound hn fun fusable => by
        obtain ⟨r, x, k, nx, nk, value, found, -⟩ := matchAt?_of_fusable sound hn fusable
        cases matched.symm.trans found
      exact ⟨c, g', (applyFirst_unmatched live matched).trans run, rest⟩
    | some found =>
      obtain ⟨r, c, x, k, bounds, rfl⟩ := (matchAt?_fuseBounded sound hn).mp matched
      obtain ⟨nx, hx⟩ := isLive_iff.mp (sound.closed.inputs r x (by simp [bounds.rectified]))
      obtain ⟨nk, hk, -⟩ := kind?_eq_some.mp bounds.bound
      have apply := apply_run (r := r) hn hx hk
      -- The pattern is there. It is left for the other rules if its bound is not uniform.
      cases bound : uniformBound? n nx nk with
      | none =>
        rw [bound] at apply
        obtain ⟨c, g', run, rest⟩ := productRules_run sound hn fun fusable => by
          obtain ⟨r', x', k', nx', nk', value, found, hx', hk', some⟩ :=
            matchAt?_of_fusable sound hn fusable
          obtain ⟨⟨rfl, rfl⟩, -⟩ : (x = x' ∧ k = k') ∧ r = r' := by
            simpa using matched.symm.trans found
          obtain rfl := Option.some.inj (hx.symm.trans hx')
          obtain rfl := Option.some.inj (hk.symm.trans hk')
          cases bound.symm.trans some
        exact ⟨c, g', (applyFirst_declined live matched apply).trans run, rest⟩
      | some value =>
        rw [bound] at apply
        obtain ⟨t, values, clamps, uniform⟩ := (uniformBound?_iff sound bounds hn hx hk).mp bound
        obtain ⟨g', run, substituted⟩ := fuse_run sound clamps uniform
        refine ⟨true, g', applyFirst_applied live matched (apply.trans run),
          ⟨substituted.edited, met_of_dead (by simp [isLive, substituted.gone]), ?_, ?_⟩,
          by simp, fun met => absurd ⟨r, c, x, k, t, values, value, clamps, uniform⟩ met.unfusable⟩
        · exact fun q hq settled => substituted.settled clamps rfl hq settled
        · exact substituted.unchained sound (by simp [fusedNode, Node.kind, Op.kind])

/-- What is of a kind that is added needs nothing to be done. -/
theorem met_of_added {kind : OpKind} (hk : g.kind? id = some kind) (added : kind.isAdded = true) :
    g.Met id where
  settled := by
    rintro ⟨kind', hk', product⟩
    obtain rfl := Option.some.inj (hk.symm.trans hk')
    rw [OpKind.isProduct_of_isAdded added] at product
    exact nomatch product
  unfusable := by
    rintro ⟨r, c, x, k, t, values, value, clamps, -⟩
    obtain rfl := Option.some.inj (hk.symm.trans clamps.minimum)
    exact nomatch added

theorem fuse_eq {ids : List NodeId} (order : g.order = .ok ids) :
    fuse.run.run g = (sweep (applyFirst fuseRules) ids).run.run g := by
  rw [fuse, applyRules, run_bind_ok (order_run order)]
  rfl

/-- The state of the pass between two nodes: nothing is left to do at those that have
been met. -/
structure FusedAlong (g : Graph) (met : List NodeId) (h : Graph) : Prop where
  edited : Edited g h
  met : ∀ id ∈ met, h.Met id
  unchained : g.Unchained → h.Unchained

theorem fusedAlong_start (g : Graph) : FusedAlong g [] g where
  edited := .refl g
  met _ mem := nomatch mem
  unchained h := h

theorem fusedAlong_step (sound : g.Sound) {met : List NodeId} {h : Graph}
    (here : FusedAlong g met h) (id : NodeId) :
    ∃ c h', (applyFirst fuseRules id).run.run h = (.ok c, h') ∧ FusedAlong g (met ++ [id]) h' ∧
      (c = false → h' = h) := by
  have soundH := here.edited.sound sound
  obtain ⟨c, h', run, fusing, same, -⟩ := fuse_step soundH id
  refine ⟨c, h', run, ⟨here.edited.trans fusing.edited, fun q hq => ?_,
    fun unchained => fusing.unchained (here.unchained unchained)⟩, same⟩
  rcases List.mem_append.mp hq with hq | hq
  · exact fusing.keeps soundH (here.met q hq)
  · exact List.mem_singleton.mp hq ▸ fusing.met

/-- The pass settles the products that results depend on, and fuses what can
be fused. -/
theorem fuse_pass (sound : g.Sound) :
    ∃ c g', fuse.run.run g = (.ok c, g') ∧ Edited g g' ∧ (∀ id, g'.Needed id → g'.Met id) ∧
      (g.Unchained → g'.Unchained) ∧ (c = false → g' = g) := by
  obtain ⟨ids, eq, order⟩ := sound.order
  obtain ⟨c, g', run, ⟨edited, done, unchained⟩, same⟩ := sweep_run (P := FusedAlong g)
    (fun _ id _ _ _ here => fusedAlong_step sound here id) (fusedAlong_start g)
  refine ⟨c, g', (fuse_eq eq).trans run, edited, ?_, unchained, same⟩
  intro id needed
  rcases edited.needed sound.regular needed with before | ⟨kind, hk, added⟩
  · exact done id ((order.mem_iff id).mpr before)
  · exact met_of_added hk added

/-- Where nothing is to be done, the pass does nothing. -/
theorem fuse_idle (sound : g.Sound) (met : ∀ id, g.Needed id → g.Met id) :
    fuse.run.run g = (.ok false, g) := by
  obtain ⟨ids, eq, order⟩ := sound.order
  rw [fuse_eq eq]
  refine sweep_idle ?_
  intro id mem
  obtain ⟨c, g', run, -, same, idle⟩ := fuse_step sound id
  obtain rfl := idle (met id ((order.mem_iff id).mp mem))
  obtain rfl := same rfl
  exact run

end Normalize

end CipherFlow
