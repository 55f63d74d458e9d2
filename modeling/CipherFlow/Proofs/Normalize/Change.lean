import CipherFlow.Proofs.Graph.Retiring
import Mathlib.Data.List.Forall2

/-!
# What normalization may change

Every pass takes steps of four kinds: it appends a rescaling or a bounded
rectifier, moves uses of a node to one that stands for it, or retires what is
unused. What holds of graphs that are edited in this way is proved here, once
for every kind of step, and from there for all passes together.

Main lemmas: `Change.sound`, `Change.needed` and `Change.clamps`, each by cases on
the kind of step, with `Edited.sound` and so on for sequences of steps. A pass is
then described by the steps that it takes, and none of them goes back to the
invariants of graphs. `StandsFor` is what a step has to say of two nodes in order
that uses may move: the new one has the type of the old, and uses nothing that the
old did not depend on.
-/

namespace CipherFlow

/-- The kinds of the nodes that normalization appends. -/
def OpKind.isAdded : OpKind → Bool
  | .rescale | .boundedRelu => true
  | _ => false

theorem OpKind.isProduct_of_isAdded {kind : OpKind} (h : kind.isAdded = true) :
    kind.isProduct = false := by
  cases kind <;> simp_all [isAdded, isProduct]

namespace Graph

variable {g g' g'' : Graph} {old new m r c x k : NodeId} {moves : NodeId → Bool}
  {t : TensorType} {values : List Float} {value : Float}

/-! ## Nodes that stand for others -/

/-- A node is a rescaling of another. -/
structure Rescales (g : Graph) (id x : NodeId) : Prop where
  kind : g.kind? id = some .rescale
  inputs : g.inputs id = [x]

/-- A live product of two operands. -/
def IsProduct (g : Graph) (id : NodeId) : Prop :=
  ∃ kind, g.kind? id = some kind ∧ kind.isProduct = true

/-- A node is the minimum of a rectified value `x` and a constant `k`, in
either order. The constant may be repeated to a shape. -/
structure Bounds (g : Graph) (m r c x k : NodeId) : Prop where
  minimum : g.kind? m = some .minimum
  operands : g.inputs m = [r, c] ∨ g.inputs m = [c, r]
  relu : g.kind? r = some .relu
  rectified : g.inputs r = [x]
  repeated : c = k ∨ g.kind? c = some .broadcast ∧ g.inputs c = [k]
  bound : g.kind? k = some .constant

/-- The constant has the type of the value `x`, a real one, and given
elements. -/
structure Clamps (g : Graph) (m r c x k : NodeId) (t : TensorType) (values : List Float) : Prop
    extends g.Bounds m r c x k where
  constant : g.node? k = some ⟨.constant values, t, [], 1⟩
  type : g.type? x = some t
  real : t.elementType.isReal = true

/-- The values of a constant compare equal to the first of them. -/
def Uniform (values : List Float) (value : Float) : Prop :=
  values.head? = some value ∧ ∀ v ∈ values, (v == value) = true

/-- One node can take the place of another. -/
inductive StandsFor (g : Graph) (new old : NodeId) : Prop where
  | rescaling : g.Rescales new old → g.IsProduct old → StandsFor g new old
  | duplicate {x : NodeId} : g.Rescales old x → g.Rescales new x → StandsFor g new old
  | merged {r x : NodeId} : g.Rescales old r → g.Rescales r x → g.Rescales new x →
      StandsFor g new old
  | clamped {r c x k : NodeId} {t : TensorType} {values : List Float} {value : Float} :
      g.Clamps old r c x k t values → Uniform values value →
      g.node? new = some ⟨.boundedRelu (.ofFloat value), t, [x], 1⟩ → StandsFor g new old

theorem Rescales.mem_inputs (h : g.Rescales m x) : x ∈ g.inputs m := by
  rw [h.inputs]
  exact List.mem_singleton_self x

theorem Rescales.type? (sound : g.Sound) (h : g.Rescales m x) : g.type? x = g.type? m := by
  obtain ⟨n, hn, kind⟩ := kind?_eq_some.mp h.kind
  obtain ⟨y, eq, hy⟩ := (sound.typed m n hn).keeps (by rw [kind]; rfl)
  obtain rfl : x = y := by simpa [h.inputs, eq] using inputs_of_node? hn
  rw [hy, type?_of_node? hn]

theorem Bounds.relu_mem (h : g.Bounds m r c x k) : r ∈ g.inputs m := by
  rcases h.operands with eq | eq <;> simp [eq]

theorem Bounds.bound_mem (h : g.Bounds m r c x k) : c ∈ g.inputs m := by
  rcases h.operands with eq | eq <;> simp [eq]

/-- A rectifier keeps the type. -/
theorem Bounds.type?_relu (sound : g.Sound) (h : g.Bounds m r c x k) :
    g.type? r = g.type? x := by
  obtain ⟨n, hn, kind⟩ := kind?_eq_some.mp h.relu
  obtain ⟨y, eq, hy⟩ := (sound.typed r n hn).keeps (by rw [kind]; rfl)
  obtain rfl : x = y := by simpa [h.rectified, eq] using inputs_of_node? hn
  rw [type?_of_node? hn, hy]

/-- So does the minimum, whose operands have one type. -/
theorem Bounds.type?_minimum (sound : g.Sound) (h : g.Bounds m r c x k) :
    g.type? m = g.type? x ∧ g.type? c = g.type? x := by
  obtain ⟨n, hn, kind⟩ := kind?_eq_some.mp h.minimum
  obtain ⟨a, b, eq, ha, hb⟩ := (sound.typed m n hn).minimum kind
  have relu := h.type?_relu sound
  have inputs := inputs_of_node? hn
  rw [type?_of_node? hn, ← relu]
  rcases h.operands with order | order <;> rw [order, eq] at inputs
  · obtain ⟨rfl, rfl⟩ : r = a ∧ c = b := by simpa using inputs
    exact ⟨ha.symm, hb.trans ha.symm⟩
  · obtain ⟨rfl, rfl⟩ : c = a ∧ r = b := by simpa using inputs
    exact ⟨hb.symm, ha.trans hb.symm⟩

theorem StandsFor.added (h : g.StandsFor new old) : ∃ k, g.kind? new = some k ∧ k.isAdded := by
  cases h with
  | rescaling h _ => exact ⟨_, h.kind, rfl⟩
  | duplicate _ h => exact ⟨_, h.kind, rfl⟩
  | merged _ _ h => exact ⟨_, h.kind, rfl⟩
  | clamped _ _ h => exact ⟨_, kind?_of_node? h, rfl⟩

theorem StandsFor.isLive (h : g.StandsFor new old) : g.isLive new = true := by
  obtain ⟨k, kind, -⟩ := h.added
  obtain ⟨n, hn, -⟩ := kind?_eq_some.mp kind
  exact isLive_of_node? hn

theorem StandsFor.type? (sound : g.Sound) (h : g.StandsFor new old) :
    g.type? new = g.type? old := by
  cases h with
  | rescaling h _ => exact (h.type? sound).symm
  | duplicate ho hn => rw [← ho.type? sound, ← hn.type? sound]
  | merged ho hr hn => rw [← ho.type? sound, ← hr.type? sound, ← hn.type? sound]
  | clamped h _ hn => rw [type?_of_node? hn, (h.type?_minimum sound).1, h.type]

/-- The new node uses only what the old one depends on. -/
theorem StandsFor.below (h : g.StandsFor new old) : ∀ x ∈ g.inputs new, g.Reaches old x := by
  intro y hy
  cases h with
  | rescaling h _ =>
    rw [h.inputs, List.mem_singleton] at hy
    exact hy ▸ .refl _
  | duplicate ho hn =>
    rw [hn.inputs, List.mem_singleton] at hy
    exact hy ▸ .head ho.mem_inputs (.refl _)
  | merged ho hr hn =>
    rw [hn.inputs, List.mem_singleton] at hy
    exact hy ▸ .head ho.mem_inputs (.head hr.mem_inputs (.refl _))
  | clamped h _ hn =>
    rw [inputs_of_node? hn, List.mem_singleton] at hy
    exact hy ▸ .head h.relu_mem (.head (by simp [h.rectified]) (.refl _))

/-! ## Steps -/

/-- One step of an edit. -/
inductive Change (g g' : Graph) : Prop where
  | append (n : Node) : g.WellTyped n → n.kind.isAdded → g' = (g.push n).2 → Change g g'
  | rewire (old new : NodeId) (moves : NodeId → Bool) : Rewired old new moves g g' →
      moves new = false → g.StandsFor new old → Change g g'
  | retire (gone : NodeId → Prop) : Retired gone g g' → Change g g'

/-- A graph has been edited step by step. -/
def Edited : Graph → Graph → Prop :=
  Relation.ReflTransGen Change

theorem Edited.refl (g : Graph) : Edited g g :=
  Relation.ReflTransGen.refl

theorem Edited.trans (h : Edited g g') (h' : Edited g' g'') : Edited g g'' :=
  Relation.ReflTransGen.trans h h'

theorem Change.edited (h : Change g g') : Edited g g' :=
  Relation.ReflTransGen.single h

theorem Change.sound (h : Change g g') (sound : g.Sound) : g'.Sound := by
  cases h with
  | append n typed _ eq => exact eq ▸ sound.push typed
  | rewire old new moves h fixed stands =>
    exact h.sound sound (stands.type? sound) stands.isLive fun _ m user =>
      Rewired.apart sound.acyclic stands.below fixed m user
  | retire gone h => exact h.sound sound

theorem Change.regular (h : Change g g') (regular : g.Regular) : g'.Regular := by
  cases h with
  | append n typed _ eq =>
    subst eq
    refine regular.push (fun _ hi => typed.live_input hi) fun kind => ?_
    obtain ⟨x, inputs, -⟩ := typed.keeps (by rw [kind]; rfl)
    exact ⟨x, inputs⟩
  | rewire old new moves h fixed stands =>
    exact h.regular regular stands.isLive fun _ m user =>
      Rewired.apart regular.acyclic stands.below fixed m user
  | retire gone h => exact h.regular regular

theorem Change.parameters (h : Change g g') : g'.parameters = g.parameters := by
  cases h with
  | append n _ _ eq => rw [eq, parameters_push]
  | rewire old new moves h => exact h.parameters
  | retire gone h => exact h.parameters

theorem Change.size_le (h : Change g g') : g.size ≤ g'.size := by
  cases h with
  | append n _ _ eq => rw [eq, size_push]; exact Nat.le_succ _
  | rewire old new moves h => exact Nat.le_of_eq h.size.symm
  | retire gone h => exact Nat.le_of_eq h.size.symm

/-- A node had its kind before, or it is new. -/
theorem Change.kind? (h : Change g g') {id : NodeId} {kind : OpKind}
    (hk : g'.kind? id = some kind) :
    g.kind? id = some kind ∨ (g.size ≤ id ∧ kind.isAdded) := by
  cases h with
  | append n _ added eq =>
    subst eq
    by_cases new : id = g.size
    · subst new
      rw [kind?_of_node? (node?_push_size n)] at hk
      exact .inr ⟨Nat.le_refl _, Option.some.inj hk ▸ added⟩
    · rw [Graph.kind?, node?_push_of_ne n new] at hk
      exact .inl hk
  | rewire old new moves h => exact .inl (h.kind? id ▸ hk)
  | retire gone h =>
    obtain ⟨n, hn, kind⟩ := kind?_eq_some.mp hk
    exact .inl (kind?_eq_some.mpr ⟨n, h.node?_of_some hn, kind⟩)

/-- What is needed was needed before, or it is of a kind that is added. -/
theorem Change.needed (regular : g.Regular) (h : Change g g') {id : NodeId}
    (needed : g'.Needed id) :
    g.Needed id ∨ ∃ kind, g'.kind? id = some kind ∧ kind.isAdded := by
  cases h with
  | append n typed added eq =>
    subst eq
    exact .inl (needed_of_push regular.closed needed)
  | rewire old new moves h fixed stands =>
    rcases h.needed stands.below fixed needed with before | ⟨rfl, -⟩
    · exact .inl before
    · obtain ⟨kind, hk, added⟩ := stands.added
      exact .inr ⟨kind, (h.kind? id).trans hk, added⟩
  | retire gone h => exact .inl (h.needed_iff.mp needed)

/-! ## Edited graphs -/

theorem Edited.sound (h : Edited g g') (sound : g.Sound) : g'.Sound := by
  induction h with
  | refl => exact sound
  | tail _ step ih => exact step.sound ih

theorem Edited.regular (h : Edited g g') (regular : g.Regular) : g'.Regular := by
  induction h with
  | refl => exact regular
  | tail _ step ih => exact step.regular ih

theorem Edited.parameters (h : Edited g g') : g'.parameters = g.parameters := by
  induction h with
  | refl => rfl
  | tail _ step ih => rw [step.parameters, ih]

theorem Edited.size_le (h : Edited g g') : g.size ≤ g'.size := by
  induction h with
  | refl => exact Nat.le_refl _
  | tail _ step ih => exact Nat.le_trans ih step.size_le

theorem Edited.kind? (h : Edited g g') {id : NodeId} {kind : OpKind}
    (hk : g'.kind? id = some kind) :
    g.kind? id = some kind ∨ (g.size ≤ id ∧ kind.isAdded) := by
  induction h with
  | refl => exact .inl hk
  | tail before step ih =>
    rcases step.kind? hk with hk | ⟨le, added⟩
    · exact ih hk
    · exact .inr ⟨Nat.le_trans (Edited.size_le before) le, added⟩

/-- Products were there before. -/
theorem Edited.isProduct (h : Edited g g') {p : NodeId} (hp : g'.IsProduct p) :
    g.IsProduct p := by
  obtain ⟨kind, hk, product⟩ := hp
  rcases h.kind? hk with before | ⟨-, added⟩
  · exact ⟨kind, before, product⟩
  · rw [OpKind.isProduct_of_isAdded added] at product
    exact nomatch product

/-- A node of before that is still live has its kind. -/
theorem Edited.kind?_eq (h : Edited g g') {id : NodeId} (inside : id < g.size)
    (live : g'.isLive id = true) : g'.kind? id = g.kind? id := by
  obtain ⟨n, hn⟩ := isLive_iff.mp live
  have hk := kind?_of_node? hn
  rcases h.kind? hk with before | ⟨le, -⟩
  · rw [hk, before]
  · exact absurd inside (Nat.not_lt.mpr le)

/-- So has a node that used something before and uses something now. -/
theorem Edited.kind?_of_user (h : Edited g g') {q q' : NodeId} (before : q ∈ g.inputs c)
    (after : q' ∈ g'.inputs c) : g'.kind? c = g.kind? c := by
  obtain ⟨n, hn, -⟩ := Graph.mem_inputs.mp before
  obtain ⟨n', hn', -⟩ := Graph.mem_inputs.mp after
  exact h.kind?_eq (lt_size_of_node? hn) (isLive_of_node? hn')

theorem Edited.needed (regular : g.Regular) (h : Edited g g') {id : NodeId}
    (needed : g'.Needed id) :
    g.Needed id ∨ ∃ kind, g'.kind? id = some kind ∧ kind.isAdded := by
  induction h with
  | refl => exact .inl needed
  | tail before step ih =>
    rename_i g₁ g₂
    have regular₁ : g₁.Regular := Edited.regular before regular
    rcases step.needed regular₁ needed with needed₁ | added
    · rcases ih needed₁ with needed₀ | ⟨k, hk, added⟩
      · exact .inl needed₀
      · obtain ⟨n, hn⟩ := isLive_iff.mp ((step.regular regular₁).closed.isLive_of_needed needed)
        have hn := kind?_of_node? hn
        rcases step.kind? hn with same | ⟨-, added⟩
        · obtain rfl := Option.some.inj (hk.symm.trans same)
          exact .inr ⟨_, hn, added⟩
        · exact .inr ⟨_, hn, added⟩
    · exact .inr added

/-- What is needed was needed before, if it is of another kind than those that are
added. -/
theorem Edited.needed_of_kind (regular : g.Regular) (h : Edited g g') {id : NodeId}
    {kind : OpKind} (needed : g'.Needed id) (hk : g'.kind? id = some kind)
    (notAdded : kind.isAdded = false) : g.Needed id := by
  rcases h.needed regular needed with before | ⟨kind', hk', added⟩
  · exact before
  · obtain rfl := Option.some.inj (hk.symm.trans hk')
    exact nomatch notAdded.symm.trans added

/-! ## Minimums that could be fused -/

/-- An operand after a step is the operand of before, or it is of a kind that
is added; its type is the same. -/
structure Follows (g g' : Graph) (i i' : NodeId) : Prop where
  type : g'.type? i' = g.type? i
  same : i' = i ∨ ∃ kind, g'.kind? i' = some kind ∧ kind.isAdded

theorem Follows.eq {i i' : NodeId} (h : Follows g g' i i') {kind : OpKind}
    (hk : g'.kind? i' = some kind) (notAdded : kind.isAdded = false) : i' = i := by
  rcases h.same with eq | ⟨kind', hk', added⟩
  · exact eq
  · obtain rfl := Option.some.inj (hk.symm.trans hk')
    rw [notAdded] at added
    exact nomatch added

/-- A node of another kind than those that are added was there before, with
operands that the present ones follow. -/
theorem Change.node (sound : g.Sound) (h : Change g g') {id : NodeId} {n' : Node}
    (hn' : g'.node? id = some n') (notAdded : n'.kind.isAdded = false) :
    ∃ inputs, g.node? id = some { n' with inputs } ∧
      List.Forall₂ (Follows g g') inputs n'.inputs := by
  cases h with
  | append n _ added eq =>
    subst eq
    rw [node?_push] at hn'
    split at hn'
    · rw [Option.some.inj hn', notAdded] at added
      exact nomatch added
    · refine ⟨n'.inputs, hn', List.forall₂_same.mpr fun i hi => ⟨?_, .inl rfl⟩⟩
      obtain ⟨k, hk⟩ := isLive_iff.mp ((sound.typed id n' hn').live_input hi)
      rw [type?_of_node? hk, type?_push_of_some n (type?_of_node? hk)]
  | rewire old new moves h _ stands =>
    rw [h.node?] at hn'
    obtain ⟨n, hn, rfl⟩ := Option.map_eq_some_iff.mp hn'
    refine ⟨n.inputs, ?_, ?_⟩
    · rw [hn]
      by_cases m : moves id <;> simp [m, Node.redirect]
    · have follows : ∀ i, Follows g g' i (renamed old new i) := by
        intro i
        by_cases eq : i = old
        · subst eq
          rw [renamed_old]
          obtain ⟨kind, hk, added⟩ := stands.added
          exact ⟨(h.type? new).trans (stands.type? sound),
            .inr ⟨kind, (h.kind? new).trans hk, added⟩⟩
        · rw [renamed_of_ne eq]
          exact ⟨h.type? i, .inl rfl⟩
      by_cases m : moves id
      · rw [if_pos m, redirect_inputs, List.forall₂_map_right_iff]
        exact List.forall₂_same.mpr fun i _ => follows i
      · rw [if_neg m]
        exact List.forall₂_same.mpr fun i _ => ⟨h.type? i, .inl rfl⟩
  | retire gone h =>
    refine ⟨n'.inputs, h.node?_of_some hn', List.forall₂_same.mpr fun i hi => ⟨?_, .inl rfl⟩⟩
    exact h.type?_of_left (h.unused id (h.left_of_node? hn') i
      (inputs_of_node? (h.node?_of_some hn') ▸ hi))

/-- The same in terms of kinds and operands. -/
theorem Change.inputs (sound : g.Sound) (h : Change g g') {id : NodeId} {kind : OpKind}
    (hk : g'.kind? id = some kind) (notAdded : kind.isAdded = false) :
    g.kind? id = some kind ∧ List.Forall₂ (Follows g g') (g.inputs id) (g'.inputs id) := by
  obtain ⟨n', hn', rfl⟩ := kind?_eq_some.mp hk
  obtain ⟨inputs, hn, follows⟩ := h.node sound hn' notAdded
  rw [inputs_of_node? hn, inputs_of_node? hn']
  exact ⟨(kind?_of_node? hn).trans rfl, follows⟩

theorem Change.operand (sound : g.Sound) (h : Change g g') {id i' : NodeId} {kind : OpKind}
    (hk : g'.kind? id = some kind) (notAdded : kind.isAdded = false)
    (inputs : g'.inputs id = [i']) : ∃ i, g.inputs id = [i] ∧ Follows g g' i i' := by
  obtain ⟨-, follows⟩ := h.inputs sound hk notAdded
  rw [inputs] at follows
  obtain ⟨i, rest, hi, hrest, eq⟩ := List.forall₂_cons_right_iff.mp follows
  rw [List.forall₂_nil_right_iff] at hrest
  exact ⟨i, by rw [eq, hrest], hi⟩

theorem Change.operands (sound : g.Sound) (h : Change g g') {id a b : NodeId} {kind : OpKind}
    (hk : g'.kind? id = some kind) (notAdded : kind.isAdded = false)
    (inputs : g'.inputs id = [a, b]) (ha : ∃ k, g'.kind? a = some k ∧ k.isAdded = false)
    (hb : ∃ k, g'.kind? b = some k ∧ k.isAdded = false) : g.inputs id = [a, b] := by
  obtain ⟨-, follows⟩ := h.inputs sound hk notAdded
  rw [inputs] at follows
  obtain ⟨a', rest, fa, frest, eq⟩ := List.forall₂_cons_right_iff.mp follows
  obtain ⟨b', rest', fb, fnil, rfl⟩ := List.forall₂_cons_right_iff.mp frest
  rw [List.forall₂_nil_right_iff] at fnil
  obtain ⟨_, hka, na⟩ := ha
  obtain ⟨_, hkb, nb⟩ := hb
  rw [eq, fnil, fa.eq hka na, fb.eq hkb nb]

/-- A minimum of a rectified value and a constant was one before. -/
theorem Change.clamps (sound : g.Sound) (h : Change g g')
    (clamps : g'.Clamps m r c x k t values) : ∃ y, g.Clamps m r c y k t values := by
  obtain ⟨y, rectified, follows⟩ := h.operand sound clamps.relu rfl clamps.rectified
  obtain ⟨inputs, constant, noInputs⟩ := h.node sound clamps.constant rfl
  obtain rfl := List.forall₂_nil_right_iff.mp noInputs
  have hr : ∃ k, g'.kind? r = some k ∧ k.isAdded = false := ⟨_, clamps.relu, rfl⟩
  have hc : ∃ k, g'.kind? c = some k ∧ k.isAdded = false := by
    rcases clamps.repeated with rfl | ⟨broadcast, -⟩
    · exact ⟨_, clamps.bound, rfl⟩
    · exact ⟨_, broadcast, rfl⟩
  refine ⟨y, {
    minimum := (h.inputs sound clamps.minimum rfl).1
    operands := ?_
    relu := (h.inputs sound clamps.relu rfl).1
    rectified
    repeated := ?_
    bound := (h.inputs sound clamps.bound rfl).1
    constant
    type := follows.type.symm.trans clamps.type
    real := clamps.real }⟩
  · exact clamps.operands.imp (fun eq => h.operands sound clamps.minimum rfl eq hr hc)
      fun eq => h.operands sound clamps.minimum rfl eq hc hr
  · refine clamps.repeated.imp_right fun ⟨broadcast, eq⟩ => ?_
    obtain ⟨i, hi, follows⟩ := h.operand sound broadcast rfl eq
    exact ⟨(h.inputs sound broadcast rfl).1, by rw [hi, follows.eq clamps.bound rfl]⟩

theorem Edited.clamps (sound : g.Sound) (h : Edited g g')
    (clamps : g'.Clamps m r c x k t values) : ∃ y, g.Clamps m r c y k t values := by
  induction h generalizing x with
  | refl => exact ⟨x, clamps⟩
  | tail before step ih =>
    obtain ⟨y, clamps⟩ := step.clamps (Edited.sound before sound) clamps
    exact ih clamps

end Graph

end CipherFlow
