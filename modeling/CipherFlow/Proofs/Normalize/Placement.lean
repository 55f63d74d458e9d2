import CipherFlow.Proofs.Graph.Built
import CipherFlow.Proofs.Normalize.Change
import CipherFlow.Proofs.Normalize.Sweep

/-!
# Placing a rescaling after a product

A product is settled if it is no result and one rescaling is all that uses
it. Placing a rescaling settles a product. It touches rescalings and uses of
this product only, so products that were settled before stay so, and it does
not put a rescaling below another.

`ensureRescaleAfter_run` is the result, and `ensureRescaleAfter_settled` its
converse: nothing is done twice.

A placement is a handful of steps on the graph, each with a lemma for what it comes
to (`replace_duplicate`, `redirectConsumers_run`, `redirectTo_run`). There are three
situations, one lemma for each: no rescaling uses the product (`place_new`), one is
all that does (`place_result`), or there are more (`place_existing`). `Placing` is
what all of this keeps, and it is transitive.
-/

namespace CipherFlow

namespace Graph

variable {g g' g'' : Graph} {p q k d keep old new : NodeId} {moves : NodeId → Bool}

/-- A product that one rescaling uses, and nothing else. -/
def Settled (g : Graph) (p : NodeId) : Prop :=
  p ∉ g.results ∧ ∃ k, g.kind? k = some .rescale ∧ ∀ c, p ∈ g.inputs c ↔ c = k

/-- The list of its consumers has one entry. -/
theorem Settled.exists_consumer (h : g.Settled p) :
    ∃ k, g.consumers p = [k] ∧ g.kind? k = some .rescale := by
  obtain ⟨-, k, hk, users⟩ := h
  exact ⟨k, consumers_eq_singleton.mpr users, hk⟩

/-- No rescaling is an operand of another. -/
def Unchained (g : Graph) : Prop :=
  ∀ a, g.kind? a = some .rescale → ∀ i ∈ g.inputs a, g.kind? i ≠ some .rescale

/-- A live node that is no rescaling. -/
def NoRescale (g : Graph) (id : NodeId) : Prop :=
  ∃ kind, g.kind? id = some kind ∧ kind ≠ .rescale

theorem IsProduct.noRescale (hp : g.IsProduct p) : g.NoRescale p := by
  obtain ⟨kind, hk, product⟩ := hp
  exact ⟨kind, hk, fun eq => by rw [eq] at product; exact nomatch product⟩

theorem NoRescale.ne (hq : g.NoRescale q) (hk : g.kind? k = some .rescale) : q ≠ k := by
  rintro rfl
  obtain ⟨kind, h, ne⟩ := hq
  exact ne (Option.some.inj (h.symm.trans hk))

theorem NoRescale.kind?_ne (hq : g.NoRescale q) : g.kind? q ≠ some .rescale :=
  fun hk => hq.ne hk rfl

/-- An edit that concerns rescalings and uses of one node. -/
structure Placing (p : NodeId) (g g' : Graph) : Prop where
  edited : Edited g g'
  node : ∀ q n, n.kind ≠ .rescale → g.node? q = some n →
    ∃ inputs, g'.node? q = some { n with inputs }
  uses : ∀ q, g.NoRescale q → q ≠ p → ∀ c, q ∈ g'.inputs c ↔ q ∈ g.inputs c
  results : ∀ q, g.NoRescale q → q ≠ p → (q ∈ g'.results ↔ q ∈ g.results)
  unchained : g.Unchained → g'.Unchained

theorem Placing.kind? (h : Placing p g g') {kind : OpKind} (ne : kind ≠ .rescale)
    (hk : g.kind? q = some kind) : g'.kind? q = some kind := by
  obtain ⟨n, hn, rfl⟩ := kind?_eq_some.mp hk
  obtain ⟨inputs, hn'⟩ := h.node q n ne hn
  exact (kind?_of_node? hn').trans rfl

/-- A placement makes no node a rescaling. -/
theorem Placing.noRescale (h : Placing p g g') (hq : g.NoRescale q) : g'.NoRescale q := by
  obtain ⟨kind, hk, ne⟩ := hq
  exact ⟨kind, h.kind? ne hk, ne⟩

theorem Placing.isProduct (h : Placing p g g') (hq : g.IsProduct q) : g'.IsProduct q := by
  obtain ⟨kind, hk, product⟩ := hq
  refine ⟨kind, h.kind? ?_ hk, product⟩
  rintro rfl
  exact nomatch product

theorem Placing.refl (p : NodeId) (g : Graph) : Placing p g g where
  edited := .refl g
  node _ n _ hn := ⟨n.inputs, hn⟩
  uses _ _ _ _ := Iff.rfl
  results _ _ _ := Iff.rfl
  unchained h := h

theorem Placing.trans (h : Placing p g g') (h' : Placing p g' g'') : Placing p g g'' where
  edited := h.edited.trans h'.edited
  node q n ne hn := by
    obtain ⟨inputs, hn⟩ := h.node q n ne hn
    exact h'.node q { n with inputs } ne hn
  uses q hq ne c := (h'.uses q (h.noRescale hq) ne c).trans (h.uses q hq ne c)
  results q hq ne := (h'.results q (h.noRescale hq) ne).trans (h.results q hq ne)
  unchained u := h'.unchained (h.unchained u)

/-- Other products stay settled. -/
theorem Placing.settled (h : Placing p g g') (hq : g.NoRescale q) (ne : q ≠ p)
    (settled : g.Settled q) : g'.Settled q := by
  obtain ⟨notResult, k, hk, users⟩ := settled
  have users' : ∀ c, q ∈ g'.inputs c ↔ c = k := fun c => (h.uses q hq ne c).trans (users c)
  have same := h.edited.kind?_of_user ((users k).mpr rfl) ((users' k).mpr rfl)
  exact ⟨fun hr => notResult ((h.results q hq ne).mp hr), k, same.trans hk, users'⟩

/-- No rescaling uses the node. -/
def Bare (g : Graph) (id : NodeId) : Prop :=
  ∀ c, id ∈ g.inputs c → g.kind? c ≠ some .rescale

/-- What comes of a placement: the product is settled, and at most one node has
been appended, a rescaling of a product that no rescaling used before. -/
structure Placed (p : NodeId) (g g' : Graph) : Prop where
  placing : Placing p g g'
  settled : g'.Settled p
  appended : g'.size = g.size ∨ g'.size = g.size + 1 ∧ g'.Rescales g.size p ∧ g.Bare p

/-! ## Steps of a placement

A placement appends a rescaling, moves uses to a rescaling, or retires one that has
become useless. Each of these is a `Placing`. -/

/-- What uses a node and is a rescaling is a rescaling of it. -/
theorem Regular.rescales (regular : g.Regular) {c : NodeId} (hc : g.kind? c = some .rescale)
    (user : p ∈ g.inputs c) : g.Rescales c p := by
  obtain ⟨x, inputs⟩ := regular.rescale c hc
  obtain rfl : p = x := by simpa [inputs] using user
  exact ⟨hc, inputs⟩

/-- A new rescaling of the product is appended. -/
theorem placing_push {n : Node} (closed : g.Closed) (typed : g.WellTyped n)
    (kind : n.kind = .rescale) (inputs : n.inputs = [p]) (hp : g.NoRescale p) :
    Placing p g (g.push n).2 where
  edited := (Change.append n typed (by rw [kind]; rfl) rfl).edited
  node _ m _ hm := ⟨m.inputs, node?_push_of_some n hm⟩
  uses := by
    intro q hq ne c
    by_cases new : c = g.size
    · subst new
      rw [inputs_of_node? (node?_push_size n), inputs, Graph.inputs,
        node?_eq_none_of_size_le (Nat.le_refl _)]
      simp [ne]
    · rw [inputs_push_of_ne n new]
  results _ _ _ := Iff.rfl
  unchained := by
    intro unchained a ha i hi
    by_cases new : a = g.size
    · subst new
      rw [inputs_of_node? (node?_push_size n), inputs, List.mem_singleton] at hi
      subst hi
      obtain ⟨k, hk, ne⟩ := hp
      obtain ⟨m, hm, rfl⟩ := kind?_eq_some.mp hk
      rw [kind?_of_node? (node?_push_of_some n hm)]
      exact fun eq => ne (Option.some.inj eq)
    · rw [inputs_push_of_ne n new] at hi
      rw [Graph.kind?, node?_push_of_ne n new] at ha
      obtain ⟨m, hm⟩ := isLive_iff.mp (closed.inputs a i hi)
      rw [kind?_of_node? (node?_push_of_some n hm), ← kind?_of_node? hm]
      exact unchained a ha i hi

/-- Uses of the node, or of a rescaling, move to a rescaling; unless there
were chains before, none of them is made by a rescaling. -/
theorem placing_rewired (h : Rewired old new moves g g') (fixed : moves new = false)
    (stands : g.StandsFor new old) (hnew : g.kind? new = some .rescale)
    (hold : old = p ∨ g.kind? old = some .rescale)
    (users : g.Unchained → ∀ a, moves a = true → old ∈ g.inputs a →
      g.kind? a ≠ some .rescale) : Placing p g g' where
  edited := (Change.rewire old new moves h fixed stands).edited
  node q n _ hn := by
    rw [h.node?, hn]
    by_cases m : moves q
    · exact ⟨_, by rw [Option.map_some, if_pos m, Node.redirect]⟩
    · exact ⟨n.inputs, by rw [Option.map_some, if_neg m]⟩
  uses := by
    intro q hq ne c
    refine h.mem_inputs_iff ?_ (hq.ne hnew)
    rcases hold with rfl | hold
    · exact ne
    · exact hq.ne hold
  results := by
    intro q hq ne
    refine h.mem_results_iff ?_ (hq.ne hnew)
    rcases hold with rfl | hold
    · exact ne
    · exact hq.ne hold
  unchained := by
    intro unchained a ha i hi
    rw [h.kind?] at ha ⊢
    rcases h.mem_inputs hi with hi | ⟨rfl, m, user⟩
    · exact unchained a ha i hi
    · exact absurd ha (users unchained a m user)

/-- A rescaling of the product is retired. -/
theorem placing_retired (h : Retired (· = d) g g') (hd : g.Rescales d p) : Placing p g g' where
  edited := (Change.retire _ h).edited
  node := by
    intro q n ne hn
    refine ⟨n.inputs, (h.node?_of_left q fun eq => ne ?_).trans hn⟩
    exact Option.some.inj ((kind?_of_node? hn).symm.trans (eq ▸ hd.kind))
  uses := by
    intro q hq ne c
    rw [h.mem_inputs_iff]
    refine and_iff_right_of_imp ?_
    rintro hi rfl
    rw [hd.inputs, List.mem_singleton] at hi
    exact ne hi
  results q _ _ := by rw [h.results]
  unchained := by
    intro unchained a ha i hi
    obtain ⟨left, hi⟩ := h.mem_inputs_iff.mp hi
    rw [h.kind?_of_left left] at ha
    rw [h.kind?_of_left (h.unused a left i hi)]
    exact unchained a ha i hi

end Graph

namespace Normalize

open CipherFlow.Graph

variable {g : Graph} {p k d keep : NodeId}

/-! ## The steps carried out

The programs that a placement is made of. Each lemma says who uses the product
afterwards, as that is what the next step is about. -/

/-- A duplicate is replaced: it no longer uses the product, and the other
rescalings of the product are as before. -/
theorem replace_duplicate (regular : g.Regular) (hp : g.NoRescale p) (hd : g.Rescales d p)
    (hk : g.Rescales keep p) (ne : d ≠ keep) :
    ∃ g', (replace d keep).run g = .ok ((), g') ∧ Placing p g g' ∧ g'.size = g.size ∧
      (∀ c, p ∈ g'.inputs c ↔ c ≠ d ∧ p ∈ g.inputs c) ∧
      ∀ c, c ≠ d → g.Rescales c p → g'.Rescales c p := by
  have pd : p ≠ d := hp.ne hd.kind
  have pk : p ≠ keep := hp.ne hk.kind
  -- One rescaling of the product stands for another.
  have stands : g.StandsFor keep d := .duplicate hd hk
  obtain ⟨n, hn, kind⟩ := kind?_eq_some.mp hd.kind
  have through : ∀ x ∈ g.inputs keep, ∃ y ∈ g.inputs d, g.Reaches y x := by
    intro x hx
    rw [hk.inputs, List.mem_singleton] at hx
    rw [hx]
    exact ⟨p, hd.mem_inputs, .refl p⟩
  obtain ⟨g₁, g₂, run, rewired, retired⟩ := replace_run regular.closed (isLive_of_node? hn)
    stands.isLive (regular.acyclic.not_reaches_of_through ne.symm through)
    (regular.notMem_parameters hn (by rw [kind]; simp))
  have moved : ∀ c, g.Rescales c p → g₁.Rescales c p := by
    intro c hc
    refine ⟨(rewired.kind? c).trans hc.kind, ?_⟩
    rw [rewired.inputs, hc.inputs]
    simp [renamed_of_ne pd]
  have step₁ : Placing p g g₁ := by
    refine placing_rewired rewired (by simp) stands hk.kind (.inr hd.kind) ?_
    exact fun unchained a _ user ha => unchained a ha d user hd.kind
  refine ⟨g₂, run, step₁.trans (placing_retired retired (moved d hd)),
    retired.size.trans rewired.size, ?_, ?_⟩
  · intro c
    rw [retired.mem_inputs_iff, rewired.mem_inputs_iff pd pk]
  · intro c left hc
    have hc₁ := moved c hc
    refine ⟨(retired.kind?_of_left left).trans hc₁.kind, ?_⟩
    rw [Graph.inputs, retired.node?_of_left c left]
    exact hc₁.inputs

/-- All duplicates are replaced. -/
theorem replaceAll_run (regular : g.Regular) (hp : g.NoRescale p) (hk : g.Rescales keep p)
    {duplicates : List NodeId} (hd : ∀ d ∈ duplicates, g.Rescales d p)
    (nodup : (keep :: duplicates).Nodup) :
    ∃ g', (replaceAll keep duplicates).run.run g = (.ok (), g') ∧ Placing p g g' ∧
      g'.size = g.size ∧ (∀ c, p ∈ g'.inputs c ↔ c ∉ duplicates ∧ p ∈ g.inputs c) ∧
      g'.Rescales keep p ∧
      (duplicates = [] → g' = g) := by
  induction duplicates generalizing g with
  | nil => exact ⟨g, rfl, .refl p g, rfl, by simp, hk, fun _ => rfl⟩
  | cons d rest ih =>
    simp only [List.nodup_cons, List.mem_cons, not_or] at nodup
    obtain ⟨⟨neKeep, keepRest⟩, dRest, nodup⟩ := nodup
    obtain ⟨g₁, run₁, step₁, size₁, users₁, kept₁⟩ :=
      replace_duplicate regular hp (hd d List.mem_cons_self) hk (Ne.symm neKeep)
    have hd₁ : ∀ c ∈ rest, g₁.Rescales c p := fun c hc =>
      kept₁ c (fun eq => dRest (eq ▸ hc)) (hd c (List.mem_cons_of_mem _ hc))
    obtain ⟨g₂, run₂, step₂, size₂, users₂, kept₂, -⟩ :=
      ih (step₁.edited.regular regular) (step₁.noRescale hp) (kept₁ keep neKeep hk) hd₁
        (List.nodup_cons.mpr ⟨keepRest, nodup⟩)
    refine ⟨g₂, ?_, step₁.trans step₂, size₂.trans size₁, ?_, kept₂, by simp⟩
    · rw [replaceAll, run_bind_ok (change_run run₁), run₂]
    · intro c
      rw [users₂, users₁, List.mem_cons, not_or]
      tauto

/-- The uses that consumers make move to a rescaling. -/
theorem redirectConsumers_run (regular : g.Regular) (hp : g.IsProduct p) (hk : g.Rescales keep p)
    {others : List NodeId} (users : ∀ c ∈ others, p ∈ g.inputs c)
    (hc : ∀ c ∈ others, g.NoRescale c) (nodup : others.Nodup) :
    ∃ g', (redirectConsumers p keep others).run.run g = (.ok !others.isEmpty, g') ∧
      Placing p g g' ∧ g'.size = g.size ∧
      (∀ c, p ∈ g'.inputs c ↔ c ∉ others ∧ p ∈ g.inputs c) ∧
      g'.Rescales keep p ∧ (others = [] → g' = g) := by
  induction others generalizing g with
  | nil => exact ⟨g, rfl, .refl p g, rfl, by simp, hk, fun _ => rfl⟩
  | cons c rest ih =>
    obtain ⟨cRest, nodup⟩ := List.nodup_cons.mp nodup
    obtain ⟨n, hn, hnp⟩ := mem_inputs.mp (users c List.mem_cons_self)
    obtain ⟨g₁, run₁, rewired⟩ :
        ∃ g₁, (Graph.redirectConsumer c p keep).run g = .ok (n.inputs.contains p, g₁) ∧
          Rewired p keep (fun id => id == c) g g₁ := redirectConsumer_run hn
    have neKeep : keep ≠ c := ((hc c List.mem_cons_self).ne hk.kind).symm
    have fixed : (keep == c) = false := by simpa using neKeep
    have step₁ : Placing p g g₁ := by
      refine placing_rewired rewired fixed (.rescaling hk hp) hk.kind (.inl rfl) ?_
      intro _ a m _
      rw [beq_iff_eq.mp m]
      exact (hc c List.mem_cons_self).kind?_ne
    have users₁ : ∀ a, p ∈ g₁.inputs a ↔ a ≠ c ∧ p ∈ g.inputs a := by
      intro a
      rw [rewired.old_mem_inputs_iff (hp.noRescale.ne hk.kind).symm]
      simp
    have hk₁ : g₁.Rescales keep p := by
      refine ⟨(rewired.kind? keep).trans hk.kind, ?_⟩
      rw [rewired.inputs, fixed, if_neg Bool.false_ne_true, hk.inputs]
    -- What is left to do is the same in the graph after one use has moved.
    obtain ⟨g₂, run₂, step₂, size₂, users₂, hk₂, -⟩ :=
      ih (step₁.edited.regular regular) (step₁.isProduct hp) hk₁
        (fun a ha => (users₁ a).mpr
          ⟨fun eq => cRest (eq ▸ ha), users a (List.mem_cons_of_mem _ ha)⟩)
        (fun a ha => step₁.noRescale (hc a (List.mem_cons_of_mem _ ha))) nodup
    refine ⟨g₂, ?_, step₁.trans step₂, size₂.trans rewired.size, ?_, hk₂, by simp⟩
    · have contains : n.inputs.contains p = true := by simpa using hnp
      rw [redirectConsumers, sweep_cons (change_run run₁) run₂, contains]
      rfl
    · intro a
      rw [users₂, users₁, List.mem_cons, not_or]
      tauto

/-- After all uses have moved to a rescaling, the product is settled. -/
theorem redirectTo_run (hp : g.IsProduct p) (hk : g.Rescales k p)
    (users : ∀ c, c ≠ k → p ∈ g.inputs c → g.kind? c ≠ some .rescale) :
    ∃ g', (redirectTo k p).run.run g = (.ok (g.isUsed p [k]), g') ∧ Placing p g g' ∧
      g'.size = g.size ∧ g'.Rescales k p ∧ g'.Settled p := by
  have pk : k ≠ p := (hp.noRescale.ne hk.kind).symm
  have rewired : Rewired p k (fun id => !([k].contains id)) g (g.redirectUses p k [k]) :=
    rewired_redirectUses g p k [k]
  have hk' : (g.redirectUses p k [k]).Rescales k p := by
    refine ⟨(rewired.kind? k).trans hk.kind, ?_⟩
    rw [rewired.inputs, hk.inputs]
    simp
  refine ⟨g.redirectUses p k [k], rfl, ?_, rewired.size, hk', ?_, k, hk'.kind, ?_⟩
  · refine placing_rewired rewired (by simp) (.rescaling hk hp) hk.kind (.inl rfl) ?_
    intro _ a m user
    exact users a (by simpa using m) user
  · exact notMem_results_redirectUses pk [k]
  · intro c
    rw [rewired.old_mem_inputs_iff pk]
    constructor
    · rintro ⟨stays, -⟩
      simpa using stays
    · rintro rfl
      exact ⟨by simp, hk.mem_inputs⟩

/-! ## Placing

The situation is read off the consumers of the product. What is found in the graph
is then followed through the steps, as each of them changes who uses the product. -/

theorem checkSingleOutput_run {n : Node} (hn : g.node? p = some n) (single : n.outputs = 1) :
    (checkSingleOutput p).run.run g = (.ok (), g) := by
  rw [checkSingleOutput, run_bind_ok (node_run hn), if_neg (not_not.mpr single)]
  rfl

/-- The consumers that are rescalings, and those that are not. -/
theorem partition_consumers (g : Graph) (p : NodeId) :
    (g.consumers p).partition (fun c => g.kind? c = some .rescale) =
      ((g.consumers p).filter fun c => g.kind? c = some .rescale,
        (g.consumers p).filter fun c => !decide (g.kind? c = some .rescale)) := by
  rw [List.partition_eq_filter_filter]
  rfl

/-- Where no rescaling uses the product, a new one is placed. -/
theorem place_new (regular : g.Regular) {n : Node} (hn : g.node? p = some n) (hp : g.IsProduct p)
    (bare : g.Bare p) :
    ∃ k g₁ c g', (Graph.rescale p).run g = .ok (k, g₁) ∧
      (redirectTo k p).run.run g₁ = (.ok c, g') ∧ Placed p g g' := by
  let new : Node := ⟨.rescale, n.type, [p], 1⟩
  have typed : g.WellTyped new := ⟨rfl, [n.type], by simp [new, type?_of_node? hn], rfl⟩
  have step₁ : Placing p g (g.push new).2 := placing_push regular.closed typed rfl rfl hp.noRescale
  have hk : (g.push new).2.Rescales g.size p :=
    ⟨kind?_of_node? (node?_push_size new), inputs_of_node? (node?_push_size new)⟩
  -- All uses but that of the new node are uses that were there before.
  obtain ⟨g', run, step₂, size, hk', settled⟩ := redirectTo_run (step₁.isProduct hp) hk (by
    intro c ne user
    rw [inputs_push_of_ne new ne] at user
    rw [Graph.kind?, node?_push_of_ne new ne]
    exact bare c user)
  exact ⟨g.size, _, _, g', unary_ok (type?_of_node? hn) rfl, run, step₁.trans step₂, settled,
    .inr ⟨size.trans (size_push new), hk', bare⟩⟩

/-- Where a rescaling is all that uses the product, its use as a result moves
there, too. -/
theorem place_result (hp : g.IsProduct p) (hk : g.Rescales keep p)
    (only : ∀ c, p ∈ g.inputs c ↔ c = keep) (before : Bool) :
    ∃ c g', (if g.isResult p then do
          let atResult ← redirectTo keep p
          return before || atResult
        else do
          let atResult ← pure false
          return before || atResult : Edit Bool).run.run g = (.ok (before || c), g') ∧
      Placing p g g' ∧ g'.size = g.size ∧ g'.Settled p ∧ (c = false → g' = g) := by
  cases result : g.isResult p with
  | false =>
    exact ⟨false, g, rfl, .refl p g, rfl, ⟨isResult_eq_false.mp result, keep, hk.kind, only⟩,
      fun _ => rfl⟩
  | true =>
    obtain ⟨g', run, step, size, -, settled⟩ := redirectTo_run hp hk
      fun c ne user => absurd ((only c).mp user) ne
    have used : g.isUsed p [keep] = true := by simp [isUsed, result]
    refine ⟨true, g', ?_, step, size, settled, by simp⟩
    rw [if_pos rfl, run_bind_ok run, used]
    rfl

/-- Where rescalings use the product, the first takes the place of the others,
and then all that uses the product goes through it. -/
theorem place_existing (regular : g.Regular) (product : g.IsProduct p)
    {duplicates others : List NodeId}
    (mem_rescales : ∀ c, c ∈ keep :: duplicates ↔ p ∈ g.inputs c ∧ g.kind? c = some .rescale)
    (mem_others : ∀ c, c ∈ others ↔ p ∈ g.inputs c ∧ g.kind? c ≠ some .rescale)
    (nodupRescales : (keep :: duplicates).Nodup) (nodupOthers : others.Nodup) :
    ∃ c g', (do
        replaceAll keep duplicates
        let redirected ← redirectConsumers p keep others
        let atResult ← if (← get).isResult p then redirectTo keep p else pure false
        return !duplicates.isEmpty || redirected || atResult : Edit Bool).run.run g =
        (.ok c, g') ∧ Placed p g g' ∧ (c = false → g' = g) := by
  have rescales : ∀ c ∈ keep :: duplicates, g.Rescales c p := fun c hc =>
    regular.rescales ((mem_rescales c).mp hc).2 ((mem_rescales c).mp hc).1
  obtain ⟨g₁, run₁, step₁, size₁, users₁, hk₁, same₁⟩ := replaceAll_run regular product.noRescale
    (rescales keep List.mem_cons_self)
    (fun d hd => rescales d (List.mem_cons_of_mem _ hd)) nodupRescales
  have apart : ∀ c ∈ others, c ∉ duplicates := fun c hc hd =>
    ((mem_others c).mp hc).2 (rescales c (List.mem_cons_of_mem _ hd)).kind
  have others₁ : ∀ c ∈ others, g₁.NoRescale c := by
    intro c hc
    obtain ⟨user, kind⟩ := (mem_others c).mp hc
    obtain ⟨m, hm, -⟩ := mem_inputs.mp user
    exact step₁.noRescale ⟨m.kind, kind?_of_node? hm, fun eq => kind (eq ▸ kind?_of_node? hm)⟩
  obtain ⟨g₂, run₂, step₂, size₂, users₂, hk₂, same₂⟩ := redirectConsumers_run
    (step₁.edited.regular regular) (step₁.isProduct product) hk₁
    (fun c hc => (users₁ c).mpr ⟨apart c hc, ((mem_others c).mp hc).1⟩) others₁ nodupOthers
  -- All that uses the product by now is the rescaling that is kept.
  have only : ∀ c, p ∈ g₂.inputs c ↔ c = keep := by
    intro c
    constructor
    · intro user
      obtain ⟨notOther, user⟩ := (users₂ c).mp user
      obtain ⟨notDuplicate, user⟩ := (users₁ c).mp user
      have rescaling : g.kind? c = some .rescale :=
        Classical.byContradiction fun kind => notOther ((mem_others c).mpr ⟨user, kind⟩)
      exact (List.mem_cons.mp ((mem_rescales c).mpr ⟨user, rescaling⟩)).resolve_right notDuplicate
    · rintro rfl
      exact hk₂.mem_inputs
  have step₁₂ := step₁.trans step₂
  obtain ⟨c, g₃, run₃, step₃, size₃, settled, same₃⟩ :=
    place_result (step₁₂.isProduct product) hk₂ only
    (!duplicates.isEmpty || !others.isEmpty)
  refine ⟨!duplicates.isEmpty || !others.isEmpty || c, g₃, ?_,
    ⟨step₁₂.trans step₃, settled, .inl (size₃.trans (size₂.trans size₁))⟩, ?_⟩
  · simp only [run_bind_ok run₁, run_bind_ok run₂, run_bind_ok (run_get g₂)]
    exact run₃
  · intro unchanged
    obtain ⟨noneMoved, rfl⟩ := Bool.or_eq_false_iff.mp unchanged
    obtain ⟨noDuplicate, noOther⟩ := Bool.or_eq_false_iff.mp noneMoved
    rw [same₃ rfl, same₂ (by simpa using noOther), same₁ (by simpa using noDuplicate)]

/-- After its placement a product is settled. If nothing was to be done, the
graph is the same. -/
theorem ensureRescaleAfter_run (regular : g.Regular) {n : Node} (hn : g.node? p = some n)
    (kind : n.kind.isProduct = true) (single : n.outputs = 1) :
    ∃ c g', (ensureRescaleAfter p).run.run g = (.ok c, g') ∧ Placed p g g' ∧
      (c = false → g' = g) := by
  have product : g.IsProduct p := ⟨n.kind, kind?_of_node? hn, kind⟩
  rw [ensureRescaleAfter, run_bind_ok (checkSingleOutput_run hn single), run_bind_ok (run_get g),
    partition_consumers]
  have nodup : ∀ f : NodeId → Bool, ((g.consumers p).filter f).Nodup := fun f =>
    nodup_consumers.filter f
  have nodupRescales := nodup fun c => g.kind? c = some .rescale
  have nodupOthers := nodup fun c => !decide (g.kind? c = some .rescale)
  have mem_rescales : ∀ c, c ∈ (g.consumers p).filter (fun c => g.kind? c = some .rescale) ↔
      p ∈ g.inputs c ∧ g.kind? c = some .rescale := by simp [mem_consumers]
  have mem_others : ∀ c,
      c ∈ (g.consumers p).filter (fun c => !decide (g.kind? c = some .rescale)) ↔
        p ∈ g.inputs c ∧ g.kind? c ≠ some .rescale := by simp [mem_consumers]
  -- Of the two lists of consumers only their members matter, and that each is listed once.
  generalize (g.consumers p).filter (fun c => g.kind? c = some .rescale) = rescales at *
  generalize (g.consumers p).filter (fun c => !decide (g.kind? c = some .rescale)) = others at *
  cases rescales with
  | nil =>
    obtain ⟨k, g₁, c, g', run₁, run₂, placed⟩ := place_new regular hn product
      fun c user hc => by simpa using (mem_rescales c).mpr ⟨user, hc⟩
    refine ⟨true, g', ?_, placed, by simp⟩
    simp only [run_bind_ok (change_run run₁), run_bind_ok run₂]
    rfl
  | cons keep duplicates =>
    exact place_existing regular product mem_rescales mem_others nodupRescales nodupOthers

/-- A settled product is left as it is. -/
theorem ensureRescaleAfter_settled {n : Node} (hn : g.node? p = some n) (single : n.outputs = 1)
    (settled : g.Settled p) : (ensureRescaleAfter p).run.run g = (.ok false, g) := by
  obtain ⟨notResult, k, hk, users⟩ := settled
  have result : g.isResult p = false := isResult_eq_false.mpr notResult
  have rescales : [k].filter (fun c => g.kind? c = some .rescale) = [k] := by simp [hk]
  have others : [k].filter (fun c => !decide (g.kind? c = some .rescale)) = [] := by simp [hk]
  have all : (replaceAll k []).run.run g = (.ok (), g) := rfl
  have each : (redirectConsumers p k []).run.run g = (.ok false, g) := rfl
  rw [ensureRescaleAfter, run_bind_ok (checkSingleOutput_run hn single), run_bind_ok (run_get g),
    partition_consumers, consumers_eq_singleton.mpr users, rescales, others]
  simp only [run_bind_ok all, run_bind_ok each, run_bind_ok (run_get g), result]
  rfl

end Normalize

end CipherFlow
