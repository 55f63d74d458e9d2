import CipherFlow.Proofs.Normalize.Fixpoint
import CipherFlow.Proofs.Run.Substitutes
import CipherFlow.Proofs.Scheme.Chain

/-!
# Normalization preserves plain results

Every step of an edit keeps a consistent valuation. Where uses move to a node
that stands for another, this node takes over the tensor of the other; all
further nodes keep theirs. So whenever a built graph can be evaluated on plain
inputs, the normalized graph can, too, and the results agree.

`call_compile` is stated for runs, from any coins and with any oracle.

How the proof goes. A consistent valuation gives each needed node a tensor that its
operation answers with on those of its operands. One step of an edit keeps some such
valuation and the tensors of the results (`Consistent.change`, one case for each
kind of step), and an edit is a sequence of steps (`Consistent.edited`). Agreement
of tensors is weaker than equality where a minimum is fused, as a minimum of zeros
may have either sign; `SamePlain` is what is left of it for the results.
-/

namespace CipherFlow

open CipherFlow.Graph (Change Edited Needed Rewired Retired StandsFor renamed)
open CipherFlow.Run (Eval Oracle)
open Answering

namespace Backend

variable {σ ε : Type} {b : Backend} {oracle : Oracle σ ε} {inputs : List BatchedTensor}
  {g g' : Graph} {n : Node} {val : NodeId → BatchedTensor} {old new : NodeId}
  {moves : NodeId → Bool}

/-! ## Steps -/

theorem Consistent.append (consistent : Consistent b oracle inputs g val) (sound : g.Sound) :
    Consistent b oracle inputs (g.push n).2 val := by
  intro id m needed hm
  have before : g.Needed id := Graph.needed_of_push sound.closed needed
  obtain ⟨m', hm'⟩ := Graph.isLive_iff.mp (sound.closed.isLive_of_needed before)
  obtain rfl := Option.some.inj ((Graph.node?_push_of_some n hm').symm.trans hm)
  exact consistent id m' before hm'

theorem Consistent.retire {gone : NodeId → Prop} (consistent : Consistent b oracle inputs g val)
    (h : Retired gone g g') : Consistent b oracle inputs g' val :=
  fun id n needed hn => consistent id n (h.needed_iff.mp needed) (h.node?_of_some hn)

/-- The tensor of the old node is given to the new one. -/
def handOver (val : NodeId → BatchedTensor) (old new id : NodeId) : BatchedTensor :=
  if id = new then val old else val id

theorem handOver_new : handOver val old new new = val old :=
  if_pos rfl

theorem handOver_of_ne {id : NodeId} (h : id ≠ new) : handOver val old new id = val id :=
  if_neg h

/-- Uses of nodes that are needed find tensors that agree with those of before. -/
theorem handOver_agree [Nonempty σ] (consistent : Consistent b oracle inputs g val)
    (sound : g.Sound)
    (plain : ∀ t ∈ inputs, t.Agree t) (stands : g.StandsFor new old) (needed : g.Needed old)
    {i : NodeId} (hi : g.Needed i) :
    (val i).Agree (handOver val old new i) ∧
      (val i).Agree (handOver val old new (renamed old new i)) := by
  have kept : (val i).Agree (handOver val old new i) := by
    by_cases eq : i = new
    · subst eq
      obtain ⟨n, hn⟩ := Graph.isLive_iff.mp (sound.closed.isLive_of_needed hi)
      rw [handOver_new]
      exact (consistent i n hi hn).unique (consistent.standsFor sound plain stands needed hn)
    · rw [handOver_of_ne eq]
      exact consistent.plain sound hi
  refine ⟨kept, ?_⟩
  by_cases eq : i = old
  · subst eq
    rw [Graph.renamed_old, handOver_new]
    exact consistent.plain sound hi
  · rwa [Graph.renamed_of_ne eq]

/-- Moving uses keeps the valuation, once the new node has taken over. -/
theorem Consistent.rewire [Nonempty σ] (consistent : Consistent b oracle inputs g val)
    (sound : g.Sound)
    (plain : ∀ t ∈ inputs, t.Agree t) (h : Rewired old new moves g g') (fixed : moves new = false)
    (stands : g.StandsFor new old) (needed : g.Needed old) :
    Consistent b oracle inputs g' (handOver val old new) := by
  have agree := fun {i : NodeId} =>
    handOver_agree (i := i) consistent sound plain stands needed
  intro id n' needed' hn'
  rw [h.node?] at hn'
  obtain ⟨n, hn, rfl⟩ := Option.map_eq_some_iff.mp hn'
  by_cases eq : id = new
  · subst eq
    have below : ∀ i ∈ n.inputs, g.Needed i := by
      intro i hi
      obtain ⟨r, hr, path⟩ := needed
      exact ⟨r, hr, path.trans (stands.below i (Graph.inputs_of_node? hn ▸ hi))⟩
    rw [fixed, handOver_new, if_neg Bool.false_ne_true]
    exact (consistent.standsFor sound plain stands needed hn).congr plain rfl rfl
      (List.forall₂_same.mpr fun i hi => (agree (below i hi)).1)
  · have before : g.Needed id :=
      (h.needed stands.below fixed needed').resolve_right fun ⟨same, _⟩ => eq same
    have below : ∀ i ∈ n.inputs, g.Needed i := fun i hi =>
      before.tail (Graph.inputs_of_node? hn ▸ hi)
    rw [handOver_of_ne eq]
    by_cases m : moves id
    · rw [if_pos m]
      refine (consistent id n before hn).congr plain rfl rfl ?_
      rw [Graph.redirect_inputs, List.forall₂_map_right_iff]
      exact List.forall₂_same.mpr fun i hi => (agree (below i hi)).2
    · rw [if_neg m]
      exact (consistent id n before hn).congr plain rfl rfl
        (List.forall₂_same.mpr fun i hi => (agree (below i hi)).1)

/-- Where no result depends on the old node, no use that matters moves. -/
theorem Consistent.rewire_of_not_needed [Nonempty σ] (consistent : Consistent b oracle inputs g val)
    (sound : g.Sound) (plain : ∀ t ∈ inputs, t.Agree t) (h : Rewired old new moves g g')
    (fixed : moves new = false) (stands : g.StandsFor new old) (unneeded : ¬ g.Needed old) :
    Consistent b oracle inputs g' val := by
  intro id n' needed' hn'
  rw [h.node?] at hn'
  obtain ⟨n, hn, rfl⟩ := Option.map_eq_some_iff.mp hn'
  have before : g.Needed id :=
    (h.needed stands.below fixed needed').resolve_right fun ⟨_, needed⟩ => unneeded needed
  by_cases m : moves id
  · rw [if_pos m]
    refine (consistent id n before hn).congr plain rfl rfl ?_
    rw [Graph.redirect_inputs, List.forall₂_map_right_iff]
    refine List.forall₂_same.mpr ?_
    intro i hi
    have needed : g.Needed i := before.tail (Graph.inputs_of_node? hn ▸ hi)
    have ne : i ≠ old := by
      rintro rfl
      exact unneeded needed
    rw [Graph.renamed_of_ne ne]
    exact consistent.plain sound needed
  · rw [if_neg m]
    exact consistent id n before hn

/-- Every step keeps some consistent valuation, and the tensors of the
results. -/
theorem Consistent.change [Nonempty σ] (consistent : Consistent b oracle inputs g val)
    (sound : g.Sound)
    (plain : ∀ t ∈ inputs, t.Agree t) (h : Change g g') :
    ∃ val', Consistent b oracle inputs g' val' ∧
      List.Forall₂ BatchedTensor.Agree (g.results.map val) (g'.results.map val') := by
  have same : List.Forall₂ BatchedTensor.Agree (g.results.map val) (g.results.map val) := by
    rw [List.forall₂_map_left_iff, List.forall₂_map_right_iff]
    exact List.forall₂_same.mpr fun r hr => consistent.plain sound (.of_result hr)
  cases h with
  | append n _ _ eq =>
    subst eq
    exact ⟨val, consistent.append sound, same⟩
  | retire gone h => exact ⟨val, consistent.retire h, h.results ▸ same⟩
  | rewire old new moves h fixed stands =>
    by_cases needed : g.Needed old
    · have agree := fun r (hr : r ∈ g.results) =>
        handOver_agree consistent sound plain stands needed (.of_result hr)
      refine ⟨handOver val old new, consistent.rewire sound plain h fixed stands needed, ?_⟩
      rcases h.results with eq | eq <;>
        rw [eq, List.forall₂_map_left_iff, List.forall₂_map_right_iff]
      · exact List.forall₂_same.mpr fun r hr => (agree r hr).1
      · rw [List.forall₂_map_right_iff]
        exact List.forall₂_same.mpr fun r hr => (agree r hr).2
    · refine ⟨val, consistent.rewire_of_not_needed sound plain h fixed stands needed, ?_⟩
      have unchanged : g.results.map (renamed old new) = g.results := by
        conv_rhs => rw [← List.map_id g.results]
        refine List.map_congr_left fun r hr => Graph.renamed_of_ne ?_
        rintro rfl
        exact needed (.of_result hr)
      rcases h.results with eq | eq <;> rw [eq]
      · exact same
      · rw [unchanged]
        exact same

theorem Consistent.edited [Nonempty σ] (consistent : Consistent b oracle inputs g val)
    (sound : g.Sound)
    (plain : ∀ t ∈ inputs, t.Agree t) (h : Edited g g') :
    ∃ val', Consistent b oracle inputs g' val' ∧
      List.Forall₂ BatchedTensor.Agree (g.results.map val) (g'.results.map val') := by
  induction h with
  | refl =>
    refine ⟨val, consistent, ?_⟩
    rw [List.forall₂_map_left_iff, List.forall₂_map_right_iff]
    exact List.forall₂_same.mpr fun r hr => consistent.plain sound (.of_result hr)
  | tail before step ih =>
    obtain ⟨val₁, consistent₁, agree₁⟩ := ih
    obtain ⟨val₂, consistent₂, agree₂⟩ :=
      consistent₁.change (Edited.sound before sound) plain step
    exact ⟨val₂, consistent₂,
      forall₂_trans (R := BatchedTensor.Agree) (fun _ _ _ => BatchedTensor.Agree.trans)
        agree₁ agree₂⟩

/-! ## Runs -/

/-- The same lane: identical, or equal for floating-point comparison. Only
not-a-number needs the first, only zeros of either sign the second. -/
def SameLane (x y : Float) : Prop :=
  x = y ∨ (x == y) = true

/-- Plain tensors with the same lanes. -/
structure SamePlain (t u : BatchedTensor) : Prop where
  type : t.type = u.type
  batch : t.batch = u.batch
  lanes : ∃ xs ys : List (List Float), t.values = xs.map .plain ∧ u.values = ys.map .plain ∧
    List.Forall₂ (List.Forall₂ SameLane) xs ys

theorem samePlain_of_agree {t u : BatchedTensor} (h : t.Agree u) : SamePlain t u := by
  obtain ⟨xs, ys, ex, ey, agree⟩ := exists_lanes h.values
  exact ⟨h.type, h.batch, xs, ys, ex, ey,
    agree.imp fun _ _ lanes => lanes.imp fun _ _ => Agree.eq_or_beq⟩

/-- A tensor without encrypted elements agrees with itself. -/
theorem agree_of_not_isEncrypted {t : BatchedTensor} (h : t.isEncrypted = false) : t.Agree t := by
  refine ⟨rfl, rfl, List.forall₂_same.mpr ?_⟩
  intro e he
  cases e with
  | plain xs => exact Element.agree_plain xs
  | cipher c =>
    have encrypted : t.isEncrypted = true := List.any_eq_true.mpr ⟨_, he, rfl⟩
    exact nomatch h.symm.trans encrypted

/-- If a built graph can be evaluated on plain inputs, the pipeline succeeds
and leaves a graph that can be evaluated on them as well, from any coins and
any state of any oracle. The results are the same tensors. -/
theorem call_compile (built : g.Built) (b : Backend) (oracle : Oracle σ ε)
    {inputs outs : List BatchedTensor} {c : Coins} {s s' : σ}
    (plain : ∀ t ∈ inputs, t.isEncrypted = false)
    (run : (b.call g inputs oracle).runFrom c s = (.ok outs, s')) :
    ∃ compiled outs', Normalize.compile g = .ok compiled ∧
      (∀ c s, (b.call compiled.graph inputs oracle).runFrom c s = (.ok outs', s)) ∧
      List.Forall₂ SamePlain outs outs' := by
  have plain : ∀ t ∈ inputs, t.Agree t := fun t ht => agree_of_not_isEncrypted (plain t ht)
  have : Nonempty σ := ⟨s⟩
  have may : May (b.call g inputs oracle) outs := by
    match eq : (b.call g inputs oracle).run.run (c, s) with
    | (answer, coins, state) =>
      rw [Eval.runFrom, eq] at run
      have answer : answer = .ok outs := congrArg Prod.fst run
      exact ⟨(c, s), (coins, state), by rw [eq, answer]⟩
  obtain ⟨count, val, consistent, rfl⟩ := consistent_of_call built.sound plain may
  obtain ⟨r, g', whole, -, edited, -⟩ := Normalize.run_pipeline built.sound 29
  obtain ⟨val', consistent', agree⟩ := consistent.edited built.sound plain edited
  obtain ⟨outs', must, agree'⟩ := must_call (edited.sound built.sound) plain
    (edited.parameters ▸ count) consistent'
  refine ⟨⟨g', r⟩, outs', ?_, fun c s => ?_, ?_⟩
  · unfold Normalize.compile
    rw [show Normalize.maxRounds = 29 + 3 from rfl, whole]
  · rw [Eval.runFrom, must (c, s)]
  · have back :=
      forall₂_symm (R := BatchedTensor.Agree) (fun _ _ => BatchedTensor.Agree.symm) agree'
    exact (forall₂_trans (R := BatchedTensor.Agree) (fun _ _ _ => BatchedTensor.Agree.trans)
      agree back).imp fun _ _ => samePlain_of_agree

/-- The square of a rectified value below 1. -/
def clampedSquare : Graph where
  nodes := [some ⟨.parameter 0, ⟨.f64, [2]⟩, [], 1⟩, some ⟨.relu, ⟨.f64, [2]⟩, [0], 1⟩,
    some ⟨.constant [1, 1], ⟨.f64, [2]⟩, [], 1⟩, some ⟨.minimum, ⟨.f64, [2]⟩, [2, 1], 1⟩,
    some ⟨.multiply, ⟨.f64, [2]⟩, [3, 3], 1⟩]
  parameters := [0]
  results := [4]

theorem built_clampedSquare : clampedSquare.Built :=
  .step (.addResult 4) (.step (.multiply 3 3) (.step (.minimum 2 1) (.step
    (.constant ⟨.f64, [2]⟩ [1, 1]) (.step (.relu 0) (.step (.parameter ⟨.f64, [2]⟩)
      .empty rfl) rfl) rfl) rfl) rfl) rfl

/-- A backend for plain data, whose keys are those of no primes. -/
def keyless : Backend :=
  ⟨⟨⟨.toy, [], .coarse⟩, ⟨⟨⟨0, []⟩, []⟩, ⟨⟨0, []⟩, []⟩⟩, ⟨[]⟩⟩, none, .real⟩

/-- A tensor of two numbers. -/
def pair (x y : Float) : BatchedTensor :=
  ⟨⟨.f64, [2]⟩, 1, [.plain [x], .plain [y]]⟩

theorem call_clampedSquare :
    (keyless.call clampedSquare [pair 0.5 2] (.ofScript : Oracle Run.Script Unit)).runFrom
      default ⟨[], []⟩ = (.ok [pair 0.25 1], ⟨[], []⟩) := by
  have order : clampedSquare.order = .ok [2, 0, 1, 3, 4] := by cbv
  unfold call
  rw [order]
  rfl

/-- The minimum is fused, and the square is rescaled: the results stay. -/
theorem call_compile_clampedSquare :
    clampedSquare.Built ∧ (∀ t ∈ [pair 0.5 2], t.isEncrypted = false) ∧
      (keyless.call clampedSquare [pair 0.5 2] (.ofScript : Oracle Run.Script Unit)).runFrom
        default ⟨[], []⟩ = (.ok [pair 0.25 1], ⟨[], []⟩) ∧
      ∃ compiled outs', Normalize.compile clampedSquare = .ok compiled ∧
        (∀ c s, (keyless.call compiled.graph [pair 0.5 2]
          (.ofScript : Oracle Run.Script Unit)).runFrom c s = (.ok outs', s)) ∧
        List.Forall₂ SamePlain [pair 0.25 1] outs' := by
  have plain : ∀ t ∈ [pair 0.5 2], t.isEncrypted = false := by
    intro t ht
    rw [List.mem_singleton.mp ht]
    rfl
  exact ⟨built_clampedSquare, plain, call_clampedSquare,
    call_compile built_clampedSquare keyless .ofScript plain call_clampedSquare⟩

end Backend

end CipherFlow
