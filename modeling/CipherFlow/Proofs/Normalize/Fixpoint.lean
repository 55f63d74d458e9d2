import CipherFlow.Proofs.Normalize.Fusion
import CipherFlow.Proofs.Normalize.Insertion
import CipherFlow.Proofs.Normalize.Merging

/-!
# The fixpoint of the pipeline

A round on a sound graph leaves no rescaling of a rescaling, and a round on a
graph without these leaves a normal graph, on which rounds do nothing. So two
rounds are enough. One may not be: merging can make a second rescaling of a
product that was settled, and only the next round collapses the two.

`pipeline_normalizes` says so of every graph that commands make: the pipeline
succeeds within two rounds, by steps of `Edited`, and a second run changes nothing.

How the proof goes. `Rounded` is what the three passes of a round leave behind
before the graph is pruned, and pruning extends it from needed nodes to all
(`Retired.met`). `round_run` is the step: after one round rescalings are unchained,
and the graph is normal if they were so before or if the round changed nothing.
`run_pipeline` applies it twice, and `runRounds_normal` is the idle second run.
-/

namespace CipherFlow

open CipherFlow.Graph

variable {g g' g'' : Graph} {p : NodeId}

namespace Graph

/-- A graph that the pipeline leaves as it is. -/
structure Normal (g : Graph) : Prop where
  sound : g.Sound
  pruned : g.Pruned
  unchained : g.Unchained
  met : ∀ id, g.Met id

/-! ## Pruned graphs -/

/-- A node that is needed, but no result, is used by one that is needed. -/
theorem Needed.user (h : g.Needed p) (notResult : p ∉ g.results) :
    ∃ c, g.Needed c ∧ p ∈ g.inputs c := by
  obtain ⟨r, hr, path⟩ := h
  rcases Relation.ReflTransGen.cases_tail path with rfl | ⟨c, path, edge⟩
  · exact absurd hr notResult
  · exact ⟨c, ⟨r, hr, path⟩, edge⟩

/-- A settled product stays settled: its rescaling is needed where it is. -/
theorem Retired.settled (h : Retired g.Spare g g') (needed : g.Needed p)
    (settled : g.Settled p) : g'.Settled p := by
  obtain ⟨notResult, k, hk, users⟩ := settled
  obtain ⟨c, hc, edge⟩ := needed.user notResult
  obtain rfl := (users c).mp edge
  have left := h.left_of_needed hc
  refine ⟨h.results ▸ notResult, c, (h.kind?_of_left left).trans hk, fun b => ?_⟩
  rw [h.mem_inputs_iff, users]
  constructor
  · exact fun both => both.2
  · rintro rfl
    exact ⟨left, rfl⟩

/-- Pruning extends what holds of the nodes that are needed to all. -/
theorem Retired.met (h : Retired g.Spare g g') (sound : g.Sound)
    (met : ∀ id, g.Needed id → g.Met id) (id : NodeId) : g'.Met id where
  settled := by
    rintro ⟨kind, hk, product⟩
    have needed :=
      h.needed_of_kind sound hk (fun eq => by rw [eq] at product; exact nomatch product)
    exact h.settled needed ((met id needed).settled ⟨kind, h.kind?_of_some hk, product⟩)
  unfusable := by
    intro fusable
    have ⟨_, _, _, _, _, _, _, clamps, _⟩ := fusable
    have needed := h.needed_of_kind sound clamps.minimum (fun eq => nomatch eq)
    exact (met id needed).unfusable ((Change.retire _ h).edited.fusable sound fusable)

end Graph

namespace Normalize

/-! ## One round -/

/-- Where nothing is to be done, the insertion pass does nothing. -/
theorem insert_idle (sound : g.Sound) (met : ∀ id, g.Needed id → g.Met id) :
    insertRescales.run.run g = (.ok false, g) :=
  insertRescales_idle sound.regular (fun id n _ hn _ => (sound.typed id n hn).outputs)
    fun p needed => (met p needed).settled

theorem runOnce_cons {pass : Pass} {passes : List Pass} {here later : Bool}
    (first : pass.run.run.run g = (.ok here, g'))
    (rest : (runOnce passes).run.run g' = (.ok later, g'')) :
    (runOnce (pass :: passes)).run.run g = (.ok (here || later), g'') := by
  rw [runOnce, run_bind_ok first, run_bind_ok rest]
  rfl

theorem runOnce_eq {c₁ c₂ c₃ : Bool} {g₁ g₂ g₃ : Graph} (first : fuse.run.run g = (.ok c₁, g₁))
    (second : insertRescales.run.run g₁ = (.ok c₂, g₂))
    (third : mergeRescales.run.run g₂ = (.ok c₃, g₃)) :
    (runOnce pipeline).run.run g = (.ok (c₁ || (c₂ || (c₃ || false))), g₃) :=
  runOnce_cons first (runOnce_cons second (runOnce_cons third rfl))

/-- What a round of passes makes of a graph, before it is pruned. -/
structure Rounded (g : Graph) (changed : Bool) (g' : Graph) : Prop where
  edited : Edited g g'
  unfusable : ∀ id, g'.Needed id → ¬ g'.Fusable id
  flat : ∀ a, g'.Needed a → g'.kind? a = some .rescale → g'.Flat a
  settled : g.Unchained ∨ changed = false → ∀ id, g'.Needed id → g'.Met id
  same : changed = false → g' = g

theorem runOnce_run (sound : g.Sound) :
    ∃ c g', (runOnce pipeline).run.run g = (.ok c, g') ∧ Rounded g c g' := by
  obtain ⟨c₁, g₁, run₁, edited₁, met₁, unchained₁, same₁⟩ := fuse_pass sound
  have sound₁ := edited₁.sound sound
  have run₂ := insert_idle sound₁ met₁
  obtain ⟨c₃, g₃, moved, run₃, edited₃, collapsed, same₃⟩ := merge_pass sound₁
  have whole := runOnce_eq run₁ run₂ run₃
  refine ⟨c₁ || (false || (c₃ || false)), g₃, whole, edited₁.trans edited₃, ?_,
    fun _ => collapsed.flat sound₁.regular, ?_, ?_⟩
  · intro id needed fusable
    rcases collapsed.needed_or_flat sound₁.regular needed with before | ⟨rescaling, -⟩
    · exact (met₁ id before).unfusable (edited₃.fusable sound₁ fusable)
    · obtain ⟨_, _, _, _, _, _, _, clamps, -⟩ := fusable
      exact nomatch rescaling.symm.trans clamps.minimum
  · intro still
    have same : g₃ = g₁ := by
      rcases still with unchained | unchanged
      · exact congrArg Prod.snd (run₃.symm.trans (merge_idle sound₁
          (unchained₁ unchained).flat))
      · exact same₃ (by simpa using (Bool.or_eq_false_iff.mp unchanged).2)
    rw [same]
    exact met₁
  · intro unchanged
    obtain ⟨h₁, h₃⟩ := Bool.or_eq_false_iff.mp unchanged
    rw [same₃ (by simpa using h₃), same₁ h₁]

/-! ## Rounds -/

theorem runRounds_succ {passes : List Pass} {changed : Bool} {g₁ : Graph} {count left done : Nat}
    (once : (runOnce passes).run.run g = (.ok changed, g₁))
    (prune : Graph.prune.run g₁ = .ok (count, g')) :
    (runRounds passes (left + 1) done).run.run g =
      if changed then (runRounds passes left (done + 1)).run.run g' else (.ok done, g') := by
  rw [runRounds, run_bind_ok once, run_bind_ok (change_run prune)]
  cases changed <;> rfl

/-- A round on a normal graph does nothing. -/
theorem runRounds_normal (normal : g.Normal) (left done : Nat) :
    (runRounds pipeline (left + 1) done).run.run g = (.ok done, g) := by
  have met : ∀ id, g.Needed id → g.Met id := fun id _ => normal.met id
  have once := runOnce_eq (fuse_idle normal.sound met) (insert_idle normal.sound met)
    (merge_idle normal.sound normal.unchained.flat)
  exact runRounds_succ once (prune_run_of_pruned normal.sound normal.pruned)

/-- One round on a sound graph: rescalings are unchained, and the graph is
normal if they were before or if nothing changed. -/
theorem round_run (sound : g.Sound) (left done : Nat) :
    ∃ c g', (runRounds pipeline (left + 1) done).run.run g =
        (if c then (runRounds pipeline left (done + 1)).run.run g' else (.ok done, g')) ∧
      Edited g g' ∧ g'.Unchained ∧ (g.Unchained ∨ c = false → g'.Normal) := by
  obtain ⟨c, g₁, once, rounded⟩ := runOnce_run sound
  have sound₁ := rounded.edited.sound sound
  obtain ⟨count, g', prune, retired⟩ := sound₁.prune_run
  have sound' := retired.sound sound₁
  have unchained := retired.unchained sound₁ rounded.flat
  have edited := rounded.edited.trans (Change.retire _ retired).edited
  exact ⟨c, g', runRounds_succ once prune, edited, unchained, fun still =>
    ⟨sound', retired.pruned, unchained, retired.met sound₁ (rounded.settled still)⟩⟩

/-- On a sound graph the pipeline comes to a normal graph in two rounds. -/
theorem run_pipeline (sound : g.Sound) (left : Nat) :
    ∃ r g', (run pipeline (left + 3)).run.run g = (.ok r, g') ∧ r ≤ 2 ∧ Edited g g' ∧
      g'.Normal := by
  obtain ⟨c₁, g₁, run₁, edited₁, unchained₁, normal₁⟩ := round_run sound (left + 2) 0
  obtain ⟨c₂, g₂, run₂, edited₂, -, still⟩ :=
    round_run (edited₁.sound sound) (left + 1) 1
  have normal₂ := still (.inl unchained₁)
  rw [run, run₁]
  cases c₁ with
  | false => exact ⟨0, g₁, rfl, by omega, edited₁, normal₁ (.inr rfl)⟩
  | true =>
    rw [if_pos rfl, run₂]
    have edited := edited₁.trans edited₂
    cases c₂ with
    | false => exact ⟨1, g₂, rfl, by omega, edited, normal₂⟩
    | true => exact ⟨2, g₂, runRounds_normal normal₂ left 2, by omega, edited, normal₂⟩

/-- Of a built graph the pipeline makes, in steps that put nodes only in the place
of such as they stand for, one in which each product is used by one rescaling and
nothing else, no rescaling is below another, and no minimum could be fused. It takes
at most two rounds, and run again it changes nothing. -/
theorem pipeline_normalizes (built : Built g) :
    ∃ r g', (run pipeline maxRounds).run.run g = (.ok r, g') ∧ r ≤ 2 ∧ Edited g g' ∧
      (∀ p, g'.IsProduct p → p ∉ g'.results ∧
        ∃ k, g'.consumers p = [k] ∧ g'.kind? k = some .rescale) ∧
      (∀ a, g'.kind? a = some .rescale → ∀ i ∈ g'.inputs a, g'.kind? i ≠ some .rescale) ∧
      (∀ m, ¬ g'.Fusable m) ∧
      (run pipeline maxRounds).run.run g' = (.ok 0, g') := by
  obtain ⟨r, g', whole, le, edited, normal⟩ := run_pipeline built.sound 29
  refine ⟨r, g', whole, le, edited, ?_, normal.unchained, fun m => (normal.met m).unfusable,
    runRounds_normal normal 31 0⟩
  intro p product
  have settled := (normal.met p).settled product
  exact ⟨settled.1, settled.exists_consumer⟩

/-- A square below two rescalings, both of which are results. -/
def sharedChain : Graph where
  nodes := [some ⟨.parameter 0, ⟨.f64, [2]⟩, [], 1⟩, some ⟨.multiply, ⟨.f64, [2]⟩, [0, 0], 1⟩,
    some ⟨.rescale, ⟨.f64, [2]⟩, [1], 1⟩, some ⟨.rescale, ⟨.f64, [2]⟩, [2], 1⟩]
  parameters := [0]
  results := [2, 3]

theorem built_sharedChain : Built sharedChain :=
  .step (.addResult 3) (.step (.addResult 2) (.step (.rescale 2) (.step (.rescale 1)
    (.step (.multiply 0 0) (.step (.parameter ⟨.f64, [2]⟩) .empty rfl) rfl) rfl) rfl) rfl) rfl

/-- Merging gives the square a second rescaling, which the next round takes
away again. -/
theorem pipeline_normalizes_sharedChain :
    Built sharedChain ∧ ∃ r g', (run pipeline maxRounds).run.run sharedChain = (.ok r, g') ∧
      r ≤ 2 ∧ Edited sharedChain g' ∧ (run pipeline maxRounds).run.run g' = (.ok 0, g') := by
  obtain ⟨r, g', whole, le, edited, -, -, -, again⟩ := pipeline_normalizes built_sharedChain
  exact ⟨built_sharedChain, r, g', whole, le, edited, again⟩

end Normalize

end CipherFlow
