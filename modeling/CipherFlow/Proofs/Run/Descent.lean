import CipherFlow.Proofs.Normalize.Compiled
import CipherFlow.Proofs.Run.Levels
import CipherFlow.Proofs.Run.Substitutes
import CipherFlow.Proofs.Scheme.Chain

/-!
# Levels of values in a run

The level of a value depends on the graph alone: it is the number of rescalings
below the top on any way from an encrypted parameter to its node. A rescaling
fails for want of a level exactly if its operand is at the lowest.

Main statement: `Backend.levels_of_run`.

How the proof goes. Per operation it is known what becomes of a level
(`CipherFlow.Proofs.Run.Levels`). `Counts` puts this in terms of ways in the graph,
and it is handed from the operands of a node to the node (`atLevel_evaluateNode`),
hence along the order of evaluation (`Reached.atLevel`). A run is taken apart at any
node by `Reached.run_call`, so the statement on failures is about the next node
only.
-/

namespace CipherFlow

open CipherFlow.Run (Problem Eval Oracle Sampling require sample)
open Answering Refusing

namespace Backend

variable {σ ε : Type} {ev : Evaluator} {b : Backend} {key : SecretKey} {n : Node}
  {xs : List BatchedTensor} {ls : List (Option Nat)}

/-! ## Inputs -/

/-- A tensor as it is given to a run: plain, or encrypted, under whatever keys,
for the modulus chain of the backend, or received with elements that are known
to be at the top of the chain. -/
inductive Fresh (b : Backend) (t : BatchedTensor) : Prop where
  | plain {type : TensorType} {batch : Nat} {data : List Float} :
    BatchedTensor.plain type batch data = .ok t → Fresh b t
  | encrypted {ev : Evaluator} {type : TensorType} {batch : Nat} {data : List Float}
    {packing : Packing} {c c' : Coins} : ev.context.topLevel = b.evaluator.context.topLevel →
    (BatchedTensor.encrypt ev type batch data packing).run c = .ok (t, c') → Fresh b t
  | received {type : TensorType} {batch : Nat} {values : List Element} :
    BatchedTensor.ofValues type batch values = .ok t →
    (∀ e ∈ values, e.level? = some b.evaluator.context.topLevel) → Fresh b t

/-- Fresh encryptions are at the top. -/
theorem may_encrypt {ev : Evaluator} {type : TensorType} {batch : Nat} {data : List Float}
    {packing : Packing} {t : BatchedTensor}
    (h : May (BatchedTensor.encrypt ev type batch data packing) t) : ∃ values,
      BatchedTensor.ofValues type batch values = .ok t ∧
        ∀ e ∈ values, e.level? = some ev.context.topLevel := by
  unfold BatchedTensor.encrypt at h
  dsimp only at h
  split at h
  · obtain ⟨_, ⟨_, _, refused⟩, -⟩ := may_bind h
    exact nomatch refused
  · obtain ⟨lanes, -, h⟩ := may_bind h
    obtain ⟨values, hvalues, h⟩ := may_bind h
    refine ⟨values, eq_ok_of_may_lift h, ?_⟩
    intro e he
    obtain ⟨k, lt, rfl⟩ := List.mem_iff_getElem.mp he
    obtain ⟨xs, -, may⟩ := Tensor.getElem?_related (List.Forall₂.flip (may_mapM hvalues))
      (List.getElem?_eq_getElem lt)
    obtain ⟨ct, hct, may⟩ := may_bind may
    rw [may_pure may, ← Evaluator.level_encrypt (may_of_may_withError hct)]
    rfl

/-- The level of a fresh input. -/
def freshLevel (b : Backend) (t : BatchedTensor) : Option Nat :=
  if t.isEncrypted then some b.evaluator.context.topLevel else none

theorem HasLevel.isEncrypted {t : BatchedTensor} {l : Option Nat} (h : HasLevel t l) :
    t.isEncrypted = l.isSome := by
  obtain ⟨e, rest, eq⟩ := List.exists_cons_of_ne_nil h.elements
  have all : ∀ e ∈ t.values, e.isCipher = l.isSome := by
    intro e he
    rw [← h.level e he]
    cases e <;> rfl
  unfold BatchedTensor.isEncrypted
  cases sort : l.isSome with
  | true => exact List.any_eq_true.mpr ⟨e, by simp [eq], (all e (by simp [eq])).trans sort⟩
  | false => exact List.any_eq_false.mpr fun e he => by simp [all e he, sort]

theorem level_of_fresh {t : BatchedTensor} (fresh : Fresh b t)
    (positive : t.type.shape.IsPositive) : HasLevel t (freshLevel b t) := by
  obtain ⟨l, level, first⟩ : ∃ l, HasLevel t l ∧
      (l = none ∨ l = some b.evaluator.context.topLevel) := by
    cases fresh with
    | plain h =>
      obtain ⟨lanes, -, made⟩ := exists_of_bind_eq_ok h
      obtain ⟨-, -, rfl⟩ := BatchedTensor.ofValues_eq_ok_iff.mp made
      refine ⟨none, ⟨elements_of_made made positive, fun e he => ?_⟩, .inl rfl⟩
      obtain ⟨xs, -, rfl⟩ := List.mem_map.mp he
      rfl
    | encrypted top h =>
      obtain ⟨values, made, all⟩ := may_encrypt ⟨_, _, h⟩
      have some := elements_of_made made
      obtain ⟨-, -, rfl⟩ := BatchedTensor.ofValues_eq_ok_iff.mp made
      exact ⟨_, ⟨some positive, all⟩, .inr (congrArg Option.some top)⟩
    | received made all =>
      have some := elements_of_made made
      obtain ⟨-, -, rfl⟩ := BatchedTensor.ofValues_eq_ok_iff.mp made
      exact ⟨_, ⟨some positive, all⟩, .inr rfl⟩
  rw [freshLevel, level.isEncrypted]
  rcases first with rfl | rfl <;> exact level

/-! ## Descents -/

variable {g : Graph} {inputs : List BatchedTensor} {id : NodeId} {top count : Nat} {l : Option Nat}

/-- A parameter whose input is encrypted. -/
def Encrypts (g : Graph) (inputs : List BatchedTensor) (p : NodeId) : Prop :=
  ∃ (k : Nat) (t : BatchedTensor),
    g.parameters[k]? = some p ∧ inputs[k]? = some t ∧ t.isEncrypted = true

/-- A number of rescalings on a way to a node from an encrypted parameter. -/
def Descends (g : Graph) (inputs : List BatchedTensor) (id : NodeId) (count : Nat) : Prop :=
  ∃ p, Encrypts g inputs p ∧ g.Path p id count

/-- A level is that of the descents to a node from the top, all alike, and
there is none if there are no descents. -/
structure Counts (g : Graph) (inputs : List BatchedTensor) (top : Nat) (id : NodeId)
    (l : Option Nat) : Prop where
  level : ∀ count, Descends g inputs id count → ∃ k, l = some k ∧ k + count = top
  descent : ∀ k, l = some k → ∃ count, Descends g inputs id count

/-- A parameter is at the top if its input is encrypted. -/
theorem counts_parameter {index : Nat} {t : BatchedTensor} (sound : g.Sound)
    (lists : g.ListsParameters) (hn : g.node? id = some n) (op : n.op = .parameter index)
    (found : inputs[index]? = some t) :
    Counts g inputs b.evaluator.context.topLevel id (freshLevel b t) := by
  obtain ⟨t', node⟩ := sound.parameters index id (lists id n index hn op)
  have noInputs : n.inputs = [] := by
    obtain rfl := Option.some.inj (hn.symm.trans node)
    rfl
  constructor
  · rintro count ⟨p, ⟨k, u, listed, hu, encrypted⟩, path⟩
    obtain ⟨rfl, rfl⟩ := path.eq_of_no_inputs hn noInputs
    obtain ⟨t'', node'⟩ := sound.parameters k p listed
    obtain ⟨rfl⟩ : index = k := by
      have same := Option.some.inj (node.symm.trans node')
      simpa using congrArg Node.op same
    obtain rfl := Option.some.inj (found.symm.trans hu)
    exact ⟨b.evaluator.context.topLevel, by rw [freshLevel, if_pos encrypted], rfl⟩
  · intro k eq
    have encrypted : t.isEncrypted = true := by
      by_contra plain
      rw [freshLevel, if_neg plain] at eq
      exact nomatch eq
    exact ⟨0, id, ⟨index, t, lists id n index hn op, found, encrypted⟩, .start⟩

/-- A node goes on from the descents to its operands. -/
theorem counts_of_carries (sound : g.Sound) (hn : g.node? id = some n)
    (computed : n.kind ≠ .parameter)
    (operands : List.Forall₂ (Counts g inputs top) n.inputs ls)
    (carries : Carries n.kind.drop ls l) :
    Counts g inputs top id l := by
  constructor
  · rintro count ⟨p, encrypts, path⟩
    have ne : p ≠ id := by
      rintro rfl
      obtain ⟨k, -, listed, -, -⟩ := encrypts
      exact sound.notMem_parameters hn computed (List.mem_of_getElem? listed)
    obtain ⟨i, hi, before, path, rfl⟩ := path.exists_operand hn ne
    obtain ⟨k, lt, rfl⟩ := List.mem_iff_getElem.mp hi
    obtain ⟨li, found, counts⟩ := Tensor.getElem?_related operands (List.getElem?_eq_getElem lt)
    obtain ⟨m, rfl, level⟩ := counts.level before ⟨p, encrypts, path⟩
    obtain ⟨k, rfl, rfl⟩ := carries.outcome m (List.mem_of_getElem? found)
    exact ⟨k, rfl, by omega⟩
  · intro k eq
    obtain ⟨j, lt, found⟩ := List.mem_iff_getElem.mp (carries.operand k eq)
    obtain ⟨i, hi, counts⟩ := Tensor.getElem?_related (List.Forall₂.flip operands)
      (List.getElem?_eq_getElem lt)
    obtain ⟨before, p, encrypts, path⟩ := counts.descent _ found
    exact ⟨_, p, encrypts, path.step hn (List.mem_of_getElem? hi)⟩

/-! ## Values -/

variable {values : Values} {t : BatchedTensor}

/-- The value of a node is at the level of the descents to the node. -/
def AtLevel (b : Backend) (g : Graph) (inputs : List BatchedTensor) (id : NodeId)
    (t : BatchedTensor) : Prop :=
  ∃ l, HasLevel t l ∧ Counts g inputs b.evaluator.context.topLevel id l

/-- The operands of a node have levels. -/
theorem exists_levels {ids : List NodeId}
    (found : List.Forall₂ (fun i x => values.lookup i = some x) ids xs)
    (good : ∀ i ∈ ids, ∃ u, values.lookup i = some u ∧ AtLevel b g inputs i u) :
    ∃ ls, List.Forall₂ HasLevel xs ls ∧
      List.Forall₂ (Counts g inputs b.evaluator.context.topLevel) ids ls := by
  induction found with
  | nil => exact ⟨[], .nil, .nil⟩
  | cons hx _ ih =>
    obtain ⟨u, hu, l, level, counts⟩ := good _ List.mem_cons_self
    obtain rfl := Option.some.inj (hx.symm.trans hu)
    obtain ⟨ls, levels, all⟩ := ih fun j hj => good j (List.mem_cons_of_mem _ hj)
    exact ⟨l :: ls, .cons level levels, .cons counts all⟩

/-- One node: whatever it is evaluated to is at the level of its descents. -/
theorem atLevel_evaluateNode (sound : g.Sound) (lists : g.ListsParameters)
    (positive : n.type.shape.IsPositive) (fresh : ∀ t ∈ inputs, Fresh b t)
    (hn : g.node? id = some n) (good : OperandsGood (AtLevel b g inputs) values n)
    (h : May (b.evaluateNode (Oracle.ofKey key ev : Oracle σ ε) inputs n values) t) :
    AtLevel b g inputs id t := by
  rcases may_evaluateNode (sound.typed id n hn) h with
    ⟨index, op, found, type⟩ | ⟨computed, xs, out, operands, hout, made⟩
  · have fresh := level_of_fresh (fresh t (List.mem_of_getElem? found)) (type ▸ positive)
    exact ⟨_, fresh, counts_parameter sound lists hn op found⟩
  · obtain ⟨ls, levels, counts⟩ := exists_levels operands good
    obtain ⟨l, level, carries⟩ := exists_level made positive (operate_carries levels hout)
    exact ⟨l, level, counts_of_carries sound hn computed counts carries⟩

/-! ## Rescaling at the lowest level -/

/-- What a run is refused with that rescales below the lowest level. -/
def exhausted : Problem :=
  .element (.scheme .modulusChainExhausted)

theorem ofValues_ne_exhausted {type : TensorType} {batch : Nat} {values : List Element} :
    BatchedTensor.ofValues type batch values ≠ .error exhausted := by
  intro h
  unfold BatchedTensor.ofValues at h
  dsimp only at h
  split at h
  · exact nomatch h
  · rcases of_bind_eq_error h with failed | ⟨packed, -, h⟩
    · unfold BatchedTensor.pack at failed
      split at failed
      · exact nomatch failed
      · split at failed
        · exact nomatch failed
        · split at failed <;> exact nomatch failed
    · split at h <;> exact nomatch h

variable {oracle : Oracle σ ε} {u : BatchedTensor}

/-- What becomes of a rescaling: the outcome is passed on. -/
theorem outcomes_of_rescale (b : Backend) (oracle : Oracle σ ε) (inputs : List BatchedTensor)
    (op : n.op = .rescale) (found : operand values n 0 = .ok u) :
    (∀ e, Element.rescaleAll b.evaluator u.values = .error e →
      Fails (b.evaluateNode oracle inputs n values) (.problem (.element e))) ∧
    (∀ out, Element.rescaleAll b.evaluator u.values = .ok out →
      (∀ p, BatchedTensor.ofValues n.type u.batch out = .error p →
        Fails (b.evaluateNode oracle inputs n values) (.problem p)) ∧
      (∀ t, BatchedTensor.ofValues n.type u.batch out = .ok t →
        Must (b.evaluateNode oracle inputs n values) t)) := by
  rw [evaluateNode_rescale op found]
  refine ⟨fun e failed => ?_, fun out outcome => ?_⟩
  · have fails : Fails (rescale b.evaluator u) (Problem.element e) :=
      fails_bind _ (fails_withError (fails_lift failed) _)
    exact fails_bind _ (fails_sample fails)
  · have must : Must (rescale b.evaluator u) (u.batch, out) :=
      must_bind (must_withError (must_lift outcome) _) (must_pure _)
    exact ⟨fun p failed => fails_bind_of_must (must_sample must) (fails_require failed),
      fun t made => must_bind (must_sample must) (must_require made)⟩

/-- A rescaling is refused for want of a level exactly if its operand is at the
lowest. -/
theorem evaluateNode_exhausted_iff (op : n.op = .rescale) (found : operand values n 0 = .ok u)
    {k : Nat} (level : HasLevel u (some k)) (within : k ≤ b.evaluator.context.topLevel)
    (s : Coins × σ) : (b.evaluateNode oracle inputs n values).run.run s =
      (.error (.problem exhausted), s) ↔ k = 0 := by
  obtain ⟨failed, made⟩ := outcomes_of_rescale b oracle inputs op found
  rw [← Element.rescaleAll_exhausted_iff level.elements level.level within]
  constructor
  · intro h
    cases outcome : Element.rescaleAll b.evaluator u.values with
    | error e =>
      have same := congrArg Prod.fst ((failed e outcome s).symm.trans h)
      obtain rfl : e = .scheme .modulusChainExhausted := by simpa [exhausted] using same
      rfl
    | ok out =>
      obtain ⟨failed, made⟩ := made out outcome
      cases last : BatchedTensor.ofValues n.type u.batch out with
      | error p =>
        have same := congrArg Prod.fst ((failed p last s).symm.trans h)
        obtain rfl : p = exhausted := by simpa using same
        exact absurd last ofValues_ne_exhausted
      | ok t => exact nomatch (made t last s).symm.trans h
  · exact fun outcome => failed _ outcome s

/-! ## Runs -/

/-- How far a run has come: nodes of the order of evaluation that have been
evaluated, those that are left, the values so far, and the coins and the state
of the oracle by then. -/
structure Reached (b : Backend) (g : Graph) (inputs : List BatchedTensor) (oracle : Oracle σ ε)
    (s : Coins × σ) (done left : List NodeId) (values : Values) (s' : Coins × σ) : Prop where
  count : inputs.length = g.parameters.length
  order : g.order = .ok (done ++ left)
  evaluated : (b.evaluateNodes oracle inputs g done []).run.run s = (.ok values, s')

variable {s s' : Coins × σ} {done left : List NodeId}

theorem evaluateNodes_append (oracle : Oracle σ ε) (done left : List NodeId) (values : Values) :
    b.evaluateNodes oracle inputs g (done ++ left) values = (do
      let values ← b.evaluateNodes oracle inputs g done values
      b.evaluateNodes oracle inputs g left values) := by
  induction done generalizing values with
  | nil => exact (pure_bind _ _).symm
  | cons id done ih =>
    rw [List.cons_append, evaluateNodes, evaluateNodes, bind_assoc]
    refine bind_congr fun n => ?_
    rw [bind_assoc]
    exact bind_congr fun t => ih _

/-- A run goes on from where it has come to. -/
theorem Reached.run_call (h : Reached b g inputs oracle s done left values s') :
    (b.call g inputs oracle).run.run s = (do
      let values ← b.evaluateNodes oracle inputs g left values
      require (g.results.mapM (value values)) : Eval σ ε (List BatchedTensor)).run.run s' := by
  unfold call
  rw [if_neg (not_not_intro h.count), h.order]
  show (do
    let values ← b.evaluateNodes oracle inputs g (done ++ left) []
    require (g.results.mapM (value values)) : Eval σ ε (List BatchedTensor)).run.run s = _
  rw [evaluateNodes_append, bind_assoc, run_bind_ok h.evaluated]

/-- What the next node fails with, the run fails with. -/
theorem Reached.fails {id : NodeId} {f : Run.Failure ε} {s'' : Coins × σ}
    (h : Reached b g inputs oracle s done (id :: left) values s') (hn : g.node? id = some n)
    (failed : (b.evaluateNode oracle inputs n values).run.run s' = (.error f, s'')) :
    (b.call g inputs oracle).run.run s = (.error f, s'') := by
  rw [h.run_call, evaluateNodes, Graph.node_ok hn]
  show ((do
    let t ← b.evaluateNode oracle inputs n values
    b.evaluateNodes oracle inputs g left ((id, t) :: values)) >>= fun values =>
      require (g.results.mapM (value values)) : Eval σ ε (List BatchedTensor)).run.run s' = _
  rw [bind_assoc, run_bind_error failed]

/-- Every value on the way is at the level of the descents to its node. -/
theorem Reached.atLevel
    (h : Reached b g inputs (.ofKey key ev : Oracle σ ε) s done left values s')
    (sound : g.Sound) (lists : g.ListsParameters)
    (positive : ∀ id n, g.node? id = some n → n.type.shape.IsPositive)
    (fresh : ∀ t ∈ inputs, Fresh b t) :
    ∀ id ∈ done, ∃ t, values.lookup id = some t ∧ AtLevel b g inputs id t := by
  obtain ⟨ids, eq, isOrder⟩ := sound.order
  obtain rfl : done ++ left = ids := Except.ok.inj (h.order.symm.trans eq)
  have isOrder : g.IsOrder ([] ++ done ++ left) := isOrder
  exact evaluateNodes_good isOrder (fun _ hi => absurd hi List.not_mem_nil)
    (fun id n _ hn values good t may =>
      atLevel_evaluateNode sound lists (positive id n hn) fresh hn good may)
    ⟨s, s', h.evaluated⟩

/-- The next node finds values of its operands at the level of the descents to
them. -/
theorem Reached.operand {id : NodeId} {k : Nat} {u : BatchedTensor}
    (h : Reached b g inputs (.ofKey key ev : Oracle σ ε) s done (id :: left) values s')
    (sound : g.Sound) (lists : g.ListsParameters)
    (positive : ∀ id n, g.node? id = some n → n.type.shape.IsPositive)
    (fresh : ∀ t ∈ inputs, Fresh b t) (hn : g.node? id = some n)
    (found : operand values n k = .ok u) : ∃ i, AtLevel b g inputs i u := by
  obtain ⟨ids, eq, isOrder⟩ := sound.order
  obtain rfl : done ++ id :: left = ids := Except.ok.inj (h.order.symm.trans eq)
  obtain ⟨i, hi, found⟩ := operand_eq_ok.mp found
  have mem : i ∈ g.inputs id := Graph.inputs_of_node? hn ▸ List.mem_of_getElem? hi
  obtain ⟨t, ht, level⟩ := h.atLevel sound lists positive fresh i
    (isOrder.before done id left rfl i mem)
  obtain rfl := Option.some.inj (found.symm.trans ht)
  exact ⟨i, level⟩

/-- The elements of a value are plain. -/
def AllPlain (t : BatchedTensor) : Prop :=
  ∀ e ∈ t.values, e.isCipher = false

/-- The elements of a value are encrypted, at one level. -/
def AllAt (t : BatchedTensor) (level : Nat) : Prop :=
  ∀ e ∈ t.values, ∃ h, e = .cipher h ∧ h.level = level

theorem HasLevel.allAt_iff {k level : Nat} (h : HasLevel t (some k)) :
    AllAt t level ↔ k = level := by
  constructor
  · intro all
    obtain ⟨e, rest, eq⟩ := List.exists_cons_of_ne_nil h.elements
    have mem : e ∈ t.values := by simp [eq]
    obtain ⟨c, rfl, rfl⟩ := all e mem
    exact Option.some.inj (h.level _ mem).symm
  · rintro rfl e he
    have same := h.level e he
    cases e with
    | plain _ => exact nomatch same
    | cipher c => exact ⟨c, rfl, Option.some.inj same⟩

/-- The value of a node is plain, and no way leads to the node from an encrypted
parameter; or it is encrypted, at a level that makes up the top one together
with the rescalings on every way from an encrypted parameter. -/
def LevelOfDescents (b : Backend) (g : Graph) (inputs : List BatchedTensor) (id : NodeId)
    (t : BatchedTensor) : Prop :=
  (AllPlain t ∧ ∀ count, ¬ Descends g inputs id count) ∨
    ∃ level count, AllAt t level ∧ level + count = b.evaluator.context.topLevel ∧
      Descends g inputs id count ∧ ∀ count', Descends g inputs id count' → count' = count

theorem AtLevel.levelOfDescents (h : AtLevel b g inputs id t) :
    LevelOfDescents b g inputs id t := by
  obtain ⟨l, level, counts⟩ := h
  cases l with
  | none =>
    refine .inl ⟨fun e he => ?_, fun count descends => ?_⟩
    · have none := level.level e he
      cases e with
      | plain _ => rfl
      | cipher _ => exact nomatch none
    · obtain ⟨k, eq, -⟩ := counts.level count descends
      exact nomatch eq
  | some k =>
    obtain ⟨count, descends⟩ := counts.descent k rfl
    have depth : ∀ count, Descends g inputs id count →
        k + count = b.evaluator.context.topLevel := by
      intro count descends
      obtain ⟨k, ⟨⟩, depth⟩ := counts.level count descends
      exact depth
    exact .inr ⟨k, count, level.allAt_iff.mpr rfl, depth count descends, descends, fun count' h' =>
      Nat.add_left_cancel ((depth count' h').trans (depth count descends).symm)⟩

/-- Levels follow from the graph. At any point of a run with the secret key, on
inputs that are plain or encrypted, each node that has been evaluated has a
value at the level of the descents to the node. And if a rescaling of an
encrypted value is next, then it is refused for want of a level exactly if the
value is at the lowest, and so is the run. -/
theorem levels_of_run (prepared : g.Prepared)
    (positive : ∀ id n, g.node? id = some n → n.type.shape.IsPositive)
    (fresh : ∀ t ∈ inputs, Fresh b t)
    (reached : Reached b g inputs (.ofKey key ev : Oracle σ ε) s done left values s') :
    (∀ id ∈ done, ∃ t, values.lookup id = some t ∧ LevelOfDescents b g inputs id t) ∧
    (∀ id rest n u, left = id :: rest → g.node? id = some n → n.op = .rescale →
      operand values n 0 = .ok u → u.isEncrypted = true →
      ((b.evaluateNode (.ofKey key ev : Oracle σ ε) inputs n values).run.run s' =
          (.error (.problem exhausted), s') ↔ AllAt u 0) ∧
        (AllAt u 0 → (b.call g inputs (.ofKey key ev : Oracle σ ε)).run.run s =
          (.error (.problem exhausted), s'))) := by
  have sound := prepared.sound
  have lists := prepared.listsParameters
  constructor
  · intro id mem
    obtain ⟨t, found, level⟩ := reached.atLevel sound lists positive fresh id mem
    exact ⟨t, found, level.levelOfDescents⟩
  · rintro id rest n u rfl hn op found encrypted
    obtain ⟨i, l, level, counts⟩ := reached.operand sound lists positive fresh hn found
    obtain ⟨k, rfl⟩ : ∃ k, l = some k := by
      rw [level.isEncrypted] at encrypted
      exact Option.isSome_iff_exists.mp encrypted
    have within : k ≤ b.evaluator.context.topLevel := by
      obtain ⟨count, descends⟩ := counts.descent k rfl
      obtain ⟨k, ⟨⟩, depth⟩ := counts.level count descends
      omega
    have iff : (b.evaluateNode (.ofKey key ev : Oracle σ ε) inputs n values).run.run s' =
        (.error (.problem exhausted), s') ↔ AllAt u 0 :=
      (evaluateNode_exhausted_iff op found level within s').trans level.allAt_iff.symm
    exact ⟨iff, fun all => reached.fails hn (iff.mpr all)⟩

/-- A value that is rescaled twice. -/
def twiceRescaled : Graph where
  nodes := [some ⟨.parameter 0, ⟨.f64, [2]⟩, [], 1⟩, some ⟨.rescale, ⟨.f64, [2]⟩, [0], 1⟩,
    some ⟨.rescale, ⟨.f64, [2]⟩, [1], 1⟩]
  parameters := [0]
  results := [2]

theorem built_twiceRescaled : twiceRescaled.Built :=
  .step (.addResult 2) (.step (.rescale 1) (.step (.rescale 0)
    (.step (.parameter ⟨.f64, [2]⟩) .empty rfl) rfl) rfl) rfl

/-- A backend for two levels, with keys of no primes. -/
def twoLevels : Backend :=
  ⟨⟨Context.tiny, ⟨⟨⟨0, []⟩, []⟩, ⟨⟨0, []⟩, []⟩⟩, ⟨[]⟩⟩, none, .real⟩

/-- A ciphertext and a known zero, both at the upper level. -/
def upperPair : BatchedTensor :=
  ⟨⟨.f64, [2]⟩, 1, [.cipher (.ofCiphertext ⟨[.ofInts Context.tiny.topBasis [5, 6, 7, 8],
    .ofInts Context.tiny.topBasis [1, 0, 2, 0]], .ofFloat 16, 1⟩ .real),
    .cipher (.zero .real (.ofFloat 16) 1)]⟩

theorem order_twiceRescaled : twiceRescaled.order = .ok [0, 1, 2] := by
  cbv

/-- The oracle of a key of no primes, which is not asked. -/
def idle : Oracle Unit Unit :=
  .ofKey ⟨⟨⟨0, []⟩, []⟩⟩ twoLevels.evaluator

theorem reached_twiceRescaled : ∃ values t, Reached twoLevels twiceRescaled [upperPair] idle
    (default, ()) [0, 1] [2] values (default, ()) ∧ values.lookup 1 = some t ∧
    t.isEncrypted = true :=
  ⟨_, _, ⟨rfl, order_twiceRescaled, rfl⟩, rfl, rfl⟩

/-- The first rescaling takes the value to the lowest level, and the second is
refused. -/
theorem levels_of_run_twiceRescaled :
    twiceRescaled.Prepared ∧
      (∀ id n, twiceRescaled.node? id = some n → n.type.shape.IsPositive) ∧
      (∀ t ∈ [upperPair], Fresh twoLevels t) ∧
      ∃ values t, Reached twoLevels twiceRescaled [upperPair] idle (default, ()) [0, 1] [2] values
          (default, ()) ∧
        values.lookup 1 = some t ∧ AllAt t 0 ∧
        (twoLevels.call twiceRescaled [upperPair] idle).run.run (default, ()) =
          (.error (.problem exhausted), (default, ())) := by
  have prepared : twiceRescaled.Prepared := .built built_twiceRescaled
  have positive : ∀ id n, twiceRescaled.node? id = some n → n.type.shape.IsPositive := by
    intro id n hn
    match id, hn with
    | 0, hn | 1, hn | 2, hn =>
      obtain rfl := Option.some.inj hn
      simp [Shape.IsPositive]
    | _ + 3, hn => exact nomatch hn
  have fresh : ∀ t ∈ [upperPair], Fresh twoLevels t := by
    have made : BatchedTensor.ofValues ⟨.f64, [2]⟩ 1 upperPair.values = .ok upperPair := by rfl
    exact List.forall_mem_singleton.mpr
      (.received made (List.forall_mem_cons.mpr ⟨rfl, List.forall_mem_singleton.mpr rfl⟩))
  obtain ⟨values, t, reached, found, encrypted⟩ := reached_twiceRescaled
  obtain ⟨levels, refused⟩ := levels_of_run prepared positive fresh reached
  have path : twiceRescaled.Path 0 1 (0 + OpKind.rescale.drop) :=
    Graph.Path.start.step (n := ⟨.rescale, ⟨.f64, [2]⟩, [0], 1⟩) rfl (List.mem_singleton.mpr rfl)
  have descends : Descends twiceRescaled [upperPair] 1 1 := ⟨0, ⟨0, upperPair, rfl, rfl, rfl⟩, path⟩
  have lowest : AllAt t 0 := by
    obtain ⟨u, hu, ⟨-, none⟩ | ⟨level, count, all, depth, -, same⟩⟩ := levels 1 (by simp)
    · exact absurd descends (none 1)
    · obtain rfl := Option.some.inj (found.symm.trans hu)
      obtain rfl := same 1 descends
      obtain rfl : level = 0 := Nat.succ.inj depth
      exact all
  refine ⟨prepared, positive, fresh, values, t, reached, found, lowest, ?_⟩
  exact (refused 2 [] _ t rfl rfl rfl (operand_eq_ok.mpr ⟨1, rfl, found⟩) encrypted).2 lowest

end Backend

end CipherFlow
