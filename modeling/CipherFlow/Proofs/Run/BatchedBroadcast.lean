import CipherFlow.Proofs.Graph.Built
import CipherFlow.Proofs.Run.Preservation
import CipherFlow.Proofs.Tensor.Broadcast

/-!
# Broadcasting batched tensors

The elements of a batched tensor are repeated from its packed shape to the
packed shape of the target; their lanes go along. This repeats the data as
long as the lanes number the same axis before and after. They do not where the
leading axis is a single group and the target has more axes: the packed axis
has extent 1, so it is repeated, and the lanes, which were its items, become
items of the new leading axis.

Main statement: `Backend.readBack_broadcast_iff`.

How the proof goes. For coordinates of the target, `origin` says which datum is read
back there. Group and lane of a coordinate are computed apart; only where the axes
are `Misaligned` do they not belong to the coordinate that alignment gives. So the
data are repeated wherever axes are aligned, and where they are not, exactly if the
items cannot be told apart (`isBroadcast_iff_of_origin`).
-/

namespace CipherFlow

open CipherFlow.Run (Oracle)
open Answering

namespace BatchedTensor

variable {source target packed packed' rest tail : Shape} {batch n m i : Nat}
  {index : List Nat} {data out : List Float}

/-! ## Where data come from -/

/-- The leading axis is one group of lanes, and the target has axes before
the one that it is aligned with. -/
def Misaligned (batch : Nat) (source target : Shape) : Prop :=
  1 < batch ∧ source.head? = some batch ∧ source.length < target.length

instance : Decidable (Misaligned batch source target) :=
  inferInstanceAs (Decidable (_ ∧ _ ∧ _))

/-- The coordinates of the datum that is read back at coordinates of the
target. -/
def origin (batch : Nat) (source target : Shape) (index : List Nat) : List Nat :=
  if Misaligned batch source target then laneOf batch index :: Shape.align source.tail index
  else source.align index

/-- A leading coordinate is that of a group and a lane, also where a single
group is read at its only index. -/
theorem lead_of_aligned (extent : n * batch = 1 ∨ n * batch = m * batch)
    (lt : i < m * batch) :
    (if n = 1 then 0 else i / batch) * batch + i % batch = if n * batch = 1 then 0 else i := by
  by_cases one : n = 1
  · subst one
    rw [if_pos rfl, Nat.zero_mul, Nat.zero_add]
    rw [Nat.one_mul] at extent ⊢
    split
    · simp_all [Nat.mod_one]
    · exact Nat.mod_eq_of_lt (by omega)
  · have many : n * batch ≠ 1 := fun h => one (Nat.eq_one_of_mul_eq_one_right h)
    rw [if_neg one, if_neg many, Nat.mul_comm, Nat.div_add_mod]

/-- Behind other axes there is no group that is repeated along with its lanes,
unless it is the only one. -/
theorem lead_of_longer {u c : Nat} (extent : n * batch = 1 ∨ n * batch = u)
    (extent' : n = 1 ∨ n = u) (lt : c < u) (pos : 0 < batch) (ne : 1 < batch → n ≠ 1) :
    (if n = 1 then 0 else c) * batch + i % batch = if n * batch = 1 then 0 else c := by
  rcases Nat.lt_or_eq_of_le (Nat.succ_le_of_lt pos) with many | one
  · -- the extent would be the same with and without the batch size, and zero
    have same : n * batch = n := by
      rcases extent with single | eq
      · exact absurd (Nat.eq_one_of_mul_eq_one_right single) (ne many)
      · rw [eq, extent'.resolve_left (ne many)]
    have zero : n = 0 := by nlinarith
    omega
  · rw [← one]
    simp [Nat.mod_one]

/-- Without axes before it the leading axis stays the leading axis. -/
theorem ofLane_align_of_eq (eq : rest.length = tail.length)
    (can : Shape.canBroadcast (n * batch :: rest) (m * batch :: tail))
    (within : Shape.Within (m * batch :: tail) (i :: index)) :
    ofLane batch (i % batch) (Shape.align (n :: rest) (i / batch :: index)) =
      origin batch (n * batch :: rest) (m * batch :: tail) (i :: index) := by
  obtain ⟨lead, within⟩ := List.forall₂_cons.mp within
  have same : rest.length = index.length := eq.trans within.length_eq.symm
  have aligned : ¬ Misaligned batch (n * batch :: rest) (m * batch :: tail) := fun mis =>
    Nat.ne_of_lt mis.2.2 (congrArg (· + 1) eq)
  rw [Shape.canBroadcast_cons_cons eq, Bool.and_eq_true] at can
  have extent : n * batch = 1 ∨ n * batch = m * batch := by simpa using can.1
  rw [Shape.align_cons_cons same, ofLane, origin, if_neg aligned, Shape.align_cons_cons same,
    lead_of_aligned extent lead]

/-- Behind other axes a single group is repeated and its lanes are not. -/
theorem ofLane_align_of_lt (lt : rest.length < tail.length) (pos : 0 < batch)
    (can : Shape.canBroadcast (n * batch :: rest) (m * batch :: tail))
    (can' : Shape.canBroadcast (n :: rest) (m :: tail))
    (within : Shape.Within (m * batch :: tail) (i :: index)) :
    ofLane batch (i % batch) (Shape.align (n :: rest) (i / batch :: index)) =
      origin batch (n * batch :: rest) (m * batch :: tail) (i :: index) := by
  obtain ⟨-, within⟩ := List.forall₂_cons.mp within
  have le : ∀ d : Nat, List.length (d :: rest) ≤ tail.length := fun _ => lt
  have le' : ∀ d : Nat, List.length (d :: rest) ≤ index.length := fun d =>
    within.length_eq ▸ le d
  obtain ⟨c, u, cu, each⟩ := Shape.exists_aligned within lt
  obtain ⟨extent, whole⟩ := each (n * batch)
  obtain ⟨extent', part⟩ := each n
  rw [Shape.canBroadcast_cons_of_le (le _)] at can can'
  rw [Shape.align_cons_of_le (le' _), part, ofLane, origin]
  by_cases mis : Misaligned batch (n * batch :: rest) (m * batch :: tail)
  · have one : n * batch = 1 * batch :=
      (Option.some.inj mis.2.1).trans (Nat.one_mul batch).symm
    rw [if_pos mis, if_pos (Nat.eq_of_mul_eq_mul_right pos one), Nat.zero_mul, Nat.zero_add,
      List.tail_cons, Shape.align_cons_of_le (Nat.le_of_succ_le (le' 0))]
    rfl
  · have ne : 1 < batch → n ≠ 1 := by
      rintro many rfl
      exact mis ⟨many, congrArg some (Nat.one_mul batch), Nat.succ_lt_succ lt⟩
    rw [if_neg mis, Shape.align_cons_of_le (le' _), whole,
      lead_of_longer (extent can) (extent' can') cu pos ne]

/-- The datum is in the same lane of the element at the aligned coordinates. -/
theorem ofLane_align_group (hs : Packs batch source packed) (ht : Packs batch target packed')
    (can : source.canBroadcast target) (can' : packed.canBroadcast packed')
    (within : target.Within index) :
    ofLane batch (laneOf batch index) (packed.align (group batch index)) =
      origin batch source target index := by
  cases hs with
  | scalar =>
    rw [origin, if_neg fun mis => Option.some_ne_none _ mis.2.1.symm]
    simp [Shape.align, ofLane]
  | axis n rest pos =>
    have le := Shape.length_le_of_canBroadcast can
    cases ht with
    | scalar => exact absurd le (Nat.not_succ_le_zero _)
    | axis m tail =>
      cases index with
      | nil => cases within
      | cons i index =>
        rcases Nat.lt_or_eq_of_le (Nat.le_of_succ_le_succ le) with lt | eq
        · exact ofLane_align_of_lt lt pos can can' within
        · exact ofLane_align_of_eq eq can within

/-! ## When the data are repeated -/

/-- All items of the leading axis are the same. -/
def SameItems (data : List Float) (batch : Nat) (shape : Shape) : Prop :=
  ∀ i < batch, ∀ index, Shape.Within shape.tail index →
    data[shape.position (i :: index)]? = data[shape.position (0 :: index)]?

/-- A misaligned source in full: one group of lanes, then the other axes. -/
theorem Misaligned.exists_eq (mis : Misaligned batch source target) :
    ∃ rest, source = batch :: rest ∧ rest.length + 1 < target.length := by
  obtain ⟨-, lead, longer⟩ := mis
  cases source with
  | nil => exact nomatch lead
  | cons d rest =>
    obtain rfl := Option.some.inj lead
    exact ⟨rest, rfl, longer⟩

/-- Where the items are the same, it does not matter which is read. -/
theorem position_eq_of_sameItems (can : source.canBroadcast target)
    (mis : Misaligned batch source target) (same : SameItems data batch source)
    (within : target.Within index) :
    data[source.position (laneOf batch index :: Shape.align source.tail index)]? =
      data[source.position (source.align index)]? := by
  have many : 1 < batch := mis.1
  obtain ⟨rest, rfl, longer⟩ := mis.exists_eq
  obtain ⟨i, u, lt, each⟩ := Shape.exists_aligned within (Nat.lt_of_succ_lt longer)
  obtain ⟨extent, aligned⟩ := each batch
  have extent := extent can
  have items : Shape.Within rest (Shape.align rest index) :=
    Shape.within_align within (Shape.canBroadcast_tail can)
  rw [List.tail_cons, aligned, if_neg (Nat.ne_of_gt many)]
  exact (same _ (Nat.mod_lt _ (by omega)) _ items).trans (same i (by omega) _ items).symm

/-- A misaligned repetition reads each item where the first belongs. -/
theorem sameItems_of_isBroadcast (packs : Packs batch target packed')
    (can : source.canBroadcast target) (mis : Misaligned batch source target)
    (pos : 0 < target.prod)
    (origins : ∀ index, target.Within index → out[target.position index]? =
      data[source.position (origin batch source target index)]?)
    (repeats : Tensor.IsBroadcast data source target out) : SameItems data batch source := by
  obtain ⟨rest, rfl, longer⟩ := mis.exists_eq
  cases packs with
  | scalar => exact absurd longer (Nat.not_lt_zero _)
  | axis m tail =>
    rw [List.prod_cons] at pos
    have groups : 0 < m * batch := Nat.pos_of_mul_pos_right pos
    have lt : rest.length < tail.length := Nat.lt_of_succ_lt_succ longer
    have le : (batch :: rest).length ≤ tail.length := lt
    rw [Shape.canBroadcast_cons_of_le le] at can
    intro i hi items within
    -- coordinates that are aligned with the first item, led by those of another
    obtain ⟨index, inside, eq⟩ := Shape.exists_within_align can (Nat.pos_of_mul_pos_left pos)
      (.cons (Nat.lt_of_le_of_lt (Nat.zero_le i) hi) within)
    have length : index.length = tail.length := inside.length_eq
    obtain ⟨_, _, -, each⟩ := Shape.exists_aligned inside lt
    have rest_eq : Shape.align rest index = items :=
      (List.cons.inj ((each batch).2.symm.trans eq)).2
    have lead : i < m * batch :=
      Nat.lt_of_lt_of_le hi (Nat.le_mul_of_pos_left batch (Nat.pos_of_mul_pos_right groups))
    have wholeWithin : Shape.Within (m * batch :: tail) (i :: index) := .cons lead inside
    have read := (origins _ wholeWithin).symm.trans (repeats.value _ wholeWithin)
    rwa [origin, if_pos mis, List.tail_cons, Shape.align_cons_of_le (length ▸ Nat.le_of_lt lt),
      Shape.align_cons_of_le (length ▸ le), rest_eq, eq, laneOf, List.headD_cons,
      Nat.mod_eq_of_lt hi] at read

/-- Data that are read from their origins repeat the source, unless lanes are
misaligned. Then they do so if there is nothing to read or nothing to tell the
items apart. -/
theorem isBroadcast_iff_of_origin (packs : Packs batch target packed')
    (can : source.canBroadcast target) (length : out.length = target.prod)
    (origins : ∀ index, target.Within index → out[target.position index]? =
      data[source.position (origin batch source target index)]?) :
    Tensor.IsBroadcast data source target out ↔
      (Misaligned batch source target → target.prod = 0 ∨ SameItems data batch source) := by
  constructor
  · intro repeats mis
    by_cases empty : target.prod = 0
    · exact .inl empty
    · exact .inr (sameItems_of_isBroadcast packs can mis (Nat.pos_of_ne_zero empty) origins repeats)
  · intro same
    refine ⟨length, fun index within => ?_⟩
    rw [origins index within, origin]
    split
    · rename_i mis
      have items : SameItems data batch source := (same mis).resolve_left fun empty =>
        absurd (Shape.position_lt within) (by rw [empty]; exact Nat.not_lt_zero _)
      exact position_eq_of_sameItems can mis items within
    · rfl

end BatchedTensor

namespace Backend

open BatchedTensor

variable {σ ε : Type} {x y : BatchedTensor} {type : TensorType} {out : Batched} {batch : Nat}
  {source : TensorType} {data : List Float}

/-! ## Reading back -/

/-- The packed shape is repeated. -/
theorem exists_of_may_broadcast {shape : Shape} (h : May (broadcast x shape) out) :
    out.1 = x.batch ∧ ∃ packed, Packs x.batch shape packed ∧
      May (Tensor.broadcast x.values x.packedShape packed) out.2 := by
  obtain ⟨packed, hpacked, h⟩ := may_bind h
  obtain ⟨values, hvalues, h⟩ := may_bind h
  obtain rfl := may_pure h
  exact ⟨rfl, packed, pack_eq_ok_iff.mp (eq_ok_of_may_lift hpacked), may_of_may_withError hvalues⟩

/-- What is read back of a repetition of plain data. -/
theorem read_broadcast (made : plain source batch data = .ok x)
    (can : source.shape.canBroadcast type.shape) (repeated : May (broadcast x type.shape) out)
    (whole : ofValues type out.1 out.2 = .ok y) (ctx : Context) (key : Option SecretKey) :
    ∃ values : List Float, (y.read key ctx = do
        Fault.reserve 8 type.shape.size
        return values) ∧ values.length = type.shape.prod ∧
      ∀ index, type.shape.Within index → values[type.shape.position index]? =
        data[source.shape.position (origin batch source.shape type.shape index)]? := by
  obtain ⟨sized, packed, lanes, packs, rfl, width, items⟩ := exists_of_plain made
  obtain ⟨same, packed', packs', repeated⟩ := exists_of_may_broadcast repeated
  obtain ⟨sized', -, rfl⟩ := ofValues_eq_ok_iff.mp whole
  rw [packs.packedShape] at repeated
  obtain ⟨lanes', repeated, eq⟩ := Tensor.exists_of_may_broadcast_map repeated
  have can' : packed.canBroadcast packed' := (Tensor.may_broadcast repeated).1
  have repeats := Tensor.isBroadcast_of_may repeated (packs'.isSome_size? sized')
  have width' : ∀ xs ∈ lanes', xs.length = batch := fun xs hxs => width xs (repeats.mem hxs)
  rw [same]
  refine ⟨spreadLanes lanes' type.shape batch, read_plain eq width' ?_, ?_, ?_⟩
  · intro some
    rw [Shape.size_eq_prod sized', packs'.prod_eq, ← repeats.length]
    exact Nat.le_mul_of_pos_left batch (List.length_pos_iff.mpr some)
  · rw [length_spreadLanes, Shape.size_eq_prod sized']
  · intro index within
    have inside := within_group packs' within
    obtain ⟨xs, v, hxs, hv, datum⟩ := items _ (Shape.within_align inside can')
      (laneOf batch index) (Nat.mod_lt _ packs.pos)
    rw [← repeats.value _ inside] at hxs
    rw [getElem?_spreadLanes packs' sized' within hxs hv, ← datum,
      ofLane_align_group packs packs' can can' within]

/-- The node that the graph makes where it accepts the shapes. -/
theorem exists_of_built {g g' : Graph} {id new : NodeId} {shape : Shape} {n : Node}
    (typed : g.typeOf id = .ok source)
    (built : (Graph.broadcast id shape).run g = .ok (new, g')) (node : g'.node new = .ok n) :
    source.shape.canBroadcast shape ∧ n = ⟨.broadcast, ⟨source.elementType, shape⟩, [id], 1⟩ := by
  obtain ⟨t, type, ht, accepted, made⟩ := Graph.unary_inv built
  obtain rfl : t = source := Option.some.inj (ht.symm.trans (Graph.type?_of_typeOf typed))
  have appended : (g.push ⟨.broadcast, type, [id], 1⟩).2.node g.size = .ok _ :=
    Graph.node_ok (Graph.node?_push_size _)
  obtain ⟨rfl, rfl⟩ := Prod.mk.inj made
  obtain rfl := Except.ok.inj (appended.symm.trans node)
  unfold TensorType.broadcast at accepted
  split at accepted
  · rename_i can
    exact ⟨can, by rw [Except.ok.inj accepted]⟩
  · exact nomatch accepted

/-- Wherever a broadcast that the graph accepts can be evaluated on plain
batched data, the result is read back as far as it fits into memory. What is
read back repeats the data, as without batching, exactly if the lanes are not
misaligned, or there is nothing to read, or all items are the same. -/
theorem readBack_broadcast_iff (b : Backend) (oracle : Oracle σ ε) {inputs : List BatchedTensor}
    {g g' : Graph} {id new : NodeId} {shape : Shape} {n : Node} {values : Values} {c : Coins}
    {s s' : σ} (made : plain source batch data = .ok x) (typed : g.typeOf id = .ok source)
    (built : (Graph.broadcast id shape).run g = .ok (new, g')) (node : g'.node new = .ok n)
    (computed : values.lookup id = some x)
    (run : (b.evaluateNode oracle inputs n values).runFrom c s = (.ok y, s')) :
    ∃ out : List Float, (b.read y = do
        Fault.reserve 8 shape.size
        return out) ∧ out.length = shape.prod ∧
      (∀ index, shape.Within index → out[shape.position index]? =
        data[source.shape.position (origin batch source.shape shape index)]?) ∧
      (Tensor.IsBroadcast data source.shape shape out ↔
        (Misaligned batch source.shape shape →
          shape.prod = 0 ∨ SameItems data batch source.shape)) := by
  obtain ⟨can, rfl⟩ := exists_of_built typed built node
  have may := may_of_runFrom run
  rw [evaluateNode_broadcast rfl (operand_eq_ok.mpr ⟨id, rfl, computed⟩)] at may
  obtain ⟨out, repeated, whole⟩ := may_bind may
  have repeated := may_of_may_sample repeated
  have whole := eq_ok_of_may_require whole
  obtain ⟨values, read, length, origins⟩ :=
    read_broadcast made can repeated whole b.evaluator.context b.key
  obtain ⟨-, packed, packs, -⟩ := exists_of_may_broadcast repeated
  rw [batch_of_plain made] at packs
  exact ⟨values, read, length, origins, isBroadcast_iff_of_origin packs can length origins⟩

/-- A graph of one parameter. -/
def lone (type : TensorType) : Graph :=
  ⟨[some ⟨.parameter 0, type, [], 1⟩], [0], []⟩

/-- A node that repeats the parameter. -/
def repeated (shape : Shape) : Node :=
  ⟨.broadcast, ⟨.f64, shape⟩, [0], 1⟩

/-- A column of four items, in two groups. -/
def column : BatchedTensor :=
  ⟨⟨.f64, [4, 1]⟩, 2, [.plain [1, 2], .plain [3, 4]]⟩

/-- The column twice. -/
def columns : BatchedTensor :=
  ⟨⟨.f64, [4, 2]⟩, 2, [.plain [1, 2], .plain [1, 2], .plain [3, 4], .plain [3, 4]]⟩

/-- Along a row each item of the column is repeated. -/
theorem readBack_broadcast_column :
    plain ⟨.f64, [4, 1]⟩ 2 [1, 2, 3, 4] = .ok column ∧
      (lone ⟨.f64, [4, 1]⟩).typeOf 0 = .ok ⟨.f64, [4, 1]⟩ ∧
      (Graph.broadcast 0 [4, 2]).run (lone ⟨.f64, [4, 1]⟩) =
        .ok ((lone ⟨.f64, [4, 1]⟩).push (repeated [4, 2])) ∧
      ((lone ⟨.f64, [4, 1]⟩).push (repeated [4, 2])).2.node 1 = .ok (repeated [4, 2]) ∧
      [(0, column)].lookup 0 = some column ∧
      (keyless.evaluateNode (.ofScript : Oracle Run.Script Unit) [] (repeated [4, 2])
        [(0, column)]).runFrom default ⟨[], []⟩ = (.ok columns, ⟨[], []⟩) ∧
      ∃ out : List Float, (keyless.read columns = do
          Fault.reserve 8 (Shape.size [4, 2])
          return out) ∧ Tensor.IsBroadcast [1, 2, 3, 4] [4, 1] [4, 2] out := by
  have made : plain ⟨.f64, [4, 1]⟩ 2 [1, 2, 3, 4] = .ok column := by rfl
  have typed : (lone ⟨.f64, [4, 1]⟩).typeOf 0 = .ok ⟨.f64, [4, 1]⟩ := by rfl
  have built : (Graph.broadcast 0 [4, 2]).run (lone ⟨.f64, [4, 1]⟩) =
      .ok ((lone ⟨.f64, [4, 1]⟩).push (repeated [4, 2])) := by rfl
  have node : ((lone ⟨.f64, [4, 1]⟩).push (repeated [4, 2])).2.node 1 =
      .ok (repeated [4, 2]) := by rfl
  have run : (keyless.evaluateNode (.ofScript : Oracle Run.Script Unit) [] (repeated [4, 2])
      [(0, column)]).runFrom default ⟨[], []⟩ = (.ok columns, ⟨[], []⟩) := by rfl
  obtain ⟨out, read, -, -, exact⟩ :=
    readBack_broadcast_iff keyless .ofScript made typed built node rfl run
  have aligned : ¬ Misaligned 2 [4, 1] [4, 2] := by decide
  exact ⟨made, typed, built, node, rfl, run, out, read, exact.mpr fun mis => absurd mis aligned⟩

/-- Two items in one group. -/
def row : BatchedTensor :=
  ⟨⟨.f64, [2]⟩, 2, [.plain [1, 2]]⟩

/-- What comes of repeating it along a new axis. -/
def rows : BatchedTensor :=
  ⟨⟨.f64, [2, 2]⟩, 2, [.plain [1, 2], .plain [1, 2]]⟩

/-- The items of the row are read back along the new axis: each row is made of
one of them. -/
theorem readBack_broadcast_row :
    plain ⟨.f64, [2]⟩ 2 [1, 2] = .ok row ∧
      (Graph.broadcast 0 [2, 2]).run (lone ⟨.f64, [2]⟩) =
        .ok ((lone ⟨.f64, [2]⟩).push (repeated [2, 2])) ∧
      (keyless.evaluateNode (.ofScript : Oracle Run.Script Unit) [] (repeated [2, 2])
        [(0, row)]).runFrom default ⟨[], []⟩ = (.ok rows, ⟨[], []⟩) ∧
      keyless.read rows = .ok [1, 1, 2, 2] ∧
      ¬ Tensor.IsBroadcast [(1 : Float), 2] [2] [2, 2] [1, 1, 2, 2] := by
  refine ⟨by rfl, by rfl, by rfl, by rfl, ?_⟩
  intro repeats
  have second := repeats.value [0, 1] (.cons (by decide) (.cons (by decide) .nil))
  have bits := congrArg (Option.map Float.toBits) second
  revert bits
  decide +kernel

end Backend

end CipherFlow
