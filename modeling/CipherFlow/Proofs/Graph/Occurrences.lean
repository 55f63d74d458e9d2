import CipherFlow.Proofs.Graph.Arena
import CipherFlow.Proofs.Graph.Built
import CipherFlow.Proofs.Graph.Finding

/-!
# Occurrences of patterns

A pattern occurs at a node if the operands of its commutative operations can
be ordered so that all of it is there, each label standing for one node. What
the search finds is an occurrence, and its record says of which nodes. Not
every occurrence is found: the search does not go back into an operation that
it has left. It does not have to if no label that is bound within a commutative
operation is used again behind it.

* `found_occurs`: whatever is found is an occurrence, and the record holds its nodes
  and bindings.
* `found_iff_occurs`: patterns for which the search never has to go back
  (`isForward`) are found exactly where they occur.
* `factorLast_not_found`: without this condition they may not be.

How the proof goes. Both directions are by recursion on the pattern, along with the
list of patterns of its operands. What the search adds to a record is described by
`Adds`, and composed as the search composes its parts. In the other direction the
record at hand has to agree with the given occurrence (`Found.Agrees`) on those
labels that are used later. A commutative operation may be found in another way than
it is given to occur; by `isForward` nothing later depends on it.
-/

namespace CipherFlow

open CipherFlow.Graph

variable {g : Graph} {id root : NodeId} {n : Node}

/-- The orders in which a node of a kind may take its operands. -/
inductive OpKind.Orders (kind : OpKind) : (inputs ids : List NodeId) → Prop where
  | kept {ids : List NodeId} : kind.Orders ids ids
  | swapped {a b : NodeId} : kind.isCommutative = true → kind.Orders [a, b] [b, a]

theorem OpKind.Orders.eq_or_eq_reverse {kind : OpKind} {inputs ids : List NodeId}
    (h : kind.Orders inputs ids) :
    ids = inputs ∨ (kind.isCommutative = true ∧ inputs.length = 2) ∧ ids = inputs.reverse := by
  cases h with
  | kept => exact .inl rfl
  | swapped commutative => exact .inr ⟨⟨commutative, rfl⟩, rfl⟩

/-- Operands are swapped just where there are two and the kind allows it. -/
theorem OpKind.orders_reverse {kind : OpKind} {inputs : List NodeId}
    (commutative : kind.isCommutative = true) (two : inputs.length = 2) :
    kind.Orders inputs inputs.reverse := by
  obtain ⟨a, b, rfl⟩ := List.length_eq_two.mp two
  exact .swapped commutative

namespace Pattern

/-! ## Labels -/

mutual

/-- The names of the labels, as often as they are used. -/
def labels : Pattern → List String
  | label name _ => [name]
  | op _ args => labelsOf args
  | skip inner _ => labels inner

/-- The names of the labels of several patterns. -/
def labelsOf : List Pattern → List String
  | [] => []
  | p :: ps => labels p ++ labelsOf ps

end

/-! ## Occurrences -/

mutual

/-- A pattern occurs at a node, its labels standing for given nodes. The nodes
of its operations are listed, each before those of its operands. -/
inductive Occurs (g : Graph) (stands : String → Option NodeId) :
    Pattern → NodeId → List NodeId → Prop where
  | label {name : String} {accept : Node → Bool} {id : NodeId} {n : Node} :
      g.node? id = some n → accept n = true → stands name = some id →
      Occurs g stands (.label name accept) id []
  | op {args : List Pattern} {id : NodeId} {n : Node} {ids nodes : List NodeId} :
      g.node? id = some n → n.inputs.length = args.length → n.kind.Orders n.inputs ids →
      OccurAll g stands args ids nodes → Occurs g stands (.op n.kind args) id (id :: nodes)
  | across {inner : Pattern} {accept : Node → Bool} {id x : NodeId} {n : Node}
      {nodes : List NodeId} :
      g.node? id = some n → n.inputs = [x] → accept n = true → Occurs g stands inner x nodes →
      Occurs g stands (.skip inner accept) id nodes
  | here {inner : Pattern} {accept : Node → Bool} {id : NodeId} {n : Node}
      {nodes : List NodeId} :
      g.node? id = some n → ¬ (accept n = true ∧ n.inputs.length = 1) →
      Occurs g stands inner id nodes → Occurs g stands (.skip inner accept) id nodes

/-- Patterns occur at nodes, one at each. -/
inductive OccurAll (g : Graph) (stands : String → Option NodeId) :
    List Pattern → List NodeId → List NodeId → Prop where
  | nil : OccurAll g stands [] [] []
  | cons {p : Pattern} {ps : List Pattern} {id : NodeId} {ids nodes rest : List NodeId} :
      Occurs g stands p id nodes → OccurAll g stands ps ids rest →
      OccurAll g stands (p :: ps) (id :: ids) (nodes ++ rest)

end

variable {stands stands' : String → Option NodeId}

mutual

/-- A label stands for a live node. -/
theorem Occurs.exists_live {p : Pattern} {id : NodeId} {nodes : List NodeId} {name : String}
    (mem : name ∈ p.labels) :
    Occurs g stands p id nodes → ∃ x, stands name = some x ∧ g.isLive x = true
  | .label hn _ eq => by
    obtain rfl := List.mem_singleton.mp mem
    exact ⟨_, eq, isLive_of_node? hn⟩
  | .op _ _ _ args => args.exists_live mem
  | .across _ _ _ inner => inner.exists_live (by exact mem)
  | .here _ _ inner => inner.exists_live (by exact mem)

theorem OccurAll.exists_live {ps : List Pattern} {ids nodes : List NodeId} {name : String}
    (mem : name ∈ labelsOf ps) :
    OccurAll g stands ps ids nodes → ∃ x, stands name = some x ∧ g.isLive x = true
  | .nil => nomatch mem
  | .cons head tail => (List.mem_append.mp mem).elim head.exists_live tail.exists_live

end

mutual

/-- What the labels of a pattern stand for is all that counts. -/
theorem Occurs.congr {p : Pattern} {id : NodeId} {nodes : List NodeId}
    (same : ∀ name ∈ p.labels, ∀ x, stands name = some x → stands' name = some x) :
    Occurs g stands p id nodes → Occurs g stands' p id nodes
  | .label hn accepted eq => .label hn accepted (same _ (by simp [labels]) _ eq)
  | .op hn length order args => .op hn length order (args.congr same)
  | .across hn inputs accepted inner => .across hn inputs accepted (inner.congr same)
  | .here hn refused inner => .here hn refused (inner.congr same)

theorem OccurAll.congr {ps : List Pattern} {ids nodes : List NodeId}
    (same : ∀ name ∈ labelsOf ps, ∀ x, stands name = some x → stands' name = some x) :
    OccurAll g stands ps ids nodes → OccurAll g stands' ps ids nodes
  | .nil => .nil
  | .cons head tail =>
    .cons (head.congr fun name mem => same name (List.mem_append_left _ mem))
      (tail.congr fun name mem => same name (List.mem_append_right _ mem))

end

/-! ## Records -/

namespace Found

variable {found found' between : Found} {name : String}

/-- The labels that are bound. -/
def names (found : Found) : List String :=
  found.bindings.map Prod.fst

theorem mem_names_iff : name ∈ found.names ↔ ∃ x, found.get? name = some x := by
  rw [← Option.isSome_iff_exists, get?, List.lookup_isSome_iff, names, List.mem_map]
  simp only [beq_iff_eq, eq_comm (a := name)]

theorem get?_eq_none_iff : found.get? name = none ↔ name ∉ found.names := by
  rw [mem_names_iff, ← Option.isSome_iff_exists]
  simp

/-- What is written into a record when a part of a pattern is found: the nodes
of its operations and the bindings of its labels, and nothing else. -/
structure Adds (labels : List String) (nodes : List NodeId) (found found' : Found) : Prop where
  matched : found'.matched = found.matched ++ nodes
  kept : ∀ name x, found.get? name = some x → found'.get? name = some x
  names : ∀ name, name ∈ found'.names ↔ name ∈ found.names ∨ name ∈ labels
  nodup : found.names.Nodup → found'.names.Nodup

theorem Adds.trans {labels labels' : List String} {nodes nodes' : List NodeId}
    (first : Adds labels nodes found between) (second : Adds labels' nodes' between found') :
    Adds (labels ++ labels') (nodes ++ nodes') found found' where
  matched := by rw [second.matched, first.matched, List.append_assoc]
  kept := fun name x h => second.kept name x (first.kept name x h)
  names := fun name => by rw [second.names, first.names, List.mem_append, or_assoc]
  nodup := fun h => second.nodup (first.nodup h)

theorem adds_nothing (found : Found) : Adds [] [] found found where
  matched := (List.append_nil _).symm
  kept := fun _ _ h => h
  names := by simp
  nodup := id

theorem adds_note (found : Found) (id : NodeId) : Adds [] [id] found (found.note id) where
  matched := rfl
  kept := fun _ _ h => h
  names := fun name => by
    rw [show (found.note id).names = found.names from rfl]
    simp
  nodup := fun h => h

theorem get?_append (name : String) (id : NodeId) (other : String) :
    get? { found with bindings := found.bindings ++ [(name, id)] } other =
      (found.get? other).or (if other = name then some id else none) := by
  rw [get?, List.lookup_append]
  by_cases eq : other = name
  · simp [eq, get?]
  · have ne : (other == name) = false := beq_eq_false_iff_ne.mpr eq
    simp [eq, ne, List.lookup_cons, get?]

/-- A label that is bound stands for its node. -/
theorem adds_bind (h : found.bind? name id = some found') :
    found'.get? name = some id ∧ Adds [name] [] found found' := by
  unfold bind? at h
  split at h
  · rename_i bound eq
    split at h
    · obtain rfl := Option.some.inj h
      subst bound
      refine ⟨eq, (List.append_nil _).symm, fun _ _ h => h, fun other => ?_, fun h => h⟩
      have mem : name ∈ found.names := mem_names_iff.mpr ⟨_, eq⟩
      simp only [List.mem_singleton, iff_self_or]
      exact fun eq => eq ▸ mem
    · exact nomatch h
  · rename_i unbound
    obtain rfl := Option.some.inj h
    refine ⟨?_, (List.append_nil _).symm, fun other x h => ?_, fun other => ?_, fun nodup => ?_⟩
    · rw [get?_append, unbound, if_pos rfl]
      rfl
    · rw [get?_append, h]
      rfl
    · simp [names]
    · have new : name ∉ found.names := get?_eq_none_iff.mp unbound
      rw [names, List.map_append]
      refine List.nodup_append.mpr ⟨nodup, by simp, ?_⟩
      rintro other mem _ last rfl
      obtain rfl : other = name := List.mem_singleton.mp last
      exact new mem

end Found

/-! ## What is found occurs -/

mutual

/-- What the search finds is an occurrence, and just this is written down. -/
theorem exists_occurs :
    ∀ {p : Pattern} {id : NodeId} {found found' : Found}, p.find? g id found = some found' →
      ∃ nodes, p.Occurs g found'.get? id nodes ∧ found.Adds p.labels nodes found'
  | .label name accept, id, found, found', h => by
    obtain ⟨⟨n, hn, accepted⟩, bound⟩ := (find?_label name).mp h
    obtain ⟨stands, adds⟩ := Found.adds_bind bound
    exact ⟨[], .label hn accepted stands, adds⟩
  | .skip inner accept, id, found, found', h => by
    cases hn : g.node? id with
    | none => simp [find?, hn] at h
    | some n =>
      by_cases accepted : accept n = true ∧ n.inputs.length = 1
      · obtain ⟨x, inputs⟩ := List.length_eq_one_iff.mp accepted.2
        rw [find?_across hn inputs accepted.1] at h
        obtain ⟨nodes, occurs, adds⟩ := exists_occurs h
        exact ⟨nodes, .across hn inputs accepted.1 occurs, adds⟩
      · rw [find?_here hn accepted] at h
        obtain ⟨nodes, occurs, adds⟩ := exists_occurs h
        exact ⟨nodes, .here hn accepted occurs, adds⟩
  | .op kind args, id, found, found', h => by
    cases hn : g.node? id with
    | none => simp [find?, hn] at h
    | some n =>
      by_cases fits : n.kind = kind ∧ n.inputs.length = args.length
      · obtain ⟨rfl, length⟩ := fits
        rw [find?_op hn length, Option.or_eq_some_iff] at h
        have noted := Found.adds_note found id
        rcases h with h | ⟨-, h⟩
        · obtain ⟨nodes, occur, adds⟩ := exists_occurAll length h
          exact ⟨id :: nodes, .op hn length .kept occur, noted.trans adds⟩
        · split at h
          · rename_i both
            rw [Bool.and_eq_true, beq_iff_eq] at both
            have order := OpKind.orders_reverse both.1 (length.trans both.2)
            obtain ⟨nodes, occur, adds⟩ := exists_occurAll (List.length_reverse.trans length) h
            exact ⟨id :: nodes, .op hn length order occur, noted.trans adds⟩
          · exact nomatch h
      · have other : n.kind ≠ kind ∨ n.inputs.length ≠ args.length := by tauto
        simp only [find?, hn, if_pos other] at h
        exact nomatch h

theorem exists_occurAll :
    ∀ {ps : List Pattern} {ids : List NodeId} {found found' : Found}, ids.length = ps.length →
      findArgs? g ps ids found = some found' →
      ∃ nodes, OccurAll g found'.get? ps ids nodes ∧ found.Adds (labelsOf ps) nodes found'
  | [], [], found, found', _, h => by
    obtain rfl := Option.some.inj h
    exact ⟨[], .nil, Found.adds_nothing found⟩
  | p :: ps, id :: ids, found, found', length, h => by
    obtain ⟨between, first, rest⟩ := findArgs?_cons.mp h
    obtain ⟨nodes, occurs, adds⟩ := exists_occurs first
    obtain ⟨nodes', occur, adds'⟩ := exists_occurAll (Nat.succ.inj length) rest
    -- The bindings of the first operand are still there at the end.
    have occurs' := occurs.congr fun name _ x => adds'.kept name x
    exact ⟨nodes ++ nodes', .cons occurs' occur, adds.trans adds'⟩

end

/-- What is found of a pattern is one occurrence of it: the labels of the
pattern are bound, each once, and no others; wherever a label is used stands
the live node that it is bound to; and the nodes of the operations are noted,
the root first, in the order of the pattern. -/
theorem found_occurs {p : Pattern} {m : Found} (h : p.matchAt? g root = some m) :
    p.Occurs g m.get? root m.matched ∧ m.names.Nodup ∧
      (∀ name, name ∈ m.names ↔ name ∈ p.labels) ∧
      ∀ name x, m.get? name = some x → g.isLive x = true := by
  rw [matchAt?_eq] at h
  obtain ⟨nodes, occurs, adds⟩ := exists_occurs h
  have matched : m.matched = nodes := adds.matched
  have names : ∀ name, name ∈ m.names ↔ name ∈ p.labels := fun name => by
    rw [adds.names]
    exact or_iff_right List.not_mem_nil
  refine ⟨matched ▸ occurs, adds.nodup List.nodup_nil, names, fun name x bound => ?_⟩
  obtain ⟨y, stands, live⟩ :=
    occurs.exists_live ((names name).mp (Found.mem_names_iff.mpr ⟨x, bound⟩))
  obtain rfl := Option.some.inj (stands.symm.trans bound)
  exact live

/-- A sum of two products. The factor of the first that is multiplied with
the rectifier of the second has to be found again. -/
def twoProducts : Pattern :=
  .op .add [.op .multiply [.any "a", .any "b"], .op .multiply [.op .relu [.any "c"], .any "a"]]

/-- The product with a rectifier comes first. -/
def sumOfProducts : Graph where
  nodes := [some ⟨.parameter 0, ⟨.f64, [2]⟩, [], 1⟩, some ⟨.parameter 1, ⟨.f64, [2]⟩, [], 1⟩,
    some ⟨.relu, ⟨.f64, [2]⟩, [0], 1⟩, some ⟨.multiply, ⟨.f64, [2]⟩, [2, 1], 1⟩,
    some ⟨.multiply, ⟨.f64, [2]⟩, [1, 0], 1⟩, some ⟨.add, ⟨.f64, [2]⟩, [3, 4], 1⟩]
  parameters := [0, 1]
  results := []

/-- The first order of the sum is given up after all of its nodes have been
noted and two labels bound. -/
theorem found_occurs_twoProducts :
    twoProducts.matchAt? sumOfProducts 5 =
        some ⟨[("a", 1), ("b", 0), ("c", 0)], [5, 4, 3, 2]⟩ ∧
      twoProducts.Occurs sumOfProducts
        (Found.get? ⟨[("a", 1), ("b", 0), ("c", 0)], [5, 4, 3, 2]⟩) 5 [5, 4, 3, 2] := by
  have found : twoProducts.matchAt? sumOfProducts 5 =
      some ⟨[("a", 1), ("b", 0), ("c", 0)], [5, 4, 3, 2]⟩ := by decide
  exact ⟨found, (found_occurs found).1⟩

/-! ## What occurs is found -/

mutual

/-- Whether the search for a pattern never has to go back: a label that is
used within a commutative operation, and again behind it, is bound before. -/
def isForward : Pattern → (known later : List String) → Bool
  | label _ _, _, _ => true
  | op kind args, known, later =>
    (!(kind.isCommutative && args.length == 2) ||
        (labelsOf args).all fun name => known.contains name || !later.contains name) &&
      areForward args known later
  | skip inner _, known, later => isForward inner known later

/-- The same for several patterns, found one after the other. -/
def areForward : List Pattern → (known later : List String) → Bool
  | [], _, _ => true
  | p :: ps, known, later =>
    isForward p known (labelsOf ps ++ later) && areForward ps (known ++ labels p) later

end

/-- Labels are bound to what they stand for, if they are bound. -/
def Found.Agrees (found : Found) (stands : String → Option NodeId) (names : List String) : Prop :=
  ∀ name ∈ names, ∀ x, found.get? name = some x → stands name = some x

variable {found found' : Found} {names known later : List String}

theorem Found.Agrees.left (h : found.Agrees stands (names ++ later)) :
    found.Agrees stands names :=
  fun name mem => h name (List.mem_append_left _ mem)

theorem Found.Agrees.right (h : found.Agrees stands (names ++ later)) :
    found.Agrees stands later :=
  fun name mem => h name (List.mem_append_right _ mem)

/-- Where only what has been bound before matters later, it does not matter
how a part was found. -/
theorem Found.Agrees.of_adds {nodes : List NodeId} (h : found.Agrees stands later)
    (adds : found.Adds names nodes found')
    (bound : ∀ name ∈ names, name ∈ later → name ∈ found.names) :
    found'.Agrees stands later := by
  intro name mem x eq
  have before : name ∈ found.names :=
    ((adds.names name).mp (Found.mem_names_iff.mpr ⟨x, eq⟩)).elim id (bound name · mem)
  obtain ⟨y, hy⟩ := Found.mem_names_iff.mp before
  obtain rfl := Option.some.inj ((adds.kept name y hy).symm.trans eq)
  exact h name mem y hy

/-- A label is bound to the node that it stands for, if the record agrees so
far, and then the record agrees on what is used later. -/
theorem Found.Agrees.exists_bind {name : String} {id : NodeId}
    (agrees : found.Agrees stands (name :: later)) (eq : stands name = some id) :
    ∃ found', found.bind? name id = some found' ∧ found'.Agrees stands later := by
  -- A label that is bound already is bound to this very node.
  have bind : ∃ found', found.bind? name id = some found' := by
    unfold Found.bind?
    split
    · rename_i bound h
      obtain rfl : id = bound :=
        Option.some.inj (eq.symm.trans (agrees name List.mem_cons_self _ h))
      exact ⟨found, if_pos rfl⟩
    · exact ⟨_, rfl⟩
  obtain ⟨found', bound⟩ := bind
  obtain ⟨stands', adds⟩ := Found.adds_bind bound
  refine ⟨found', bound, fun other mem x hx => ?_⟩
  by_cases same : other = name
  · subst same
    rwa [stands', ← eq] at hx
  · have before : other ∈ found.names :=
      ((adds.names other).mp (Found.mem_names_iff.mpr ⟨x, hx⟩)).resolve_right
        fun new => same (List.mem_singleton.mp new)
    obtain ⟨y, hy⟩ := Found.mem_names_iff.mp before
    obtain rfl := Option.some.inj ((adds.kept other y hy).symm.trans hx)
    exact agrees other (List.mem_cons_of_mem _ mem) y hy

mutual

/-- A pattern that is never gone back to is found where it occurs, and the record
agrees with the occurrence on what is used later. -/
theorem exists_find? :
    ∀ {p : Pattern} {id : NodeId} {nodes : List NodeId} {known later : List String}
      {found : Found}, p.Occurs g stands id nodes → p.isForward known later = true →
      (∀ name ∈ known, name ∈ found.names) → found.Agrees stands (p.labels ++ later) →
      ∃ found', p.find? g id found = some found' ∧ found'.Agrees stands later
  | .label name accept, id, _, known, later, found, .label hn accepted eq, _, _, agrees => by
    obtain ⟨found', bound, agrees'⟩ := Found.Agrees.exists_bind agrees eq
    exact ⟨found', (find?_label name).mpr ⟨⟨_, hn, accepted⟩, bound⟩, agrees'⟩
  | .skip inner accept, id, nodes, known, later, found, occurs, forward, bound, agrees => by
    cases occurs with
    | across hn inputs accepted occurs =>
      rw [find?_across hn inputs accepted]
      exact exists_find? occurs forward bound agrees
    | here hn refused occurs =>
      rw [find?_here hn refused]
      exact exists_find? occurs forward bound agrees
  | .op kind args, id, _, known, later, found, occurs, forward, bound, agrees => by
    cases occurs with
    | op hn length order occur =>
    rename_i n ids nodes
    rw [isForward, Bool.and_eq_true] at forward
    obtain ⟨free, forward⟩ := forward
    rw [find?_op hn length]
    have boundNoted : ∀ name ∈ known, name ∈ (found.note id).names := bound
    have agreesNoted : (found.note id).Agrees stands (labelsOf args ++ later) := agrees
    by_cases both : (n.kind.isCommutative && args.length == 2) = true
    · simp only [both, Bool.not_true, Bool.false_or, List.all_eq_true, Bool.or_eq_true,
        Bool.not_eq_true', List.contains_eq_mem, decide_eq_true_eq, decide_eq_false_iff_not]
        at free
      have settled : ∀ name ∈ labelsOf args, name ∈ later → name ∈ found.names :=
        fun name mem used => bound name ((free name mem).resolve_right fun new => new used)
      have noted : found.Adds [] [id] (found.note id) := Found.adds_note found id
      cases first : findArgs? g args n.inputs (found.note id) with
      | some found' =>
        -- The operands may have been found otherwise than they are given to occur.
        obtain ⟨_, -, adds⟩ := exists_occurAll length first
        exact ⟨found', rfl, agrees.right.of_adds (noted.trans adds) settled⟩
      | none =>
        rcases order.eq_or_eq_reverse with rfl | ⟨-, rfl⟩
        · obtain ⟨_, again, -⟩ := exists_findArgs? occur forward boundNoted agreesNoted
          exact nomatch first.symm.trans again
        · obtain ⟨found', second, agrees'⟩ :=
            exists_findArgs? occur forward boundNoted agreesNoted
          exact ⟨found', by rw [both, if_pos rfl]; exact second, agrees'⟩
    · have kept : ids = n.inputs := order.eq_or_eq_reverse.resolve_right fun swapped =>
        both (by simp [swapped.1.1, ← length, swapped.1.2])
      obtain ⟨found', first, agrees'⟩ :=
        exists_findArgs? (kept ▸ occur) forward boundNoted agreesNoted
      exact ⟨found', by rw [first]; rfl, agrees'⟩

theorem exists_findArgs? :
    ∀ {ps : List Pattern} {ids nodes : List NodeId} {known later : List String} {found : Found},
      OccurAll g stands ps ids nodes → areForward ps known later = true →
      (∀ name ∈ known, name ∈ found.names) → found.Agrees stands (labelsOf ps ++ later) →
      ∃ found', findArgs? g ps ids found = some found' ∧ found'.Agrees stands later
  | [], _, _, known, later, found, .nil, _, _, agrees => ⟨found, rfl, agrees⟩
  | p :: ps, id :: ids, _, known, later, found, .cons occurs occur, forward, bound, agrees => by
    rw [areForward, Bool.and_eq_true] at forward
    rw [labelsOf, List.append_assoc] at agrees
    obtain ⟨between, first, agrees'⟩ := exists_find? occurs forward.1 bound agrees
    obtain ⟨_, -, adds⟩ := exists_occurs first
    have bound' : ∀ name ∈ known ++ p.labels, name ∈ between.names := fun name mem =>
      (adds.names name).mpr ((List.mem_append.mp mem).imp_left (bound name))
    obtain ⟨found', rest, agrees''⟩ := exists_findArgs? occur forward.2 bound' agrees'
    exact ⟨found', findArgs?_cons.mpr ⟨between, first, rest⟩, agrees''⟩

end

/-- Where the search never has to go back, it finds what is there. -/
theorem found_iff_occurs {p : Pattern} (forward : p.isForward [] [] = true) :
    (p.matchAt? g root).isSome = true ↔ ∃ stands nodes, p.Occurs g stands root nodes := by
  constructor
  · intro found
    obtain ⟨m, hm⟩ := Option.isSome_iff_exists.mp found
    rw [matchAt?_eq] at hm
    obtain ⟨nodes, occurs, -⟩ := exists_occurs hm
    exact ⟨m.get?, nodes, occurs⟩
  · rintro ⟨stands, nodes, occurs⟩
    have unbound : Found.nothing.Agrees stands (p.labels ++ []) := fun _ _ _ h => nomatch h
    obtain ⟨found, eq, -⟩ := exists_find? occurs forward (fun _ mem => nomatch mem) unbound
    rw [matchAt?_eq, eq]
    rfl

/-- A value times a product with this value as a factor. -/
def factorFirst : Pattern :=
  .op .dot [.any "a", .op .multiply [.any "a", .any "b"]]

/-- The factor is the second of the product. -/
def dotOfProduct : Graph where
  nodes := [some ⟨.parameter 0, ⟨.f64, [2, 2]⟩, [], 1⟩, some ⟨.parameter 1, ⟨.f64, [2, 2]⟩, [], 1⟩,
    some ⟨.multiply, ⟨.f64, [2, 2]⟩, [0, 1], 1⟩, some ⟨.dot, ⟨.f64, [2, 2]⟩, [1, 2], 1⟩]
  parameters := [0, 1]
  results := []

/-- The label is bound before the product is entered, so only one order of the
product will do, and it is found. -/
theorem found_iff_occurs_factorFirst :
    factorFirst.isForward [] [] = true ∧ (factorFirst.matchAt? dotOfProduct 3).isSome = true := by
  have forward : factorFirst.isForward [] [] = true := by decide
  have occurs : factorFirst.Occurs dotOfProduct (fun name => if name = "a" then some 1 else some 0)
      3 [3, 2] :=
    .op (n := ⟨.dot, ⟨.f64, [2, 2]⟩, [1, 2], 1⟩) rfl rfl .kept
      (.cons (.label rfl rfl rfl) (.cons
        (.op (n := ⟨.multiply, ⟨.f64, [2, 2]⟩, [0, 1], 1⟩) rfl rfl (.swapped rfl)
          (.cons (.label rfl rfl rfl) (.cons (.label rfl rfl rfl) .nil))) .nil))
  exact ⟨forward, (found_iff_occurs forward).mpr ⟨_, _, occurs⟩⟩

/-- A product, and one of its factors added to it. -/
def factorLast : Pattern :=
  .op .add [.op .multiply [.any "a", .any "b"], .any "a"]

/-- The factor is the second of the product. -/
def productPlusFactor : Graph where
  nodes := [some ⟨.parameter 0, ⟨.f64, [2]⟩, [], 1⟩, some ⟨.parameter 1, ⟨.f64, [2]⟩, [], 1⟩,
    some ⟨.multiply, ⟨.f64, [2]⟩, [0, 1], 1⟩, some ⟨.add, ⟨.f64, [2]⟩, [2, 1], 1⟩]
  parameters := [0, 1]
  results := []

/-- The pattern occurs with the factors swapped. But the search has left the
product, found as it is, when the label turns out to stand for the wrong
factor. -/
theorem factorLast_not_found :
    productPlusFactor.Built ∧
      (∃ stands nodes, factorLast.Occurs productPlusFactor stands 3 nodes) ∧
      factorLast.matchAt? productPlusFactor 3 = none := by
  have built : productPlusFactor.Built :=
    .step (.add 2 1) (.step (.multiply 0 1) (.step (.parameter ⟨.f64, [2]⟩)
      (.step (.parameter ⟨.f64, [2]⟩) .empty rfl) rfl) rfl) rfl
  have occurs : factorLast.Occurs productPlusFactor
      (fun name => if name = "a" then some 1 else some 0) 3 [3, 2] :=
    .op (n := ⟨.add, ⟨.f64, [2]⟩, [2, 1], 1⟩) rfl rfl .kept
      (.cons (.op (n := ⟨.multiply, ⟨.f64, [2]⟩, [0, 1], 1⟩) rfl rfl (.swapped rfl)
          (.cons (.label rfl rfl rfl) (.cons (.label rfl rfl rfl) .nil)))
        (.cons (.label rfl rfl rfl) .nil))
  exact ⟨built, ⟨_, _, occurs⟩, by decide⟩

end Pattern

end CipherFlow
