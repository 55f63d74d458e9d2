import CipherFlow.Graph.Pattern
import CipherFlow.Proofs.Graph.Arena

/-!
# Finding without leftovers

The search for a pattern writes into one record as it goes, and an attempt
that fails leaves there what it wrote. Nothing of it is ever read: the second
order of a commutative operation starts from the record of before the first,
and any other failure is one of the whole search. So the search comes to what
`find?` finds, which has no record where there is nothing to find.

`matchAt?_eq` states it. After it no proof mentions the record of the search:
patterns are looked for by `find?`, which has one lemma for each constructor of
patterns.
-/

namespace CipherFlow.Pattern

open CipherFlow.Graph

/-- The record of a search that succeeded. -/
def Found.ofSearch : Bool × Found → Option Found
  | (true, found) => some found
  | (false, _) => none

mutual

/-- Finds a pattern at a node, in addition to what was found before. -/
def find? (g : Graph) : Pattern → NodeId → Found → Option Found
  | label name accept, id, found =>
    match g.node? id with
    | none => none
    | some n => if accept n then found.bind? name id else none
  | op kind args, id, found =>
    match g.node? id with
    | none => none
    | some n =>
      if n.kind ≠ kind ∨ n.inputs.length ≠ args.length then none
      else
        match findArgs? g args n.inputs (found.note id) with
        | some found => some found
        | none =>
          if kind.isCommutative && args.length == 2 then
            findArgs? g args n.inputs.reverse (found.note id)
          else none
  | skip inner accept, id, found =>
    match g.node? id with
    | none => none
    | some n =>
      match n.inputs with
      | [x] => if accept n then find? g inner x found else find? g inner id found
      | _ => find? g inner id found

/-- Finds patterns at nodes, one after the other. -/
def findArgs? (g : Graph) : List Pattern → List NodeId → Found → Option Found
  | p :: ps, id :: ids, found =>
    match find? g p id found with
    | some found => findArgs? g ps ids found
    | none => none
  | _, _, found => some found

end

variable {g : Graph} {id : NodeId} {n : Node} {found result : Found}

mutual

/-- The search finds what `find?` finds. -/
theorem ofSearch_tryAt :
    ∀ (p : Pattern) (id : NodeId) (found : Found),
      Found.ofSearch (p.tryAt g id found) = p.find? g id found
  | .label name accept, id, found => by
    rw [tryAt, find?]
    cases g.node? id with
    | none => rfl
    | some n =>
      by_cases accepted : accept n = true
      · simp only [if_pos accepted]
        cases found.bind? name id <;> rfl
      · simp only [if_neg accepted]
        rfl
  | .op kind args, id, found => by
    rw [tryAt, find?]
    cases g.node? id with
    | none => rfl
    | some n =>
      by_cases other : n.kind ≠ kind ∨ n.inputs.length ≠ args.length
      · simp only [if_pos other]
        rfl
      · simp only [if_neg other]
        -- The second order starts from what was found before the first, so what that has left
        -- does not count.
        have first := ofSearch_tryArgs args n.inputs (found.note id)
        have second := ofSearch_tryArgs args n.inputs.reverse (found.note id)
        match run : tryArgs g args n.inputs (found.note id) with
        | (true, result) =>
          rw [run] at first
          rw [← first]
          rfl
        | (false, left) =>
          rw [run] at first
          rw [← first, ← second]
          show Found.ofSearch (if _ then _ else _) = if _ then _ else _
          split <;> rfl
  | .skip inner accept, id, found => by
    rw [tryAt, find?]
    cases g.node? id with
    | none => rfl
    | some n =>
      rcases n with ⟨op, type, _ | ⟨x, _ | ⟨y, rest⟩⟩, outputs⟩
      · exact ofSearch_tryAt inner id found
      · show Found.ofSearch (if _ then _ else _) = if _ then _ else _
        split
        · exact ofSearch_tryAt inner x found
        · exact ofSearch_tryAt inner id found
      · exact ofSearch_tryAt inner id found

theorem ofSearch_tryArgs :
    ∀ (ps : List Pattern) (ids : List NodeId) (found : Found),
      Found.ofSearch (tryArgs g ps ids found) = findArgs? g ps ids found
  | [], ids, found => by
    simp only [tryArgs, findArgs?, Found.ofSearch]
  | p :: ps, [], found => by
    simp only [tryArgs, findArgs?, Found.ofSearch]
  | p :: ps, id :: ids, found => by
    have head := ofSearch_tryAt p id found
    rw [tryArgs, findArgs?]
    match run : p.tryAt g id found with
    | (true, result) =>
      rw [run] at head
      rw [← head]
      exact ofSearch_tryArgs ps ids result
    | (false, left) =>
      rw [run] at head
      rw [← head]
      rfl

end

/-- A match starts from a record of nothing. -/
theorem matchAt?_eq (p : Pattern) (root : NodeId) :
    p.matchAt? g root = p.find? g root .nothing := by
  rw [← ofSearch_tryAt, matchAt?]
  rfl

/-! ## When a pattern is found

One lemma for each constructor of patterns. It is an equivalence where something is
found at this node, and an equation where the search goes on at another. -/

theorem find?_label {accept : Node → Bool} (name : String) :
    find? g (.label name accept) id found = some result ↔
      (∃ n, g.node? id = some n ∧ accept n = true) ∧ found.bind? name id = some result := by
  cases hn : g.node? id with
  | none => simp [find?, hn]
  | some n => cases eq : accept n <;> simp [find?, hn, eq]

theorem find?_any (name : String) :
    find? g (.any name) id found = some result ↔
      g.isLive id = true ∧ found.bind? name id = some result := by
  simp only [any, find?_label, isLive_iff, and_true]

/-- A node that may be skipped is passed if it has one operand. -/
theorem find?_across {inner : Pattern} {accept : Node → Bool} {x : NodeId}
    (hn : g.node? id = some n) (inputs : n.inputs = [x]) (accepted : accept n = true) :
    find? g (.skip inner accept) id found = find? g inner x found := by
  simp only [find?, hn, inputs, accepted, if_true]

/-- At all other nodes the inner pattern has to be found. -/
theorem find?_here {inner : Pattern} {accept : Node → Bool} (hn : g.node? id = some n)
    (refused : ¬ (accept n = true ∧ n.inputs.length = 1)) :
    find? g (.skip inner accept) id found = find? g inner id found := by
  rw [find?, hn]
  obtain ⟨op, type, _ | ⟨x, _ | ⟨y, rest⟩⟩, outputs⟩ := n
  · rfl
  · exact if_neg fun accepted => refused ⟨accepted, rfl⟩
  · rfl

theorem find?_of_kind_ne {args : List Pattern} {kind : OpKind} (hn : g.node? id = some n)
    (ne : n.kind ≠ kind) : find? g (.op kind args) id found = none := by
  simp [find?, hn, ne]

theorem matchAt?_of_kind_ne {args : List Pattern} {kind : OpKind} (hn : g.node? id = some n)
    (ne : n.kind ≠ kind) : (op kind args).matchAt? g id = none := by
  rw [matchAt?_eq, find?_of_kind_ne hn ne]

/-- The operands are tried as they are, then, if they may be, swapped. -/
theorem find?_op {args : List Pattern} (hn : g.node? id = some n)
    (length : n.inputs.length = args.length) :
    find? g (.op n.kind args) id found =
      (findArgs? g args n.inputs (found.note id)).or
        (if n.kind.isCommutative && args.length == 2 then
          findArgs? g args n.inputs.reverse (found.note id)
        else none) := by
  rw [find?, hn]
  simp only [length, ne_eq, not_true_eq_false, or_self, if_false]
  cases findArgs? g args n.inputs (found.note id) <;> rfl

/-- An operation of one operand is found where it and its operand are. -/
theorem find?_unary {P : Pattern} {kind : OpKind} (commutative : kind.isCommutative = false) :
    find? g (.op kind [P]) id found = some result ↔
      g.kind? id = some kind ∧ ∃ x, g.inputs id = [x] ∧
        find? g P x (found.note id) = some result := by
  cases hn : g.node? id with
  | none => simp [find?, hn, Graph.kind?]
  | some n =>
    by_cases eq : n.kind = kind
    · rw [find?]
      simp only [hn, eq, kind?_of_node? hn, inputs_of_node? hn, commutative]
      rcases n.inputs with _ | ⟨x, _ | ⟨y, rest⟩⟩
      · simp
      · cases found : find? g P x (found.note id) <;> simp [findArgs?, found]
      · simp
    · simp [find?_of_kind_ne hn eq, kind?_of_node? hn, eq]

theorem find?_commutative {P Q : Pattern} {a b : NodeId} (hn : g.node? id = some n)
    (inputs : n.inputs = [a, b]) (commutative : n.kind.isCommutative = true) :
    find? g (.op n.kind [P, Q]) id found =
      (findArgs? g [P, Q] [a, b] (found.note id)).or
        (findArgs? g [P, Q] [b, a] (found.note id)) := by
  rw [find?_op hn (by rw [inputs]; rfl), inputs, commutative]
  rfl

/-- Patterns are found one after the other. -/
theorem findArgs?_cons {p : Pattern} {ps : List Pattern} {ids : List NodeId} :
    findArgs? g (p :: ps) (id :: ids) found = some result ↔
      ∃ between, find? g p id found = some between ∧
        findArgs? g ps ids between = some result := by
  rw [findArgs?]
  cases find? g p id found <;> simp

theorem findArgs?_pair {P Q : Pattern} {a b : NodeId} :
    findArgs? g [P, Q] [a, b] found = some result ↔
      ∃ between, find? g P a found = some between ∧ find? g Q b between = some result := by
  refine findArgs?_cons.trans (exists_congr fun between => and_congr_right fun _ => ?_)
  rw [findArgs?_cons]
  simp [findArgs?]

end CipherFlow.Pattern
