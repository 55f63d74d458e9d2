import CipherFlow.Graph.Basic

/-!
# Order of evaluation

Depth-first searches along operands. The order lists every node that a result
depends on once, each after its operands. A search that comes to an
identifier past the table is a fault.
-/

namespace CipherFlow.Graph

/-! ## What is left to see -/

/-- The number of places that are not among those seen. -/
def unseen (size : Nat) (seen : List NodeId) : Nat :=
  (List.range size).countP fun i => !seen.contains i

theorem countP_seen_le (places seen : List NodeId) (id : NodeId) :
    places.countP (fun i => !(id :: seen).contains i) ≤
      places.countP fun i => !seen.contains i := by
  refine List.countP_mono_left fun i _ h => ?_
  simp only [List.contains_cons, Bool.not_or, Bool.and_eq_true] at h
  exact h.2

theorem countP_seen_lt {places seen : List NodeId} {id : NodeId} (mem : id ∈ places)
    (new : id ∉ seen) :
    places.countP (fun i => !(id :: seen).contains i) <
      places.countP fun i => !seen.contains i := by
  induction places with
  | nil => cases mem
  | cons p places ih =>
    have le := countP_seen_le places seen id
    by_cases h : p = id
    · subst h
      simp only [List.countP_cons]
      simp [new] at le ⊢
      omega
    · have rest := ih ((List.mem_cons.mp mem).resolve_left (Ne.symm h))
      simp only [List.countP_cons]
      simp [h] at rest ⊢
      omega

/-- Seeing a new place leaves fewer to see. -/
theorem unseen_cons_lt {size : Nat} {seen : List NodeId} {id : NodeId} (lt : id < size)
    (new : id ∉ seen) : unseen size (id :: seen) < unseen size seen :=
  countP_seen_lt (List.mem_range.mpr lt) new

/-! ## Post-order -/

/-- A step of a search: to enter a node, or to leave it after its
operands. -/
inductive Step where
  | enter (id : NodeId)
  | leave (id : NodeId)
deriving Repr, DecidableEq

/-- Takes the steps of a stack and lists the nodes in the order in which they
are left. A node that was entered before is not entered again. -/
def visit (g : Graph) (seen order : List NodeId) (stack : List Step) :
    Except Fault (List NodeId) :=
  match stack with
  | [] => .ok order
  | .leave id :: stack => visit g seen (order ++ [id]) stack
  | .enter id :: stack =>
    if _inside : g.size ≤ id then .error (.outOfRange id g.size)
    else if _new : id ∈ seen then visit g seen order stack
    else visit g (id :: seen) order ((g.inputs id).map .enter ++ .leave id :: stack)
termination_by (unseen g.size seen, stack.length)
decreasing_by
  · exact Prod.Lex.right _ (Nat.lt_succ_self _)
  · exact Prod.Lex.right _ (Nat.lt_succ_self _)
  · exact Prod.Lex.left _ _ (unseen_cons_lt (Nat.not_le.mp _inside) _new)

/-- The nodes that the results depend on, operands first. -/
def order (g : Graph) : Except Fault (List NodeId) :=
  visit g [] [] (g.results.map .enter)

/-- The number of live nodes of a kind that the results depend on. -/
def count (g : Graph) (kind : OpKind) : Except Fault Nat := do
  let order ← g.order
  return order.countP fun id => g.kind? id = some kind

/-! ## Reaching a node -/

/-- Searches for a node from those of a stack along operands. -/
def search (g : Graph) (target : NodeId) (seen stack : List NodeId) : Except Fault Bool :=
  match stack with
  | [] => .ok false
  | id :: stack =>
    if id = target then .ok true
    else if _inside : g.size ≤ id then .error (.outOfRange id g.size)
    else if _new : id ∈ seen then search g target seen stack
    else search g target (id :: seen) ((g.inputs id).reverse ++ stack)
termination_by (unseen g.size seen, stack.length)
decreasing_by
  · exact Prod.Lex.right _ (Nat.lt_succ_self _)
  · exact Prod.Lex.left _ _ (unseen_cons_lt (Nat.not_le.mp _inside) _new)

/-- Whether a node is reached from another along operands. -/
def reaches (g : Graph) (source target : NodeId) : Except Fault Bool :=
  search g target [] [source]

end CipherFlow.Graph
