import CipherFlow.Proofs.Graph.Reach
import Mathlib.Tactic.Tauto

/-!
# The order of evaluation

In a closed graph without cycles the depth-first search lists exactly the
nodes that are needed, each once and after its operands. The invariant is on
the stack of steps: an operand of a node that is still to be left has been
listed or stands above it, and what stands above it ranks below it. The
second part is why a node that is met again has been listed already.

`order_isOrder` is the result. `Searching` is the invariant, and the search does one
of three things, each with its lemma: it leaves a node, it skips one that it has
met, or it enters a new one. The stack is not bounded by itself; the recursion goes
by the nodes that have not been met.
-/

namespace CipherFlow.Graph

variable {g : Graph}

/-- The nodes that are needed, each once and after its operands. -/
structure IsOrder (g : Graph) (ids : List NodeId) : Prop where
  nodup : ids.Nodup
  mem_iff : ∀ id, id ∈ ids ↔ g.Needed id
  before : ∀ pre a post, ids = pre ++ a :: post → ∀ i ∈ g.inputs a, i ∈ pre

/-! ## The stack of steps -/

/-- The node of a step. -/
def Step.node : Step → NodeId
  | .enter id => id
  | .leave id => id

/-- Whenever a node is left, its operands are among those that are available
at the start or belong to steps taken before. -/
def Pending (g : Graph) : (available : List NodeId) → (stack : List Step) → Prop
  | _, [] => True
  | available, .enter id :: stack => Pending g (id :: available) stack
  | available, .leave id :: stack =>
    (∀ i ∈ g.inputs id, i ∈ available) ∧ Pending g (id :: available) stack

theorem Pending.mono {xs ys : List NodeId} {stack : List Step} (sub : ∀ i ∈ xs, i ∈ ys)
    (h : Pending g xs stack) : Pending g ys stack := by
  induction stack generalizing xs ys with
  | nil => trivial
  | cons s stack ih =>
    have sub' : ∀ id, ∀ i ∈ id :: xs, i ∈ id :: ys := by
      intro id i hi
      rcases List.mem_cons.mp hi with rfl | hi
      · exact List.mem_cons_self
      · exact List.mem_cons_of_mem _ (sub i hi)
    cases s with
    | enter id => exact ih (sub' id) h
    | leave id => exact ⟨fun i hi => sub i (h.1 i hi), ih (sub' id) h.2⟩

/-- Steps that enter nodes make these available. -/
theorem pending_enters (ids available : List NodeId) (stack : List Step) :
    Pending g available (ids.map .enter ++ stack) ↔
      Pending g (ids.reverse ++ available) stack := by
  induction ids generalizing available with
  | nil => simp
  | cons id ids ih => simp [Pending, ih]

/-- What stands above a node that is still to be left ranks below it. -/
def Descending (rank : NodeId → Nat) (stack : List Step) : Prop :=
  stack.Pairwise fun s t => ∀ a, t = .leave a → rank s.node < rank a

theorem descending_enters (rank : NodeId → Nat) (ids : List NodeId) :
    Descending rank (ids.map .enter) := by
  unfold Descending
  rw [List.pairwise_map]
  exact List.pairwise_of_forall fun _ _ _ eq => nomatch eq

/-- With a node its operands are needed. -/
theorem needed_enter {id : NodeId} {stack : List Step}
    (needed : ∀ s ∈ Step.enter id :: stack, g.Needed s.node) :
    ∀ s ∈ (g.inputs id).map .enter ++ .leave id :: stack, g.Needed s.node := by
  have first : g.Needed id := needed (.enter id) List.mem_cons_self
  intro s hs
  rcases List.mem_append.mp hs with hs | hs
  · obtain ⟨i, hi, rfl⟩ := List.mem_map.mp hs
    exact first.tail hi
  · rcases List.mem_cons.mp hs with rfl | hs
    · exact first
    · exact needed s (List.mem_cons_of_mem _ hs)

/-- The state of the search between two steps. -/
structure Searching (g : Graph) (rank : NodeId → Nat) (seen order : List NodeId)
    (stack : List Step) : Prop where
  nodup : order.Nodup
  seen_iff : ∀ i, i ∈ seen ↔ i ∈ order ∨ .leave i ∈ stack
  unlisted : ∀ i, .leave i ∈ stack → i ∉ order
  descending : Descending rank stack
  pending : Pending g order stack
  before : ∀ pre a post, order = pre ++ a :: post → ∀ i ∈ g.inputs a, i ∈ pre
  needed : ∀ s ∈ stack, g.Needed s.node
  listed : ∀ i ∈ order, g.Needed i
  results : ∀ r ∈ g.results, r ∈ order ∨ ∃ s ∈ stack, s.node = r

variable {rank : NodeId → Nat} {seen order : List NodeId} {stack : List Step}

theorem searching_start (rank : NodeId → Nat) :
    Searching g rank [] [] (g.results.map .enter) where
  nodup := List.nodup_nil
  seen_iff := by simp
  unlisted := by simp
  descending := descending_enters rank g.results
  pending := by
    have h := pending_enters (g := g) g.results [] []
    simpa [Pending] using h
  before := by simp
  needed := by simpa [Step.node] using fun r hr => Needed.of_result hr
  listed := by simp
  results := fun r hr => .inr ⟨.enter r, by simpa using hr, rfl⟩

/-- A node is left: its operands are listed, and it is listed after them. -/
theorem Searching.leave {id : NodeId} (h : Searching g rank seen order (.leave id :: stack)) :
    Searching g rank seen (order ++ [id]) stack := by
  have new : id ∉ order := h.unlisted id List.mem_cons_self
  have above := List.pairwise_cons.mp h.descending
  constructor
  case nodup =>
    refine List.nodup_append.mpr ⟨h.nodup, by simp, fun a ha b hb eq => new ?_⟩
    rwa [← List.mem_singleton.mp hb, ← eq]
  case seen_iff =>
    intro i
    have hi := h.seen_iff i
    simp only [List.mem_cons, Step.leave.injEq] at hi
    simp only [List.mem_append, List.mem_singleton, hi]
    tauto
  case unlisted =>
    intro i hi mem
    rcases List.mem_append.mp mem with mem | mem
    · exact h.unlisted i (List.mem_cons_of_mem _ hi) mem
    · -- What is below it on the stack ranks above it, so it is another node.
      have lt := above.1 (.leave i) hi i rfl
      rw [List.mem_singleton.mp mem] at lt
      exact Nat.lt_irrefl _ lt
  case descending => exact above.2
  case pending => exact h.pending.2.mono (by simp; tauto)
  case before =>
    intro pre a post eq i hi
    -- The last entry is the node that is left; the others are in place already.
    rcases List.eq_nil_or_concat post with rfl | ⟨post', b, rfl⟩
    · obtain ⟨rfl, same⟩ := List.append_inj' eq rfl
      obtain ⟨rfl, -⟩ := List.cons.inj same
      exact h.pending.1 i hi
    · have eq' : order ++ [id] = (pre ++ a :: post') ++ [b] := by simpa using eq
      obtain ⟨rfl, -⟩ := List.append_inj' eq' rfl
      exact h.before pre a post' rfl i hi
  case needed => exact fun s hs => h.needed s (List.mem_cons_of_mem _ hs)
  case listed =>
    intro i hi
    rcases List.mem_append.mp hi with hi | hi
    · exact h.listed i hi
    · rw [List.mem_singleton.mp hi]
      exact h.needed (.leave id) List.mem_cons_self
  case results =>
    intro r hr
    rcases h.results r hr with hr | ⟨s, hs, rfl⟩
    · exact .inl (List.mem_append_left _ hr)
    · rcases List.mem_cons.mp hs with rfl | hs
      · exact .inl (by simp [Step.node])
      · exact .inr ⟨s, hs, rfl⟩

/-- A node that is met again has been listed: if it were still to be left, it
would rank below itself. -/
theorem Searching.skip {id : NodeId} (h : Searching g rank seen order (.enter id :: stack))
    (old : id ∈ seen) : Searching g rank seen order stack := by
  have above := List.pairwise_cons.mp h.descending
  have mem : id ∈ order := by
    rcases (h.seen_iff id).mp old with mem | mem
    · exact mem
    · have mem : .leave id ∈ stack := by simpa using mem
      exact absurd (above.1 _ mem id rfl) (Nat.lt_irrefl _)
  constructor
  case nodup => exact h.nodup
  case seen_iff => simpa using h.seen_iff
  case unlisted => exact fun i hi => h.unlisted i (List.mem_cons_of_mem _ hi)
  case descending => exact above.2
  case pending =>
    have pending : Pending g (id :: order) stack := h.pending
    refine pending.mono ?_
    intro i hi
    rcases List.mem_cons.mp hi with rfl | hi
    · exact mem
    · exact hi
  case before => exact h.before
  case needed => exact fun s hs => h.needed s (List.mem_cons_of_mem _ hs)
  case listed => exact h.listed
  case results =>
    intro r hr
    rcases h.results r hr with hr | ⟨s, hs, rfl⟩
    · exact .inl hr
    · rcases List.mem_cons.mp hs with rfl | hs
      · exact .inl mem
      · exact .inr ⟨s, hs, rfl⟩

/-- A new node is entered: it is left after its operands. -/
theorem Searching.enter (ranked : g.Ranked rank) {id : NodeId}
    (h : Searching g rank seen order (.enter id :: stack)) (new : id ∉ seen) :
    Searching g rank (id :: seen) order ((g.inputs id).map .enter ++ .leave id :: stack) := by
  have above := List.pairwise_cons.mp h.descending
  have notListed : id ∉ order := fun mem => new ((h.seen_iff id).mpr (.inl mem))
  constructor
  case nodup => exact h.nodup
  case seen_iff =>
    intro i
    have hi := h.seen_iff i
    simp only [List.mem_cons, reduceCtorEq, false_or] at hi
    simp only [List.mem_cons, hi, List.mem_append, List.mem_map, reduceCtorEq, and_false,
      exists_false, false_or, Step.leave.injEq]
    tauto
  case unlisted =>
    intro i hi
    have hi : i = id ∨ .leave i ∈ stack := by simpa using hi
    rcases hi with rfl | hi
    · exact notListed
    · exact h.unlisted i (List.mem_cons_of_mem _ hi)
  case descending =>
    -- Operands rank below the node, and the node below what is still to be left under it.
    refine List.pairwise_append.mpr ⟨?_, List.pairwise_cons.mpr ⟨above.1, above.2⟩, ?_⟩
    · exact descending_enters rank (g.inputs id)
    · intro s hs t ht a eq
      obtain ⟨i, hi, rfl⟩ := List.mem_map.mp hs
      have lt : rank i < rank id := ranked id i hi
      rcases List.mem_cons.mp ht with rfl | ht
      · obtain rfl := Step.leave.inj eq
        exact lt
      · exact Nat.lt_trans lt (above.1 t ht a eq)
  case pending =>
    rw [pending_enters]
    refine ⟨fun i hi => by simp [hi], ?_⟩
    -- The operands are entered before the node is left, and so available by then.
    have pending : Pending g (id :: order) stack := h.pending
    refine pending.mono ?_
    intro i hi
    rcases List.mem_cons.mp hi with rfl | hi
    · exact List.mem_cons_self
    · simp [hi]
  case before => exact h.before
  case needed => exact needed_enter h.needed
  case listed => exact h.listed
  case results =>
    intro r hr
    rcases h.results r hr with hr | ⟨s, hs, rfl⟩
    · exact .inl hr
    · refine .inr ?_
      rcases List.mem_cons.mp hs with rfl | hs
      · exact ⟨.leave id, by simp, rfl⟩
      · exact ⟨s, by simp [hs], rfl⟩

/-! ## The whole search -/

/-- Once the stack is empty, everything that is needed is listed. -/
theorem Searching.isOrder (h : Searching g rank seen order []) : g.IsOrder order where
  nodup := h.nodup
  before := h.before
  mem_iff := by
    refine fun id => ⟨h.listed id, fun needed => needed.induction (P := (· ∈ order)) ?_ ?_⟩
    · intro r hr
      simpa using h.results r hr
    · intro a ha b hb
      obtain ⟨pre, post, rfl⟩ := List.append_of_mem ha
      exact List.mem_append_left _ (h.before pre a post rfl b hb)

theorem visit_isOrder (closed : g.Closed) (ranked : g.Ranked rank)
    (h : Searching g rank seen order stack) :
    ∃ ids, visit g seen order stack = .ok ids ∧ g.IsOrder ids := by
  fun_induction visit g seen order stack with
  | case1 seen order => exact ⟨order, rfl, h.isOrder⟩
  | case2 seen order id stack ih => exact ih h.leave
  | case3 seen order id stack out =>
    have live := closed.isLive_of_needed (h.needed (.enter id) List.mem_cons_self)
    obtain ⟨n, hn⟩ := isLive_iff.mp live
    exact absurd (lt_size_of_node? hn) (Nat.not_lt.mpr out)
  | case4 seen order id stack _ old ih => exact ih (h.skip old)
  | case5 seen order id stack _ new ih => exact ih (h.enter ranked new)

/-- In a closed graph without cycles the order of evaluation exists. -/
theorem order_isOrder (closed : g.Closed) (acyclic : g.Acyclic) :
    ∃ ids, g.order = .ok ids ∧ g.IsOrder ids := by
  obtain ⟨rank, ranked⟩ := acyclic
  exact visit_isOrder closed ranked (searching_start rank)

end CipherFlow.Graph
