import CipherFlow.Proofs.Graph.Arena
import Mathlib.Logic.Relation

/-!
# Dependence along operands

A node depends on its operands, on theirs, and so on. A rank that falls
along every operand shows that no node depends on itself. The search of
`reaches` finds a node just if it is there: a replacement goes through if it
makes no cycle, and only then.

Main lemma: `search_iff`. What has been seen is enclosed: its operands have been
seen or are on the stack (`Enclosed`), so when the stack is empty no path leads on.
-/

namespace CipherFlow.Graph

variable {g : Graph}

/-- The second node is an operand of the first. -/
def Edge (g : Graph) (a b : NodeId) : Prop :=
  b ∈ g.inputs a

/-- The second node is reached from the first along operands. -/
def Reaches (g : Graph) : NodeId → NodeId → Prop :=
  Relation.ReflTransGen g.Edge

/-- A result depends on the node. -/
def Needed (g : Graph) (id : NodeId) : Prop :=
  ∃ r ∈ g.results, g.Reaches r id

/-- Operands rank below the nodes that use them. -/
def Ranked (g : Graph) (rank : NodeId → Nat) : Prop :=
  ∀ a, ∀ b ∈ g.inputs a, rank b < rank a

/-- No node depends on itself. -/
def Acyclic (g : Graph) : Prop :=
  ∃ rank, g.Ranked rank

/-- Operands and results are live. -/
structure Closed (g : Graph) : Prop where
  inputs : ∀ a, ∀ i ∈ g.inputs a, g.isLive i = true
  results : ∀ r ∈ g.results, g.isLive r = true

/-! ## Reaching -/

theorem Reaches.refl (a : NodeId) : g.Reaches a a :=
  Relation.ReflTransGen.refl

theorem Reaches.head {a b c : NodeId} (ab : b ∈ g.inputs a) (bc : g.Reaches b c) :
    g.Reaches a c :=
  Relation.ReflTransGen.head ab bc

theorem Reaches.tail {a b c : NodeId} (ab : g.Reaches a b) (bc : c ∈ g.inputs b) :
    g.Reaches a c :=
  Relation.ReflTransGen.tail ab bc

theorem Reaches.trans {a b c : NodeId} (ab : g.Reaches a b) (bc : g.Reaches b c) :
    g.Reaches a c :=
  Relation.ReflTransGen.trans ab bc

/-- From a node one reaches the node itself, or goes through an operand. -/
theorem Reaches.cases {a c : NodeId} (h : g.Reaches a c) :
    a = c ∨ ∃ b ∈ g.inputs a, g.Reaches b c :=
  Relation.ReflTransGen.cases_head h

/-- Ranks do not rise along a path. -/
theorem Ranked.le_of_reaches {rank : NodeId → Nat} (ranked : g.Ranked rank) {a b : NodeId}
    (h : g.Reaches a b) : rank b ≤ rank a := by
  induction h with
  | refl => exact Nat.le_refl _
  | tail _ edge ih => exact Nat.le_trans (Nat.le_of_lt (ranked _ _ edge)) ih

/-- No node is reached from one of its own operands. -/
theorem Acyclic.not_reaches (acyclic : g.Acyclic) {a b : NodeId} (edge : b ∈ g.inputs a) :
    ¬ g.Reaches b a := by
  obtain ⟨rank, ranked⟩ := acyclic
  intro back
  exact absurd (ranked a b edge) (Nat.not_lt.mpr (ranked.le_of_reaches back))

theorem Needed.of_result {r : NodeId} (h : r ∈ g.results) : g.Needed r :=
  ⟨r, h, .refl r⟩

theorem Needed.tail {a b : NodeId} (h : g.Needed a) (edge : b ∈ g.inputs a) : g.Needed b := by
  obtain ⟨r, hr, path⟩ := h
  exact ⟨r, hr, path.tail edge⟩

/-- What holds of the results and passes to operands holds of every node that
is needed. -/
theorem Needed.induction {P : NodeId → Prop} (results : ∀ r ∈ g.results, P r)
    (step : ∀ a, P a → ∀ b ∈ g.inputs a, P b) {id : NodeId} (h : g.Needed id) : P id := by
  obtain ⟨r, hr, path⟩ := h
  induction path with
  | refl => exact results r hr
  | tail _ edge ih => exact step _ ih _ edge

/-- What a result depends on is live. -/
theorem Closed.isLive_of_needed (closed : g.Closed) {id : NodeId} (h : g.Needed id) :
    g.isLive id = true :=
  h.induction (P := fun i => g.isLive i = true) closed.results
    fun a _ b edge => closed.inputs a b edge

theorem Closed.lt_size (closed : g.Closed) {a i : NodeId} (h : i ∈ g.inputs a) : i < g.size := by
  obtain ⟨n, hn⟩ := isLive_iff.mp (closed.inputs a i h)
  exact lt_size_of_node? hn

/-! ## The search -/

/-- What has been seen is no target, and its operands have been seen or stand
on the stack. -/
def Enclosed (g : Graph) (target : NodeId) (seen stack : List NodeId) : Prop :=
  ∀ a ∈ seen, a ≠ target ∧ ∀ i ∈ g.inputs a, i ∈ seen ∨ i ∈ stack

variable {target : NodeId} {seen stack : List NodeId}

/-- A path from what has been seen to the target passes the stack. -/
theorem Enclosed.exists_mem_stack (h : g.Enclosed target seen stack) {a : NodeId} (ha : a ∈ seen)
    (path : g.Reaches a target) : ∃ s ∈ stack, g.Reaches s target := by
  induction path using Relation.ReflTransGen.head_induction_on with
  | refl => exact absurd rfl (h _ ha).1
  | head edge path ih =>
    rcases (h _ ha).2 _ edge with seen | waiting
    · exact ih seen
    · exact ⟨_, waiting, path⟩

/-- A node that has been seen can be taken off the stack. -/
theorem Enclosed.skip {id : NodeId} (h : g.Enclosed target seen (id :: stack)) (old : id ∈ seen) :
    g.Enclosed target seen stack := by
  refine fun a ha => ⟨(h a ha).1, fun i hi => ?_⟩
  rcases (h a ha).2 i hi with hi | hi
  · exact .inl hi
  · rcases List.mem_cons.mp hi with rfl | hi
    · exact .inl old
    · exact .inr hi

/-- A node that is no target gives way to its operands. -/
theorem Enclosed.enter {id : NodeId} (h : g.Enclosed target seen (id :: stack))
    (ne : id ≠ target) :
    g.Enclosed target (id :: seen) ((g.inputs id).reverse ++ stack) := by
  intro a ha
  rcases List.mem_cons.mp ha with rfl | ha
  · exact ⟨ne, fun i hi => .inr (List.mem_append_left _ (List.mem_reverse.mpr hi))⟩
  · refine ⟨(h a ha).1, fun i hi => ?_⟩
    rcases (h a ha).2 i hi with hi | hi
    · exact .inl (List.mem_cons_of_mem _ hi)
    · rcases List.mem_cons.mp hi with rfl | hi
      · exact .inl List.mem_cons_self
      · exact .inr (List.mem_append_right _ hi)

/-- In a closed graph the search comes to an answer: whether the target is
reached from the stack. -/
theorem search_iff (closed : g.Closed) (target : NodeId) (seen stack : List NodeId)
    (inside : ∀ s ∈ stack, s < g.size) (enclosed : g.Enclosed target seen stack) :
    ∃ found, search g target seen stack = .ok found ∧
      (found = true ↔ ∃ s ∈ stack, g.Reaches s target) := by
  fun_induction search g target seen stack with
  | case1 seen => exact ⟨false, rfl, by simp⟩
  | case2 seen stack => exact ⟨true, rfl, by simpa using .inl (.refl _)⟩
  | case3 seen id stack _ out =>
    exact absurd (inside id List.mem_cons_self) (Nat.not_lt.mpr out)
  | case4 seen id stack _ _ old ih =>
    have enclosed' := enclosed.skip old
    obtain ⟨found, eq, iff⟩ := ih (fun s hs => inside s (List.mem_cons_of_mem _ hs)) enclosed'
    refine ⟨found, eq, iff.trans ⟨fun ⟨s, hs, path⟩ => ⟨s, List.mem_cons_of_mem _ hs, path⟩, ?_⟩⟩
    rintro ⟨s, hs, path⟩
    rcases List.mem_cons.mp hs with rfl | hs
    · exact enclosed'.exists_mem_stack old path
    · exact ⟨s, hs, path⟩
  | case5 seen id stack ne _ new ih =>
    have inside' : ∀ s ∈ (g.inputs id).reverse ++ stack, s < g.size := by
      intro s hs
      rcases List.mem_append.mp hs with hs | hs
      · exact closed.lt_size (List.mem_reverse.mp hs)
      · exact inside s (List.mem_cons_of_mem _ hs)
    obtain ⟨found, eq, iff⟩ := ih inside' (enclosed.enter ne)
    refine ⟨found, eq, iff.trans ⟨?_, ?_⟩⟩
    · rintro ⟨s, hs, path⟩
      rcases List.mem_append.mp hs with hs | hs
      · exact ⟨id, List.mem_cons_self, path.head (List.mem_reverse.mp hs)⟩
      · exact ⟨s, List.mem_cons_of_mem _ hs, path⟩
    · rintro ⟨s, hs, path⟩
      rcases List.mem_cons.mp hs with rfl | hs
      · obtain ⟨b, hb, path⟩ := path.cases.resolve_left ne
        exact ⟨b, List.mem_append_left _ (List.mem_reverse.mpr hb), path⟩
      · exact ⟨s, List.mem_append_right _ hs, path⟩

/-- The search from one node finds what is reached from it. -/
theorem reaches_iff (closed : g.Closed) {source : NodeId} (lt : source < g.size)
    (target : NodeId) :
    ∃ found, g.reaches source target = .ok found ∧ (found = true ↔ g.Reaches source target) := by
  have inside : ∀ s ∈ [source], s < g.size := fun s hs => List.mem_singleton.mp hs ▸ lt
  obtain ⟨found, eq, iff⟩ := search_iff closed target [] [source] inside fun _ ha => nomatch ha
  exact ⟨found, eq, by simpa using iff⟩

/-- A node that is not reached is not found. -/
theorem reaches_eq_false (closed : g.Closed) {source target : NodeId} (lt : source < g.size)
    (h : ¬ g.Reaches source target) : g.reaches source target = .ok false := by
  obtain ⟨found, eq, iff⟩ := reaches_iff closed lt target
  cases found with
  | false => exact eq
  | true => exact absurd (iff.mp rfl) h

end CipherFlow.Graph
