import CipherFlow.Proofs.Run.Answers
import CipherFlow.Tensor.Contraction

/-!
# Tensor operations on related elements

The tensor operations know elements only through their sum and product. So
whatever relation the sum and the product respect, the operations respect,
too, element by element.

The relation is a parameter throughout. `CipherFlow.Proofs.Run.Plain` takes it to be
agreement of lanes, and `CipherFlow.Proofs.Tensor.Kinds` takes elements of one kind.
Main lemmas: `dot_refines`, `convolution_refines`, `windowSums_refines` and
`broadcast_refines`.
-/

namespace CipherFlow.Tensor

open CipherFlow.Element (Compute Error)

variable {α β γ δ : Type} {R : α → β → Prop} {add mul : α → α → Compute α}
  {add' mul' : β → β → Compute β} {a b : List α} {a' b' : List β}

/-- Two operations on elements respect a relation of elements. -/
def Respects (R : α → β → Prop) (op : α → α → Compute α) (op' : β → β → Compute β) : Prop :=
  ∀ x x', R x x' → ∀ y y', R y y' → Refines R (op x y) (op' x' y')

/-! ## Reading elements

Places, shapes and counts are equal on both sides, so both read at the same places,
or both are refused (`same_refines`). What is read is related. -/

theorem same_refines {ε : Type} (x : Except ε γ) : Refines Eq x x :=
  fun c hc => ⟨c, hc, hc, rfl⟩

theorem getElem?_related (h : List.Forall₂ R a a') {i : Nat} {x : α} (hx : a[i]? = some x) :
    ∃ x', a'[i]? = some x' ∧ R x x' := by
  induction h generalizing i with
  | nil => exact nomatch hx
  | cons xy _ ih =>
    cases i with
    | zero =>
      obtain rfl := Option.some.inj hx
      exact ⟨_, rfl, xy⟩
    | succ i => exact ih hx

theorem entry_eq_ok {i : Nat} {x : α} : Fault.entry a i = .ok x ↔ a[i]? = some x := by
  unfold Fault.entry
  cases a[i]? <;> simp

theorem entry_refines (h : List.Forall₂ R a a') (i : Nat) :
    Refines R (Fault.entry a i) (Fault.entry a' i) := by
  intro x hx
  obtain ⟨x', hx', related⟩ := getElem?_related h (entry_eq_ok.mp hx)
  exact ⟨x', hx, entry_eq_ok.mpr hx', related⟩

theorem entryOf_refines (h : List.Forall₂ R a a') (i : Nat) :
    Refines R (Fault.entryOf a.toArray i) (Fault.entryOf a'.toArray i) := by
  rw [Fault.entryOf_toArray, Fault.entryOf_toArray]
  exact entry_refines h i

theorem checkCount_refines (h : List.Forall₂ R a a') (shape : Shape) :
    Refines Eq (checkCount a shape) (checkCount a' shape) := by
  unfold checkCount
  rw [h.length_eq]
  split
  · exact same_refines _
  · exact .error

/-- A part that may fault. -/
theorem liftFault_refines {x : Except Fault α} {y : Except Fault β} (h : Refines R x y) :
    Refines R (liftM x : Compute α) (liftM y : Compute β) :=
  ((h.mapError _).mapError _).lift.withError _

/-- A part that may refuse shapes. -/
theorem liftShape_refines {x : Except Shape.Problem α} {y : Except Shape.Problem β}
    (h : Refines R x y) : Refines R (liftM x : Compute α) (liftM y : Compute β) :=
  (h.mapError _).lift

theorem throw_refines {e : Error} {y : Compute β} : Refines R (throw e : Compute α) y :=
  Refines.of_not_may fun _ ⟨_, _, hc⟩ => nomatch hc

theorem throw_bind_refines {e : Error} {f : γ → Compute α} {y : Compute β} :
    Refines R (throw e >>= f) y :=
  Refines.of_not_may fun _ h =>
    have ⟨_, ⟨_, _, hc⟩, _⟩ := Answering.may_bind h
    nomatch hc

theorem tabulateFrom_refines {f : Nat → Compute α} {g : Nat → Compute β}
    (h : ∀ i, Refines R (f i) (g i)) (count start : Nat) :
    Refines (List.Forall₂ R) (tabulateFrom f count start) (tabulateFrom g count start) := by
  induction count generalizing start with
  | zero => exact .pure .nil
  | succ count ih =>
    exact (h start).bind fun x y xy => (ih (start + 1)).bind fun xs ys all => .pure (.cons xy all)

/-- Tables are related if they are at each place. -/
theorem tabulate_refines {f : Nat → Compute α} {g : Nat → Compute β}
    (h : ∀ i, Refines R (f i) (g i)) (count : Nat) :
    Refines (List.Forall₂ R) (tabulate count f) (tabulate count g) := by
  refine Refines.bind (liftFault_refines (same_refines _)) ?_
  intro n _ eq
  subst eq
  refine Refines.bind (liftFault_refines (same_refines _)) ?_
  intro _ _ _
  exact tabulateFrom_refines h n 0

theorem eq_ok_of_may_fault {x : Except Fault γ} {c : γ}
    (h : Answering.May (liftM x : Compute γ) c) : x = .ok c :=
  eq_ok_of_mapError (eq_ok_of_mapError (eq_ok_of_may_lift (may_of_may_withError h)))

theorem may_tabulateFrom {f : Nat → Compute α} {count start : Nat} {out : List α}
    (h : Answering.May (tabulateFrom f count start) out) :
    out.length = count ∧ ∀ i < count, ∃ x, out[i]? = some x ∧ Answering.May (f (start + i)) x := by
  induction count generalizing start out with
  | zero =>
    obtain rfl := Answering.may_pure h
    exact ⟨rfl, fun i hi => absurd hi (Nat.not_lt_zero i)⟩
  | succ count ih =>
    obtain ⟨x, hx, h⟩ := Answering.may_bind h
    obtain ⟨rest, hrest, h⟩ := Answering.may_bind h
    obtain rfl := Answering.may_pure h
    obtain ⟨length, each⟩ := ih hrest
    refine ⟨congrArg (· + 1) length, fun i hi => ?_⟩
    cases i with
    | zero => exact ⟨x, rfl, hx⟩
    | succ i =>
      obtain ⟨y, hy, may⟩ := each i (Nat.lt_of_succ_lt_succ hi)
      exact ⟨y, hy, by rwa [Nat.add_right_comm] at may⟩

/-- What has been tabulated has an answer of the computation at each place. -/
theorem may_tabulate {f : Nat → Compute α} {count : Nat} {out : List α}
    (h : Answering.May (tabulate count f) out) :
    out.length = count ∧ ∀ i < count, ∃ x, out[i]? = some x ∧ Answering.May (f i) x := by
  obtain ⟨n, hn, h⟩ := Answering.may_bind h
  obtain ⟨_, -, h⟩ := Answering.may_bind h
  have hn := eq_ok_of_may_fault hn
  unfold Fault.checkSize at hn
  split at hn
  · obtain rfl := Except.ok.inj hn
    simpa only [Nat.zero_add] using may_tabulateFrom h
  · exact nomatch hn

/-! ## Element by element -/

theorem zip_related {xs : List γ} {ys : List δ} {S : γ → δ → Prop} (ha : List.Forall₂ R a a')
    (hb : List.Forall₂ S xs ys) :
    List.Forall₂ (fun p q => R p.1 q.1 ∧ S p.2 q.2) (a.zip xs) (a'.zip ys) := by
  induction ha generalizing xs ys with
  | nil => exact .nil
  | cons xy _ ih =>
    cases hb with
    | nil => exact .nil
    | cons zw hb => exact .cons ⟨xy, zw⟩ (ih hb)

theorem elementwise_refines {op : α → α → Compute α} {op' : β → β → Compute β}
    (hop : Respects R op op') (ha : List.Forall₂ R a a') (hb : List.Forall₂ R b b') :
    Refines (List.Forall₂ R) (elementwise op a b) (elementwise op' a' b') := by
  unfold elementwise
  rw [ha.length_eq, hb.length_eq]
  split
  · exact throw_refines.bind fun _ _ h => h
  · exact Refines.mapM (zip_related ha hb) fun p q pq => hop _ _ pq.1 _ _ pq.2

/-! ## Sums -/

theorem addProducts_refines (hadd : Respects R add add') (hmul : Respects R mul mul')
    {pairs : List (α × α)} {pairs' : List (β × β)}
    (h : List.Forall₂ (fun p q => R p.1 q.1 ∧ R p.2 q.2) pairs pairs') {sum : α} {sum' : β}
    (start : R sum sum') :
    Refines R (addProducts add mul sum pairs) (addProducts add' mul' sum' pairs') := by
  induction h generalizing sum sum' with
  | nil => exact .pure start
  | cons pq _ ih =>
    exact (hmul _ _ pq.1 _ _ pq.2).bind fun t t' ht =>
      (hadd _ _ start _ _ ht).bind fun s s' hs => ih hs

theorem sumProducts_refines (hadd : Respects R add add') (hmul : Respects R mul mul')
    {pairs : List (α × α)} {pairs' : List (β × β)}
    (h : List.Forall₂ (fun p q => R p.1 q.1 ∧ R p.2 q.2) pairs pairs') :
    Refines R (sumProducts add mul pairs) (sumProducts add' mul' pairs') := by
  cases h with
  | nil => exact throw_refines
  | cons pq rest =>
    exact (hmul _ _ pq.1 _ _ pq.2).bind fun t t' ht => addProducts_refines hadd hmul rest ht

theorem sumElements_refines (hadd : Respects R add add') (h : List.Forall₂ R a a') :
    Refines R (sumElements add a) (sumElements add' a') := by
  cases h with
  | nil => exact throw_refines
  | cons xy rest => exact Refines.foldlM rest xy fun c d x y cd xy => hadd _ _ cd _ _ xy

/-! ## Contraction, windows and broadcasting

Each of these checks counts and shapes and then fills a table. For an entry there
are two things to say: the elements that it reads are related, and what it makes of
them is. -/

theorem rowColumn_refines (ha : List.Forall₂ R a a') (hb : List.Forall₂ R b b')
    (k cols i j : Nat) :
    Refines (List.Forall₂ fun p q => R p.1 q.1 ∧ R p.2 q.2)
      (rowColumn a.toArray b.toArray k cols i j) (rowColumn a'.toArray b'.toArray k cols i j) := by
  refine Refines.mapM (R := Eq) (List.forall₂_same.mpr fun _ _ => rfl) ?_
  intro t _ eq
  subst eq
  exact (entryOf_refines ha _).bind fun x x' hx =>
    (entryOf_refines hb _).bind fun y y' hy => .pure ⟨hx, hy⟩

theorem dot_refines (hadd : Respects R add add') (hmul : Respects R mul mul')
    (ha : List.Forall₂ R a a') (hb : List.Forall₂ R b b') (aShape bShape : Shape) :
    Refines (List.Forall₂ R) (dot add mul a aShape b bShape)
      (dot add' mul' a' aShape b' bShape) := by
  refine Refines.bind (checkCount_refines ha aShape).lift ?_
  intro _ _ _
  refine Refines.bind (checkCount_refines hb bShape).lift ?_
  intro _ _ _
  -- The shapes are the same, so both sides are refused or both go on.
  split
  · split
    · exact throw_refines.bind fun _ _ h => h
    · exact tabulate_refines (fun place =>
        (liftFault_refines (rowColumn_refines ha hb _ _ _ _)).bind
        fun pairs pairs' h => sumProducts_refines hadd hmul h) _
  · exact throw_refines

theorem windowPairs_refines (ha : List.Forall₂ R a a') (hb : List.Forall₂ R b b')
    (d f : Shape.Images) (strides : Nat × Nat) (n oc oy ox : Nat) :
    Refines (List.Forall₂ fun p q => R p.1 q.1 ∧ R p.2 q.2)
      (windowPairs a.toArray b.toArray d f strides n oc oy ox)
      (windowPairs a'.toArray b'.toArray d f strides n oc oy ox) := by
  refine Refines.mapM (R := Eq) (List.forall₂_same.mpr fun _ _ => rfl) ?_
  intro place _ eq
  subst eq
  exact (entryOf_refines ha _).bind fun x x' hx =>
    (entryOf_refines hb _).bind fun y y' hy => .pure ⟨hx, hy⟩

theorem convolution_refines (hadd : Respects R add add') (hmul : Respects R mul mul')
    (ha : List.Forall₂ R a a') (hb : List.Forall₂ R b b') (aShape bShape : Shape)
    (strides : Nat × Nat) :
    Refines (List.Forall₂ R) (convolution add mul a aShape b bShape strides)
      (convolution add' mul' a' aShape b' bShape strides) := by
  refine Refines.bind (checkCount_refines ha aShape).lift ?_
  intro _ _ _
  refine Refines.bind (checkCount_refines hb bShape).lift ?_
  intro _ _ _
  refine Refines.bind (liftShape_refines (same_refines _)) ?_
  intro d _ eq
  subst eq
  refine Refines.bind (liftShape_refines (same_refines _)) ?_
  intro f _ eq
  subst eq
  split
  · exact throw_refines.bind fun _ _ h => h
  · refine Refines.bind (liftShape_refines (same_refines _)) ?_
    intro out _ eq
    subst eq
    exact tabulate_refines (fun place =>
      (liftFault_refines (windowPairs_refines ha hb _ _ _ _ _ _ _)).bind
        fun pairs pairs' h => sumProducts_refines hadd hmul h) _

theorem windowElements_refines (ha : List.Forall₂ R a a') (d : Shape.Images)
    (window strides : Nat × Nat) (n ch oy ox : Nat) :
    Refines (List.Forall₂ R) (windowElements a.toArray d window strides n ch oy ox)
      (windowElements a'.toArray d window strides n ch oy ox) := by
  refine Refines.mapM (R := Eq) (List.forall₂_same.mpr fun _ _ => rfl) ?_
  intro place _ eq
  subst eq
  exact entryOf_refines ha _

theorem windowSums_refines (hadd : Respects R add add') (hmul : Respects R mul mul')
    {inverse : Nat → α} {inverse' : Nat → β} (hinv : ∀ area, R (inverse area) (inverse' area))
    (ha : List.Forall₂ R a a') (shape : Shape) (window strides : Nat × Nat) :
    Refines (List.Forall₂ R) (windowSums add mul inverse a shape window strides)
      (windowSums add' mul' inverse' a' shape window strides) := by
  refine Refines.bind (checkCount_refines ha shape).lift ?_
  intro _ _ _
  refine Refines.bind (liftShape_refines (same_refines _)) ?_
  intro d _ eq
  subst eq
  refine Refines.bind (liftShape_refines (same_refines _)) ?_
  intro out _ eq
  subst eq
  refine Refines.bind (liftFault_refines (same_refines _)) ?_
  intro area _ eq
  subst eq
  exact tabulate_refines (fun place =>
    (liftFault_refines (windowElements_refines ha _ _ _ _ _ _ _)).bind fun xs xs' h =>
      (sumElements_refines hadd h).bind fun x x' hx => hmul _ _ hx _ _ (hinv area)) _

theorem broadcast_refines (ha : List.Forall₂ R a a') (source target : Shape) :
    Refines (List.Forall₂ R) (broadcast a source target) (broadcast a' source target) := by
  refine Refines.bind (checkCount_refines ha source).lift ?_
  intro _ _ _
  split
  · exact throw_refines.bind fun _ _ h => h
  · exact tabulate_refines (fun place => liftFault_refines (entryOf_refines ha _)) _

end CipherFlow.Tensor
