import CipherFlow.Proofs.Tensor.Progress
import Mathlib.Data.List.Induction

/-!
# Sums in their order

Sums and products of elements may take coins, and they need not be associative.
So what a tensor operation computes is said with the order in which it does so:
a sum takes its terms from left to right, and an output its entries one after
the other, each with the coins that those before it leave. A computation fails
where the first of its operations does.

Main lemmas: `run_sumProducts_eq_ok_iff` and `run_sumProducts_eq_error_iff` for one
entry, and `rowMajor_of_run_tabulate` for a table of them.

Programs add to an accumulator, so the inductions are from the end of the list:
`SumsTo` and `SumFails` are compared with the program on a list and one more term
(`FromLeft`).
-/

namespace CipherFlow.Tensor

open CipherFlow.Element (Compute Error)

variable {α β ι : Type} {add : α → α → Compute α} {term : ι → Compute α} {c c' : Coins}
  {xs : List ι} {x : ι} {z : α} {e : Error}

/-! ## Sums from left to right -/

/-- The sum of terms from left to right: the first term, and then with each
term the sum so far plus the term. -/
inductive SumsTo (add : α → α → Compute α) (term : ι → Compute α) (c : Coins) :
    List ι → α → Coins → Prop where
  | first {x : ι} {z : α} {c' : Coins} : (term x).run c = .ok (z, c') →
      SumsTo add term c [x] z c'
  | next {xs : List ι} {sum : α} {c₁ : Coins} {x : ι} {z : α} {c₂ : Coins} {sum' : α}
      {c' : Coins} : SumsTo add term c xs sum c₁ → (term x).run c₁ = .ok (z, c₂) →
      (add sum z).run c₂ = .ok (sum', c') → SumsTo add term c (xs ++ [x]) sum' c'

/-- An operation on the way to a sum from left to right fails: a term, or the
addition of a term to the sum so far. -/
inductive SumFails (add : α → α → Compute α) (term : ι → Compute α) (c : Coins) :
    List ι → Error → Prop where
  | first {x : ι} {rest : List ι} {e : Error} : (term x).run c = .error e →
      SumFails add term c (x :: rest) e
  | term {xs : List ι} {sum : α} {c₁ : Coins} {x : ι} {rest : List ι} {e : Error} :
      SumsTo add term c xs sum c₁ → (term x).run c₁ = .error e →
      SumFails add term c (xs ++ x :: rest) e
  | sum {xs : List ι} {sum : α} {c₁ : Coins} {x : ι} {z : α} {c₂ : Coins} {rest : List ι}
      {e : Error} : SumsTo add term c xs sum c₁ → (term x).run c₁ = .ok (z, c₂) →
      (add sum z).run c₂ = .error e → SumFails add term c (xs ++ x :: rest) e

theorem SumsTo.ne_nil (h : SumsTo add term c xs z c') : xs ≠ [] := by
  cases h <;> simp

theorem SumFails.ne_nil (h : SumFails add term c xs e) : xs ≠ [] := by
  cases h <;> simp

/-- A sum that fails does not get to the terms behind. -/
theorem SumFails.append (h : SumFails add term c xs e) (rest : List ι) :
    SumFails add term c (xs ++ rest) e := by
  cases h with
  | first fails => exact .first fails
  | term before fails =>
    rw [List.append_assoc]
    exact .term before fails
  | sum before eq fails =>
    rw [List.append_assoc]
    exact .sum before eq fails

theorem sumsTo_singleton_iff : SumsTo add term c [x] z c' ↔ (term x).run c = .ok (z, c') := by
  constructor
  · intro h
    generalize eq : [x] = one at h
    cases h with
    | first eq' =>
      obtain rfl := List.singleton_inj.mp eq
      exact eq'
    | next before _ _ =>
      have eq : [] ++ [x] = _ ++ [_] := eq
      exact absurd (List.append_singleton_inj.mp eq).1.symm before.ne_nil
  · exact .first

/-- The last term is added to the sum of those before it. -/
theorem sumsTo_concat_iff (ne : xs ≠ []) : SumsTo add term c (xs ++ [x]) z c' ↔
    ∃ sum c₁, SumsTo add term c xs sum c₁ ∧
      ∃ t c₂, (term x).run c₁ = .ok (t, c₂) ∧ (add sum t).run c₂ = .ok (z, c') := by
  constructor
  · intro h
    generalize eq : xs ++ [x] = all at h
    cases h with
    | first _ =>
      have eq : xs ++ [x] = [] ++ [_] := eq
      exact absurd (List.append_singleton_inj.mp eq).1 ne
    | next before eq' added =>
      obtain ⟨rfl, rfl⟩ := List.append_singleton_inj.mp eq
      exact ⟨_, _, before, _, _, eq', added⟩
  · rintro ⟨sum, c₁, before, t, c₂, eq, added⟩
    exact .next before eq added

/-- A way to compute sums that takes the terms from left to right. -/
structure FromLeft (add : α → α → Compute α) (term : ι → Compute α)
    (sum : List ι → Compute α) : Prop where
  first : ∀ x, sum [x] = term x
  next : ∀ xs x, xs ≠ [] → sum (xs ++ [x]) = do
    let s ← sum xs
    let t ← term x
    add s t

variable {sum : List ι → Compute α}

theorem FromLeft.run_eq_ok_iff (h : FromLeft add term sum) (ne : xs ≠ []) :
    (sum xs).run c = .ok (z, c') ↔ SumsTo add term c xs z c' := by
  -- From the right: the last term is the one that is added last.
  induction xs using List.reverseRecOn generalizing z c' with
  | nil => exact absurd rfl ne
  | append_singleton xs x ih =>
    rcases eq_or_ne xs [] with rfl | ne'
    · rw [List.nil_append, h.first, sumsTo_singleton_iff]
    · rw [h.next xs x ne', sumsTo_concat_iff ne', run_bind_eq_ok]
      simp only [ih ne', run_bind_eq_ok]

/-- What fails on the way to a sum fails on the way to a longer one. -/
theorem FromLeft.run_append_eq_error (h : FromLeft add term sum) (ne : xs ≠ [])
    (fails : (sum xs).run c = .error e) (rest : List ι) : (sum (xs ++ rest)).run c = .error e := by
  induction rest generalizing xs with
  | nil => rwa [List.append_nil]
  | cons y rest ih =>
    have step : (sum (xs ++ [y])).run c = .error e := by
      rw [h.next xs y ne, run_bind_eq_error]
      exact .inl fails
    rw [List.append_cons]
    exact ih (by simp) step

/-- A sum fails where the first of its operations does. -/
theorem FromLeft.run_eq_error_iff (h : FromLeft add term sum) (ne : xs ≠ []) :
    (sum xs).run c = .error e ↔ SumFails add term c xs e := by
  constructor
  · intro fails
    induction xs using List.reverseRecOn with
    | nil => exact absurd rfl ne
    | append_singleton xs x ih =>
      rcases eq_or_ne xs [] with rfl | ne'
      · rw [List.nil_append, h.first] at fails
        exact .first fails
      · rw [h.next xs x ne', run_bind_eq_error] at fails
        rcases fails with fails | ⟨s, c₁, before, fails⟩
        · exact (ih ne' fails).append [x]
        · have before := (h.run_eq_ok_iff ne').mp before
          rcases run_bind_eq_error.mp fails with fails | ⟨t, c₂, eq, fails⟩
          · exact .term before fails
          · exact .sum before eq fails
  · intro fails
    cases fails with
    -- Where an operation fails, the sum up to it fails, and so does every longer one.
    | @first x rest e fails =>
      have first : (sum [x]).run c = .error e := by rwa [h.first]
      exact h.run_append_eq_error (by simp) first rest
    | @term xs s c₁ x rest e before fails =>
      rw [List.append_cons]
      refine h.run_append_eq_error (by simp) ?_ rest
      rw [h.next xs x before.ne_nil, run_bind_eq_error]
      refine .inr ⟨s, c₁, (h.run_eq_ok_iff before.ne_nil).mpr before, ?_⟩
      exact run_bind_eq_error.mpr (.inl fails)
    | @sum xs s c₁ x t c₂ rest e before eq fails =>
      rw [List.append_cons]
      refine h.run_append_eq_error (by simp) ?_ rest
      rw [h.next xs x before.ne_nil, run_bind_eq_error]
      refine .inr ⟨s, c₁, (h.run_eq_ok_iff before.ne_nil).mpr before, ?_⟩
      exact run_bind_eq_error.mpr (.inr ⟨t, c₂, eq, fails⟩)

/-! ## The sums of the tensor operations

Two programs take sums, one over products of pairs and one over elements. Both are
sums from left to right, and neither has a value for no terms at all. -/

variable {mul : α → α → Compute α}

theorem addProducts_concat (s : α) (pairs : List (α × α)) (p : α × α) :
    addProducts add mul s (pairs ++ [p]) = (do
      let s ← addProducts add mul s pairs
      let t ← mul p.1 p.2
      add s t) := by
  induction pairs generalizing s with
  | nil => simp [addProducts]
  | cons q pairs ih => simp [addProducts, ih]

/-- Products are added from left to right. -/
theorem fromLeft_sumProducts (add mul : α → α → Compute α) :
    FromLeft add (fun p : α × α => mul p.1 p.2) (sumProducts add mul) := by
  constructor
  · intro p
    simp [sumProducts, addProducts]
  · intro pairs p ne
    cases pairs with
    | nil => exact absurd rfl ne
    | cons q pairs => simp [sumProducts, addProducts_concat]

/-- Elements are added from left to right. -/
theorem fromLeft_sumElements (add : α → α → Compute α) :
    FromLeft add (pure : α → Compute α) (sumElements add) := by
  constructor
  · intro x
    simp [sumElements]
  · intro xs x ne
    cases xs with
    | nil => exact absurd rfl ne
    | cons y xs => simp [sumElements, List.foldlM_append]

variable {pairs : List (α × α)} {elements : List α}

theorem run_sumProducts_eq_ok_iff : (sumProducts add mul pairs).run c = .ok (z, c') ↔
    SumsTo add (fun p => mul p.1 p.2) c pairs z c' := by
  rcases eq_or_ne pairs [] with rfl | ne
  · exact ⟨fun h => (nomatch h), fun h => absurd rfl h.ne_nil⟩
  · exact (fromLeft_sumProducts add mul).run_eq_ok_iff ne

theorem run_sumProducts_eq_error_iff : (sumProducts add mul pairs).run c = .error e ↔
    (pairs = [] ∧ e = .shape .emptyReduction) ∨ SumFails add (fun p => mul p.1 p.2) c pairs e := by
  rcases eq_or_ne pairs [] with rfl | ne
  · constructor
    · exact fun h => .inl ⟨rfl, (Except.error.inj h).symm⟩
    · rintro (⟨-, rfl⟩ | fails)
      · rfl
      · exact absurd rfl fails.ne_nil
  · rw [(fromLeft_sumProducts add mul).run_eq_error_iff ne]
    simp [ne]

theorem run_sumElements_eq_ok_iff : (sumElements add elements).run c = .ok (z, c') ↔
    SumsTo add pure c elements z c' := by
  rcases eq_or_ne elements [] with rfl | ne
  · exact ⟨fun h => (nomatch h), fun h => absurd rfl h.ne_nil⟩
  · exact (fromLeft_sumElements add).run_eq_ok_iff ne

/-! ## Entries one after the other

That a table is computed in order matters for coins, which every entry takes from
where the one before has left them, and for errors, of which the first one is given. -/

/-- Values at a list of places, one after the other, each with the coins that
those before it leave. -/
inductive InOrder (gives : β → Coins → α → Coins → Prop) :
    Coins → List β → List α → Coins → Prop where
  | nil (c : Coins) : InOrder gives c [] [] c
  | cons {place : β} {c : Coins} {z : α} {c₁ : Coins} {places : List β} {out : List α}
      {c' : Coins} : gives place c z c₁ → InOrder gives c₁ places out c' →
      InOrder gives c (place :: places) (z :: out) c'

/-- The values at a list of places are computed up to one that fails. -/
inductive Stops (gives : β → Coins → α → Coins → Prop) (fails : β → Coins → Error → Prop) :
    Coins → List β → Error → Prop where
  | here {place : β} {c : Coins} {e : Error} {places : List β} : fails place c e →
      Stops gives fails c (place :: places) e
  | later {place : β} {c : Coins} {z : α} {c₁ : Coins} {places : List β} {e : Error} :
      gives place c z c₁ → Stops gives fails c₁ places e →
      Stops gives fails c (place :: places) e

variable {gives gives' : β → Coins → α → Coins → Prop} {fails fails' : β → Coins → Error → Prop}
  {places : List β} {out : List α} {f : β → Compute α}

theorem InOrder.length (h : InOrder gives c places out c') : out.length = places.length := by
  induction h with
  | nil => rfl
  | cons _ _ ih => simp [ih]

/-- The value at each place stands where the place does. -/
theorem InOrder.getElem? (h : InOrder gives c places out c') {n : Nat} {place : β}
    (at_n : places[n]? = some place) :
    ∃ z c₁ c₂, out[n]? = some z ∧ gives place c₁ z c₂ := by
  induction h generalizing n with
  | nil => simp at at_n
  | cons given _ ih =>
    cases n with
    | zero =>
      obtain rfl := Option.some.inj at_n
      exact ⟨_, _, _, rfl, given⟩
    | succ n => exact ih at_n

theorem InOrder.imp (h : InOrder gives c places out c')
    (each : ∀ place ∈ places, ∀ c z c', gives place c z c' → gives' place c z c') :
    InOrder gives' c places out c' := by
  induction h with
  | nil => exact .nil _
  | cons given _ ih =>
    exact .cons (each _ List.mem_cons_self _ _ _ given)
      (ih fun place hp => each place (List.mem_cons_of_mem _ hp))

theorem Stops.imp (h : Stops gives fails c places e)
    (each : ∀ place ∈ places, ∀ c z c', gives place c z c' → gives' place c z c')
    (eachFails : ∀ place ∈ places, ∀ c e, fails place c e → fails' place c e) :
    Stops gives' fails' c places e := by
  induction h with
  | here failed => exact .here (eachFails _ List.mem_cons_self _ _ failed)
  | later given _ ih =>
    exact .later (each _ List.mem_cons_self _ _ _ given)
      (ih (fun place hp => each place (List.mem_cons_of_mem _ hp))
        fun place hp => eachFails place (List.mem_cons_of_mem _ hp))

theorem stops_congr
    (each : ∀ place ∈ places, ∀ c z c', gives place c z c' ↔ gives' place c z c')
    (eachFails : ∀ place ∈ places, ∀ c e, fails place c e ↔ fails' place c e) :
    Stops gives fails c places e ↔ Stops gives' fails' c places e := by
  constructor
  · intro h
    exact h.imp (fun place mem c z c' => (each place mem c z c').mp)
      fun place mem c e => (eachFails place mem c e).mp
  · intro h
    exact h.imp (fun place mem c z c' => (each place mem c z c').mpr)
      fun place mem c e => (eachFails place mem c e).mpr

/-- Where no value can be computed, it is the first one that fails. -/
theorem stops_cons_iff_of_not_gives {place : β} (none : ∀ z c', ¬ gives place c z c') :
    Stops gives fails c (place :: places) e ↔ fails place c e := by
  constructor
  · intro h
    cases h with
    | here failed => exact failed
    | later given _ => exact absurd given (none _ _)
  · exact .here

theorem run_mapM_eq_ok (h : (places.mapM f).run c = .ok (out, c')) :
    InOrder (fun place c z c' => (f place).run c = .ok (z, c')) c places out c' := by
  induction places generalizing c out with
  | nil =>
    obtain ⟨rfl, rfl⟩ := Prod.mk.inj (Except.ok.inj h)
    exact .nil c
  | cons place places ih =>
    rw [List.mapM_cons, run_bind_eq_ok] at h
    obtain ⟨z, c₁, given, h⟩ := h
    obtain ⟨rest, c₂, hrest, h⟩ := run_bind_eq_ok.mp h
    obtain ⟨rfl, rfl⟩ := Prod.mk.inj (Except.ok.inj h)
    exact .cons given (ih hrest)

theorem run_mapM_eq_error_iff : (places.mapM f).run c = .error e ↔
    Stops (fun place c z c' => (f place).run c = .ok (z, c'))
      (fun place c e => (f place).run c = .error e) c places e := by
  constructor
  · intro h
    induction places generalizing c with
    -- To put the list together takes no coins and cannot fail.
    | nil => exact nomatch h
    | cons place places ih =>
      rw [List.mapM_cons, run_bind_eq_error] at h
      rcases h with failed | ⟨z, c₁, given, h⟩
      · exact .here failed
      · rcases run_bind_eq_error.mp h with h | ⟨rest, c₂, hrest, h⟩
        · exact .later given (ih h)
        · exact nomatch h
  · intro h
    induction h with
    | here failed =>
      rw [List.mapM_cons, run_bind_eq_error]
      exact .inl failed
    | later given _ ih =>
      rw [List.mapM_cons, run_bind_eq_error]
      exact .inr ⟨_, _, given, run_bind_eq_error.mpr (.inl ih)⟩

/-! ## Tables

A table is computed by the positions of its entries. As the positions of a shape are
those of its coordinates in order, the coordinates can be listed instead. -/

theorem tabulateFrom_eq_mapM (f : Nat → Compute α) (count start : Nat) :
    tabulateFrom f count start = (List.range' start count).mapM f := by
  induction count generalizing start with
  | zero => rfl
  | succ count ih => simp [tabulateFrom, ih, List.range'_succ]

theorem liftFault_bind (x : β) (f : β → Compute α) :
    ((liftM (Except.ok x : Except Fault β) : Compute β) >>= f) = f x := rfl

/-- A table that fits into memory is its entries one after the other. -/
theorem tabulate_eq_mapM {count : Nat} (fits : Fits count) (f : Nat → Compute α) :
    tabulate count f = (List.range count).mapM f := by
  have room : Shape.reserve count = .ok () := if_pos fits
  rw [tabulate, checkSize_of_fits fits, liftFault_bind, room, liftFault_bind,
    tabulateFrom_eq_mapM, List.range_eq_range']

/-- Values of a shape in row-major order: one for each of its coordinates, at
their place. -/
structure RowMajor (gives : List Nat → Coins → α → Coins → Prop) (shape : Shape) (c : Coins)
    (values : List α) (c' : Coins) : Prop where
  inOrder : InOrder gives c shape.indices values c'
  length : values.length = shape.prod
  each : ∀ index, shape.Within index →
    ∃ z c₁ c₂, values[shape.position index]? = some z ∧ gives index c₁ z c₂

theorem InOrder.rowMajor {gives : List Nat → Coins → α → Coins → Prop} {shape : Shape}
    (h : InOrder gives c shape.indices out c') : RowMajor gives shape c out c' where
  inOrder := h
  length := h.length.trans (Shape.length_indices shape)
  each _ within := h.getElem? (Shape.getElem?_indices within)

/-- A table that has been made fits into memory. -/
theorem fits_of_run_tabulate {count : Nat} {f : Nat → Compute α} {r : List α × Coins}
    (h : (tabulate count f).run c = .ok r) : Fits count := by
  by_contra full
  rw [tabulate_fails full f c] at h
  exact nomatch h

/-- A table of the places of a shape has its values in row-major order. -/
theorem rowMajor_of_run_tabulate {shape : Shape} {f : Nat → Compute α}
    {gives : List Nat → Coins → α → Coins → Prop}
    (entry : ∀ index, shape.Within index → ∀ c z c',
      (f (shape.position index)).run c = .ok (z, c') → gives index c z c')
    (h : (tabulate shape.prod f).run c = .ok (out, c')) : RowMajor gives shape c out c' := by
  rw [tabulate_eq_mapM (fits_of_run_tabulate h), ← Shape.map_position_indices,
    List.mapM_map] at h
  exact ((run_mapM_eq_ok h).imp fun index mem =>
    entry index (Shape.mem_indices.mp mem)).rowMajor

end CipherFlow.Tensor
