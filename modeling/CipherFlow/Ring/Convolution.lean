import CipherFlow.Arith.Modular

/-!
# Products of coefficient lists

The product of two polynomials with natural coefficients, lowest power first.
It is computed as one product of numbers: each list is packed into a number,
as digits in a radix that no coefficient of the product reaches, and then the
digits of the product of the two numbers are the coefficients that are
wanted. The main statement, `product_eq_convolve`, is that this gives the
schoolbook product.
-/

namespace CipherFlow.Ring

/-! ## The schoolbook product -/

/-- The sum of two polynomials; a coefficient that is not there is zero. -/
def addCoeffs : (a b : List Nat) → List Nat
  | [], b => b
  | a, [] => a
  | x :: a, y :: b => (x + y) :: addCoeffs a b

/-- The product of two polynomials, with as many coefficients as both have
together. -/
def convolve : (a b : List Nat) → List Nat
  | [], b => b.map fun _ => 0
  | x :: a, b => addCoeffs (b.map (x * ·)) (0 :: convolve a b)

/-! ## Packed coefficients -/

/-- The number whose digits are the given coefficients, each of a width in
bits. -/
def pack (width : Nat) : List Nat → Nat
  | [] => 0
  | x :: c => x + Nat.shiftLeft (pack width c) width

/-- The lowest digits of a number. -/
def unpack (width : Nat) : (count n : Nat) → List Nat
  | 0, _ => []
  | count + 1, n =>
    Nat.land n (Nat.pow 2 width - 1) :: unpack width count (Nat.shiftRight n width)

/-- The largest coefficient. -/
def largest (c : List Nat) : Nat :=
  c.foldr max 0

/-- A number of bits that holds every coefficient of a product. -/
def productWidth (a b : List Nat) : Nat :=
  Nat.log2 (a.length * (largest a * largest b)) + 1

/-- The product of two polynomials, by one product of packed numbers. -/
def product (a b : List Nat) : List Nat :=
  let width := productWidth a b
  unpack width (a.length + b.length) (pack width a * pack width b)

/-! ## Why the digits are the coefficients -/

theorem pack_cons (width x : Nat) (c : List Nat) :
    pack width (x :: c) = x + Nat.pow 2 width * pack width c := by
  show x + pack width c <<< width = _
  rw [Nat.pow_eq, Nat.shiftLeft_eq, Nat.mul_comm]

theorem pack_addCoeffs (width : Nat) (a b : List Nat) :
    pack width (addCoeffs a b) = pack width a + pack width b := by
  induction a generalizing b with
  | nil => simp [addCoeffs, pack]
  | cons x a ih =>
    cases b with
    | nil => simp [addCoeffs, pack]
    | cons y b =>
      simp only [addCoeffs, pack_cons, ih, Nat.mul_add]
      omega

theorem pack_map_mul (width x : Nat) (c : List Nat) :
    pack width (c.map (x * ·)) = x * pack width c := by
  induction c with
  | nil => rfl
  | cons y c ih => simp only [List.map_cons, pack_cons, ih, Nat.mul_add, Nat.mul_left_comm]

theorem pack_map_zero (width : Nat) (c : List Nat) : pack width (c.map fun _ => 0) = 0 := by
  induction c with
  | nil => rfl
  | cons y c ih => simp only [List.map_cons, pack_cons, ih, Nat.mul_zero, Nat.add_zero]

/-- Packing takes products to products. -/
theorem pack_convolve (width : Nat) (a b : List Nat) :
    pack width (convolve a b) = pack width a * pack width b := by
  induction a with
  | nil => simp only [convolve, pack_map_zero, pack, Nat.zero_mul]
  | cons x a ih =>
    simp only [convolve, pack_addCoeffs, pack_map_mul, pack_cons, ih, Nat.zero_add,
      Nat.add_mul, Nat.mul_assoc]

theorem length_addCoeffs (a b : List Nat) :
    (addCoeffs a b).length = max a.length b.length := by
  induction a generalizing b with
  | nil => simp [addCoeffs]
  | cons x a ih =>
    cases b with
    | nil => simp [addCoeffs]
    | cons y b => simp [addCoeffs, ih, Nat.succ_max_succ]

theorem length_convolve (a b : List Nat) : (convolve a b).length = a.length + b.length := by
  induction a with
  | nil => simp [convolve]
  | cons x a ih =>
    simp only [convolve, length_addCoeffs, List.length_map, List.length_cons, ih]
    omega

theorem addCoeffs_le {m n : Nat} {a b : List Nat} (ha : ∀ x ∈ a, x ≤ m)
    (hb : ∀ y ∈ b, y ≤ n) : ∀ z ∈ addCoeffs a b, z ≤ m + n := by
  induction a generalizing b with
  | nil => exact fun z hz => Nat.le_trans (hb z (by simpa [addCoeffs] using hz)) (by omega)
  | cons x a ih =>
    cases b with
    | nil => exact fun z hz => Nat.le_trans (ha z (by simpa [addCoeffs] using hz)) (by omega)
    | cons y b =>
      intro z hz
      simp only [addCoeffs, List.mem_cons] at hz
      rcases hz with rfl | hz
      · exact Nat.add_le_add (ha x List.mem_cons_self) (hb y List.mem_cons_self)
      · exact ih (fun x hx => ha x (List.mem_cons_of_mem _ hx))
          (fun y hy => hb y (List.mem_cons_of_mem _ hy)) z hz

theorem le_largest {c : List Nat} {x : Nat} (h : x ∈ c) : x ≤ largest c := by
  induction c with
  | nil => simp at h
  | cons y c ih =>
    rcases List.mem_cons.1 h with rfl | h
    · exact Nat.le_max_left _ _
    · exact Nat.le_trans (ih h) (Nat.le_max_right _ _)

/-- No coefficient of a product is above the bound that its width is chosen
for. -/
theorem convolve_le {m : Nat} (a b : List Nat) (ha : ∀ x ∈ a, x ≤ m) :
    ∀ z ∈ convolve a b, z ≤ a.length * (m * largest b) := by
  induction a with
  | nil => simp [convolve]
  | cons x a ih =>
    intro z hz
    have hx : ∀ y ∈ b.map (x * ·), y ≤ m * largest b := by
      intro y hy
      obtain ⟨w, hw, rfl⟩ := List.mem_map.1 hy
      exact Nat.mul_le_mul (ha x List.mem_cons_self) (le_largest hw)
    have hrest : ∀ y ∈ 0 :: convolve a b, y ≤ a.length * (m * largest b) := by
      intro y hy
      rcases List.mem_cons.1 hy with rfl | hy
      · exact Nat.zero_le _
      · exact ih (fun x hx => ha x (List.mem_cons_of_mem _ hx)) y hy
    have hz := addCoeffs_le hx hrest z hz
    simp only [List.length_cons, Nat.succ_mul]
    omega

theorem lt_two_pow_productWidth (a b : List Nat) :
    ∀ z ∈ convolve a b, z < Nat.pow 2 (productWidth a b) := fun z hz =>
  Nat.lt_of_le_of_lt (convolve_le a b (fun _ h => le_largest h) z hz) Nat.lt_log2_self

/-- Digits that fit their width are read back. -/
theorem unpack_pack (width : Nat) (c : List Nat) (h : ∀ x ∈ c, x < Nat.pow 2 width) :
    unpack width c.length (pack width c) = c := by
  induction c with
  | nil => rfl
  | cons x c ih =>
    have hx : x < Nat.pow 2 width := h x List.mem_cons_self
    have hpos : 0 < Nat.pow 2 width := Nat.two_pow_pos width
    have hlow : Nat.land (pack width (x :: c)) (Nat.pow 2 width - 1) = x := by
      show pack width (x :: c) &&& Nat.pow 2 width - 1 = x
      rw [Nat.pow_eq, Nat.and_two_pow_sub_one_eq_mod, ← Nat.pow_eq, pack_cons,
        Nat.add_mul_mod_self_left, Nat.mod_eq_of_lt hx]
    have hhigh : Nat.shiftRight (pack width (x :: c)) width = pack width c := by
      show pack width (x :: c) >>> width = _
      rw [Nat.shiftRight_eq_div_pow, ← Nat.pow_eq, pack_cons,
        Nat.add_mul_div_left _ _ hpos, Nat.div_eq_of_lt hx, Nat.zero_add]
    rw [List.length_cons, unpack, hlow, hhigh, ih fun y hy => h y (List.mem_cons_of_mem _ hy)]

/-- The packed product is the schoolbook product. -/
theorem product_eq_convolve (a b : List Nat) : product a b = convolve a b := by
  have h := unpack_pack _ _ (lt_two_pow_productWidth a b)
  rwa [length_convolve, pack_convolve] at h

end CipherFlow.Ring
