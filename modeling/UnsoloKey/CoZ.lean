import Mathlib.AlgebraicGeometry.EllipticCurve.Affine.Point
import Mathlib.AlgebraicGeometry.EllipticCurve.NormalForms
import Mathlib.Tactic

/-!
# Co-Z arithmetic on a short Weierstrass curve

Two points which share their third coordinate are added without that coordinate.  The
formulas are stated over any type with the ring operations; over a field they denote
the group law of the curve as long as the two first coordinates differ.
-/

namespace CoZ

/-! ## The formulas -/

/-- Two points with one third coordinate. -/
@[ext] structure Pair (R : Type*) where
  x₁ : R
  y₁ : R
  x₂ : R
  y₂ : R

section Formulas

variable {R : Type*} [Add R] [Sub R] [Mul R]

def Pair.swap (q : Pair R) : Pair R :=
  ⟨q.x₂, q.y₂, q.x₁, q.y₁⟩

/-- `P` and `P + Q` with the difference of their first coordinates. -/
def add (q : Pair R) : Pair R × R :=
  let d := q.x₂ - q.x₁
  let b := q.x₁ * (d * d)
  let c := q.x₂ * (d * d)
  let e := q.y₂ - q.y₁
  let x := e * e - b - c
  let y := q.y₁ * (c - b)
  (⟨b, y, x, e * (b - x) - y⟩, b - x)

/-- `P - Q` and `P + Q`; the square of `s` is that of the difference. -/
def addC (q : Pair R) (s : R) : Pair R :=
  let b := q.x₁ * (s * s)
  let c := q.x₂ * (s * s)
  let f := q.y₂ + q.y₁
  let e := q.y₂ - q.y₁
  let g := q.y₁ * (c - b)
  let x := e * e - (b + c)
  let x' := f * f - (b + c)
  ⟨x', (x' - b) * f - g, x, e * (b - x) - g⟩

/-- The multiples `m` and `m + 1` with the difference of their first coordinates. -/
structure Rungs (R : Type*) where
  points : Pair R
  sub : R

/-- Whichever of the two is doubled stands first. -/
def order (bit : Bool) (q : Pair R) : Pair R :=
  if bit then q.swap else q

def Rungs.step (bit : Bool) (s : Rungs R) : Rungs R :=
  let r := add (addC (order bit s.points) s.sub).swap
  ⟨order bit r.1.swap, r.2⟩

/-- The lower bits of `n`, the most significant one first. -/
def bitsBelow (n : ℕ) : ℕ → List Bool
  | 0 => []
  | k + 1 => n.testBit k :: bitsBelow n k

def Rungs.run : List Bool → Rungs R → Rungs R
  | [], s => s
  | bit :: bits, s => (s.step bit).run bits

/-- No step of the run meets two points with one first coordinate. -/
def Rungs.distinct [DecidableEq R] : List Bool → Rungs R → Bool
  | [], _ => true
  | bit :: bits, s =>
      let c := addC (order bit s.points) s.sub
      s.points.x₁ ≠ s.points.x₂ && c.x₁ ≠ c.x₂ && (s.step bit).distinct bits

/-- The last bit: the third coordinate is found by a comparison with `(x, y)`. -/
def Rungs.finish [Inv R] (bit : Bool) (x y : R) (s : Rungs R) : R × R :=
  let c := addC (order bit s.points) s.sub
  let d := order bit c
  let z := ((d.x₂ - d.x₁) * c.y₁ * x)⁻¹ * y * c.x₁
  let r := order bit (add c.swap).1.swap
  (r.x₁ * (z * z), r.y₁ * (z * z * z))

/-- The double in Jacobian coordinates, on a curve with `a₄ = -3`. -/
def double (half : R → R) (x y z : R) : R × R × R :=
  let a := x * (y * y)
  let b := (x + z * z) * (x + z * z - (z * z + z * z))
  let b := half (b + (b + b))
  let x' := b * b - a - a
  (x', b * (a - x') - y * y * (y * y), y * z)

/-- The point and its double, the coordinates blinded with `z`. -/
def Rungs.initial (half : R → R) (x y z : R) : Rungs R :=
  let d := double half (x * (z * z)) (y * (z * z * z)) z
  let x' := x * (d.2.2 * d.2.2)
  ⟨⟨x', y * (d.2.2 * d.2.2 * d.2.2), d.1, d.2.1⟩, x' - d.1⟩

end Formulas

/-! ## The multiples of a step -/

section Multiples

variable {G : Type*} [AddCommGroup G] (P : G) (m : ℕ) (bit : Bool)

theorem sub_multiples : (if bit then (m + 1) • P else m • P) -
    (if bit then m • P else (m + 1) • P) = if bit then P else -P := by
  cases bit
  · simp [succ_nsmul]
  · simp [succ_nsmul]

theorem add_multiples : (if bit then (m + 1) • P else m • P) +
    (if bit then m • P else (m + 1) • P) = (2 * m + 1) • P := by
  have hm : 2 * m + 1 = m + (m + 1) := by omega
  rw [hm, add_nsmul P m (m + 1)]
  cases bit
  · rfl
  · exact add_comm _ _

theorem add_sub_multiples :
    (2 * m + 1) • P + (if bit then P else -P) = (2 * m + 2 * bit.toNat) • P := by
  cases bit
  · simp [succ_nsmul]
  · exact (succ_nsmul P _).symm

theorem sub_sub_multiples :
    (2 * m + 1) • P - (if bit then P else -P) = (2 * m + 2 * (!bit).toNat) • P := by
  rw [← add_sub_multiples, sub_eq_add_neg]
  cases bit
  · exact congrArg _ (neg_neg P)
  · rfl

end Multiples

/-! ## Points in the third coordinate -/

section

variable {F : Type*} [Field F] {W : WeierstrassCurve.Affine F}
  {x y z x₁ y₁ x₂ y₂ c : F} {P Q : W.Point}

/-- `(x / z², y / z³)` is the point. -/
def Represents (x y z : F) (P : W.Point) : Prop :=
  ∃ h : W.Nonsingular (x / z ^ 2) (y / z ^ 3), P = .some _ _ h

theorem Represents.congr {x' y' z' : F} (h : Represents x y z P) (hx : x / z ^ 2 = x' / z' ^ 2)
    (hy : y / z ^ 3 = y' / z' ^ 3) : Represents x' y' z' P := by
  unfold Represents at h ⊢
  rwa [hx, hy] at h

theorem Represents.ne_zero (h : Represents x y z P) : P ≠ 0 := by
  obtain ⟨hns, rfl⟩ := h
  exact WeierstrassCurve.Affine.Point.some_ne_zero hns

theorem Represents.rescale (h : Represents x y z P) (hz : z ≠ 0) (hc : c ≠ 0) :
    Represents (x * c ^ 2) (y * c ^ 3) (z * c) P :=
  h.congr (by field_simp) (by field_simp)

theorem Represents.x_eq_iff (hP : Represents x₁ y₁ z P) (hQ : Represents x₂ y₂ z Q) (hz : z ≠ 0) :
    x₁ = x₂ ↔ P = Q ∨ P = -Q := by
  obtain ⟨hp, rfl⟩ := hP
  obtain ⟨hq, rfl⟩ := hQ
  rw [← WeierstrassCurve.Affine.Point.X_eq_iff, div_left_inj' (pow_ne_zero 2 hz)]

theorem exists_some_of_eq {x' y' : F} {h : W.Nonsingular x y} (hx : x = x') (hy : y = y') :
    ∃ h' : W.Nonsingular x' y', WeierstrassCurve.Affine.Point.some x y h = .some x' y' h' := by
  subst hx hy
  exact ⟨h, rfl⟩

variable [W.IsShortNF]

theorem negY_short (x y : F) : W.negY x y = -y := by
  rw [WeierstrassCurve.Affine.negY, W.a₁_of_isShortNF, W.a₃_of_isShortNF]
  ring

theorem Represents.neg (h : Represents x y z P) : Represents x (-y) z (-P) := by
  obtain ⟨hp, rfl⟩ := h
  have hy : W.negY (x / z ^ 2) (y / z ^ 3) = -y / z ^ 3 := by
    rw [negY_short, neg_div]
  have hneg := (WeierstrassCurve.Affine.nonsingular_neg (x / z ^ 2) (y / z ^ 3)).2 hp
  rw [hy] at hneg
  refine ⟨hneg, ?_⟩
  rw [WeierstrassCurve.Affine.Point.neg_some, WeierstrassCurve.Affine.Point.some.injEq]
  exact ⟨rfl, hy⟩

variable [DecidableEq F]

/-- The chord through two points with one third coordinate. -/
theorem Represents.add (hP : Represents x₁ y₁ z P) (hQ : Represents x₂ y₂ z Q) (hz : z ≠ 0)
    (hx : x₁ ≠ x₂) {x y : F}
    (hxeq : x = (y₂ - y₁) ^ 2 - (x₁ + x₂) * (x₂ - x₁) ^ 2)
    (hyeq : y = (y₂ - y₁) * (x₁ * (x₂ - x₁) ^ 2 - x) - y₁ * (x₂ - x₁) ^ 3) :
    Represents x y (z * (x₂ - x₁)) (P + Q) := by
  obtain ⟨hp, rfl⟩ := hP
  obtain ⟨hq, rfl⟩ := hQ
  have hd : x₂ - x₁ ≠ 0 := sub_ne_zero.2 (Ne.symm hx)
  have hd' : x₁ - x₂ ≠ 0 := sub_ne_zero.2 hx
  have hne : x₁ / z ^ 2 ≠ x₂ / z ^ 2 := by
    rwa [Ne, div_left_inj' (pow_ne_zero 2 hz)]
  have hslope : W.slope (x₁ / z ^ 2) (x₂ / z ^ 2) (y₁ / z ^ 3) (y₂ / z ^ 3) =
      (y₂ - y₁) / (z * (x₂ - x₁)) := by
    rw [WeierstrassCurve.Affine.slope_of_X_ne hne, ← sub_div, ← sub_div, ← neg_sub y₂, ← neg_sub x₂]
    field_simp
  have hX : W.addX (x₁ / z ^ 2) (x₂ / z ^ 2)
      (W.slope (x₁ / z ^ 2) (x₂ / z ^ 2) (y₁ / z ^ 3) (y₂ / z ^ 3)) =
      x / (z * (x₂ - x₁)) ^ 2 := by
    rw [hslope, WeierstrassCurve.Affine.addX, W.a₁_of_isShortNF, W.a₂_of_isShortNF, hxeq]
    field_simp
    ring
  rw [WeierstrassCurve.Affine.Point.add_of_X_ne hne]
  refine exists_some_of_eq hX ?_
  rw [WeierstrassCurve.Affine.addY, negY_short, WeierstrassCurve.Affine.negAddY, hX, hslope, hyeq]
  field_simp
  ring

/-! ## Pairs of points -/

/-- The pair denotes the two points, with the third coordinate `z`. -/
structure Pair.Denotes (q : Pair F) (z : F) (P Q : W.Point) : Prop where
  z_ne_zero : z ≠ 0
  left : Represents q.x₁ q.y₁ z P
  right : Represents q.x₂ q.y₂ z Q

omit [W.IsShortNF] [DecidableEq F] in
theorem Pair.Denotes.swap {q : Pair F} (h : q.Denotes z P Q) : q.swap.Denotes z Q P :=
  ⟨h.z_ne_zero, h.right, h.left⟩

theorem Pair.Denotes.add {q : Pair F} (h : q.Denotes z P Q) (hne : q.x₁ ≠ q.x₂) :
    (add q).1.Denotes (z * (q.x₂ - q.x₁)) P (P + Q) := by
  have hd : q.x₂ - q.x₁ ≠ 0 := sub_ne_zero.2 (Ne.symm hne)
  refine ⟨mul_ne_zero h.z_ne_zero hd, ?_, h.left.add h.right h.z_ne_zero hne ?_ ?_⟩
  · refine (h.left.rescale h.z_ne_zero hd).congr ?_ ?_
    · simp only [CoZ.add]
      ring
    · simp only [CoZ.add]
      ring
  · simp only [CoZ.add]
    ring
  · simp only [CoZ.add]
    ring

theorem Pair.Denotes.addC {q : Pair F} {s : F} (h : q.Denotes z P Q) (hne : q.x₁ ≠ q.x₂)
    (hs : s * s = (q.x₂ - q.x₁) * (q.x₂ - q.x₁)) :
    (addC q s).Denotes (z * (q.x₂ - q.x₁)) (P - Q) (P + Q) := by
  have hd : q.x₂ - q.x₁ ≠ 0 := sub_ne_zero.2 (Ne.symm hne)
  rw [sub_eq_add_neg P Q]
  refine ⟨mul_ne_zero h.z_ne_zero hd, h.left.add h.right.neg h.z_ne_zero hne ?_ ?_,
    h.left.add h.right h.z_ne_zero hne ?_ ?_⟩ <;>
  · simp only [CoZ.addC, hs]
    ring

/-! ## The ladder -/

/-- The rungs hold `m • P` and `(m + 1) • P`. -/
structure Rungs.Holds (s : Rungs F) (P : W.Point) (m : ℕ) : Prop where
  sub_sq : s.sub * s.sub = (s.points.x₂ - s.points.x₁) * (s.points.x₂ - s.points.x₁)
  points : ∃ z, s.points.Denotes z (m • P) ((m + 1) • P)

omit [W.IsShortNF] [DecidableEq F] in
theorem order_denotes {q : Pair F} (bit : Bool) (h : q.Denotes z P Q) :
    (order bit q).Denotes z (if bit then Q else P) (if bit then P else Q) := by
  cases bit
  · exact h
  · exact h.swap

omit [W.IsShortNF] [DecidableEq F] in
theorem order_sub_sq (q : Pair F) (bit : Bool) :
    ((order bit q).x₂ - (order bit q).x₁) * ((order bit q).x₂ - (order bit q).x₁) =
      (q.x₂ - q.x₁) * (q.x₂ - q.x₁) := by
  cases bit
  · rfl
  · simp only [order, Pair.swap, if_true]
    ring

omit [W.IsShortNF] [DecidableEq F] in
theorem add_sub_sq (q : Pair F) (bit : Bool) :
    (add q).2 * (add q).2 =
      ((order bit (add q).1.swap).x₂ - (order bit (add q).1.swap).x₁) *
        ((order bit (add q).1.swap).x₂ - (order bit (add q).1.swap).x₁) := by
  rw [order_sub_sq]
  rfl

/-- What a step makes of the rungs, before they are put into their order again: the
difference of the two multiples is the point, up to its sign. -/
theorem Rungs.Holds.double {s : Rungs F} {m : ℕ} {c : Pair F} (h : s.Holds P m) (bit : Bool)
    (hc : CoZ.addC (order bit s.points) s.sub = c) (hne : s.points.x₁ ≠ s.points.x₂)
    (hnec : c.x₁ ≠ c.x₂) :
    ∃ z, c.Denotes z (if bit then P else -P) ((2 * m + 1) • P) ∧
      (order bit (CoZ.add c.swap).1.swap).Denotes (z * (c.x₁ - c.x₂))
        ((2 * m + bit.toNat) • P) ((2 * m + bit.toNat + 1) • P) := by
  obtain ⟨z, hz⟩ := h.points
  have hne' : (order bit s.points).x₁ ≠ (order bit s.points).x₂ := by
    cases bit
    · exact hne
    · exact hne.symm
  have hdiff := (order_denotes bit hz).addC hne' (h.sub_sq.trans (order_sub_sq _ bit).symm)
  rw [hc] at hdiff
  rw [sub_multiples, add_multiples] at hdiff
  have hsum := order_denotes bit (hdiff.swap.add hnec.symm).swap
  rw [add_sub_multiples] at hsum
  refine ⟨_, hdiff, ?_⟩
  cases bit
  · exact hsum
  · exact hsum

/-- A step appends the bit to the multiple. -/
theorem Rungs.Holds.step {s : Rungs F} {m : ℕ} (h : s.Holds P m) (bit : Bool)
    (hne : s.points.x₁ ≠ s.points.x₂)
    (hnec : (addC (order bit s.points) s.sub).x₁ ≠ (addC (order bit s.points) s.sub).x₂) :
    (s.step bit).Holds P (2 * m + bit.toNat) := by
  obtain ⟨z, -, hz⟩ := h.double bit rfl hne hnec
  exact ⟨add_sub_sq _ bit, _, hz⟩

/-! ## Steps which are safe -/

/-- None of the three multiples around the double vanishes. -/
structure Apart (P : W.Point) (m : ℕ) : Prop where
  even : ∀ bit : Bool, (2 * m + 2 * bit.toNat) • P ≠ 0
  odd : (2 * m + 1) • P ≠ 0

omit [W.IsShortNF] in
theorem Pair.Denotes.x_ne {q : Pair F} (h : q.Denotes z P Q) (hsub : P - Q ≠ 0)
    (hadd : P + Q ≠ 0) : q.x₁ ≠ q.x₂ := by
  rw [Ne, h.left.x_eq_iff h.right h.z_ne_zero]
  rintro (heq | heq)
  · exact hsub (sub_eq_zero.2 heq)
  · exact hadd (eq_neg_iff_add_eq_zero.1 heq)

omit [W.IsShortNF] in
theorem Rungs.Holds.x_ne {s : Rungs F} {m : ℕ} (h : s.Holds P m) (hapart : Apart P m) :
    s.points.x₁ ≠ s.points.x₂ := by
  obtain ⟨z, hz⟩ := h.points
  refine hz.x_ne (fun heq => hapart.even false ?_) ?_
  · rw [succ_nsmul, sub_eq_zero, left_eq_add] at heq
    rw [heq, nsmul_zero]
  · have hodd := hapart.odd
    rwa [two_mul, add_assoc, add_nsmul] at hodd

theorem Rungs.Holds.addC_x_ne {s : Rungs F} {m : ℕ} (h : s.Holds P m) (hapart : Apart P m)
    (bit : Bool) :
    (addC (order bit s.points) s.sub).x₁ ≠ (addC (order bit s.points) s.sub).x₂ := by
  obtain ⟨z, hz⟩ := h.points
  have hne : (order bit s.points).x₁ ≠ (order bit s.points).x₂ := by
    cases bit
    · exact h.x_ne hapart
    · exact (h.x_ne hapart).symm
  have hc := (order_denotes bit hz).addC hne (h.sub_sq.trans (order_sub_sq _ bit).symm)
  rw [sub_multiples, add_multiples] at hc
  refine (hc.swap.x_ne ?_ ?_).symm
  · rw [sub_sub_multiples]
    exact hapart.even _
  · rw [add_sub_multiples]
    exact hapart.even _

/-- The lowest of the bits stands last. -/
theorem bitsBelow_succ (n k : ℕ) : bitsBelow n (k + 1) = bitsBelow (n / 2) k ++ [n.testBit 0] := by
  induction k with
  | zero => rfl
  | succ k ih =>
      rw [bitsBelow, ih, Nat.testBit_succ]
      rfl

theorem testBit_div {n k : ℕ} : 2 * (n / 2 ^ (k + 1)) + (n.testBit k).toNat = n / 2 ^ k := by
  rw [Nat.toNat_testBit, pow_succ, ← Nat.div_div_eq_div_mul]
  exact Nat.div_add_mod _ 2

omit [W.IsShortNF] [DecidableEq F] in
theorem Rungs.run_append (s : Rungs F) (before after : List Bool) :
    s.run (before ++ after) = (s.run before).run after := by
  induction before generalizing s with
  | nil => rfl
  | cons bit before ih => exact ih _

/-- A run which meets distinct coordinates over the lower bits reaches the whole multiple. -/
theorem Rungs.Holds.run_distinct {s : Rungs F} {n k : ℕ} (h : s.Holds P (n / 2 ^ k))
    (hdistinct : s.distinct (bitsBelow n k) = true) : (s.run (bitsBelow n k)).Holds P n := by
  induction k generalizing s with
  | zero => rwa [pow_zero, Nat.div_one] at h
  | succ k ih =>
      simp only [bitsBelow, Rungs.distinct, Bool.and_eq_true, decide_eq_true_eq] at hdistinct
      obtain ⟨⟨hne, hnec⟩, hrest⟩ := hdistinct
      have hstep := h.step (n.testBit k) hne hnec
      rw [testBit_div] at hstep
      exact ih hstep hrest

/-- A run of safe steps over the lower bits reaches the whole multiple. -/
theorem Rungs.Holds.run {s : Rungs F} {n k : ℕ} (h : s.Holds P (n / 2 ^ k))
    (hapart : ∀ j < k, Apart P (n / 2 ^ (j + 1))) : (s.run (bitsBelow n k)).Holds P n := by
  induction k generalizing s with
  | zero => rwa [pow_zero, Nat.div_one] at h
  | succ k ih =>
      have hlast := hapart k (Nat.lt_succ_self k)
      have hstep := h.step (n.testBit k) (h.x_ne hlast) (h.addC_x_ne hlast _)
      rw [testBit_div] at hstep
      exact ih hstep fun j hj => hapart j (hj.trans (Nat.lt_succ_self k))

omit [W.IsShortNF] in
/-- Two multiples with one first coordinate are opposite. -/
theorem Rungs.Holds.odd_eq_zero {s : Rungs F} {m : ℕ} (h : s.Holds P m) (hP : P ≠ 0)
    (hx : s.points.x₁ = s.points.x₂) : (2 * m + 1) • P = 0 := by
  obtain ⟨z, hz⟩ := h.points
  have hm : 2 * m + 1 = m + (m + 1) := by omega
  rcases (hz.left.x_eq_iff hz.right hz.z_ne_zero).1 hx with heq | heq
  · rw [succ_nsmul, left_eq_add] at heq
    exact absurd heq hP
  · rw [hm, add_nsmul P m (m + 1), heq, neg_add_cancel]

theorem Rungs.Holds.collapse {s : Rungs F} {m : ℕ} (h : s.Holds P m)
    (hodd : (2 * m + 1) • P = 0) :
    s.points.x₁ = s.points.x₂ ∧ s.points.y₁ = -s.points.y₂ ∧ s.sub * s.sub = 0 := by
  obtain ⟨z, hz⟩ := h.points
  have hm : 2 * m + 1 = m + (m + 1) := by omega
  rw [hm, add_nsmul P m (m + 1), ← eq_neg_iff_add_eq_zero] at hodd
  obtain ⟨hns, heq⟩ := hz.right.neg
  obtain ⟨hns', heq'⟩ := hz.left
  rw [heq', heq, WeierstrassCurve.Affine.Point.some.injEq, div_left_inj' (pow_ne_zero 2 hz.z_ne_zero),
    div_left_inj' (pow_ne_zero 3 hz.z_ne_zero)] at hodd
  refine ⟨hodd.1, hodd.2, ?_⟩
  rw [h.sub_sq, hodd.1, sub_self, mul_zero]

/-! ## The two ends of the ladder -/

theorem double_represents {half : F → F} (hhalf : ∀ r, 2 * half r = r) (ha : W.a₄ = -3)
    {h : W.Nonsingular x y} (hy : y ≠ 0) (hz : z ≠ 0) {d : F × F × F}
    (hd : double half (x * (z * z)) (y * (z * z * z)) z = d) :
    d.2.2 = y * z ^ 4 ∧ Represents d.1 d.2.1 d.2.2
      (2 • WeierstrassCurve.Affine.Point.some x y h) := by
  have htwo : (2 : F) ≠ 0 := fun htwo => by
    have hone := hhalf 1
    rw [htwo, zero_mul] at hone
    exact zero_ne_one hone
  have hhalf' : ∀ r, half r = r / 2 := fun r => by
    rw [eq_div_iff htwo, mul_comm, hhalf]
  have hyne : y ≠ W.negY x y := by
    rw [negY_short, Ne, eq_neg_iff_add_eq_zero, ← two_mul]
    exact mul_ne_zero htwo hy
  have hslope : W.slope x x y y = 3 * (x ^ 2 - 1) / (2 * y) := by
    rw [WeierstrassCurve.Affine.slope_of_Y_ne rfl hyne, negY_short, W.a₁_of_isShortNF,
      W.a₂_of_isShortNF, ha]
    congr 1 <;> ring
  have hz' : y * z ^ 4 ≠ 0 := mul_ne_zero hy (pow_ne_zero 4 hz)
  subst hd
  refine ⟨?_, ?_⟩
  · simp only [double]
    ring
  rw [two_nsmul, WeierstrassCurve.Affine.Point.add_self_of_Y_ne hyne]
  have hX : W.addX x x (W.slope x x y y) =
      (double half (x * (z * z)) (y * (z * z * z)) z).1 /
        (double half (x * (z * z)) (y * (z * z * z)) z).2.2 ^ 2 := by
    rw [hslope, WeierstrassCurve.Affine.addX, W.a₁_of_isShortNF, W.a₂_of_isShortNF]
    simp only [double, hhalf']
    field_simp
    ring
  refine exists_some_of_eq hX ?_
  rw [WeierstrassCurve.Affine.addY, negY_short, WeierstrassCurve.Affine.negAddY, hX, hslope]
  simp only [double, hhalf']
  field_simp
  ring

theorem Rungs.Holds.initial {half : F → F} (hhalf : ∀ r, 2 * half r = r) (ha : W.a₄ = -3)
    (h : W.Nonsingular x y) (hy : y ≠ 0) (hz : z ≠ 0) :
    (Rungs.initial half x y z).Holds (WeierstrassCurve.Affine.Point.some x y h) 1 := by
  obtain ⟨hz', hdouble⟩ := double_represents (h := h) hhalf ha hy hz rfl
  have hne : y * z ^ 4 ≠ 0 := mul_ne_zero hy (pow_ne_zero 4 hz)
  rw [hz'] at hdouble
  refine ⟨?_, _, hne, ?_, hdouble⟩
  · simp only [Rungs.initial]
    ring
  · simp only [Rungs.initial, hz', one_nsmul]
    exact exists_some_of_eq (by field_simp) (by field_simp)

/-- The last step finds the affine coordinates. -/
theorem Rungs.Holds.finish {s : Rungs F} {m : ℕ} {h : W.Nonsingular x y}
    (hs : s.Holds (WeierstrassCurve.Affine.Point.some x y h) m)
    (hapart : Apart (WeierstrassCurve.Affine.Point.some x y h) m) (hx : x ≠ 0) (hy : y ≠ 0)
    (bit : Bool) : ∃ h' : W.Nonsingular (s.finish bit x y).1 (s.finish bit x y).2,
      (2 * m + bit.toNat) • WeierstrassCurve.Affine.Point.some x y h = .some _ _ h' := by
  obtain ⟨z, hdiff, hz⟩ := hs.double bit rfl (hs.x_ne hapart) (hs.addC_x_ne hapart bit)
  set c := addC (order bit s.points) s.sub with hc
  have hzne := hdiff.z_ne_zero
  have hne := hz.z_ne_zero
  have hd : c.x₁ - c.x₂ ≠ 0 := right_ne_zero_of_mul hne
  have hd' : c.x₂ - c.x₁ ≠ 0 := by
    rw [← neg_sub]
    exact neg_ne_zero.2 hd
  -- the difference of the rungs is the point itself, up to its sign
  have hfactor : (((order bit c).x₂ - (order bit c).x₁) * c.y₁ * x)⁻¹ * y * c.x₁ =
      (z * (c.x₁ - c.x₂))⁻¹ := by
    cases bit with
    | false =>
        obtain ⟨hns, hpoint⟩ := hdiff.left
        rw [if_neg (by decide), WeierstrassCurve.Affine.Point.neg_some,
          WeierstrassCurve.Affine.Point.some.injEq, negY_short] at hpoint
        have hcx : c.x₁ = x * z ^ 2 := by
          rw [hpoint.1]
          field_simp
        have hcy : c.y₁ = -y * z ^ 3 := by
          rw [hpoint.2]
          field_simp
        have hdpos : (order false c).x₂ - (order false c).x₁ = c.x₂ - c.x₁ := rfl
        rw [hdpos, hcy, ← neg_sub c.x₂ c.x₁]
        generalize c.x₂ - c.x₁ = d at *
        rw [hcx]
        field_simp
    | true =>
        obtain ⟨hns, hpoint⟩ := hdiff.left
        rw [if_pos rfl, WeierstrassCurve.Affine.Point.some.injEq] at hpoint
        have hcx : c.x₁ = x * z ^ 2 := by
          rw [hpoint.1]
          field_simp
        have hcy : c.y₁ = y * z ^ 3 := by
          rw [hpoint.2]
          field_simp
        have hdneg : (order true c).x₂ - (order true c).x₁ = c.x₁ - c.x₂ := rfl
        rw [hdneg, hcy]
        generalize c.x₁ - c.x₂ = d at *
        rw [hcx]
        field_simp
  obtain ⟨hns, hpoint⟩ := hz.left
  rw [hpoint]
  refine exists_some_of_eq ?_ ?_
  · simp only [Rungs.finish, ← hc, hfactor]
    field_simp
  · simp only [Rungs.finish, ← hc, hfactor]
    field_simp

omit [DecidableEq F] in
theorem Rungs.step_collapse {s : Rungs F} (hx : s.points.x₁ = s.points.x₂)
    (hy : s.points.y₁ = -s.points.y₂) (hsub : s.sub * s.sub = 0) (bit : Bool) :
    ∃ w, s.step bit = ⟨order bit ⟨0, 0, w ^ 6, w ^ 9⟩, w ^ 6⟩ := by
  obtain ⟨⟨x₁, y₁, x₂, y₂⟩, sub⟩ := s
  dsimp only at hx hy hsub
  subst hx hy
  cases bit
  · refine ⟨2 * y₂, ?_⟩
    simp only [Rungs.step, add, addC, order, Pair.swap, hsub, Bool.false_eq_true, if_false,
      Rungs.mk.injEq, Pair.mk.injEq]
    refine ⟨⟨?_, ?_, ?_, ?_⟩, ?_⟩ <;> ring
  · refine ⟨-2 * y₂, ?_⟩
    simp only [Rungs.step, add, addC, order, Pair.swap, hsub, if_true,
      Rungs.mk.injEq, Pair.mk.injEq]
    refine ⟨⟨?_, ?_, ?_, ?_⟩, ?_⟩ <;> ring

omit [DecidableEq F] in
theorem Rungs.finish_collapse (w : F) (b bit : Bool) :
    (⟨order b ⟨0, 0, w ^ 6, w ^ 9⟩, w ^ 6⟩ : Rungs F).finish bit x y = (0, 0) := by
  have hzero : addC (order bit (order b ⟨0, 0, w ^ 6, w ^ 9⟩)) (w ^ 6) = ⟨0, 0, 0, 0⟩ := by
    cases b <;> cases bit <;>
    · simp only [addC, order, Pair.swap, Bool.false_eq_true, if_false, if_true, Pair.mk.injEq]
      refine ⟨?_, ?_, ?_, ?_⟩ <;> ring
  simp only [Rungs.finish, hzero]
  cases bit <;> simp [add, order, Pair.swap]

end

end CoZ
