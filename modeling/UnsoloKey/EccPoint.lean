import UnsoloKey.Secp256r1
import Mathlib.Tactic

/-!
# Points of secp256r1

The point operations of uECC.c.  `EccPoint_mult` runs a Montgomery ladder over the bits
of the scalar, on two points which share their third coordinate; that coordinate is
never stored, and the last step finds its inverse by a comparison with the point itself.
-/

namespace UnsoloKey.UEcc

open CoZ

/-! ## The functions -/

abbrev Vli : Type := List UInt32

/-- The half of a number modulo `p`, as `double_jacobian_default` finds it. -/
def halveFast (x1 : Vli) : Vli :=
  if vliTestBit x1 0 then
    let sum := vliAdd x1 secp256r1.p
    vliOrTop (sum.2 <<< 31) (vliRshift1 sum.1)
  else vliRshift1 x1

/-- `double_jacobian_default` -/
def doubleJacobian (x1 y1 z1 : Vli) : Vli × Vli × Vli :=
  if vliIsZero z1 then (x1, y1, z1)
  else
    let t4 := vliModSquareFast y1
    let t5 := vliModMultFast x1 t4
    let t4 := vliModSquareFast t4
    let y1 := vliModMultFast y1 z1
    let z1 := vliModSquareFast z1
    let x1 := vliModAdd x1 z1 secp256r1.p
    let z1 := vliModAdd z1 z1 secp256r1.p
    let z1 := vliModSub x1 z1 secp256r1.p
    let x1 := vliModMultFast x1 z1
    let z1 := vliModAdd x1 x1 secp256r1.p
    let x1 := halveFast (vliModAdd x1 z1 secp256r1.p)
    let z1 := vliModSquareFast x1
    let z1 := vliModSub z1 t5 secp256r1.p
    let z1 := vliModSub z1 t5 secp256r1.p
    let t5 := vliModSub t5 z1 secp256r1.p
    let x1 := vliModMultFast x1 t5
    (z1, vliModSub x1 t4 secp256r1.p, y1)

/-- `apply_z` -/
def applyZ (x1 y1 z : Vli) : Vli × Vli :=
  let t1 := vliModSquareFast z
  (vliModMultFast x1 t1, vliModMultFast y1 (vliModMultFast t1 z))

/-- `XYcZ_initial_double` with the difference which `EccPoint_mult` takes after it; the
point itself is `R[0]`, its double `R[1]`. -/
def initialDouble (x1 y1 : Vli) (initialZ : Option Vli) : Rungs Vli :=
  let z := initialZ.getD (1 :: List.replicate 7 0)
  let blinded := applyZ x1 y1 z
  let d := doubleJacobian blinded.1 blinded.2 z
  let p' := applyZ x1 y1 d.2.2
  ⟨⟨p'.1, p'.2, d.1, d.2.1⟩, vliModSub p'.1 d.1 secp256r1.p⟩

/-- `XYcZ_add` with `sub` -/
def xyczAdd (q : Pair Vli) : Pair Vli × Vli :=
  let t5 := vliModSub q.x₂ q.x₁ secp256r1.p
  let t5 := vliModSquareFast t5
  let x1 := vliModMultFast q.x₁ t5
  let x2 := vliModMultFast q.x₂ t5
  let y2 := vliModSub q.y₂ q.y₁ secp256r1.p
  let t5 := vliModSquareFast y2
  let t5 := vliModSub t5 x1 secp256r1.p
  let t5 := vliModSub t5 x2 secp256r1.p
  let x2 := vliModSub x2 x1 secp256r1.p
  let y1 := vliModMultFast q.y₁ x2
  let sub := vliModSub x1 t5 secp256r1.p
  let y2 := vliModMultFast y2 sub
  let y2 := vliModSub y2 y1 secp256r1.p
  (⟨x1, y1, t5, y2⟩, sub)

/-- `XYcZ_addC` -/
def xyczAddC (q : Pair Vli) (sub : Vli) : Pair Vli :=
  let t5 := vliModSquareFast sub
  let x1 := vliModMultFast q.x₁ t5
  let x2 := vliModMultFast q.x₂ t5
  let t5 := vliModAdd q.y₂ q.y₁ secp256r1.p
  let y2 := vliModSub q.y₂ q.y₁ secp256r1.p
  let t6 := vliModSub x2 x1 secp256r1.p
  let y1 := vliModMultFast q.y₁ t6
  let t6 := vliModAdd x1 x2 secp256r1.p
  let x2 := vliModSquareFast y2
  let x2 := vliModSub x2 t6 secp256r1.p
  let t7 := vliModSub x1 x2 secp256r1.p
  let y2 := vliModMultFast y2 t7
  let y2 := vliModSub y2 y1 secp256r1.p
  let t7 := vliModSquareFast t5
  let t7 := vliModSub t7 t6 secp256r1.p
  let t6 := vliModSub t7 x1 secp256r1.p
  let t6 := vliModMultFast t6 t5
  let y1 := vliModSub t6 y1 secp256r1.p
  ⟨t7, y1, x2, y2⟩

/-- The loop body for a bit of the scalar: `R[1 - nb]` and `R[nb]` with `nb = !bit`. -/
def ladderStep (bit : Bool) (r : Rungs Vli) : Rungs Vli :=
  let c := xyczAddC (order bit r.points) r.sub
  let a := xyczAdd c.swap
  ⟨order bit a.1.swap, a.2⟩

/-- The loop from `i` down to 1. -/
def ladderLoop (scalar : Vli) : ℕ → Rungs Vli → Rungs Vli
  | 0, r => r
  | i + 1, r => ladderLoop scalar i (ladderStep (vliTestBit scalar (i + 1)) r)

/-- The last bit and the final `1 / Z`. -/
def ladderFinish (bit : Bool) (px py : Vli) (r : Rungs Vli) : Vli × Vli :=
  let c := xyczAddC (order bit r.points) r.sub
  let d := order bit c
  let z := vliModSub d.x₂ d.x₁ secp256r1.p
  let z := vliModMultFast z c.y₁
  let z := vliModMultFast z px
  let z := vliModInv z secp256r1.p secp256r1.numWords
  let z := vliModMultFast z py
  let z := vliModMultFast z c.x₁
  let r := order bit (xyczAdd c.swap).1.swap
  applyZ r.x₁ r.y₁ z

/-- `EccPoint_mult` -/
def eccPointMult (point scalar : Vli) (initialZ : Option Vli) (numBits : ℕ) : Vli :=
  let px := point.take secp256r1.numWords
  let py := point.drop secp256r1.numWords
  let r := ladderLoop scalar (numBits - 2) (initialDouble px py initialZ)
  let result := ladderFinish (vliTestBit scalar 0) px py r
  result.1 ++ result.2

/-! ## The field operations behind them -/

open P256

section

variable {a b c : Vli} {x y z : Fp} {q : Pair Vli} {r : Pair Fp}

theorem vliOrTop_zero (ws : List UInt32) : vliOrTop 0 ws = ws := by
  induction ws with
  | nil => rfl
  | cons w ws ih =>
      cases ws with
      | nil =>
          rw [vliOrTop, UInt32.or_zero]
      | cons w' ws =>
          rw [vliOrTop, ih]

/-- The halving of `double_jacobian_default` is that of `vli_modInv_update`. -/
theorem halveFast_eq (h : a.length = 8) : halveFast a = vliModInvUpdate a secp256r1.p := by
  obtain ⟨-, -, hcarry⟩ := vliAdd_spec (h.trans (show 8 = secp256r1.p.length from rfl))
  have hodd : vliTestBit a 0 = !vliEven a := by
    rw [vliTestBit_eq, Nat.testBit_zero, Bool.eq_not_iff, Ne, Bool.eq_iff_iff, vliEven_iff,
      decide_eq_true_iff]
    omega
  unfold halveFast vliModInvUpdate
  rw [hodd]
  cases vliEven a with
  | true => rfl
  | false =>
      simp only [Bool.not_false, if_true, Bool.false_eq_true, if_false]
      split_ifs with hzero
      · have hone : (vliAdd a secp256r1.p).2 = 1 := by
          rw [← UInt32.toNat_inj]
          have hne : (vliAdd a secp256r1.p).2.toNat ≠ 0 := fun h => hzero (UInt32.toNat_inj.1 h)
          exact Nat.le_antisymm hcarry (Nat.one_le_iff_ne_zero.2 hne)
        rw [hone]
        rfl
      · rw [not_not.1 hzero]
        exact vliOrTop_zero _

theorem IsFp.half (h : IsFp a x) : IsFp (halveFast a) (P256.half x) := by
  have hlt := h.lt
  rw [← vliNat_p] at hlt
  obtain ⟨hlength, hlt', hvalue⟩ := vliModInvUpdate_spec (n := 7) h.length
    (show secp256r1.p.length = 7 + 1 from rfl) (by decide) hlt
  rw [← halveFast_eq h.length, vliNat_p] at hvalue hlt'
  rw [← halveFast_eq h.length] at hlength
  refine ⟨hlength, hlt', ?_⟩
  have htwice : (2 : Fp) * (vliNat (halveFast a) : ℕ) = x := by
    rw [← h.cast, ← Nat.cast_two, ← Nat.cast_mul]
    rcases hvalue with hvalue | hvalue
    · rw [hvalue]
    · rw [hvalue, Nat.cast_add, ZMod.natCast_self, add_zero]
  rw [← two_mul_half x] at htwice
  exact mul_left_cancel₀ (by decide) htwice

attribute [local irreducible] vliModMultFast vliModSquareFast vliModAdd vliModSub vliModInv
  halveFast

theorem IsFp.double (hx : IsFp a x) (hy : IsFp b y) (hz : IsFp c z) (hne : z ≠ 0) :
    IsFp (doubleJacobian a b c).1 (CoZ.double P256.half x y z).1 ∧
      IsFp (doubleJacobian a b c).2.1 (CoZ.double P256.half x y z).2.1 ∧
      IsFp (doubleJacobian a b c).2.2 (CoZ.double P256.half x y z).2.2 := by
  unfold doubleJacobian
  rw [if_neg (fun h => hne (hz.isZero_iff.1 h))]
  have ha := hx.mul hy.sq
  have hzz := hz.sq
  have hsum := hx.add hzz
  have hdiff := hsum.sub (hzz.add hzz)
  have hprod := hsum.mul hdiff
  have hb := (hprod.add (hprod.add hprod)).half
  have hx' := (hb.sq.sub ha).sub ha
  exact ⟨hx', (hb.mul (ha.sub hx')).sub hy.sq.sq, hy.mul hz⟩

/-- The words denote the coordinates of the two points. -/
structure IsPair (q : Pair Vli) (r : Pair Fp) : Prop where
  x₁ : IsFp q.x₁ r.x₁
  y₁ : IsFp q.y₁ r.y₁
  x₂ : IsFp q.x₂ r.x₂
  y₂ : IsFp q.y₂ r.y₂

theorem IsPair.swap (h : IsPair q r) : IsPair q.swap r.swap := ⟨h.x₂, h.y₂, h.x₁, h.y₁⟩

theorem IsPair.order (h : IsPair q r) (bit : Bool) : IsPair (order bit q) (order bit r) := by
  cases bit
  · exact h
  · exact h.swap

theorem IsPair.add (h : IsPair q r) :
    IsPair (xyczAdd q).1 (CoZ.add r).1 ∧ IsFp (xyczAdd q).2 (CoZ.add r).2 := by
  have hd := (h.x₂.sub h.x₁).sq
  have hb := h.x₁.mul hd
  have hc := h.x₂.mul hd
  have he := h.y₂.sub h.y₁
  have hx := (he.sq.sub hb).sub hc
  have hy := h.y₁.mul (hc.sub hb)
  have hs := hb.sub hx
  exact ⟨⟨hb, hy, hx, (he.mul hs).sub hy⟩, hs⟩

theorem IsPair.addC (h : IsPair q r) (hs : IsFp a x) :
    IsPair (xyczAddC q a) (CoZ.addC r x) := by
  have hb := h.x₁.mul hs.sq
  have hc := h.x₂.mul hs.sq
  have hf := h.y₂.add h.y₁
  have he := h.y₂.sub h.y₁
  have hg := h.y₁.mul (hc.sub hb)
  have hsum := hb.add hc
  have hx := he.sq.sub hsum
  have hx' := hf.sq.sub hsum
  exact ⟨hx', ((hx'.sub hb).mul hf).sub hg, hx, (he.mul (hb.sub hx)).sub hg⟩

structure IsRungs (r : Rungs Vli) (s : Rungs Fp) : Prop where
  points : IsPair r.points s.points
  sub : IsFp r.sub s.sub

theorem IsFp.applyZ (hx : IsFp a x) (hy : IsFp b y) (hz : IsFp c z) :
    IsFp (applyZ a b c).1 (x * (z * z)) ∧ IsFp (UEcc.applyZ a b c).2 (y * (z * z * z)) :=
  ⟨hx.mul hz.sq, hy.mul (hz.sq.mul hz)⟩

variable {s : Rungs Vli} {t : Rungs Fp} {initialZ : Option Vli}

/-- The first point of the ladder is blinded with a number which is not zero. -/
def Blinding (initialZ : Option Vli) (z : Fp) : Prop :=
  IsFp (initialZ.getD (1 :: List.replicate 7 0)) z ∧ z ≠ 0

theorem IsRungs.initial {px py : Vli} (hx : IsFp px x) (hy : IsFp py y)
    (hz : Blinding initialZ z) :
    IsRungs (initialDouble px py initialZ) (Rungs.initial P256.half x y z) := by
  obtain ⟨hz, hne⟩ := hz
  obtain ⟨hbx, hby⟩ := hx.applyZ hy hz
  obtain ⟨hdx, hdy, hdz⟩ := hbx.double hby hz hne
  obtain ⟨hpx, hpy⟩ := hx.applyZ hy hdz
  exact ⟨⟨hpx, hpy, hdx, hdy⟩, hpx.sub hdx⟩

theorem IsRungs.step (h : IsRungs s t) (bit : Bool) : IsRungs (ladderStep bit s) (t.step bit) := by
  obtain ⟨hadd, hsub⟩ := ((h.points.order bit).addC h.sub).swap.add
  exact ⟨hadd.swap.order bit, hsub⟩

theorem IsRungs.loop (h : IsRungs s t) (scalar : Vli) (i : ℕ) :
    IsRungs (ladderLoop scalar i s) (t.run (bitsBelow (vliNat scalar / 2) i)) := by
  induction i generalizing s t with
  | zero => exact h
  | succ i ih =>
      rw [ladderLoop, vliTestBit_eq, Nat.testBit_succ]
      exact ih (h.step _)

theorem IsRungs.finish (h : IsRungs s t) (bit : Bool) (hx : IsFp a x) (hy : IsFp b y) :
    IsFp (ladderFinish bit a b s).1 (t.finish bit x y).1 ∧
      IsFp (ladderFinish bit a b s).2 (t.finish bit x y).2 := by
  have hc := (h.points.order bit).addC h.sub
  have hd := hc.order bit
  have hz := ((((hd.x₂.sub hd.x₁).mul hc.y₁).mul hx).inv.mul hy).mul hc.x₁
  have hr := (hc.swap.add.1).swap.order bit
  exact hr.x₁.applyZ hr.y₁ hz

end

end UnsoloKey.UEcc
