import Mathlib.Algebra.Polynomial.Div
import Mathlib.Algebra.CharP.Two
import Mathlib.Algebra.Field.ZMod
import Mathlib.Tactic.LinearCombination
import FinancialLedger.ReflectedCrc
set_option autoImplicit false

/-!
The shift register as division of polynomials over the field with two elements.
The least significant bit of the register is the coefficient of its highest
degree, so a shift is a multiplication by `X`.
-/

namespace ReflectedCrc
open Polynomial

variable {w : Nat}

def coefficient (b : Bool) : ZMod 2 := if b then 1 else 0

theorem coefficient_xor (a b : Bool) : coefficient (a ^^ b) = coefficient a+coefficient b := by
  cases a <;> cases b <;> decide

noncomputable def toPoly (c : BitVec w) : (ZMod 2)[X] :=
  ∑ i ∈ Finset.range w, C (coefficient (c.getMsbD i))*X^i

/-- The polynomial whose remainders the register computes; its highest
coefficient is not stored. -/
noncomputable def generator (poly : BitVec w) : (ZMod 2)[X] := X^w+toPoly poly

/-- The first bit is the coefficient of the highest degree. -/
noncomputable def message : List Bool → (ZMod 2)[X]
  | [] => 0
  | b :: bits => C (coefficient b)*X^bits.length+message bits

theorem coeff_toPoly (c : BitVec w) (i : Nat) : (toPoly c).coeff i = coefficient (c.getMsbD i) := by
  simp only [toPoly,finsetSum_coeff,coeff_C_mul,coeff_X_pow,mul_ite,mul_one,mul_zero,
    Finset.sum_ite_eq,Finset.mem_range]
  split
  · rfl
  · case isFalse hi =>
    rw [BitVec.getMsbD_of_ge c i (by omega)]
    rfl

theorem degree_toPoly_lt (c : BitVec w) : (toPoly c).degree < w := by
  rw [degree_lt_iff_coeff_zero]
  intro i hi
  rw [coeff_toPoly,BitVec.getMsbD_of_ge c i hi]
  rfl

theorem toPoly_xor (a b : BitVec w) : toPoly (a ^^^ b) = toPoly a+toPoly b := by
  ext i
  rw [coeff_add,coeff_toPoly,coeff_toPoly,coeff_toPoly,BitVec.getMsbD_xor,coefficient_xor]

theorem generator_monic (poly : BitVec w) : (generator poly).Monic :=
  monic_X_pow_add (degree_toPoly_lt poly)

theorem degree_generator (poly : BitVec w) : (generator poly).degree = w := by
  rw [generator,degree_add_eq_left_of_degree_lt]
  · exact degree_X_pow w
  · rw [degree_X_pow]
    exact degree_toPoly_lt poly

theorem X_mul_toPoly (c : BitVec w) (hw : 0 < w) :
    X*toPoly c = toPoly (c >>> 1)+C (coefficient (c.getLsbD 0))*X^w := by
  ext i
  rw [coeff_add,coeff_toPoly,coeff_C_mul,coeff_X_pow,BitVec.getMsbD_ushiftRight]
  cases i with
  | zero =>
    have hne : ¬ 0 = w := by omega
    simp [hne,coefficient]
  | succ i =>
    rw [coeff_X_mul,coeff_toPoly]
    rcases Nat.lt_trichotomy (i+1) w with hlt | heq | hgt
    · have hne : ¬ i+1 = w := by omega
      simp [hne,hlt]
    · have hlow : c.getMsbD i = c.getLsbD 0 := by
        rw [BitVec.getMsbD_eq_getLsbD]
        simp [show i < w by omega,show w-1-i = 0 by omega]
      simp [heq,hlow,coefficient]
    · have hne : ¬ i+1 = w := by omega
      have hout : ¬ i+1 < w := by omega
      simp [hne,hout,BitVec.getMsbD_of_ge c i (by omega),coefficient]

/-- One bit is one step of the long division. -/
theorem toPoly_shiftIn (poly c : BitVec w) (hw : 0 < w) (b : Bool) :
    toPoly (shiftIn poly c b) = (X*toPoly c+C (coefficient b)*X^w) %ₘ generator poly := by
  have hstep : toPoly (shiftIn poly c b) =
      toPoly (c >>> 1)+C (coefficient (c.getLsbD 0 ^^ b))*toPoly poly := by
    unfold shiftIn
    cases c.getLsbD 0 ^^ b with
    | true => simp [toPoly_xor,coefficient,add_comm]
    | false => simp [coefficient]
  refine ((div_modByMonic_unique (C (coefficient (c.getLsbD 0 ^^ b))) _ (generator_monic poly)
    ⟨?_,?_⟩).2).symm
  · -- over two elements the quotient's multiple of the generator cancels
    rw [hstep,X_mul_toPoly c hw,coefficient_xor,generator,C_add]
    have htwo : ∀ p : (ZMod 2)[X], p+p = 0 := fun p => CharTwo.add_self_eq_zero p
    linear_combination htwo ((C (coefficient (c.getLsbD 0))+C (coefficient b))*toPoly poly)
  · rw [degree_generator]
    exact degree_toPoly_lt _

theorem mul_modByMonic_add {g : (ZMod 2)[X]} (hg : g.Monic) (a p q : (ZMod 2)[X]) :
    (a*(p %ₘ g)+q) %ₘ g = (a*p+q) %ₘ g := by
  refine modByMonic_eq_of_dvd_sub hg ?_
  rw [add_sub_add_right_eq_sub,← mul_sub]
  exact (dvd_modByMonic_sub p g).mul_left a

/-- The register after a message: the remainder of the message behind the initial
state, moved up by the width of the register. -/
theorem toPoly_foldl_shiftIn (poly c : BitVec w) (hw : 0 < w) (bits : List Bool) :
    toPoly (bits.foldl (shiftIn poly) c) =
      (X^bits.length*toPoly c+X^w*message bits) %ₘ generator poly := by
  induction bits generalizing c with
  | nil =>
    have hself := (modByMonic_eq_self_iff (generator_monic poly)).mpr
      ((degree_toPoly_lt c).trans_eq (degree_generator poly).symm)
    simpa [message] using hself.symm
  | cons b bits ih =>
    rw [List.foldl_cons,ih,toPoly_shiftIn poly c hw,mul_modByMonic_add (generator_monic poly)]
    congr 1
    rw [message,List.length_cons]
    ring

end ReflectedCrc
