import FinancialLedger.Crc32
import FinancialLedger.CrcPolynomial
set_option autoImplicit false

namespace FinancialLedger.Crc32
open Polynomial ReflectedCrc

/-- The checksum by its definition: initial value and final exclusive or of ones,
and in between one bit of the message after the other. -/
def bitByBit (data : List UInt8) : BitVec 32 :=
  (bits data).foldl (shiftIn polynomial) (BitVec.allOnes 32) ^^^ BitVec.allOnes 32

noncomputable def ieee : (ZMod 2)[X] :=
  X^32+X^26+X^23+X^22+X^16+X^12+X^11+X^10+X^8+X^7+X^5+X^4+X^2+X+1

theorem generator_polynomial : generator polynomial = ieee := by
  have hlow : toPoly polynomial =
      1+X+X^2+X^4+X^5+X^7+X^8+X^10+X^11+X^12+X^16+X^22+X^23+X^26 := by
    simp [toPoly,polynomial,Finset.sum_range_succ,coefficient]
  rw [generator,hlow,ieee]
  ring

/-- The table gives what the definition gives, and without the final exclusive or
that is the remainder of the message, with the initial value in front of it, by
the generator. -/
theorem compute_remainder (data : List UInt8) :
    (compute data).toBitVec = bitByBit data ∧
    toPoly ((compute data).toBitVec ^^^ BitVec.allOnes 32) =
      (X^(8*data.length)*toPoly (BitVec.allOnes 32)+X^32*message (bits data)) %ₘ ieee := by
  have hrun : (compute data).toBitVec = bitByBit data := by
    rw [compute_toBitVec,run_eq_bits _ _ (by decide),bitByBit]
  refine ⟨hrun,?_⟩
  rw [hrun,bitByBit,BitVec.xor_assoc,BitVec.xor_self,BitVec.xor_zero,
    toPoly_foldl_shiftIn _ _ (by decide),bits_length,generator_polynomial]

example : compute [0x31,0x32,0x33,0x34,0x35,0x36,0x37,0x38,0x39] = 0xCBF43926 := by
  rw [← UInt32.toBitVec_inj,compute_toBitVec]
  decide +kernel

end FinancialLedger.Crc32
