import FinancialLedger.ReflectedCrc
set_option autoImplicit false

namespace FinancialLedger.Crc32

def tableStep (c : UInt32) : UInt32 :=
  if c &&& 1 ≠ 0 then (0xEDB88320 : UInt32) ^^^ (c >>> 1) else c >>> 1

def makeTable : Vector UInt32 256 :=
  Vector.ofFn (fun i => Nat.iterate tableStep 8 (UInt32.ofNat i.val))

def kTable : Vector UInt32 256 := makeTable

def updateCrc (crc : UInt32) (b : UInt8) : UInt32 :=
  let idx := ((crc ^^^ b.toUInt32) &&& 0xFF).toUInt8
  have : idx.toNat < 256 := idx.toNat_lt
  kTable[idx.toNat] ^^^ (crc >>> 8)

def compute (data : List UInt8) : UInt32 :=
  data.foldl updateCrc 0xFFFFFFFF ^^^ 0xFFFFFFFF

/-! The table walk is a run of the shift register. -/

def polynomial : BitVec 32 := 0xEDB88320#32

theorem polynomial_msb : polynomial.msb = true := by decide

theorem tableStep_toBitVec (c : UInt32) :
    (tableStep c).toBitVec = ReflectedCrc.shift polynomial c.toBitVec := by
  have hlow : c &&& 1 ≠ 0 ↔ c.toBitVec.getLsbD 0 = true := by
    rw [Ne,← UInt32.toBitVec_inj,UInt32.toBitVec_and]
    show ¬ c.toBitVec &&& 1#32 = 0#32 ↔ _
    rw [BitVec.and_one_eq_setWidth_ofBool_getLsbD]
    cases c.toBitVec.getLsbD 0 <;> decide
  unfold tableStep ReflectedCrc.shift
  by_cases h : c &&& 1 ≠ 0
  · rw [if_pos h,if_pos (hlow.mp h)]
    simp [polynomial]
  · rw [if_neg h,if_neg (fun hb => h (hlow.mpr hb))]
    simp

theorem iterate_tableStep_toBitVec (n : Nat) (c : UInt32) :
    (tableStep^[n] c).toBitVec = (ReflectedCrc.shift polynomial)^[n] c.toBitVec := by
  induction n generalizing c with
  | zero => rfl
  | succ n ih => rw [Function.iterate_succ_apply,Function.iterate_succ_apply,ih,tableStep_toBitVec]

theorem kTable_getElem (i : Nat) (h : i < 256) : kTable[i] = tableStep^[8] (UInt32.ofNat i) := by
  simp only [kTable,makeTable,Vector.getElem_ofFn]

/-- The byte taken from the table is what is fed back; the rest of the register
only moves down. -/
theorem updateCrc_toBitVec (crc : UInt32) (b : UInt8) :
    (updateCrc crc b).toBitVec = ReflectedCrc.feed polynomial crc.toBitVec b := by
  have hbyte : BitVec.ofNat 32 b.toNat = b.toUInt32.toBitVec := by
    apply BitVec.eq_of_toNat_eq
    have hb := b.toNat_lt
    show b.toNat%2^32 = b.toUInt32.toNat
    rw [UInt8.toNat_toUInt32]
    omega
  have hidx : ((crc ^^^ b.toUInt32) &&& 0xFF).toUInt8.toNat = (crc ^^^ b.toUInt32).toNat%2^8 := by
    rw [UInt32.toNat_toUInt8,UInt32.toNat_and]
    show (_ &&& 2^8-1)%2^8 = _
    rw [Nat.and_two_pow_sub_one_eq_mod,Nat.mod_mod]
  have hhigh : (crc ^^^ b.toUInt32).toNat/2^8 = crc.toNat/2^8 := by
    rw [UInt32.toNat_xor,Nat.xor_div_two_pow,UInt8.toNat_toUInt32,
      Nat.div_eq_of_lt b.toNat_lt,Nat.xor_zero]
  have hshift : (crc >>> 8).toBitVec = BitVec.ofNat 32 (crc.toNat/2^8) := by
    apply BitVec.eq_of_toNat_eq
    have hc := crc.toNat_lt
    show (crc >>> 8).toNat = (crc.toNat/2^8)%2^32
    rw [UInt32.toNat_shiftRight,Nat.shiftRight_eq_div_pow]
    show crc.toNat/2^8 = _
    omega
  simp only [updateCrc,kTable_getElem,hidx]
  rw [UInt32.toBitVec_xor,iterate_tableStep_toBitVec,hshift,← hhigh,ReflectedCrc.feed,hbyte,
    ← UInt32.toBitVec_xor]
  exact (ReflectedCrc.iterate_shift_split polynomial (crc ^^^ b.toUInt32).toBitVec 8).symm

theorem foldl_updateCrc_toBitVec (crc : UInt32) (data : List UInt8) :
    (data.foldl updateCrc crc).toBitVec = ReflectedCrc.run polynomial crc.toBitVec data := by
  induction data generalizing crc with
  | nil => rfl
  | cons b data ih => rw [List.foldl_cons,ih,updateCrc_toBitVec,ReflectedCrc.run_cons]

theorem compute_toBitVec (data : List UInt8) : (compute data).toBitVec =
    ReflectedCrc.run polynomial (BitVec.allOnes 32) data ^^^ BitVec.allOnes 32 := by
  rw [compute,UInt32.toBitVec_xor,foldl_updateCrc_toBitVec]
  rfl

theorem compute_checked (data : List UInt8) :
    ReflectedCrc.Checked polynomial (BitVec.allOnes 32) (BitVec.allOnes 32) data
      (PodBytes.Pod.toBytes (compute data)) := by
  have hlt := (compute data).toNat_lt
  have hle : PodBytes.ofLE (PodBytes.Pod.toBytes (compute data)) = (compute data).toNat := by
    show PodBytes.ofLE (PodBytes.toLE 4 (compute data).toNat) = _
    rw [PodBytes.ofLE_toLE]
    exact Nat.mod_eq_of_lt hlt
  unfold ReflectedCrc.Checked
  rw [hle,← compute_toBitVec]
  exact (BitVec.ofNat_toNat 32 _).trans (BitVec.setWidth_eq _)

theorem compute_not_burst (data data' : List UInt8) :
    ¬ ReflectedCrc.Burst 4 (data ++ PodBytes.Pod.toBytes (compute data))
      (data' ++ PodBytes.Pod.toBytes (compute data')) :=
  (compute_checked data).not_burst polynomial_msb (compute_checked data') rfl rfl (by decide)

end FinancialLedger.Crc32
