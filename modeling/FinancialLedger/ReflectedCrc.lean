import FinancialLedger.PodBytes
import Mathlib.Logic.Function.Iterate
set_option autoImplicit false

/-!
Checksums by a shift register that takes the least significant bit of each byte
first. The register is linear in exclusive or, and when the polynomial has its
top bit set no state is lost by a shift; a burst that fits in the register can
then not go unnoticed.
-/

namespace ReflectedCrc
open PodBytes

variable {w : Nat}

def shift (poly c : BitVec w) : BitVec w :=
  if c.getLsbD 0 then poly ^^^ (c >>> 1) else c >>> 1

def feed (poly c : BitVec w) (b : UInt8) : BitVec w :=
  (shift poly)^[8] (c ^^^ BitVec.ofNat w b.toNat)

def run (poly c : BitVec w) (data : List UInt8) : BitVec w := data.foldl (feed poly) c

@[simp] theorem run_nil (poly c : BitVec w) : run poly c [] = c := rfl

@[simp] theorem run_cons (poly c : BitVec w) (b : UInt8) (data : List UInt8) :
    run poly c (b :: data) = run poly (feed poly c b) data := rfl

@[simp] theorem run_append (poly c : BitVec w) (data data' : List UInt8) :
    run poly c (data ++ data') = run poly (run poly c data) data' := List.foldl_append

theorem shift_xor (poly a b : BitVec w) :
    shift poly (a ^^^ b) = shift poly a ^^^ shift poly b := by
  simp only [shift,BitVec.getLsbD_xor,BitVec.ushiftRight_xor_distrib]
  cases a.getLsbD 0 <;> cases b.getLsbD 0
  · simp
  · simp only [Bool.false_xor,Bool.false_eq_true,if_true,if_false]
    ac_rfl
  · simp only [Bool.true_xor,Bool.not_false,Bool.false_eq_true,if_true,if_false]
    ac_rfl
  · -- the polynomial is added twice
    simp only [Bool.xor_self,Bool.false_eq_true,if_true,if_false]
    rw [BitVec.xor_assoc,← BitVec.xor_assoc (a >>> 1),BitVec.xor_comm (a >>> 1) poly,
      BitVec.xor_assoc,← BitVec.xor_assoc poly poly,BitVec.xor_self,BitVec.zero_xor]

theorem iterate_shift_xor (poly : BitVec w) (n : Nat) (a b : BitVec w) :
    (shift poly)^[n] (a ^^^ b) = (shift poly)^[n] a ^^^ (shift poly)^[n] b := by
  induction n generalizing a b with
  | zero => rfl
  | succ n ih => simp only [Function.iterate_succ_apply,shift_xor,ih]

/-- With the top bit of the polynomial set, the top bit after a shift tells
which bit was shifted out. -/
theorem shift_msb {poly : BitVec w} (hp : poly.msb = true) (c : BitVec w) :
    (shift poly c).msb = c.getLsbD 0 := by
  unfold shift
  cases h : c.getLsbD 0 <;> simp [hp,BitVec.msb_ushiftRight]

theorem shift_injective {poly : BitVec w} (hp : poly.msb = true) :
    Function.Injective (shift poly) := by
  intro a b h
  have hlow : a.getLsbD 0 = b.getLsbD 0 := by rw [← shift_msb hp,h,shift_msb hp]
  have hhigh : a >>> 1 = b >>> 1 := by
    simp only [shift,hlow] at h
    split at h
    · exact BitVec.xor_right_inj _ |>.mp h
    · exact h
  apply BitVec.eq_of_getLsbD_eq
  intro i _
  cases i with
  | zero => exact hlow
  | succ i =>
    have := congrArg (fun c : BitVec w => c.getLsbD i) hhigh
    simpa only [BitVec.getLsbD_ushiftRight,Nat.add_comm 1 i] using this

theorem iterate_shift_injective {poly : BitVec w} (hp : poly.msb = true) (n : Nat) :
    Function.Injective (shift poly)^[n] := (shift_injective hp).iterate n

theorem shift_even (poly : BitVec w) {m : Nat} (h : 2*m < 2^w) :
    shift poly (BitVec.ofNat w (2*m)) = BitVec.ofNat w m := by
  have hbit : (BitVec.ofNat w (2*m)).getLsbD 0 = false := by
    simp [BitVec.getLsbD_ofNat]
  rw [shift,hbit,if_neg Bool.false_ne_true]
  apply BitVec.eq_of_toNat_eq
  rw [BitVec.toNat_ushiftRight,BitVec.toNat_ofNat,BitVec.toNat_ofNat,Nat.mod_eq_of_lt h,
    Nat.mod_eq_of_lt (by omega),Nat.shiftRight_one]
  omega

theorem iterate_shift_ofNat (poly : BitVec w) {n m : Nat} (h : 2^n*m < 2^w) :
    (shift poly)^[n] (BitVec.ofNat w (2^n*m)) = BitVec.ofNat w m := by
  induction n generalizing m with
  | zero => simp
  | succ n ih =>
    have hm : 2^(n+1)*m = 2*(2^n*m) := by rw [Nat.pow_succ',Nat.mul_assoc]
    rw [Function.iterate_succ_apply,hm,shift_even poly (hm ▸ h)]
    exact ih (by omega)

theorem ofNat_add_eq_xor {n b : Nat} (hb : b < 2^n) (m : Nat) :
    BitVec.ofNat w (b+2^n*m) = BitVec.ofNat w b ^^^ BitVec.ofNat w (2^n*m) := by
  have hnat : b+2^n*m = b ^^^ (2^n*m) := by
    apply Nat.eq_of_testBit_eq
    intro i
    rw [Nat.add_comm,Nat.testBit_two_pow_mul_add m hb,Nat.testBit_xor,Nat.testBit_two_pow_mul]
    by_cases hi : i < n
    · simp [hi,Nat.not_le.mpr hi]
    · have hn : n ≤ i := Nat.not_lt.mp hi
      have hzero : b.testBit i = false :=
        Nat.testBit_lt_two_pow (Nat.lt_of_lt_of_le hb (Nat.pow_le_pow_right (by decide) hn))
      simp [hi,hn,hzero]
  rw [hnat,BitVec.ofNat_xor]

/-- The low bits decide what is fed back; the others only move down. -/
theorem iterate_shift_split (poly c : BitVec w) (n : Nat) :
    (shift poly)^[n] c =
      (shift poly)^[n] (BitVec.ofNat w (c.toNat%2^n)) ^^^ BitVec.ofNat w (c.toNat/2^n) := by
  have hc := Nat.mod_add_div c.toNat (2^n)
  have hlt := c.isLt
  have hhigh : 2^n*(c.toNat/2^n) < 2^w := by omega
  calc (shift poly)^[n] c
      = (shift poly)^[n] (BitVec.ofNat w (c.toNat%2^n+2^n*(c.toNat/2^n))) := by
        rw [hc,BitVec.ofNat_toNat,BitVec.setWidth_eq]
    _ = _ := by
        rw [ofNat_add_eq_xor (Nat.mod_lt _ (Nat.two_pow_pos n)),iterate_shift_xor,
          iterate_shift_ofNat poly hhigh]

def shiftIn (poly c : BitVec w) (bit : Bool) : BitVec w :=
  if c.getLsbD 0 ^^ bit then poly ^^^ (c >>> 1) else c >>> 1

def bits (data : List UInt8) : List Bool :=
  data.flatMap (fun b => (List.range 8).map b.toNat.testBit)

theorem bits_length (data : List UInt8) : (bits data).length = 8*data.length := by
  induction data with
  | nil => rfl
  | cons b data ih =>
    rw [bits,List.flatMap_cons,List.length_append,← bits,ih,List.length_map,List.length_range,
      List.length_cons]
    omega

theorem shift_xor_word (poly c : BitVec w) {v : Nat} (hw : 0 < w) (hv : v < 2^w) :
    shift poly (c ^^^ BitVec.ofNat w v) =
      shiftIn poly c (v.testBit 0) ^^^ BitVec.ofNat w (v/2) := by
  have hlow : (BitVec.ofNat w v).getLsbD 0 = v.testBit 0 := by
    rw [BitVec.getLsbD_ofNat]
    simp [hw]
  have hhigh : BitVec.ofNat w v >>> 1 = BitVec.ofNat w (v/2) := by
    apply BitVec.eq_of_toNat_eq
    rw [BitVec.toNat_ushiftRight,BitVec.toNat_ofNat,BitVec.toNat_ofNat,Nat.mod_eq_of_lt hv,
      Nat.mod_eq_of_lt (by omega),Nat.shiftRight_one]
  unfold shift shiftIn
  rw [BitVec.getLsbD_xor,hlow,BitVec.ushiftRight_xor_distrib,hhigh]
  split
  · rw [BitVec.xor_assoc]
  · rfl

theorem iterate_shift_bits (poly c : BitVec w) {n v : Nat} (hn : n ≤ w) (hv : v < 2^n) :
    (shift poly)^[n] (c ^^^ BitVec.ofNat w v) =
      ((List.range n).map v.testBit).foldl (shiftIn poly) c := by
  induction n generalizing c v with
  | zero =>
    have hzero : v = 0 := by omega
    subst hzero
    simp
  | succ n ih =>
    have hlt : v < 2^w := Nat.lt_of_lt_of_le hv (Nat.pow_le_pow_right Nat.two_pos hn)
    have hrest : (List.range n).map (v.testBit ∘ Nat.succ) = (List.range n).map (v/2).testBit :=
      List.map_congr_left (fun i _ => Nat.testBit_succ v i)
    rw [Function.iterate_succ_apply,shift_xor_word poly c (by omega) hlt,ih _ (by omega) (by omega),
      List.range_succ_eq_map,List.map_cons,List.foldl_cons,List.map_map,hrest]

/-- Byte by byte and bit by bit the register goes through the same states. -/
theorem run_eq_bits (poly c : BitVec w) (hw : 8 ≤ w) (data : List UInt8) :
    run poly c data = (bits data).foldl (shiftIn poly) c := by
  induction data generalizing c with
  | nil => rfl
  | cons b data ih =>
    rw [run_cons,ih,feed,iterate_shift_bits poly c hw b.toNat_lt,bits,bits,List.flatMap_cons,
      List.foldl_append]

theorem feed_injective {poly : BitVec w} (hp : poly.msb = true) (b : UInt8) :
    Function.Injective (fun c => feed poly c b) := by
  intro c c' h
  exact (BitVec.xor_left_inj _).mp (iterate_shift_injective hp 8 h)

theorem run_injective {poly : BitVec w} (hp : poly.msb = true) (data : List UInt8) :
    Function.Injective (fun c => run poly c data) := by
  induction data with
  | nil => exact fun _ _ h => h
  | cons b data ih => exact fun c c' h => feed_injective hp b (ih h)

theorem run_word (poly c : BitVec w) {data : List UInt8} (h : 8*data.length ≤ w) :
    run poly c data =
      (shift poly)^[8*data.length] (c ^^^ BitVec.ofNat w (ofLE data)) := by
  induction data generalizing c with
  | nil => simp [ofLE]
  | cons b data ih =>
    have hlen : 8*data.length+8 ≤ w := h
    have hlt : 2^8*ofLE data < 2^w := by
      calc 2^8*ofLE data < 2^8*256^data.length :=
            Nat.mul_lt_mul_of_pos_left (ofLE_lt data) (by decide)
        _ = 2^(8*data.length+8) := by
            rw [show 256 = 2^8 from rfl,← Nat.pow_mul,Nat.pow_add,Nat.mul_comm]
        _ ≤ 2^w := Nat.pow_le_pow_right (by decide) hlen
    rw [run_cons,ih _ (by omega),feed,List.length_cons,Nat.mul_succ,Function.iterate_add_apply,
      ofLE,show (256 : Nat) = 2^8 from rfl,ofNat_add_eq_xor b.toNat_lt,← BitVec.xor_assoc,
      iterate_shift_xor poly 8 (c ^^^ _),iterate_shift_ofNat poly hlt]

theorem run_word_injective {poly : BitVec w} (hp : poly.msb = true) (c : BitVec w)
    {data data' : List UInt8} (hlen : data.length = data'.length) (hfit : 8*data.length ≤ w)
    (h : run poly c data = run poly c data') : data = data' := by
  rw [run_word poly c hfit,run_word poly c (hlen ▸ hfit),← hlen] at h
  have hword := (BitVec.xor_right_inj _).mp (iterate_shift_injective hp _ h)
  have hval (bs : List UInt8) (hbs : 8*bs.length ≤ w) :
      (BitVec.ofNat w (ofLE bs)).toNat = ofLE bs := by
    rw [BitVec.toNat_ofNat]
    apply Nat.mod_eq_of_lt
    calc ofLE bs < 256^bs.length := ofLE_lt bs
      _ = 2^(8*bs.length) := by rw [show 256 = 2^8 from rfl,← Nat.pow_mul]
      _ ≤ 2^w := Nat.pow_le_pow_right (by decide) hbs
  have hnat : ofLE data = ofLE data' := by
    rw [← hval data hfit,hword,hval data' (hlen ▸ hfit)]
  rw [← toLE_ofLE data,← toLE_ofLE data',hnat,hlen]

/-- The last bytes are the complement `out` of the register over the bytes before them. -/
def Checked (poly init out : BitVec w) (data trailer : List UInt8) : Prop :=
  BitVec.ofNat w (ofLE trailer) = run poly init data ^^^ out

theorem Checked.run_eq {poly init out : BitVec w} {data trailer : List UInt8}
    (h : Checked poly init out data trailer) (hlen : 8*trailer.length = w) :
    run poly init (data ++ trailer) = (shift poly)^[w] out := by
  rw [run_append,run_word poly _ (Nat.le_of_eq hlen),h,hlen,← BitVec.xor_assoc,BitVec.xor_self,
    BitVec.zero_xor]

/-- The second string is the first with one or more bytes changed among `n`
consecutive ones. -/
def Burst (n : Nat) (data data' : List UInt8) : Prop :=
  data ≠ data' ∧ ∃ before burst burst' after : List UInt8, data = before ++ (burst ++ after) ∧
    data' = before ++ (burst' ++ after) ∧ burst.length = burst'.length ∧ burst.length ≤ n

theorem Burst.length_eq {n : Nat} {data data' : List UInt8} (h : Burst n data data') :
    data.length = data'.length := by
  obtain ⟨-,before,burst,burst',after,rfl,rfl,hlen,-⟩ := h
  simp only [List.length_append,hlen]

theorem Burst.append_right {n : Nat} {data data' : List UInt8} (h : Burst n data data')
    (rest : List UInt8) : Burst n (data ++ rest) (data' ++ rest) := by
  obtain ⟨hne,before,burst,burst',after,hd,hd',hlen⟩ := h
  refine ⟨fun h => hne (List.append_cancel_right h),before,burst,burst',after ++ rest,?_,?_,hlen⟩
  · rw [hd]
    simp only [List.append_assoc]
  · rw [hd']
    simp only [List.append_assoc]

theorem burst_set {n : Nat} (hn : 1 ≤ n) {data : List UInt8} {i : Nat} {b : UInt8}
    (hi : i < data.length) (hne : data[i] ≠ b) : Burst n data (data.set i b) := by
  refine ⟨fun h => hne ?_,data.take i,[data[i]],[b],data.drop (i+1),?_,?_,rfl,hn⟩
  · have hget : (data.set i b)[i]? = some b := List.getElem?_set_self hi
    rw [← h,List.getElem?_eq_getElem hi] at hget
    exact Option.some.inj hget
  · rw [List.singleton_append,List.getElem_cons_drop,List.take_append_drop]
  · rw [List.set_eq_take_append_cons_drop,if_pos hi,List.singleton_append]

theorem Burst.take_or_drop {n : Nat} {data data' : List UInt8} (h : Burst n data data')
    {i j : Nat} (hij : i+n ≤ j) : data.take i = data'.take i ∨ data.drop j = data'.drop j := by
  obtain ⟨-,before,burst,burst',after,rfl,rfl,hlen,hn⟩ := h
  rcases Nat.le_total i before.length with hi | hi
  · left
    rw [List.take_append_of_le_length hi,List.take_append_of_le_length hi]
  · right
    have hskip (b : List UInt8) (hb : b.length = burst.length) :
        (before ++ (b ++ after)).drop j = after.drop (j-(before.length+burst.length)) := by
      rw [← List.append_assoc,List.drop_append,List.drop_of_length_le (by
        rw [List.length_append]
        omega),List.nil_append,List.length_append,hb]
    rw [hskip burst rfl,hskip burst' hlen.symm]

/-- A checked string does not become another one by a burst no longer than the
register. -/
theorem Checked.not_burst {poly init out : BitVec w} (hp : poly.msb = true)
    {data trailer data' trailer' : List UInt8} {n : Nat}
    (h : Checked poly init out data trailer) (h' : Checked poly init out data' trailer')
    (hlen : 8*trailer.length = w) (hlen' : 8*trailer'.length = w) (hn : 8*n ≤ w) :
    ¬ Burst n (data ++ trailer) (data' ++ trailer') := by
  intro ⟨hne,before,burst,burst',after,hd,hd',hb,hfit⟩
  have heq := (h.run_eq hlen).trans (h'.run_eq hlen').symm
  rw [hd,hd',run_append,run_append,run_append,run_append] at heq
  have hburst := run_word_injective hp _ hb (by omega) (run_injective hp after heq)
  rw [hd,hd',hburst] at hne
  exact hne rfl

end ReflectedCrc
