import Mathlib.Algebra.Group.Nat.Defs
import Mathlib.Logic.Equiv.Prod
import Mathlib.Data.List.Basic
set_option autoImplicit false

/-!
Object representations of plain old data on a little-endian machine: what
copying a fixed-size value to and from memory does to its bytes.
-/

namespace PodBytes

/-- The `w` least significant base-256 digits of `n`, least significant first. -/
def toLE : Nat → Nat → List UInt8
  | 0, _ => []
  | w+1, n => UInt8.ofNat n :: toLE w (n/256)

def ofLE : List UInt8 → Nat
  | [] => 0
  | b :: bs => b.toNat+256*ofLE bs

@[simp] theorem toLE_length (w n : Nat) : (toLE w n).length = w := by
  induction w generalizing n with
  | zero => rfl
  | succ w ih => simp [toLE,ih]

theorem ofLE_lt (bs : List UInt8) : ofLE bs < 256^bs.length := by
  induction bs with
  | nil => simp [ofLE]
  | cons b bs ih =>
    have hb := b.toNat_lt
    simp only [ofLE,List.length_cons,Nat.pow_succ]
    omega

theorem ofLE_toLE (w n : Nat) : ofLE (toLE w n) = n%256^w := by
  induction w generalizing n with
  | zero => simp [toLE,ofLE,Nat.mod_one]
  | succ w ih =>
    have hb : (UInt8.ofNat n).toNat = n%256 := by simp
    simp only [toLE,ofLE,ih,hb]
    rw [Nat.pow_succ,Nat.mul_comm (256^w) 256,Nat.mod_mul]

theorem toLE_ofLE (bs : List UInt8) : toLE bs.length (ofLE bs) = bs := by
  induction bs with
  | nil => rfl
  | cons b bs ih =>
    have hb := b.toNat_lt
    have hd : (b.toNat+256*ofLE bs)/256 = ofLE bs := by omega
    have hm : UInt8.ofNat (b.toNat+256*ofLE bs) = b := by
      apply UInt8.toNat_inj.mp
      simp only [UInt8.toNat_ofNat']
      omega
    simp only [List.length_cons,ofLE,toLE,hd,hm,ih]

/-- A type whose values are copied byte for byte: `size` bytes represent each
value, every string of that many bytes represents one, and no two values share
a representation. -/
class Pod (α : Type) where
  size : Nat
  toBytes : α → List UInt8
  ofBytes : List UInt8 → α
  length_toBytes : ∀ a, (toBytes a).length = size
  ofBytes_toBytes : ∀ a, ofBytes (toBytes a) = a
  toBytes_ofBytes : ∀ bs, bs.length = size → toBytes (ofBytes bs) = bs

attribute [simp] Pod.length_toBytes Pod.ofBytes_toBytes

def sizeOf (α : Type) [Pod α] : Nat := Pod.size α

def put {α : Type} [Pod α] (dst : List UInt8) (a : α) : List UInt8 :=
  dst ++ Pod.toBytes a

def get (α : Type) [Pod α] (src : List UInt8) (offset : Nat) : α :=
  Pod.ofBytes ((src.drop offset).take (sizeOf α))

theorem get_append {α : Type} [Pod α] (before after : List UInt8) (a : α) (offset : Nat)
    (h : before.length = offset) :
    get α (before ++ (Pod.toBytes a ++ after)) offset = a := by
  subst h
  have hs : (Pod.toBytes a).length = sizeOf α := Pod.length_toBytes a
  rw [get,List.drop_left,List.take_left' hs,Pod.ofBytes_toBytes]

theorem get_toBytes {α : Type} [Pod α] (a : α) : get α (Pod.toBytes a) 0 = a := by
  have hs : (Pod.toBytes a).length = sizeOf α := Pod.length_toBytes a
  rw [get,List.drop_zero,List.take_of_length_le (Nat.le_of_eq hs),Pod.ofBytes_toBytes]

theorem toBytes_get {α : Type} [Pod α] {src : List UInt8} {offset : Nat}
    (h : offset+sizeOf α ≤ src.length) :
    Pod.toBytes (get α src offset) = (src.drop offset).take (sizeOf α) := by
  refine Pod.toBytes_ofBytes _ ?_
  rw [List.length_take,List.length_drop]
  have hs : sizeOf α = Pod.size α := rfl
  omega

theorem get_drop (α : Type) [Pod α] (src : List UInt8) (i j : Nat) :
    get α (src.drop i) j = get α src (i+j) := by
  rw [get,get,List.drop_drop]

theorem get_take (α : Type) [Pod α] (src : List UInt8) {offset n : Nat}
    (h : offset+sizeOf α ≤ n) : get α (src.take n) offset = get α src offset := by
  rw [get,get,List.drop_take,List.take_take,Nat.min_eq_left (by omega)]

theorem get_copy (α : Type) [Pod α] (src : List UInt8) (offset : Nat) :
    get α ((src.drop offset).take (sizeOf α)) 0 = get α src offset := by
  rw [get_take α _ (Nat.le_of_eq (Nat.zero_add _)),get_drop,Nat.add_zero]

section Instances

instance : Pod UInt8 where
  size := 1
  toBytes a := [a]
  ofBytes bs := bs.headD 0
  length_toBytes _ := rfl
  ofBytes_toBytes _ := rfl
  toBytes_ofBytes bs h := by
    obtain ⟨b,rfl⟩ := List.length_eq_one_iff.mp h
    rfl

@[reducible] def word (α : Type) (w : Nat) (toNat : α → Nat) (ofNat : Nat → α)
    (hlt : ∀ a, toNat a < 256^w) (hof : ∀ a, ofNat (toNat a) = a)
    (hto : ∀ n, n < 256^w → toNat (ofNat n) = n) : Pod α where
  size := w
  toBytes a := toLE w (toNat a)
  ofBytes bs := ofNat (ofLE bs)
  length_toBytes a := toLE_length w (toNat a)
  ofBytes_toBytes a := by rw [ofLE_toLE,Nat.mod_eq_of_lt (hlt a),hof]
  toBytes_ofBytes bs h := by
    subst h
    rw [hto _ (ofLE_lt bs),toLE_ofLE]

instance : Pod UInt16 :=
  word UInt16 2 UInt16.toNat UInt16.ofNat (fun a => a.toNat_lt) (fun a => by simp)
    (fun n h => by simp only [UInt16.toNat_ofNat']; exact Nat.mod_eq_of_lt h)

instance : Pod UInt32 :=
  word UInt32 4 UInt32.toNat UInt32.ofNat (fun a => a.toNat_lt) (fun a => by simp)
    (fun n h => by simp only [UInt32.toNat_ofNat']; exact Nat.mod_eq_of_lt h)

instance : Pod UInt64 :=
  word UInt64 8 UInt64.toNat UInt64.ofNat (fun a => a.toNat_lt) (fun a => by simp)
    (fun n h => by simp only [UInt64.toNat_ofNat']; exact Nat.mod_eq_of_lt h)

/-- Transport a representation along a bijection: a struct is represented as
the tuple of its fields. -/
@[reducible] def ofEquiv {α β : Type} [Pod β] (e : α ≃ β) : Pod α where
  size := Pod.size β
  toBytes a := Pod.toBytes (e a)
  ofBytes bs := e.symm (Pod.ofBytes bs)
  length_toBytes a := Pod.length_toBytes (e a)
  ofBytes_toBytes a := by simp
  toBytes_ofBytes bs h := by simp [Pod.toBytes_ofBytes bs h]

/-- Two's complement: a signed word has the bytes of the unsigned one. -/
instance : Pod Int64 :=
  ofEquiv (β := UInt64) ⟨Int64.toUInt64,UInt64.toInt64,fun a => by simp,fun a => by simp⟩

instance {α β : Type} [Pod α] [Pod β] : Pod (α × β) where
  size := Pod.size α+Pod.size β
  toBytes p := Pod.toBytes p.1 ++ Pod.toBytes p.2
  ofBytes bs := (Pod.ofBytes (bs.take (Pod.size α)),Pod.ofBytes (bs.drop (Pod.size α)))
  length_toBytes p := by simp
  ofBytes_toBytes p := by
    have h := Pod.length_toBytes p.1
    rw [List.take_left' h,List.drop_left' h]
    simp
  toBytes_ofBytes bs h := by
    have h₁ : (bs.take (Pod.size α)).length = Pod.size α := by simp [List.length_take]; omega
    have h₂ : (bs.drop (Pod.size α)).length = Pod.size β := by simp [List.length_drop]; omega
    simp [Pod.toBytes_ofBytes _ h₁,Pod.toBytes_ofBytes _ h₂]

end Instances

end PodBytes
