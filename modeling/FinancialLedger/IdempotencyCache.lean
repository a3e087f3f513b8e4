import Mathlib.Algebra.Group.Nat.Defs
import Mathlib.Data.List.Perm.Basic
import FinancialLedger.Types
import FinancialLedger.IndexChain
import FinancialLedger.LruSet
set_option autoImplicit false

namespace FinancialLedger

def kInvalid : Int := -1

def toInt32 (n : Nat) : Int := (n : Int).bmod (2^32)

/-- The node vector is sized once, so it is kept field by field as functions of
the index; `hash` is `IdempotencyKeyHash`. -/
structure IdempotencyCache where
  hash : IdempotencyKey → UInt64
  capacity : Nat
  key : Nat → IdempotencyKey
  prev : Nat → Int
  next : Nat → Int
  hashNext : Nat → Int
  occupied : Nat → Bool
  buckets : Nat → Int
  bucketMask : Nat
  lruHead : Int
  lruTail : Int
  freeHead : Int
  size : Nat

def IdempotencyCache.new (hash : IdempotencyKey → UInt64) (capacityArg : Nat) : IdempotencyCache :=
  let capacity := max capacityArg 1
  { hash := hash
    capacity := capacity
    key := fun _ => ⟨0,0⟩
    prev := fun _ => kInvalid
    next := fun i => if i+1 < capacity then toInt32 (i+1) else kInvalid
    hashNext := fun _ => kInvalid
    occupied := fun _ => false
    buckets := fun _ => kInvalid
    bucketMask := (max (capacity*2) 2).nextPowerOfTwo-1
    lruHead := kInvalid
    lruTail := kInvalid
    freeHead := 0
    size := 0 }

namespace IdempotencyCache

def bucketFor (c : IdempotencyCache) (key : IdempotencyKey) : Nat :=
  (c.hash key).toNat &&& c.bucketMask

def unlinkLru (c : IdempotencyCache) (nodeIdx : Int) : IdempotencyCache :=
  let i := nodeIdx.toNat
  let c₁ := if c.prev i ≠ kInvalid then
      { c with next := Function.update c.next (c.prev i).toNat (c.next i) }
    else { c with lruHead := c.next i }
  let c₂ := if c₁.next i ≠ kInvalid then
      { c₁ with prev := Function.update c₁.prev (c₁.next i).toNat (c₁.prev i) }
    else { c₁ with lruTail := c₁.prev i }
  { c₂ with
    prev := Function.update c₂.prev i kInvalid
    next := Function.update c₂.next i kInvalid }

def pushFrontLru (c : IdempotencyCache) (nodeIdx : Int) : IdempotencyCache :=
  let i := nodeIdx.toNat
  let c₁ := { c with
    prev := Function.update c.prev i kInvalid
    next := Function.update c.next i c.lruHead }
  let c₂ := if c₁.lruHead ≠ kInvalid then
      { c₁ with prev := Function.update c₁.prev c₁.lruHead.toNat nodeIdx }
    else c₁
  { c₂ with
    lruHead := nodeIdx
    lruTail := if c₂.lruTail = kInvalid then nodeIdx else c₂.lruTail }

/-- The walk of `remove_from_bucket`. A chain longer than the fuel, and so one
that may never end, gives no result. -/
def removeFromChain (c : IdempotencyCache) (bucket : Nat) (nodeIdx : Int) :
    Nat → Int → Int → Option IdempotencyCache
  | 0, _, _ => none
  | fuel+1, cur, prev =>
      if cur = kInvalid then some c
      else if cur = nodeIdx then
        let c₁ := if prev = kInvalid then
            { c with buckets := Function.update c.buckets bucket (c.hashNext cur.toNat) }
          else { c with hashNext := Function.update c.hashNext prev.toNat (c.hashNext cur.toNat) }
        some { c₁ with hashNext := Function.update c₁.hashNext cur.toNat kInvalid }
      else removeFromChain c bucket nodeIdx fuel (c.hashNext cur.toNat) cur

def removeFromBucket (c : IdempotencyCache) (nodeIdx : Int) : Option IdempotencyCache :=
  let bucket := c.bucketFor (c.key nodeIdx.toNat)
  c.removeFromChain bucket nodeIdx (c.capacity+1) (c.buckets bucket) kInvalid

def findInChain (c : IdempotencyCache) (key : IdempotencyKey) : Nat → Int → Option Int
  | 0, _ => none
  | fuel+1, cur =>
      if cur = kInvalid then some kInvalid
      else if c.occupied cur.toNat ∧ c.key cur.toNat = key then some cur
      else findInChain c key fuel (c.hashNext cur.toNat)

def takeNode (c : IdempotencyCache) : Option (Int × IdempotencyCache) :=
  if c.freeHead ≠ kInvalid then
    let idx := c.freeHead
    let c₁ := { c with freeHead := c.next idx.toNat }
    some (idx,{ c₁ with next := Function.update c₁.next idx.toNat kInvalid, size := c₁.size+1 })
  else
    let idx := c.lruTail
    match c.removeFromBucket idx with
    | none => none
    | some c₁ => some (idx,c₁.unlinkLru idx)

def occupy (c : IdempotencyCache) (bucket : Nat) (idx : Int) (key : IdempotencyKey) :
    IdempotencyCache :=
  let c₁ := { c with
    key := Function.update c.key idx.toNat key
    occupied := Function.update c.occupied idx.toNat true
    hashNext := Function.update c.hashNext idx.toNat (c.buckets bucket) }
  let c₂ := { c₁ with buckets := Function.update c₁.buckets bucket idx }
  c₂.pushFrontLru idx

/-- Whether the key had been seen, and the cache afterwards. -/
def checkAndInsert (c : IdempotencyCache) (key : IdempotencyKey) :
    Option (Bool × IdempotencyCache) :=
  let bucket := c.bucketFor key
  match c.findInChain key (c.capacity+1) (c.buckets bucket) with
  | none => none
  | some cur =>
      if cur ≠ kInvalid then some (true,(c.unlinkLru cur).pushFrontLru cur)
      else
        match c.takeNode with
        | none => none
        | some (idx,c₁) => some (false,c₁.occupy bucket idx key)

def checkAll : IdempotencyCache → List IdempotencyKey → Option (List Bool × IdempotencyCache)
  | c, [] => some ([],c)
  | c, key :: keys => do
      let (seen,c₁) ← c.checkAndInsert key
      let (answers,c₂) ← checkAll c₁ keys
      pure (seen :: answers,c₂)

end IdempotencyCache

end FinancialLedger
