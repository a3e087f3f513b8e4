import Mathlib.Logic.Equiv.Prod
set_option autoImplicit false

namespace FinancialLedger

abbrev AccountId := UInt64
abbrev TransactionId := UInt64

/-- Fixed-point micro-units. `Int64` adds, subtracts and negates modulo 2^64
and compares as a signed number, as the two's complement machine word does. -/
abbrev Amount := Int64

inductive LedgerError where
  | none
  | invalidTransaction
  | unbalancedTransaction
  | tooFewLegs
  | tooManyLegs
  | zeroAmountLeg
  | amountOverflow
  | accountNotFound
  | insufficientFunds
  | duplicateTransaction
  | walOpenFailed
  | walWriteFailed
  | walSyncFailed
  | walCorruptRecord
  | walTruncatedRecord
  | walPayloadTooLarge
  | snapshotOpenFailed
  | snapshotWriteFailed
  | snapshotReadFailed
  | snapshotCorrupt
  | queueFull
  | trialBalanceMismatch
  | unknown
  deriving DecidableEq, Repr

/-- The value or the error of a fallible call. The success value of
`Result<void>` is `()`, and `LedgerError.none` only appears in completions. -/
abbrev Result (α : Type) := Except LedgerError α

structure IdempotencyKey where
  high : UInt64
  low : UInt64
  deriving DecidableEq, Repr

/-- The mix of `IdempotencyKeyHash`; the hash of one word is the platform's. -/
def idempotencyKeyHash (stdHash : UInt64 → UInt64) (k : IdempotencyKey) : UInt64 :=
  let h1 := stdHash k.high
  let h2 := stdHash k.low
  h1 ^^^ (h2+(0x9e3779b97f4a7c15 : UInt64)+(h1 <<< (6 : UInt64))+(h1 >>> (2 : UInt64)))

/-- An `enum class` over `uint8_t` may hold a byte that no enumerator names;
`unnamed c` is the value 5+c, which a cast from a snapshot byte can produce. -/
inductive AccountType where
  | asset
  | liability
  | equity
  | revenue
  | expense
  | unnamed (code : Fin 251)
  deriving DecidableEq, Repr

def AccountType.toByte : AccountType → UInt8
  | .asset => 0
  | .liability => 1
  | .equity => 2
  | .revenue => 3
  | .expense => 4
  | .unnamed c => UInt8.ofNat (5+c.val)

def AccountType.ofByte (b : UInt8) : AccountType :=
  match h : b.toNat with
  | 0 => .asset
  | 1 => .liability
  | 2 => .equity
  | 3 => .revenue
  | 4 => .expense
  | n+5 => .unnamed ⟨n,by have := b.toNat_lt; omega⟩

@[simp] theorem AccountType.ofByte_toByte (t : AccountType) : ofByte t.toByte = t := by
  cases t with
  | unnamed c =>
    have hn : (UInt8.ofNat (5+c.val)).toNat = c.val+5 := by
      rw [UInt8.toNat_ofNat']
      have := c.isLt
      omega
    unfold ofByte toByte
    split <;> rename_i h <;> rw [hn] at h <;> first | omega | skip
    congr
    omega
  | _ => rfl

def isDebitNormal (t : AccountType) : Bool := t == .asset || t == .expense

inductive Direction where
  | debit
  | credit
  deriving DecidableEq, Repr

def increases (type : AccountType) (dir : Direction) : Bool :=
  (dir == .debit) == isDebitNormal type

def signedDelta (type : AccountType) (dir : Direction) (amount : Amount) : Amount :=
  if increases type dir then amount else -amount

structure EntryLeg where
  accountId : AccountId
  direction : Direction
  amount : Amount
  deriving DecidableEq, Repr

def kMaxLegsPerTransaction : Nat := 16

/-- The fixed array and its count, as the legs that are in use. -/
structure LegList where
  span : List EntryLeg
  bound : span.length ≤ kMaxLegsPerTransaction
  deriving DecidableEq, Repr

def LegList.empty : LegList := ⟨[],by simp⟩

/-- `none` stands for the answer false: the list is full and unchanged. -/
def LegList.pushBack (l : LegList) (leg : EntryLeg) : Option LegList :=
  if h : kMaxLegsPerTransaction ≤ l.span.length then none
  else some ⟨l.span ++ [leg],by simp only [List.length_append,List.length_singleton]; omega⟩

theorem LegList.ext_span {l l' : LegList} (h : l.span = l'.span) : l = l' := by
  cases l; cases l'; simp_all

theorem LegList.pushBack_span {l l' : LegList} {leg : EntryLeg} (h : l.pushBack leg = some l') :
    l'.span = l.span ++ [leg] := by
  unfold LegList.pushBack at h
  split at h
  · cases h
  · cases h
    rfl

structure Transaction where
  id : TransactionId
  idempotencyKey : IdempotencyKey
  createdAtNs : Int64
  legs : LegList
  deriving DecidableEq, Repr

structure Account where
  id : AccountId
  type : AccountType
  balance : Amount
  overdraftLimit : Amount
  deriving DecidableEq, Repr

end FinancialLedger
