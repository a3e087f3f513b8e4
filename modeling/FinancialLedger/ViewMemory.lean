import Mathlib.Data.Finset.Insert
import Mathlib.Data.Finset.Lattice.Basic
import Mathlib.Logic.Function.Basic
import Mathlib.Order.Nat
set_option autoImplicit false

/-!
Shared memory with release and acquire. An atomic location keeps all the messages ever
stored in it, each at a time of its own; a load may return any of them that its thread
has not gone past. Plain locations have no such freedom: an access that another one
conflicts with and does not happen before is a data race.
-/

namespace ViewMemory

variable {ι κ : Type}

inductive Order where
  | relaxed
  | acquire
  | release

/-- What happened before some point: for each atomic location the time of the last
message that counts as seen, and the accesses to plain locations, by number. -/
abbrev Past (ι : Type) := (ι → Nat) × Finset Nat

def Past.start : Past ι := (fun _ => 0,∅)

structure Message (ι : Type) where
  value : Nat
  view : Past ι

/-- The messages of each atomic location by time, the last of these times, and the
accesses to plain locations in the order they were made: `true` for a write. -/
structure Memory (ι κ : Type) where
  messages : ι → Nat → Option (Message ι)
  last : ι → Nat
  accesses : List (κ × Bool)
  racy : Bool

def Memory.init (value : ι → Nat) : Memory ι κ where
  messages := fun x t => if t = 0 then some ⟨value x,.start⟩ else none
  last := fun _ => 0
  accesses := []
  racy := false

section Operations

variable [DecidableEq ι] [DecidableEq κ]

def Past.at (v : Past ι) (x : ι) (t : Nat) : Past ι := (Function.update v.1 x t,v.2)

namespace Memory

def load (m : Memory ι κ) (o : Order) (v : Past ι) (x : ι) (t : Nat) : Option (Nat × Past ι) :=
  if v.1 x ≤ t then
    (m.messages x t).map (fun msg =>
      (msg.value,match o with
        | .acquire => v.at x t ⊔ msg.view
        | .relaxed | .release => v.at x t))
  else none

def put (m : Memory ι κ) (x : ι) (t : Nat) (msg : Message ι) : Memory ι κ :=
  { m with
    messages := Function.update m.messages x (Function.update (m.messages x) t (some msg))
    last := Function.update m.last x (max (m.last x) t) }

def store (m : Memory ι κ) (o : Order) (v : Past ι) (x : ι) (value t : Nat) :
    Option (Memory ι κ × Past ι) :=
  if v.1 x < t ∧ (m.messages x t).isNone then
    some (m.put x t ⟨value,match o with
      | .release => v.at x t
      | .relaxed | .acquire => Past.start.at x t⟩,v.at x t)
  else none

/-- The relaxed read-modify-write that reads the message of time `t`: nothing gets
between the two, and it passes on what that message had released. -/
def exchange (m : Memory ι κ) (v : Past ι) (x : ι) (value t : Nat) :
    Option (Memory ι κ × Past ι) :=
  match m.messages x t with
  | none => none
  | some msg =>
    if v.1 x ≤ t ∧ (m.messages x (t+1)).isNone then
      some (m.put x (t+1) ⟨value,Past.start.at x (t+1) ⊔ msg.view⟩,v.at x (t+1))
    else none

/-- The earlier accesses that this one conflicts with happened before it. -/
def Ordered (m : Memory ι κ) (v : Past ι) (y : κ) (write : Bool) : Prop :=
  ∀ i (_ : i < m.accesses.length), m.accesses[i].1 = y →
    write = true ∨ m.accesses[i].2 = true → i ∈ v.2

instance (m : Memory ι κ) (v : Past ι) (y : κ) (write : Bool) : Decidable (m.Ordered v y write) :=
  Nat.decidableBallLT _ _

def access (m : Memory ι κ) (v : Past ι) (y : κ) (write : Bool) : Memory ι κ × Past ι :=
  ({ m with
      accesses := m.accesses ++ [(y,write)]
      racy := m.racy || !decide (m.Ordered v y write) },
    (v.1,insert m.accesses.length v.2))

end Memory

end Operations

namespace Memory

def top (m : Memory ι κ) (x : ι) : Message ι := (m.messages x (m.last x)).getD ⟨0,.start⟩

structure Wf (m : Memory ι κ) : Prop where
  some_last : ∀ x, (m.messages x (m.last x)).isSome
  le_last : ∀ x t msg, m.messages x t = some msg → t ≤ m.last x
  le_view : ∀ x t msg, m.messages x t = some msg → t ≤ msg.view.1 x

def Knows (m : Memory ι κ) (v : Past ι) (y : κ) : Prop :=
  ∀ i b, m.accesses[i]? = some (y,b) → i ∈ v.2

/-- Who has this view may take part in what `x` orders: no message of `x` is news to it,
and no access to `y`. -/
structure Guards (m : Memory ι κ) (x : ι) (y : κ) (v : Past ι) : Prop where
  newest : m.last x ≤ v.1 x
  known : m.Knows v y

def KnowsWrites (m : Memory ι κ) (v : Past ι) (y : κ) : Prop :=
  ∀ i, m.accesses[i]? = some (y,true) → i ∈ v.2

/-- The second memory differs from the first in other places only. -/
structure Keeps (m m' : Memory ι κ) (P : ι → Prop) (Q : κ → Prop) : Prop where
  messages : ∀ x, P x → m'.messages x = m.messages x
  last : ∀ x, P x → m'.last x = m.last x
  accesses : ∀ y, Q y → ∀ (i : Nat) b, m'.accesses[i]? = some (y,b) ↔ m.accesses[i]? = some (y,b)

def Rising (m : Memory ι κ) (x : ι) : Prop :=
  ∀ t t' msg msg', m.messages x t = some msg → m.messages x t' = some msg' → t < t' →
    msg.value < msg'.value

variable {m : Memory ι κ} {v u : Past ι} {x : ι} {y : κ}

theorem Knows.mono (h : m.Knows v y) (hle : v ≤ u) : m.Knows u y :=
  fun i b hi => hle.2 (h i b hi)

theorem Guards.mono (h : m.Guards x y v) (hle : v ≤ u) : m.Guards x y u :=
  ⟨Nat.le_trans h.newest (hle.1 x),h.known.mono hle⟩

theorem KnowsWrites.mono (h : m.KnowsWrites v y) (hle : v ≤ u) : m.KnowsWrites u y :=
  fun i hi => hle.2 (h i hi)

section Keeps

variable {m' : Memory ι κ} {P : ι → Prop} {Q : κ → Prop}

theorem Keeps.refl (m : Memory ι κ) (P : ι → Prop) (Q : κ → Prop) : m.Keeps m P Q :=
  ⟨fun _ _ => rfl,fun _ _ => rfl,fun _ _ _ _ => Iff.rfl⟩

theorem Keeps.mono {P' : ι → Prop} {Q' : κ → Prop} (h : m.Keeps m' P Q) (hP : ∀ x, P' x → P x)
    (hQ : ∀ y, Q' y → Q y) : m.Keeps m' P' Q' :=
  ⟨fun x hx => h.messages x (hP x hx),fun x hx => h.last x (hP x hx),
    fun y hy => h.accesses y (hQ y hy)⟩

theorem Keeps.top (h : m.Keeps m' P Q) (hx : P x) : m'.top x = m.top x := by
  rw [Memory.top,h.messages x hx,h.last x hx,Memory.top]

theorem Keeps.rising (h : m.Keeps m' P Q) (hx : P x) (hr : m.Rising x) : m'.Rising x := by
  unfold Rising
  rw [h.messages x hx]
  exact hr

theorem Keeps.knows (h : m.Keeps m' P Q) (hy : Q y) (hk : m.Knows v y) : m'.Knows v y :=
  fun i b hi => hk i b ((h.accesses y hy i b).mp hi)

theorem Keeps.knowsWrites (h : m.Keeps m' P Q) (hy : Q y) (hk : m.KnowsWrites v y) :
    m'.KnowsWrites v y :=
  fun i hi => hk i ((h.accesses y hy i true).mp hi)

theorem Keeps.guards (h : m.Keeps m' P Q) (hx : P x) (hy : Q y) (hg : m.Guards x y v) :
    m'.Guards x y v :=
  ⟨(h.last x hx).symm ▸ hg.newest,h.knows hy hg.known⟩

end Keeps

theorem Wf.messages_last (h : m.Wf) (x : ι) : m.messages x (m.last x) = some (m.top x) := by
  obtain ⟨msg,hmsg⟩ := Option.isSome_iff_exists.mp (h.some_last x)
  rw [top,hmsg,Option.getD_some]

theorem Rising.value_le (h : m.Rising x) (hwf : m.Wf) {t : Nat} {msg : Message ι}
    (hmsg : m.messages x t = some msg) : msg.value ≤ (m.top x).value := by
  rcases Nat.lt_or_eq_of_le (hwf.le_last x t msg hmsg) with hlt | rfl
  · exact Nat.le_of_lt (h _ _ _ _ hmsg (hwf.messages_last x) hlt)
  · rw [hwf.messages_last] at hmsg
    cases hmsg
    exact Nat.le_refl _

theorem Rising.eq_top (h : m.Rising x) (hwf : m.Wf) {t : Nat} {msg : Message ι}
    (hmsg : m.messages x t = some msg) (hvalue : (m.top x).value ≤ msg.value) :
    msg = m.top x := by
  rcases Nat.lt_or_eq_of_le (hwf.le_last x t msg hmsg) with hlt | rfl
  · have := h _ _ _ _ hmsg (hwf.messages_last x) hlt
    omega
  · rw [hwf.messages_last] at hmsg
    cases hmsg
    rfl

theorem Wf.init (value : ι → Nat) : (Memory.init value : Memory ι κ).Wf where
  some_last := fun _ => rfl
  le_last := by
    intro x t msg h
    simp only [Memory.init] at h
    split at h
    · case isTrue ht => exact Nat.le_of_eq ht
    · cases h
  le_view := by
    intro x t msg h
    simp only [Memory.init] at h
    split at h
    · case isTrue ht =>
      subst ht
      exact Nat.zero_le _
    · cases h

end Memory

section Views

variable [DecidableEq ι] {v : Past ι} {x : ι} {t : Nat}

@[simp] theorem Past.at_self (v : Past ι) (x : ι) (t : Nat) : (v.at x t).1 x = t := by
  simp [Past.at]

theorem Past.le_at (h : v.1 x ≤ t) : v ≤ v.at x t := by
  refine ⟨fun z => ?_,le_refl v.2⟩
  rcases eq_or_ne z x with rfl | hne
  · simpa using h
  · simp [Past.at,hne]

end Views

namespace Memory

section Calls

variable [DecidableEq ι] {m m' : Memory ι κ} {o : Order} {v v' : Past ι} {x : ι} {value t : Nat}

theorem load_spec (h : m.load o v x t = some (value,v')) :
    ∃ msg, m.messages x t = some msg ∧ msg.value = value ∧ v ≤ v' ∧ t ≤ v'.1 x ∧
      (o = .acquire → msg.view ≤ v') := by
  unfold load at h
  split at h
  · case isTrue ht =>
    obtain ⟨msg,hmsg,he⟩ := Option.map_eq_some_iff.mp h
    obtain ⟨rfl,rfl⟩ := Prod.mk.inj he
    have hat := Past.le_at ht
    refine ⟨msg,hmsg,rfl,?_,?_,?_⟩
    · cases o with
      | acquire => exact le_sup_of_le_left hat
      | relaxed => exact hat
      | release => exact hat
    · cases o with
      | acquire => simp
      | relaxed => simp
      | release => simp
    · rintro rfl
      exact le_sup_right
  · cases h

theorem load_visible {r : Nat × Past ι} (h : m.load o v x t = some r) : v.1 x ≤ t := by
  unfold load at h
  split at h
  · assumption
  · cases h

theorem store_spec (h : m.store o v x value t = some (m',v')) :
    v.1 x < t ∧ m.messages x t = none ∧ v' = v.at x t ∧
      ∃ view, t ≤ view.1 x ∧ m' = m.put x t ⟨value,view⟩ ∧ (o = .release → view = v') := by
  unfold store at h
  split at h
  · case isTrue hc =>
    obtain ⟨rfl,rfl⟩ := Prod.mk.inj (Option.some.inj h)
    refine ⟨hc.1,Option.isNone_iff_eq_none.mp hc.2,rfl,_,?_,rfl,?_⟩
    · cases o <;> simp
    · rintro rfl
      rfl
  · cases h

theorem exchange_spec (h : m.exchange v x value t = some (m',v')) :
    ∃ msg, m.messages x t = some msg ∧ v.1 x ≤ t ∧ m.messages x (t+1) = none ∧
      v' = v.at x (t+1) ∧ ∃ view, t+1 ≤ view.1 x ∧ m' = m.put x (t+1) ⟨value,view⟩ := by
  unfold exchange at h
  split at h
  · cases h
  · case h_2 msg hmsg =>
    split at h
    · case isTrue hc =>
      obtain ⟨rfl,rfl⟩ := Prod.mk.inj (Option.some.inj h)
      exact ⟨msg,hmsg,hc.1,Option.isNone_iff_eq_none.mp hc.2,rfl,_,by simp,rfl⟩
    · cases h

end Calls

section Messages

variable [DecidableEq ι] {m : Memory ι κ} {x z : ι} {t u : Nat} {msg old : Message ι}

theorem put_messages_ne (m : Memory ι κ) (t : Nat) (msg : Message ι) (h : z ≠ x) :
    (m.put x t msg).messages z = m.messages z := by
  simp [put,h]

theorem put_last_ne (m : Memory ι κ) (t : Nat) (msg : Message ι) (h : z ≠ x) :
    (m.put x t msg).last z = m.last z := by
  simp [put,h]

theorem put_top_ne (m : Memory ι κ) (t : Nat) (msg : Message ι) (h : z ≠ x) :
    (m.put x t msg).top z = m.top z := by
  rw [top,put_messages_ne m t msg h,put_last_ne m t msg h,top]

@[simp] theorem put_messages_self (m : Memory ι κ) (x : ι) (t : Nat) (msg : Message ι) :
    (m.put x t msg).messages x t = some msg := by
  simp [put]

theorem put_last_self (m : Memory ι κ) (x : ι) (t : Nat) (msg : Message ι) :
    (m.put x t msg).last x = max (m.last x) t := by
  simp [put]

theorem keeps_put (m : Memory ι κ) (t : Nat) (msg : Message ι) {P : ι → Prop} (Q : κ → Prop)
    (h : ¬ P x) : m.Keeps (m.put x t msg) P Q := by
  have hne : ∀ z, P z → z ≠ x := by
    rintro z hz rfl
    exact h hz
  exact ⟨fun z hz => put_messages_ne m t msg (hne z hz),
    fun z hz => put_last_ne m t msg (hne z hz),fun _ _ _ _ => Iff.rfl⟩

theorem put_messages_old (h : m.messages z u = some old) (hfree : m.messages x t = none) :
    (m.put x t msg).messages z u = some old := by
  rcases eq_or_ne z x with rfl | hne
  · have hut : u ≠ t := by
      rintro rfl
      cases hfree.symm.trans h
    simp [put,hut,h]
  · rw [put_messages_ne m t msg hne,h]

theorem put_messages_cases (h : (m.put x t msg).messages z u = some old) :
    (z = x ∧ u = t ∧ old = msg) ∨ m.messages z u = some old := by
  rcases eq_or_ne z x with rfl | hne
  · rcases eq_or_ne u t with rfl | hut
    · rw [put_messages_self] at h
      cases h
      exact .inl ⟨rfl,rfl,rfl⟩
    · simp only [put,Function.update_self,Function.update_of_ne hut] at h
      exact .inr h
  · rw [put_messages_ne m t msg hne] at h
    exact .inr h

theorem put_top_self (h : m.last x < t) : (m.put x t msg).top x = msg := by
  rw [top,put_last_self,max_eq_right (Nat.le_of_lt h),put_messages_self,Option.getD_some]

theorem Wf.put (h : m.Wf) (hview : t ≤ msg.view.1 x) (hfree : m.messages x t = none) :
    (m.put x t msg).Wf where
  some_last := by
    intro z
    rcases eq_or_ne z x with rfl | hne
    · rw [put_last_self]
      rcases Nat.le_total (m.last z) t with hle | hle
      · rw [max_eq_right hle,put_messages_self,Option.isSome_some]
      · obtain ⟨old,hold⟩ := Option.isSome_iff_exists.mp (h.some_last z)
        rw [max_eq_left hle,put_messages_old hold hfree,Option.isSome_some]
    · rw [put_messages_ne m t msg hne,put_last_ne m t msg hne]
      exact h.some_last z
  le_last := by
    intro z u old hold
    rcases put_messages_cases hold with ⟨rfl,rfl,-⟩ | hold
    · rw [put_last_self]
      exact le_max_right _ _
    · have hle := h.le_last z u old hold
      rcases eq_or_ne z x with rfl | hne
      · rw [put_last_self]
        exact le_max_of_le_left hle
      · rwa [put_last_ne m t msg hne]
  le_view := by
    intro z u old hold
    rcases put_messages_cases hold with ⟨rfl,rfl,rfl⟩ | hold
    · exact hview
    · exact h.le_view z u old hold

theorem Rising.put_other (h : m.Rising x) (hne : x ≠ z) : (m.put z t msg).Rising x := by
  unfold Rising
  rw [put_messages_ne m t msg hne]
  exact h

theorem Rising.put_self (h : m.Rising x) (hwf : m.Wf) (ht : m.last x < t)
    (hvalue : (m.top x).value < msg.value) : (m.put x t msg).Rising x := by
  intro t₁ t₂ msg₁ msg₂ h₁ h₂ hlt
  rcases put_messages_cases h₂ with ⟨-,rfl,rfl⟩ | hold₂
  · rcases put_messages_cases h₁ with ⟨-,rfl,-⟩ | hold₁
    · omega
    · exact Nat.lt_of_le_of_lt (h.value_le hwf hold₁) hvalue
  · rcases put_messages_cases h₁ with ⟨-,rfl,rfl⟩ | hold₁
    · have := hwf.le_last x t₂ msg₂ hold₂
      omega
    · exact h _ _ _ _ hold₁ hold₂ hlt

end Messages

section Accesses

variable [DecidableEq κ] {m : Memory ι κ} {v u : Past ι} {x : ι} {y z : κ} {write : Bool}

theorem access_getElem? (m : Memory ι κ) (v : Past ι) (y : κ) (write : Bool) {i : Nat} {z : κ}
    {b : Bool} : (m.access v y write).1.accesses[i]? = some (z,b) ↔
      m.accesses[i]? = some (z,b) ∨ (i = m.accesses.length ∧ z = y ∧ b = write) := by
  simp only [access]
  rcases Nat.lt_trichotomy i m.accesses.length with hlt | rfl | hgt
  · rw [List.getElem?_append_left hlt]
    exact ⟨.inl,fun h => h.elim id (fun h => absurd h.1 (Nat.ne_of_lt hlt))⟩
  · simp [eq_comm]
  · have hnone : m.accesses[i]? = none := List.getElem?_eq_none (Nat.le_of_lt hgt)
    rw [List.getElem?_eq_none (by simp; omega),hnone]
    simp [Nat.ne_of_gt hgt]

theorem keeps_access (m : Memory ι κ) (v : Past ι) (write : Bool) (P : ι → Prop) {Q : κ → Prop}
    (h : ¬ Q y) : m.Keeps (m.access v y write).1 P Q := by
  refine ⟨fun _ _ => rfl,fun _ _ => rfl,fun z hz i b => ?_⟩
  have hne : z ≠ y := by
    rintro rfl
    exact h hz
  rw [access_getElem?]
  exact ⟨fun h => h.elim id (fun h => absurd h.2.1 hne),.inl⟩

theorem Knows.access_other (h : m.Knows v z) (hne : z ≠ y) : (m.access u y write).1.Knows v z := by
  intro i b hi
  rcases (access_getElem? m u y write).mp hi with hi | ⟨-,he,-⟩
  · exact h i b hi
  · exact absurd he hne

theorem Knows.access_self (h : m.Knows v y) :
    (m.access v y write).1.Knows (m.access v y write).2 y := by
  intro i b hi
  rcases (access_getElem? m v y write).mp hi with hi | ⟨rfl,-,-⟩
  · exact Finset.mem_insert_of_mem (h i b hi)
  · exact Finset.mem_insert_self _ _

theorem KnowsWrites.access_read (h : m.KnowsWrites v z) :
    (m.access u y false).1.KnowsWrites v z := by
  intro i hi
  rcases (access_getElem? m u y false).mp hi with hi | ⟨-,-,he⟩
  · exact h i hi
  · cases he

theorem KnowsWrites.access_racy (h : m.KnowsWrites v y) :
    (m.access v y false).1.racy = m.racy := by
  have hordered : m.Ordered v y false := by
    rintro i hi hy (hw | hw)
    · cases hw
    · exact h i (by rw [List.getElem?_eq_getElem hi,← hy,← hw])
  simp [access,hordered]

theorem Wf.access (h : m.Wf) : (m.access v y write).1.Wf :=
  ⟨h.some_last,h.le_last,h.le_view⟩

theorem le_access (m : Memory ι κ) (v : Past ι) (y : κ) (write : Bool) :
    v ≤ (m.access v y write).2 :=
  ⟨le_refl v.1,Finset.subset_insert _ _⟩

theorem Knows.access_racy (h : m.Knows v y) : (m.access v y write).1.racy = m.racy := by
  have hordered : m.Ordered v y write := by
    intro i hi hy _
    exact h i m.accesses[i].2 (by rw [List.getElem?_eq_getElem hi,← hy])
  simp [access,hordered]

theorem Guards.access_other (h : m.Guards x y v) (hne : y ≠ z) :
    (m.access u z write).1.Guards x y v :=
  ⟨h.newest,h.known.access_other hne⟩

theorem Guards.access_self (h : m.Guards x y v) :
    (m.access v y write).1.Guards x y (m.access v y write).2 :=
  ⟨h.newest,h.known.access_self⟩

end Accesses

section Guards

variable [DecidableEq ι] {m : Memory ι κ} {v : Past ι} {x z : ι} {y : κ}

theorem Guards.put_other {t : Nat} {msg : Message ι} (h : m.Guards x y v) (hne : x ≠ z) :
    (m.put z t msg).Guards x y v :=
  ⟨by rw [put_last_ne m t msg hne]; exact h.newest,h.known⟩

/-- Whoever stores in `x` hands over what it knows. -/
theorem Guards.put_self {t : Nat} {msg : Message ι} (h : m.Guards x y v) (ht : v.1 x < t) :
    (m.put x t msg).Guards x y (v.at x t) := by
  refine ⟨?_,h.known.mono (Past.le_at (Nat.le_of_lt ht))⟩
  rw [put_last_self,Past.at_self]
  exact max_le (Nat.le_trans h.newest (Nat.le_of_lt ht)) (Nat.le_refl t)

end Guards

end Memory

end ViewMemory
