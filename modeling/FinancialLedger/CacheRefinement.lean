import FinancialLedger.IdempotencyCache
set_option autoImplicit false

namespace FinancialLedger
open IndexChain

namespace IdempotencyCache

theorem kInvalid_eq_nil : kInvalid = nil := rfl

def Chained (c : IdempotencyCache) (members : List Nat) : Prop :=
  ∀ b ≤ c.bucketMask, ∃ l, Linked c.hashNext (c.buckets b) l ∧ l.Nodup ∧
    ∀ i, i ∈ l ↔ i ∈ members ∧ c.bucketFor (c.key i) = b

/-- The three lists that share the nodes: `lru` from the most to the least
recently used, `free`, and the bucket chains over the nodes of `lru`. -/
structure Represents (c : IdempotencyCache) (lru free : List Nat) : Prop where
  order : DoublyLinked c.next c.prev c.lruHead c.lruTail lru
  freeList : Linked c.next c.freeHead free
  partition : (lru ++ free).Perm (List.range c.capacity)
  chained : c.Chained lru
  filled : ∀ i ∈ lru, c.occupied i = true
  distinct : (lru.map c.key).Nodup
  count : c.size = lru.length
  positive : 0 < c.capacity

theorem Represents.nodup {c : IdempotencyCache} {lru free : List Nat}
    (h : c.Represents lru free) : (lru ++ free).Nodup :=
  h.partition.nodup_iff.mpr List.nodup_range

theorem Represents.length_add {c : IdempotencyCache} {lru free : List Nat}
    (h : c.Represents lru free) : lru.length+free.length = c.capacity := by
  have := h.partition.length_eq
  simpa using this

theorem bucketFor_le (c : IdempotencyCache) (key : IdempotencyKey) :
    c.bucketFor key ≤ c.bucketMask := Nat.and_le_right

section Lru

theorem unlinkLru_eq (c : IdempotencyCache) (i : Nat)
    (hp : c.prev i ≠ nil → (c.prev i).toNat ≠ i) :
    c.unlinkLru i = { c with
      next := Function.update
        (if c.prev i ≠ nil then Function.update c.next (c.prev i).toNat (c.next i) else c.next)
        i nil
      prev := Function.update
        (if c.next i ≠ nil then Function.update c.prev (c.next i).toNat (c.prev i) else c.prev)
        i nil
      lruHead := if c.prev i ≠ nil then c.lruHead else c.next i
      lruTail := if c.next i ≠ nil then c.lruTail else c.prev i } := by
  by_cases h₁ : c.prev i = nil
  · by_cases h₂ : c.next i = nil <;> simp [unlinkLru,kInvalid_eq_nil,h₁,h₂]
  · have hne : i ≠ (c.prev i).toNat := fun hc => hp h₁ hc.symm
    by_cases h₂ : c.next i = nil <;>
      simp [unlinkLru,kInvalid_eq_nil,h₁,h₂,Function.update_of_ne hne]

theorem pushFrontLru_eq (c : IdempotencyCache) (i : Nat) :
    c.pushFrontLru i = { c with
      next := Function.update c.next i c.lruHead
      prev := if c.lruHead ≠ nil then
          Function.update (Function.update c.prev i nil) c.lruHead.toNat i
        else Function.update c.prev i nil
      lruHead := i
      lruTail := if c.lruTail = nil then (i : Int) else c.lruTail } := by
  by_cases h : c.lruHead = nil <;> simp [pushFrontLru,kInvalid_eq_nil,h]

theorem unlinkLru_order {c : IdempotencyCache} {before after free : List Nat} {i : Nat}
    (ho : DoublyLinked c.next c.prev c.lruHead c.lruTail (before ++ i :: after))
    (hf : Linked c.next c.freeHead free) (hn : (before ++ i :: after ++ free).Nodup) :
    let c' := c.unlinkLru i
    DoublyLinked c'.next c'.prev c'.lruHead c'.lruTail (before ++ after) ∧
    Linked c'.next c'.freeHead free ∧
    c' = { c with next := c'.next, prev := c'.prev, lruHead := c'.lruHead,
                  lruTail := c'.lruTail } := by
  have hl : (before ++ i :: after).Nodup := (List.nodup_append.mp hn).1
  have hprev := ho.prev_eq
  have hpm : c.prev i ≠ nil → (c.prev i).toNat ∈ before := by
    intro hc
    rw [hprev] at hc ⊢
    rcases List.eq_nil_or_concat before with rfl | ⟨front,p,rfl⟩
    · exact absurd rfl hc
    · simp [headIdx]
  have hib : i ∉ before ++ after := by
    have := (List.nodup_middle.mp hl)
    exact (List.nodup_cons.mp this).1
  have hne : c.prev i ≠ nil → (c.prev i).toNat ≠ i := by
    intro hc he
    exact hib (List.mem_append_left _ (he ▸ hpm hc))
  have hdis := (List.nodup_append.mp hn).2.2
  dsimp only
  rw [unlinkLru_eq c i hne]
  refine ⟨(ho.unlink hl).update nil nil hib,?_,rfl⟩
  have hif : i ∉ free := fun hm => hdis i (by simp) i hm rfl
  apply Linked.update _ _ hif
  split
  · rename_i hc
    exact hf.update _ (fun hm => hdis _ (List.mem_append_left _ (hpm hc)) _ hm rfl)
  · exact hf

theorem pushFrontLru_order {c : IdempotencyCache} {lru free : List Nat} {i : Nat}
    (ho : DoublyLinked c.next c.prev c.lruHead c.lruTail lru)
    (hf : Linked c.next c.freeHead free) (hn : (lru ++ free).Nodup) (hi : i ∉ lru ++ free) :
    let c' := c.pushFrontLru i
    DoublyLinked c'.next c'.prev c'.lruHead c'.lruTail (i :: lru) ∧
    Linked c'.next c'.freeHead free ∧
    c' = { c with next := c'.next, prev := c'.prev, lruHead := c'.lruHead,
                  lruTail := c'.lruTail } := by
  dsimp only
  rw [pushFrontLru_eq]
  rw [List.mem_append,not_or] at hi
  exact ⟨ho.pushFront (List.nodup_append.mp hn).1 hi.1,hf.update _ hi.2,rfl⟩

end Lru

section Chains

theorem findInChain_spec (c : IdempotencyCache) (key : IdempotencyKey) {l : List Nat}
    {fuel : Nat} {cur : Int} (hl : Linked c.hashNext cur l) (hfuel : l.length < fuel)
    (ho : ∀ i ∈ l, c.occupied i = true) :
    (∃ i ∈ l, c.key i = key ∧ c.findInChain key fuel cur = some i) ∨
    ((∀ i ∈ l, c.key i ≠ key) ∧ c.findInChain key fuel cur = some kInvalid) := by
  induction l generalizing fuel cur with
  | nil =>
    cases fuel with
    | zero => simp at hfuel
    | succ fuel =>
      refine .inr ⟨by simp,?_⟩
      have : cur = kInvalid := hl
      simp [findInChain,this]
  | cons i l ih =>
    obtain ⟨rfl,hr⟩ := hl
    cases fuel with
    | zero => simp at hfuel
    | succ fuel =>
      have hne : (i : Int) ≠ kInvalid := natCast_ne_nil i
      by_cases hk : c.key i = key
      · refine .inl ⟨i,by simp,hk,?_⟩
        simp [findInChain,hne,ho i (by simp),hk]
      · have hstep : c.findInChain key (fuel+1) i = c.findInChain key fuel (c.hashNext i) := by
          simp [findInChain,hne,hk]
        have hlt : l.length < fuel := by
          simp only [List.length_cons] at hfuel
          omega
        rw [hstep]
        rcases ih hr hlt (fun j hj => ho j (by simp [hj])) with ⟨j,hj,hkj,hf⟩ | ⟨hall,hf⟩
        · exact .inl ⟨j,by simp [hj],hkj,hf⟩
        · exact .inr ⟨by simpa [hk] using hall,hf⟩

/-- What the walk does once it has reached the node behind `pred`. -/
def splice (c : IdempotencyCache) (bucket t : Nat) (pred : Int) : IdempotencyCache :=
  { c with
    buckets := if pred ≠ nil then c.buckets
      else Function.update c.buckets bucket (c.hashNext t)
    hashNext := Function.update
      (if pred ≠ nil then Function.update c.hashNext pred.toNat (c.hashNext t) else c.hashNext)
      t nil }

theorem removeFromChain_spec (c : IdempotencyCache) (bucket t : Nat) (prev : Int)
    {before after : List Nat} {fuel : Nat} {cur : Int} (hl : Linked c.hashNext cur (before ++ t :: after))
    (hfuel : (before ++ t :: after).length < fuel) (ht : t ∉ before) :
    c.removeFromChain bucket t fuel cur prev =
      some (c.splice bucket t (if before = [] then prev else headIdx before.reverse)) := by
  induction before generalizing fuel cur prev with
  | nil =>
    obtain ⟨rfl,_⟩ := hl
    cases fuel with
    | zero => simp at hfuel
    | succ fuel =>
      by_cases hp : prev = nil <;>
        simp [removeFromChain,splice,kInvalid_eq_nil,natCast_ne_nil,hp]
  | cons j before ih =>
    obtain ⟨rfl,hr⟩ := hl
    cases fuel with
    | zero => simp at hfuel
    | succ fuel =>
      have hjt : (j : Int) ≠ (t : Int) := by
        intro hc
        exact ht (by simp [show j = t by exact_mod_cast hc])
      have hstep : c.removeFromChain bucket t (fuel+1) j prev =
          c.removeFromChain bucket t fuel (c.hashNext j) j := by
        simp [removeFromChain,kInvalid_eq_nil,natCast_ne_nil,hjt]
      rw [hstep,ih j hr (by simp only [List.cons_append,List.length_cons] at hfuel; omega)
        (fun hm => ht (by simp [hm]))]
      rcases List.eq_nil_or_concat before with rfl | ⟨front,p,rfl⟩ <;> simp [headIdx]

theorem removeFromBucket_chained {c : IdempotencyCache} {lru : List Nat} {t : Nat}
    (h : c.Chained lru) (hl : lru.length ≤ c.capacity) (hn : lru.Nodup) (ht : t ∈ lru) :
    ∃ c', c.removeFromBucket t = some c' ∧ c'.Chained (lru.erase t) ∧
      c' = { c with buckets := c'.buckets, hashNext := c'.hashNext } := by
  obtain ⟨l,hlink,hnd,hmem⟩ := h _ (c.bucketFor_le (c.key t))
  have htl : t ∈ l := (hmem t).mpr ⟨ht,rfl⟩
  obtain ⟨before,after,rfl⟩ := List.append_of_mem htl
  have hfuel : (before ++ t :: after).length < c.capacity+1 := by
    have hsub : (before ++ t :: after) ⊆ lru := fun i hi => ((hmem i).mp hi).1
    have := (List.subperm_of_subset hnd hsub).length_le
    omega
  have htb : t ∉ before ++ after := (List.nodup_cons.mp (List.nodup_middle.mp hnd)).1
  have hpred : (if before = [] then kInvalid else headIdx before.reverse) =
      headIdx before.reverse := by
    split
    · rename_i hb
      subst hb
      rfl
    · rfl
  have hsp := removeFromChain_spec c (c.bucketFor (c.key t)) t kInvalid hlink hfuel
    (fun hm => htb (List.mem_append_left _ hm))
  rw [hpred] at hsp
  refine ⟨_,by simpa [removeFromBucket] using hsp,?_,rfl⟩
  intro b hb
  by_cases hbt : b = c.bucketFor (c.key t)
  · subst hbt
    refine ⟨before ++ after,?_,?_,?_⟩
    · have hu := (hlink.unlink hnd rfl).update nil htb
      simp only [splice]
      split <;> rename_i hp <;> simp [hp] at hu ⊢ <;> exact hu
    · exact (List.nodup_cons.mp (List.nodup_middle.mp hnd)).2
    · intro i
      have hi := hmem i
      simp only [List.mem_append,List.mem_cons] at hi htb ⊢
      change _ ↔ i ∈ lru.erase t ∧ c.bucketFor (c.key i) = _
      rw [hn.mem_erase_iff]
      by_cases hit : i = t
      · subst hit
        simp_all
      · simp_all
  · obtain ⟨l',hlink',hnd',hmem'⟩ := h b hb
    have hdis : ∀ i ∈ before ++ t :: after, i ∉ l' := by
      intro i hi hi'
      exact hbt (((hmem' i).mp hi').2.symm.trans ((hmem i).mp hi).2)
    refine ⟨l',?_,hnd',?_⟩
    · have hbk : (c.splice (c.bucketFor (c.key t)) t (headIdx before.reverse)).buckets b =
          c.buckets b := by
        simp only [splice]
        split
        · rfl
        · rw [Function.update_of_ne hbt]
      rw [hbk]
      apply Linked.update _ _ (hdis t (by simp))
      split
      · rename_i hp
        apply hlink'.update
        apply hdis
        rcases List.eq_nil_or_concat before with rfl | ⟨front,p,rfl⟩
        · exact absurd rfl hp
        · simp [headIdx]
      · exact hlink'
    · intro i
      rw [hmem']
      change _ ↔ i ∈ lru.erase t ∧ c.bucketFor (c.key i) = b
      rw [hn.mem_erase_iff]
      constructor
      · rintro ⟨hi,hbi⟩
        refine ⟨⟨?_,hi⟩,hbi⟩
        rintro rfl
        exact hbt hbi.symm
      · rintro ⟨⟨_,hi⟩,hbi⟩
        exact ⟨hi,hbi⟩

theorem Chained.congr {c : IdempotencyCache} {members members' : List Nat}
    (h : c.Chained members) (he : ∀ i, i ∈ members ↔ i ∈ members') : c.Chained members' := by
  intro b hb
  obtain ⟨l,hl,hn,hm⟩ := h b hb
  exact ⟨l,hl,hn,fun i => by rw [hm,he]⟩

theorem occupy_chained {c : IdempotencyCache} {members : List Nat} {i : Nat}
    (h : c.Chained members) (hi : i ∉ members) (key : IdempotencyKey) :
    (c.occupy (c.bucketFor key) i key).Chained (i :: members) := by
  have hkey : ∀ j ∈ members, Function.update c.key i key j = c.key j := by
    intro j hj
    exact Function.update_of_ne (ne_of_mem_of_not_mem hj hi) key c.key
  unfold occupy
  rw [pushFrontLru_eq]
  intro b hb
  obtain ⟨l,hl,hn,hm⟩ := h b hb
  have hil : i ∉ l := fun hc => hi ((hm i).mp hc).1
  have hmem : ∀ j, j ∈ members ∧ c.bucketFor (Function.update c.key i key j) = b ↔ j ∈ l := by
    intro j
    rw [hm]
    constructor
    · rintro ⟨hj,he⟩
      exact ⟨hj,hkey j hj ▸ he⟩
    · rintro ⟨hj,he⟩
      exact ⟨hj,(hkey j hj).symm ▸ he⟩
  by_cases hbk : b = c.bucketFor key
  · subst hbk
    refine ⟨i :: l,?_,List.nodup_cons.mpr ⟨hil,hn⟩,fun j => ?_⟩
    · have hc := hl.cons hil
      simpa using hc
    · change _ ↔ j ∈ i :: members ∧ c.bucketFor (Function.update c.key i key j) = _
      rw [List.mem_cons,List.mem_cons,← hmem j]
      by_cases hj : j = i
      · subst hj
        simp
      · simp [hj]
  · refine ⟨l,?_,hn,fun j => ?_⟩
    · simp only [Function.update_of_ne hbk,Int.toNat_natCast]
      exact hl.update _ hil
    · change _ ↔ j ∈ i :: members ∧ c.bucketFor (Function.update c.key i key j) = b
      rw [List.mem_cons,← hmem j]
      by_cases hj : j = i
      · subst hj
        simp only [Function.update_self,true_or,true_and]
        constructor
        · rintro ⟨hc,_⟩
          exact absurd hc hi
        · intro he
          exact absurd he.symm hbk
      · simp [hj]

end Chains

section Refinement

theorem erase_map_middle {α β : Type} [DecidableEq β] (f : α → β) {before after : List α} {a : α}
    (hn : ((before ++ a :: after).map f).Nodup) :
    ((before ++ a :: after).map f).erase (f a) = (before ++ after).map f := by
  have ha : f a ∉ before.map f := by
    intro hm
    rw [List.map_append,List.map_cons,List.nodup_middle,List.nodup_cons] at hn
    exact hn.1 (List.mem_append_left _ hm)
  rw [List.map_append,List.map_cons,List.erase_append_right _ ha,List.erase_cons_head,
    List.map_append]

theorem map_update_of_notMem {β : Type} (f : Nat → β) {l : List Nat} {i : Nat} (hi : i ∉ l)
    (v : β) : l.map (Function.update f i v) = l.map f := by
  apply List.map_congr_left
  intro j hj
  exact Function.update_of_ne (ne_of_mem_of_not_mem hj hi) v f

theorem Represents.hit {c : IdempotencyCache} {before after free : List Nat} {i : Nat}
    (h : c.Represents (before ++ i :: after) free) :
    ((c.unlinkLru i).pushFrontLru i).Represents (i :: (before ++ after)) free ∧
    ((c.unlinkLru i).pushFrontLru i).key = c.key ∧
    ((c.unlinkLru i).pushFrontLru i).capacity = c.capacity := by
  have hmid : (before ++ i :: after).Perm (i :: (before ++ after)) := List.perm_middle
  have hn : (i :: (before ++ after) ++ free).Nodup := (hmid.append_right free).nodup_iff.mp h.nodup
  obtain ⟨ho₁,hf₁,he₁⟩ := unlinkLru_order h.order h.freeList h.nodup
  rw [List.cons_append,List.nodup_cons] at hn
  obtain ⟨ho₂,hf₂,he₂⟩ := pushFrontLru_order ho₁ hf₁ hn.2 hn.1
  have hkey : ((c.unlinkLru i).pushFrontLru i).key = c.key := by rw [he₂,he₁]
  have hcap : ((c.unlinkLru i).pushFrontLru i).capacity = c.capacity := by rw [he₂,he₁]
  refine ⟨⟨ho₂,hf₂,?_,?_,?_,?_,?_,?_⟩,hkey,hcap⟩
  · rw [hcap]
    exact (hmid.append_right free).symm.trans h.partition
  · have hch : ((c.unlinkLru i).pushFrontLru i).Chained (before ++ i :: after) := by
      rw [he₂,he₁]
      exact h.chained
    exact hch.congr (fun j => hmid.mem_iff)
  · intro j hj
    have : ((c.unlinkLru i).pushFrontLru i).occupied = c.occupied := by rw [he₂,he₁]
    rw [this]
    exact h.filled j (hmid.mem_iff.mpr hj)
  · rw [hkey]
    exact (hmid.map c.key).nodup_iff.mp h.distinct
  · have : ((c.unlinkLru i).pushFrontLru i).size = c.size := by rw [he₂,he₁]
    rw [this,h.count]
    exact hmid.length_eq
  · rw [hcap]
    exact h.positive

/-- A node taken for a new key: which one, and what is left of the lists. The
node itself is in none of them. -/
structure Taken (c c' : IdempotencyCache) (i : Nat) (lru free : List Nat) : Prop where
  order : DoublyLinked c'.next c'.prev c'.lruHead c'.lruTail lru
  freeList : Linked c'.next c'.freeHead free
  partition : (i :: (lru ++ free)).Perm (List.range c'.capacity)
  chained : c'.Chained lru
  count : c'.size = lru.length+1
  same : c'.key = c.key ∧ c'.occupied = c.occupied ∧ c'.capacity = c.capacity ∧
    c'.hash = c.hash ∧ c'.bucketMask = c.bucketMask

theorem takeNode_free {c : IdempotencyCache} {lru free : List Nat} {i : Nat}
    (h : c.Represents lru (i :: free)) :
    ∃ c', c.takeNode = some ((i : Int),c') ∧ c.Taken c' i lru free := by
  obtain ⟨hhead,hrest⟩ := h.freeList
  have hmid : (lru ++ i :: free).Perm (i :: (lru ++ free)) := List.perm_middle
  have hn := List.nodup_cons.mp (hmid.nodup_iff.mp h.nodup)
  have hi := hn.1
  rw [List.mem_append,not_or] at hi
  refine ⟨{ c with
    freeHead := c.next i
    next := Function.update c.next i kInvalid
    size := c.size+1 },?_,⟨?_,?_,?_,?_,?_,?_⟩⟩
  · simp [takeNode,hhead,kInvalid_eq_nil,natCast_ne_nil]
  · exact ⟨h.order.forward.update _ hi.1,h.order.backward⟩
  · exact hrest.update _ hi.2
  · exact hmid.symm.trans h.partition
  · exact h.chained
  · exact congrArg (· + 1) h.count
  · exact ⟨rfl,rfl,rfl,rfl,rfl⟩

theorem takeNode_evict {c : IdempotencyCache} {lru : List Nat} {i : Nat}
    (h : c.Represents (lru ++ [i]) []) :
    ∃ c', c.takeNode = some ((i : Int),c') ∧ c.Taken c' i lru [] := by
  have hfree : c.freeHead = nil := h.freeList
  have htail : c.lruTail = (i : Int) := by
    have := h.order.backward.head_eq
    simpa [headIdx] using this
  have hn : (lru ++ [i]).Nodup := by simpa using h.nodup
  have hil : i ∉ lru := fun hm => (List.nodup_append.mp hn).2.2 i hm i (by simp) rfl
  have hlen : (lru ++ [i]).length ≤ c.capacity := by
    have := h.length_add
    simp only [List.length_nil] at this
    omega
  obtain ⟨c₁,hrem,hch,he⟩ := removeFromBucket_chained h.chained hlen hn (by simp : i ∈ lru ++ [i])
  have hnext : c₁.next = c.next := by rw [he]
  have hprev : c₁.prev = c.prev := by rw [he]
  have hhd : c₁.lruHead = c.lruHead := by rw [he]
  have htl : c₁.lruTail = c.lruTail := by rw [he]
  have hfh : c₁.freeHead = c.freeHead := by rw [he]
  have ho₁ : DoublyLinked c₁.next c₁.prev c₁.lruHead c₁.lruTail (lru ++ i :: []) := by
    rw [hnext,hprev,hhd,htl]
    exact h.order
  have hf₁ : Linked c₁.next c₁.freeHead [] := by
    rw [hnext,hfh]
    exact h.freeList
  obtain ⟨ho₂,hf₂,he₂⟩ := unlinkLru_order ho₁ hf₁ h.nodup
  refine ⟨c₁.unlinkLru i,?_,⟨?_,hf₂,?_,?_,?_,?_⟩⟩
  · simp [takeNode,kInvalid_eq_nil,hfree,htail,hrem]
  · simpa using ho₂
  · have hcap : (c₁.unlinkLru i).capacity = c.capacity := by rw [he₂,he]
    rw [hcap]
    have hp : (lru ++ [i] ++ []).Perm (i :: (lru ++ [])) := by
      simp
    exact hp.symm.trans h.partition
  · have herase : (lru ++ [i]).erase i = lru := by
      rw [List.erase_append_right _ hil]
      simp
    rw [herase] at hch
    rw [he₂]
    exact hch
  · have hsz : (c₁.unlinkLru i).size = c.size := by rw [he₂,he]
    rw [hsz,h.count]
    simp
  · refine ⟨?_,?_,?_,?_,?_⟩ <;> rw [he₂,he]

theorem Taken.occupy {c c' : IdempotencyCache} {i : Nat} {lru free : List Nat}
    (h : c.Taken c' i lru free) {key : IdempotencyKey} (hf : ∀ j ∈ lru, c.occupied j = true)
    (hd : (lru.map c.key).Nodup) (hk : key ∉ lru.map c.key) (hp : 0 < c.capacity) :
    (c'.occupy (c.bucketFor key) i key).Represents (i :: lru) free ∧
    (i :: lru).map (c'.occupy (c.bucketFor key) i key).key = key :: lru.map c.key ∧
    (c'.occupy (c.bucketFor key) i key).capacity = c.capacity := by
  obtain ⟨hkey,hocc,hcap,hhash,hmask⟩ := h.same
  have hbucket : c.bucketFor key = c'.bucketFor key := by
    unfold bucketFor
    rw [hhash,hmask]
  rw [hbucket]
  have hn : (i :: (lru ++ free)).Nodup := h.partition.nodup_iff.mpr List.nodup_range
  rw [List.nodup_cons] at hn
  have hi := hn.1
  rw [List.mem_append,not_or] at hi
  have hch := occupy_chained h.chained hi.1 key
  -- The links are those of a push in front; the fill before it left them alone.
  have hlinks := pushFrontLru_order (c := { c' with
    key := Function.update c'.key i key
    occupied := Function.update c'.occupied i true
    hashNext := Function.update c'.hashNext i (c'.buckets (c'.bucketFor key))
    buckets := Function.update c'.buckets (c'.bucketFor key) i })
    h.order h.freeList hn.2 hn.1
  have heq : c'.occupy (c'.bucketFor key) i key = pushFrontLru { c' with
    key := Function.update c'.key i key
    occupied := Function.update c'.occupied i true
    hashNext := Function.update c'.hashNext i (c'.buckets (c'.bucketFor key))
    buckets := Function.update c'.buckets (c'.bucketFor key) i } i := by
    simp [IdempotencyCache.occupy]
  rw [← heq] at hlinks
  obtain ⟨ho,hfl,he⟩ := hlinks
  dsimp only at *
  have hk' : (c'.occupy (c'.bucketFor key) i key).key = Function.update c.key i key := by
    rw [he,hkey]
  have hmap : (i :: lru).map (c'.occupy (c'.bucketFor key) i key).key =
      key :: lru.map c.key := by
    rw [hk',List.map_cons,Function.update_self,map_update_of_notMem c.key hi.1]
  have hcap' : (c'.occupy (c'.bucketFor key) i key).capacity = c.capacity := by
    rw [he,hcap]
  refine ⟨⟨ho,hfl,?_,hch,?_,?_,?_,?_⟩,hmap,hcap'⟩
  · rw [hcap',← hcap]
    exact h.partition
  · intro j hj
    have hocc' : (c'.occupy (c'.bucketFor key) i key).occupied =
        Function.update c.occupied i true := by rw [he,hocc]
    rw [hocc']
    rcases List.mem_cons.mp hj with rfl | hm
    · exact Function.update_self ..
    · rw [Function.update_of_ne (ne_of_mem_of_not_mem hm hi.1)]
      exact hf j hm
  · rw [hmap]
    exact List.nodup_cons.mpr ⟨hk,hd⟩
  · have hsz : (c'.occupy (c'.bucketFor key) i key).size = c'.size := by rw [he]
    rw [hsz,h.count,List.length_cons]
  · rw [hcap']
    exact hp

theorem Represents.findInChain {c : IdempotencyCache} {lru free : List Nat}
    (h : c.Represents lru free) (key : IdempotencyKey) :
    (∃ i ∈ lru, c.key i = key ∧
      c.findInChain key (c.capacity+1) (c.buckets (c.bucketFor key)) = some i) ∨
    (key ∉ lru.map c.key ∧
      c.findInChain key (c.capacity+1) (c.buckets (c.bucketFor key)) = some kInvalid) := by
  obtain ⟨l,hl,hn,hm⟩ := h.chained _ (c.bucketFor_le key)
  have hsub : l ⊆ lru := fun i hi => ((hm i).mp hi).1
  have hlen : l.length < c.capacity+1 := by
    have := (List.subperm_of_subset hn hsub).length_le
    have := h.length_add
    omega
  rcases findInChain_spec c key hl hlen (fun i hi => h.filled i (hsub hi)) with
    ⟨i,hi,hk,hf⟩ | ⟨hall,hf⟩
  · exact .inl ⟨i,hsub hi,hk,hf⟩
  · refine .inr ⟨fun hmem => ?_,hf⟩
    obtain ⟨i,hi,hk⟩ := List.mem_map.mp hmem
    exact hall i ((hm i).mpr ⟨hi,by rw [hk]⟩) hk

/-- One call: it returns, it gives the answer of the list, and the nodes it
leaves represent the list's next state. -/
theorem Represents.checkAndInsert {c : IdempotencyCache} {lru free : List Nat}
    (h : c.Represents lru free) (key : IdempotencyKey) :
    ∃ c' lru' free',
      c.checkAndInsert key =
        some ((LruSet.touch c.capacity (lru.map c.key) key).1,c') ∧
      c'.Represents lru' free' ∧ c'.capacity = c.capacity ∧
      lru'.map c'.key = (LruSet.touch c.capacity (lru.map c.key) key).2 := by
  rcases h.findInChain key with ⟨i,hi,hk,hf⟩ | ⟨hmiss,hf⟩
  · subst hk
    obtain ⟨before,after,rfl⟩ := List.append_of_mem hi
    obtain ⟨hr,hkey,hcap⟩ := h.hit
    refine ⟨_,_,_,?_,hr,hcap,?_⟩
    · simp [IdempotencyCache.checkAndInsert,hf,LruSet.touch,kInvalid_eq_nil,natCast_ne_nil]
    · have hin : c.key i ∈ (before ++ i :: after).map c.key := List.mem_map_of_mem hi
      rw [hkey,LruSet.touch,if_pos hin,erase_map_middle c.key h.distinct,List.map_cons]
  · -- A new key: take a free node while there is one, else the last of the list.
    have hlen := h.length_add
    cases free with
    | cons i free =>
      obtain ⟨c₁,htake,ht⟩ := takeNode_free h
      obtain ⟨hr,hmap,hcap⟩ := ht.occupy h.filled h.distinct hmiss h.positive
      have hroom : (lru.map c.key).length < c.capacity := by
        simp only [List.length_map,List.length_cons] at *
        omega
      refine ⟨_,_,_,?_,hr,hcap,?_⟩
      · simp [IdempotencyCache.checkAndInsert,hf,htake,LruSet.touch,hmiss]
      · rw [hmap,LruSet.touch,if_neg hmiss,if_pos hroom]
    | nil =>
      rcases List.eq_nil_or_concat lru with rfl | ⟨rest,i,rfl⟩
      · have := h.positive
        simp at hlen
        omega
      · rw [List.concat_eq_append] at *
        obtain ⟨c₁,htake,ht⟩ := takeNode_evict h
        have hsub : rest ⊆ rest ++ [i] := List.subset_append_left rest [i]
        have hsubmap : rest.map c.key ⊆ (rest ++ [i]).map c.key := List.map_subset c.key hsub
        have hdist : (rest.map c.key).Nodup := by
          have hd := h.distinct
          rw [List.map_append,List.nodup_append] at hd
          exact hd.1
        obtain ⟨hr,hmap,hcap⟩ := ht.occupy (fun j hj => h.filled j (hsub hj)) hdist
          (fun hm => hmiss (hsubmap hm)) h.positive
        have hfull : ¬ ((rest ++ [i]).map c.key).length < c.capacity := by
          simp only [List.length_map,List.length_append,List.length_nil] at *
          omega
        refine ⟨_,_,_,?_,hr,hcap,?_⟩
        · simp only [IdempotencyCache.checkAndInsert,hf,htake,LruSet.touch,if_neg hmiss]
          simp
        · rw [hmap,LruSet.touch,if_neg hmiss,if_neg hfull]
          simp

theorem toInt32_eq {n : Nat} (h : n < 2^31) : toInt32 n = n := by
  unfold toInt32
  rw [Int.bmod_eq_of_le] <;> omega

theorem linked_fresh {capacity : Nat} (hc : capacity < 2^31) (k : Nat) (hk : k < capacity) :
    Linked (fun i => if i+1 < capacity then toInt32 (i+1) else kInvalid) k
      (List.range' k (capacity-k)) := by
  induction hn : capacity-k generalizing k with
  | zero => omega
  | succ n ih =>
    rw [List.range'_succ]
    refine ⟨rfl,?_⟩
    dsimp only
    by_cases hlast : k+1 < capacity
    · rw [if_pos hlast,toInt32_eq (by omega)]
      exact ih (k+1) hlast (by omega)
    · rw [if_neg hlast]
      have : n = 0 := by omega
      subst this
      rfl

theorem new_represents (hash : IdempotencyKey → UInt64) {capacityArg : Nat}
    (h : capacityArg < 2^31) :
    (new hash capacityArg).Represents [] (List.range (max capacityArg 1)) := by
  have hpos : 0 < max capacityArg 1 := by omega
  refine ⟨⟨rfl,rfl⟩,?_,List.Perm.refl _,?_,by simp,by simp,rfl,hpos⟩
  · have hl := linked_fresh (show max capacityArg 1 < 2^31 by omega) 0 hpos
    rw [List.range_eq_range']
    exact hl
  · intro b _
    exact ⟨[],rfl,List.nodup_nil,by simp⟩

theorem Represents.checkAll {c : IdempotencyCache} {lru free : List Nat}
    (h : c.Represents lru free) (keys : List IdempotencyKey) :
    ∃ c' lru' free',
      c.checkAll keys = some ((LruSet.run c.capacity (lru.map c.key) keys).1,c') ∧
      c'.Represents lru' free' ∧
      lru'.map c'.key = (LruSet.run c.capacity (lru.map c.key) keys).2 := by
  induction keys generalizing c lru free with
  | nil => exact ⟨c,lru,free,rfl,h,rfl⟩
  | cons key keys ih =>
    obtain ⟨c₁,lru₁,free₁,hcall,hr,hcap,hmap⟩ := h.checkAndInsert key
    obtain ⟨c₂,lru₂,free₂,hrest,hr₂,hmap₂⟩ := ih hr
    rw [hcap,hmap] at hrest hmap₂
    refine ⟨c₂,lru₂,free₂,?_,hr₂,hmap₂⟩
    simp [IdempotencyCache.checkAll,hcall,hrest,LruSet.run]

/-- Every sequence of calls on a fresh cache returns, answers like the bounded
most-recently-used list, and ends with that list's length as its size. -/
theorem checkAll_refines_lru (hash : IdempotencyKey → UInt64) (capacityArg : Nat)
    (h : capacityArg ≤ 2^31-1) (keys : List IdempotencyKey) :
    ∃ c, (new hash capacityArg).checkAll keys =
        some ((LruSet.run (max capacityArg 1) [] keys).1,c) ∧
      c.size = (LruSet.run (max capacityArg 1) [] keys).2.length ∧
      (LruSet.run (max capacityArg 1) [] keys).2.length ≤ max capacityArg 1 ∧
      (LruSet.run (max capacityArg 1) [] keys).2.Nodup := by
  have h₀ := new_represents hash (show capacityArg < 2^31 by omega)
  have hrun := LruSet.run_bounded (show 0 < max capacityArg 1 by omega) (Nat.zero_le _)
    List.nodup_nil keys
  obtain ⟨c,lru,free,hall,hr,hmap⟩ := h₀.checkAll keys
  refine ⟨c,hall,?_,hrun⟩
  rw [hr.count,← List.length_map (f := c.key),hmap]
  rfl

theorem checkAll_refines_lru_two :
    ∃ c, (new (fun _ => 0) 2).checkAll [⟨0,1⟩,⟨0,2⟩,⟨0,1⟩,⟨0,3⟩,⟨0,2⟩] =
        some ([false,false,true,false,false],c) ∧ c.size = 2 := by
  obtain ⟨c,hc,hs,_⟩ := checkAll_refines_lru (fun _ => 0) 2 (by decide)
    [⟨0,1⟩,⟨0,2⟩,⟨0,1⟩,⟨0,3⟩,⟨0,2⟩]
  exact ⟨c,hc,hs⟩

end Refinement

def walk (c : IdempotencyCache) : Nat → Int → List IdempotencyKey
  | 0, _ => []
  | fuel+1, cur =>
      if cur = kInvalid then []
      else c.key cur.toNat :: c.walk fuel (c.next cur.toNat)

theorem walk_linked (c : IdempotencyCache) {l : List Nat} {fuel : Nat} {cur : Int}
    (hl : Linked c.next cur l) (hf : l.length ≤ fuel) : c.walk fuel cur = l.map c.key := by
  induction l generalizing fuel cur with
  | nil =>
    have : cur = kInvalid := hl
    cases fuel <;> simp [walk,this]
  | cons i l ih =>
    obtain ⟨rfl,hr⟩ := hl
    cases fuel with
    | zero => simp at hf
    | succ fuel =>
      have hlen : l.length ≤ fuel := by
        simp only [List.length_cons] at hf
        omega
      simp [walk,kInvalid_eq_nil,natCast_ne_nil,ih hr hlen]

end IdempotencyCache

/-- A cache whose lists are in order, as the constructor leaves it and every
call keeps it: on these a call always returns. -/
structure LiveCache where
  raw : IdempotencyCache
  sound : ∃ lru free, raw.Represents lru free

namespace LiveCache

def new (hash : IdempotencyKey → UInt64) (capacityArg : Nat) (h : capacityArg < 2^31) :
    LiveCache :=
  ⟨.new hash capacityArg,[],_,IdempotencyCache.new_represents hash h⟩

def keys (c : LiveCache) : List IdempotencyKey := c.raw.walk c.raw.capacity c.raw.lruHead

theorem keys_eq (c : LiveCache) {lru free : List Nat} (h : c.raw.Represents lru free) :
    c.keys = lru.map c.raw.key := by
  apply IdempotencyCache.walk_linked c.raw h.order.forward
  have := h.length_add
  omega

theorem keys_nodup (c : LiveCache) : c.keys.Nodup := by
  obtain ⟨lru,free,h⟩ := c.sound
  rw [c.keys_eq h]
  exact h.distinct

theorem checkAndInsert_returns (c : LiveCache) (key : IdempotencyKey) :
    ∃ c' : LiveCache,
      c.raw.checkAndInsert key = some ((LruSet.touch c.raw.capacity c.keys key).1,c'.raw) ∧
      c'.raw.capacity = c.raw.capacity ∧
      c'.keys = (LruSet.touch c.raw.capacity c.keys key).2 := by
  obtain ⟨lru,free,h⟩ := c.sound
  obtain ⟨c',lru',free',hcall,hr,hcap,hmap⟩ := h.checkAndInsert key
  rw [← c.keys_eq h] at hcall hmap
  exact ⟨⟨c',lru',free',hr⟩,hcall,hcap,(keys_eq ⟨c',lru',free',hr⟩ hr).trans hmap⟩

def checkAndInsert (c : LiveCache) (key : IdempotencyKey) : Bool × LiveCache :=
  match h : c.raw.checkAndInsert key with
  | some (seen,raw) => (seen,⟨raw,by
      obtain ⟨c',hc,_⟩ := c.checkAndInsert_returns key
      rw [hc] at h
      cases h
      exact c'.sound⟩)
  | none => absurd h (by
      obtain ⟨c',hc,_⟩ := c.checkAndInsert_returns key
      simp [hc])

theorem checkAndInsert_spec (c : LiveCache) (key : IdempotencyKey) :
    (c.checkAndInsert key).1 = decide (key ∈ c.keys) ∧
    (c.checkAndInsert key).2.raw.capacity = c.raw.capacity ∧
    (c.checkAndInsert key).2.keys = (LruSet.touch c.raw.capacity c.keys key).2 := by
  obtain ⟨c',hc,hcap,hkeys⟩ := c.checkAndInsert_returns key
  have hpair : c.checkAndInsert key = ((LruSet.touch c.raw.capacity c.keys key).1,c') := by
    unfold checkAndInsert
    split
    · rename_i seen raw h
      rw [hc] at h
      cases h
      rfl
    · rename_i h
      rw [hc] at h
      cases h
  rw [hpair]
  refine ⟨?_,hcap,hkeys⟩
  unfold LruSet.touch
  split <;> simp_all

end LiveCache

end FinancialLedger
