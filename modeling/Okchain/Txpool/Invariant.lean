import Okchain.Txpool.Pool

/-! Invariants of the transaction pool.

Every operation of the pool is made of a few steps: taking a transaction out of its list, promoting an
account, dropping an account's last pending transaction, and inserting an admitted one. What survives these
survives every operation. What each of them does is said once here. The first invariant is that only a reset moves
the head.
-/
variable {fit : Transaction → Prop}

namespace Okchain.Txpool
open Lib State Protos Core List Option

/-- What admission has checked of a transaction once and for all. -/
structure Admitted (M : Machine) (X : Rules) (tx : Transaction) : Prop where
  size : X.size tx ≤ 32 * 1024
  keyLength : tx.senderPubKey.length = 65
  onCurve : M.onCurve tx.senderPubKey = true

/-- An admitted transaction of the account, with whatever all transactions had that were ever added. -/
def Owned (M : Machine) (X : Rules) (fit : Transaction → Prop) (a : Address) (tx : Transaction) : Prop :=
  txSender M tx = a ∧ Admitted M X tx ∧ fit tx

/-- Every listed transaction belongs to the account it is listed under. -/
def Owning (M : Machine) (X : Rules) (fit : Transaction → Prop) (p : TxPool) : Prop :=
  ∀ a t, t ∈ p.pendingOf a ∨ t ∈ p.queueOf a → Owned M X fit a t

def TxPool.next (p : TxPool) (a : Address) : UInt64 := p.pendingState.getNonce a

variable {M : Machine} {X : Rules} {p q r : TxPool} {a addr : Address} {tx : Transaction} {txs : List Transaction}

/-! ### What an operation leaves alone -/

structure Same (p q : TxPool) : Prop where
  head : q.currentState = p.currentState
  pending : q.pending = p.pending
  queue : q.queue = p.queue
  nonces : q.pendingState = p.pendingState

theorem Same.refl (p : TxPool) : Same p p := ⟨rfl, rfl, rfl, rfl⟩

theorem Same.trans (h₁ : Same p q) (h₂ : Same q r) : Same p r :=
  ⟨h₂.head.trans h₁.head, h₂.pending.trans h₁.pending, h₂.queue.trans h₁.queue, h₂.nonces.trans h₁.nonces⟩

/-- Nothing but the index and what belongs to one account has changed. -/
structure Frame (addr : Address) (p q : TxPool) : Prop where
  head : q.currentState = p.currentState
  pending : ∀ a, a ≠ addr → q.pending.lookup a = p.pending.lookup a
  queue : ∀ a, a ≠ addr → q.queue.lookup a = p.queue.lookup a
  next : ∀ a, a ≠ addr → q.next a = p.next a

theorem Same.frame (h : Same p q) (addr : Address) : Frame addr p q where
  head := h.head
  pending _ _ := by rw [h.pending]
  queue _ _ := by rw [h.queue]
  next _ _ := by rw [TxPool.next, h.nonces, TxPool.next]

theorem Frame.trans (h₁ : Frame addr p q) (h₂ : Frame addr q r) : Frame addr p r where
  head := h₂.head.trans h₁.head
  pending a ha := (h₂.pending a ha).trans (h₁.pending a ha)
  queue a ha := (h₂.queue a ha).trans (h₁.queue a ha)
  next a ha := (h₂.next a ha).trans (h₁.next a ha)

theorem Same.pendingOf (h : Same p q) : q.pendingOf = p.pendingOf := by
  unfold TxPool.pendingOf
  rw [h.pending]

theorem Same.queueOf (h : Same p q) : q.queueOf = p.queueOf := by
  unfold TxPool.queueOf
  rw [h.queue]

theorem Same.headNonce (h : Same p q) : q.headNonce = p.headNonce := by
  unfold TxPool.headNonce
  rw [h.head]

theorem Same.next (h : Same p q) : q.next = p.next := by
  unfold TxPool.next
  rw [h.nonces]

theorem Frame.pendingOf (h : Frame addr p q) (ha : a ≠ addr) : q.pendingOf a = p.pendingOf a := by
  unfold TxPool.pendingOf
  rw [h.pending a ha]

theorem Frame.queueOf (h : Frame addr p q) (ha : a ≠ addr) : q.queueOf a = p.queueOf a := by
  unfold TxPool.queueOf
  rw [h.queue a ha]

theorem Frame.headNonce (h : Frame addr p q) (a : Address) : q.headNonce a = p.headNonce a := by
  unfold TxPool.headNonce
  rw [h.head]

theorem forgetAll_same (txs : List Transaction) (p : TxPool) : Same p (p.forgetAll M txs) := by
  induction txs generalizing p with
  | nil => exact .refl p
  | cons tx rest ih =>
    have hforget : Same p (p.forget (tx.hash M.toEnv)) := ⟨rfl, rfl, rfl, rfl⟩
    exact hforget.trans (ih _)

open TxPool (indexed putPending putQueue unlist)

theorem indexed_same (old : Option Transaction) (tx : Transaction) (p : TxPool) : Same p (p.indexed M old tx) := by
  unfold indexed
  dsimp only
  split
  · exact (forgetAll_same _ p).trans ⟨rfl, rfl, rfl, rfl⟩
  · exact forgetAll_same _ p

/-! ### The small operations -/

variable {list : TxList} {t : Transaction} {u : Unit} {Inv : TxPool → Prop} {ok : TxPool → Op → Prop}

theorem pendingOf_of_lookup (h : p.pending.lookup a = some list) : p.pendingOf a = list.flatten := by
  simp [TxPool.pendingOf, h]

theorem queueOf_of_lookup (h : p.queue.lookup a = some list) : p.queueOf a = list.flatten := by
  simp [TxPool.queueOf, h]

theorem exists_of_mem_pendingOf (h : t ∈ p.pendingOf a) :
    ∃ list, p.pending.lookup a = some list ∧ t ∈ list.flatten := by
  cases hlist : p.pending.lookup a with
  | none => simp [TxPool.pendingOf, hlist] at h
  | some list => exact ⟨list, rfl, pendingOf_of_lookup hlist ▸ h⟩

theorem exists_of_mem_queueOf (h : t ∈ p.queueOf a) : ∃ list, p.queue.lookup a = some list ∧ t ∈ list.flatten := by
  cases hlist : p.queue.lookup a with
  | none => simp [TxPool.queueOf, hlist] at h
  | some list => exact ⟨list, rfl, queueOf_of_lookup hlist ▸ h⟩

theorem flatten_of_isEmpty (h : list.isEmpty = true) : list.flatten = [] :=
  length_eq_zero_iff.mp (beq_iff_eq.mp h)

section
variable (p addr list)

theorem pendingOf_putPending : (p.putPending addr list).pendingOf addr = list.flatten := by
  unfold putPending
  split
  · rename_i hempty
    have hnil := flatten_of_isEmpty hempty
    simp [TxPool.pendingOf, hnil]
  · simp [TxPool.pendingOf]

theorem insertPending_frame : Frame addr p {p with pending := p.pending.insert addr list} :=
  ⟨rfl, fun _ ha => AList.lookup_insert_ne ha, fun _ _ => rfl, fun _ _ => rfl⟩

theorem putPending_frame : Frame addr p (p.putPending addr list) := by
  unfold putPending
  split
  · exact ⟨rfl, fun a ha => AList.lookup_erase_ne ha, fun _ _ => rfl, fun _ _ => rfl⟩
  · exact insertPending_frame p addr list

end

theorem putPending_strict {l : TxList} (h : (p.putPending addr list).pending.lookup addr = some l) :
    l.strict = list.strict := by
  unfold putPending at h
  split at h
  · simp at h
  · rw [AList.lookup_insert, some.injEq] at h
    rw [h]

section
variable (p : TxPool) (addr : Address) (list : TxList) (nonce : UInt64)

theorem putPending_nonces : (p.putPending addr list).pendingState = p.pendingState := by
  unfold putPending
  split <;> rfl

theorem queueOf_putQueue : (p.putQueue addr list).queueOf addr = list.flatten := by
  unfold putQueue
  cases hempty : list.isEmpty with
  | true =>
    have hnil := flatten_of_isEmpty hempty
    simp [TxPool.queueOf, hnil]
  | false => simp [TxPool.queueOf]

theorem putQueue_frame : Frame addr p (p.putQueue addr list) := by
  refine ⟨rfl, fun _ _ => rfl, fun a ha => ?_, fun _ _ => rfl⟩
  unfold putQueue
  cases list.isEmpty with
  | true => exact AList.lookup_erase_ne ha
  | false => exact AList.lookup_insert_ne ha

def TxPool.setNext (p : TxPool) (addr : Address) (nonce : UInt64) : TxPool :=
  {p with pendingState := p.pendingState.setNonce addr nonce}

theorem next_setNext :
    (p.setNext addr nonce).next = Function.update p.next addr nonce := ManagedState.getNonce_setNonce _ _ _

theorem setNext_frame : Frame addr p (p.setNext addr nonce) :=
  ⟨rfl, fun _ _ => rfl, fun _ _ => rfl, fun a ha => by rw [next_setNext, Function.update_of_ne ha]⟩

theorem lowerNonce_frame : Frame addr p (p.lowerNonce addr nonce) := by
  unfold TxPool.lowerNonce
  split
  · exact setNext_frame p addr nonce
  · exact (Same.refl p).frame addr

theorem lowerNonce_pending : (p.lowerNonce addr nonce).pending = p.pending := by
  unfold TxPool.lowerNonce
  split <;> rfl

theorem lowerNonce_queue : (p.lowerNonce addr nonce).queue = p.queue := by
  unfold TxPool.lowerNonce
  split <;> rfl

theorem pendingOf_lowerNonce : (p.lowerNonce addr nonce).pendingOf = p.pendingOf := by
  unfold TxPool.pendingOf
  rw [lowerNonce_pending]

theorem next_lowerNonce : (p.lowerNonce addr nonce).next addr = if nonce < p.next addr then nonce else p.next addr := by
  unfold TxPool.lowerNonce TxPool.next
  split
  · rw [ManagedState.getNonce_setNonce, Function.update_self]
  · rfl

theorem lowerNonce_le : ((p.lowerNonce addr nonce).next addr).toNat ≤ nonce.toNat ∧
      ((p.lowerNonce addr nonce).next addr).toNat ≤ (p.next addr).toNat := by
  rw [next_lowerNonce]
  split
  · rename_i hlt
    have hlt := UInt64.lt_iff_toNat_lt.mp hlt
    omega
  · rename_i hge
    exact ⟨UInt64.le_iff_toNat_le.mp (UInt64.not_lt.mp hge), Nat.le_refl _⟩

end

/-- Nothing but the index and the queue of one account has changed. -/
structure Requeues (addr : Address) (p q : TxPool) : Prop where
  head : q.currentState = p.currentState
  pending : q.pending = p.pending
  nonces : q.pendingState = p.pendingState
  queue : ∀ a, a ≠ addr → q.queue.lookup a = p.queue.lookup a

theorem Same.requeues (h : Same p q) (addr : Address) : Requeues addr p q :=
  ⟨h.head, h.pending, h.nonces, fun _ _ => by rw [h.queue]⟩

theorem Requeues.trans (h₁ : Requeues addr p q) (h₂ : Requeues addr q r) : Requeues addr p r where
  head := h₂.head.trans h₁.head
  pending := h₂.pending.trans h₁.pending
  nonces := h₂.nonces.trans h₁.nonces
  queue a ha := (h₂.queue a ha).trans (h₁.queue a ha)

theorem Requeues.frame (h : Requeues addr p q) : Frame addr p q where
  head := h.head
  pending _ _ := by rw [h.pending]
  queue := h.queue
  next _ _ := by rw [TxPool.next, h.nonces, TxPool.next]

theorem Requeues.pendingOf (h : Requeues addr p q) : q.pendingOf = p.pendingOf := by
  unfold TxPool.pendingOf
  rw [h.pending]

theorem Requeues.next (h : Requeues addr p q) : q.next = p.next := by
  unfold TxPool.next
  rw [h.nonces]

theorem insertQueue_requeues (p : TxPool) (addr : Address) (list : TxList) :
    Requeues addr p {p with queue := p.queue.insert addr list} :=
  ⟨rfl, rfl, rfl, fun _ ha => AList.lookup_insert_ne ha⟩

theorem enqueueTx_requeues {b : Bool} (h : enqueueTx M tx p = some (b, q)) : Requeues (txSender M tx) p q := by
  unfold enqueueTx at h
  dsimp only at h
  split at h
  · exact nomatch h
  · obtain ⟨-, rfl⟩ := Prod.mk.inj (some.inj h)
    exact (insertQueue_requeues p _ _).trans ((indexed_same _ tx _).requeues _)

theorem enqueueAll_requeues (txs : List Transaction) (hsender : ∀ t ∈ txs, txSender M t = addr) (p : TxPool) :
    Requeues addr p (enqueueAll M txs p) := by
  refine foldlRecOn (motive := Requeues addr p) _ _ ((Same.refl p).requeues addr) fun q hq t ht => ?_
  cases h : enqueueTx M t q with
  | none => exact hq
  | some r => exact hq.trans (hsender t ht ▸ enqueueTx_requeues h)

/-! ### An account loses pending transactions -/

/-- The pending list of the account is now `list`. -/
structure Postpones (addr : Address) (list : TxList) (p q : TxPool) : Prop where
  frame : Frame addr p q
  pending : q.pendingOf addr = list.flatten
  strict : ∀ l, q.pending.lookup addr = some l → l.strict = list.strict

section Postpones
variable {list : TxList}

theorem Requeues.postpones (h : Requeues addr p q) (list : TxList) : Postpones addr list p (q.putPending addr list) :=
  ⟨h.frame.trans (putPending_frame q addr list), pendingOf_putPending q addr list, fun _ => putPending_strict⟩

theorem Postpones.requeues (h : Postpones addr list p q) (hr : Requeues addr q r) : Postpones addr list p r where
  frame := h.frame.trans hr.frame
  pending := by rw [hr.pendingOf, h.pending]
  strict l hl := h.strict l (hr.pending ▸ hl)

theorem Postpones.lowerNonce (h : Postpones addr list p q) (nonce : UInt64) :
    Postpones addr list p (q.lowerNonce addr nonce) where
  frame := h.frame.trans (lowerNonce_frame q addr nonce)
  pending := by rw [pendingOf_lowerNonce, h.pending]
  strict l hl := h.strict l (lowerNonce_pending q addr nonce ▸ hl)

variable {l : TxList}

theorem unlist_pending {invalids : List Transaction} (hlookup : p.pending.lookup (txSender M tx) = some l)
    (hremove : l.remove tx = some (invalids, list)) (hsender : ∀ t ∈ invalids, txSender M t = txSender M tx) :
    Postpones (txSender M tx) list p (p.unlist M tx) ∧
      (p.unlist M tx).next (txSender M tx) =
        if tx.nonce < p.next (txSender M tx) then tx.nonce else p.next (txSender M tx) := by
  unfold unlist
  dsimp only
  rw [hlookup, bind_some, hremove]
  have hqueued := enqueueAll_requeues invalids hsender (p.putPending (txSender M tx) list)
  have hput := ((Same.refl p).requeues (txSender M tx)).postpones list
  refine ⟨(hput.requeues hqueued).lowerNonce tx.nonce, ?_⟩
  rw [next_lowerNonce, hqueued.next, TxPool.next, putPending_nonces]
  rfl

theorem unlist_queued (hremove : (p.pending.lookup (txSender M tx)).bind (·.remove tx) = none) :
    Requeues (txSender M tx) p (p.unlist M tx) := by
  unfold unlist
  dsimp only
  rw [hremove]
  cases p.queue.lookup (txSender M tx) with
  | none => exact (Same.refl p).requeues _
  | some future => exact ⟨rfl, rfl, rfl, (putQueue_frame p _ _).queue⟩

/-- What `removeTx` does to the lists of the sender. -/
inductive Removes (M : Machine) (p q : TxPool) : Prop
  | queued (addr : Address) (hrequeues : Requeues addr p q)
  | pending (tx : Transaction) (l list : TxList) (invalids : List Transaction)
      (hl : p.pending.lookup (txSender M tx) = some l) (hremove : l.remove tx = some (invalids, list))
      (hpostpones : Postpones (txSender M tx) list p q)
      (hnext : q.next (txSender M tx) =
        if tx.nonce < p.next (txSender M tx) then tx.nonce else p.next (txSender M tx))

theorem removeTx_removes (hsender : ∀ a, ∀ t ∈ p.pendingOf a, txSender M t = a) (outofbound : Bool) (hash : Hash) :
    Removes M p (removeTx M outofbound p hash) := by
  unfold removeTx
  split
  · exact .queued default ((Same.refl p).requeues _)
  rename_i tx _
  dsimp only
  generalize hq : ({p with all := _, priced := _} : TxPool) = q
  have hsame : Same p q := by
    rw [← hq]
    exact ⟨rfl, rfl, rfl, rfl⟩
  cases hremove : (q.pending.lookup (txSender M tx)).bind (·.remove tx) with
  | none => exact .queued _ ((hsame.requeues _).trans (unlist_queued hremove))
  | some r =>
    obtain ⟨l, hl, hremove⟩ := bind_eq_some_iff.mp hremove
    obtain ⟨hpostpones, hnext⟩ := unlist_pending hl hremove fun t ht =>
      hsender _ t (hsame.pendingOf ▸ pendingOf_of_lookup hl ▸ TxList.mem_remove hremove t (.inl ht))
    rw [hsame.pending] at hl
    rw [hsame.next] at hnext
    exact .pending tx l r.2 r.1 hl hremove
      ⟨(hsame.frame _).trans hpostpones.frame, hpostpones.pending, hpostpones.strict⟩ hnext

theorem dropLast_postpones (hlookup : p.pending.lookup addr = some l) :
    Postpones addr (l.cap (l.len - 1)).2 p (dropLast M p addr) := by
  unfold dropLast
  rw [hlookup]
  refine foldlRecOn (motive := Postpones addr (l.cap (l.len - 1)).2 p) _ _ ?_ fun q hq t _ => ?_
  · refine ⟨insertPending_frame p addr _, pendingOf_of_lookup (AList.lookup_insert _), fun l' hl => ?_⟩
    rw [AList.lookup_insert, some.injEq] at hl
    rw [hl]
  · have hsame : Same q (q.forget (t.hash M.toEnv)) := ⟨rfl, rfl, rfl, rfl⟩
    exact (hq.requeues (hsame.requeues addr)).lowerNonce t.nonce

theorem demoteAccount_postpones (hlookup : p.pending.lookup addr = some l)
    (hsender : ∀ t ∈ l.flatten, txSender M t = addr) :
    let rest := (l.forward (p.headNonce addr)).2.filter ((StateDB.new p.currentState).getBalance addr) p.currentMaxGas
    let gapped := if rest.2.2.txs.get (p.headNonce addr) = none then rest.2.2.cap 0 else ([], rest.2.2)
    Postpones addr gapped.2 p (demoteAccount M p addr) ∧ (demoteAccount M p addr).pendingState = p.pendingState := by
  intro rest gapped
  have hrest : ∀ t, t ∈ rest.2.1 ∨ t ∈ rest.2.2.flatten → txSender M t = addr := fun t ht =>
    hsender t (TxList.mem_forward (TxList.mem_filter t ht)).1
  have hgapped : ∀ t ∈ gapped.1, txSender M t = addr := by
    intro t ht
    refine hrest t (.inr ?_)
    unfold gapped at ht
    split at ht
    · exact TxList.mem_cap t (.inl ht)
    · exact nomatch ht
  unfold demoteAccount
  rw [hlookup]
  have hforget : Same p ((p.forgetAll M _).forgetAll M _) :=
    (forgetAll_same (l.forward (p.headNonce addr)).1 p).trans (forgetAll_same rest.1 _)
  have hqueued := ((hforget.requeues addr).trans (enqueueAll_requeues rest.2.1 (fun t ht => hrest t (.inl ht)) _)).trans
    (enqueueAll_requeues gapped.1 hgapped _)
  exact ⟨hqueued.postpones gapped.2, (putPending_nonces _ addr gapped.2).trans hqueued.nonces⟩

end Postpones

/-! ### Promotion of one transaction -/

structure Promotes (addr : Address) (list : TxList) (tx : Transaction) (p q : TxPool) : Prop where
  frame : Frame addr p q
  pending : q.pending.lookup addr = some list
  queue : q.queue = p.queue
  next : q.next addr = tx.nonce + 1

theorem promoteTx_promotes (now : Nat) {old : Option Transaction}
    (h : ((p.pending.lookup addr).getD (.new true)).add tx p.config.priceBump = some (old, list)) :
    Promotes addr list tx p (promoteTx M now addr p tx) := by
  have hsame := indexed_same (M := M) old tx {p with pending := p.pending.insert addr list}
  unfold promoteTx
  rw [h]
  dsimp only
  generalize indexed M {p with pending := p.pending.insert addr list} old tx = q at hsame ⊢
  have hnext := next_setNext q addr (tx.nonce + 1)
  have hlookup : ∀ a, q.pending.lookup a = (p.pending.insert addr list).lookup a := fun a => by rw [hsame.pending]
  refine ⟨⟨hsame.head, fun a ha => ?_, fun a _ => by rw [hsame.queue], fun a ha => ?_⟩, ?_, hsame.queue, ?_⟩
  · exact (hlookup a).trans (AList.lookup_insert_ne ha)
  · show (q.setNext addr (tx.nonce + 1)).next a = p.next a
    rw [hnext, Function.update_of_ne ha, hsame.next]
    rfl
  · exact (hlookup addr).trans (AList.lookup_insert _)
  · show (q.setNext addr (tx.nonce + 1)).next addr = _
    rw [hnext, Function.update_self]

/-- A refused promotion drops the transaction. -/
theorem promoteTx_same {now : Nat} (h : ((p.pending.lookup addr).getD (.new true)).add tx p.config.priceBump = none) :
    Same p (promoteTx M now addr p tx) := by
  unfold promoteTx
  rw [h]
  exact ⟨rfl, rfl, rfl, rfl⟩

/-! ### The index -/

theorem lookup_forget (p : TxPool) (hash h : Hash) :
    (p.forget hash).all.lookup h = if h = hash then none else p.all.lookup h := by
  split
  · rename_i heq
    rw [heq]
    exact AList.lookup_erase _ _
  · rename_i hne
    exact AList.lookup_erase_ne hne

theorem lookup_foldl_forget {f : TxPool → Transaction → TxPool}
    (hf : ∀ p tx, (f p tx).all = (p.forget (tx.hash M.toEnv)).all) (txs : List Transaction) (p : TxPool) (h : Hash) :
    (txs.foldl f p).all.lookup h = if h ∈ txs.map (·.hash M.toEnv) then none else p.all.lookup h := by
  induction txs generalizing p with
  | nil => rfl
  | cons tx rest ih =>
    rw [foldl_cons, ih, hf, lookup_forget, map_cons]
    by_cases hrest : h ∈ rest.map (·.hash M.toEnv)
    · rw [if_pos hrest, if_pos (mem_cons_of_mem _ hrest)]
    · rw [if_neg hrest]
      by_cases heq : h = tx.hash M.toEnv
      · rw [if_pos heq, if_pos (heq ▸ mem_cons_self)]
      · rw [if_neg heq, if_neg fun hmem => (mem_cons.mp hmem).elim heq hrest]

theorem lookup_forgetAll (txs : List Transaction) (p : TxPool) (h : Hash) :
    (p.forgetAll M txs).all.lookup h = if h ∈ txs.map (·.hash M.toEnv) then none else p.all.lookup h :=
  lookup_foldl_forget (fun _ _ => rfl) txs p h

/-- The index has a new transaction, perhaps in the place of another. -/
def Indexes (M : Machine) (old : Option Transaction) (tx : Transaction) (p q : TxPool) : Prop :=
  p.all.lookup (tx.hash M.toEnv) = none → ∀ h, q.all.lookup h =
    if h = tx.hash M.toEnv then some tx
    else if h ∈ old.toList.map (·.hash M.toEnv) then none else p.all.lookup h

theorem index_indexes (old : Option Transaction) (tx : Transaction) (p : TxPool) :
    Indexes M old tx p ((p.forgetAll M old.toList).index M tx) := by
  intro _ h
  show ((p.forgetAll M old.toList).all.insert _ tx).lookup h = _
  by_cases heq : h = tx.hash M.toEnv
  · rw [if_pos heq, heq, AList.lookup_insert]
  · rw [if_neg heq, AList.lookup_insert_ne heq, lookup_forgetAll]

theorem indexed_indexes (old : Option Transaction) (tx : Transaction) (p : TxPool) :
    Indexes M old tx p (p.indexed M old tx) := by
  intro hunknown
  have hnone : ((p.forgetAll M old.toList).all.lookup (tx.hash M.toEnv)).isNone = true := by
    rw [lookup_forgetAll, hunknown, ite_self]
    rfl
  unfold indexed
  rw [if_pos hnone]
  exact index_indexes old tx p hunknown

/-- What `insertTx` does to the lists of the sender and to the index. -/
inductive Inserts (M : Machine) (tx : Transaction) (p q : TxPool) : Prop
  | refused (h : q = p)
  | replaced (l list : TxList) (hl : p.pending.lookup (txSender M tx) = some l) (hoverlaps : l.overlaps tx = true)
      (hlist : list.flatten = (l.txs.put tx).items) (hstrict : list.strict = l.strict)
      (hsame : Same {p with pending := p.pending.insert (txSender M tx) list} q)
      (hall : Indexes M (l.txs.get tx.nonce) tx p q)
  | queued (l list : TxList) (hl : (p.queue.lookup (txSender M tx)).getD (.new false) = l)
      (hfree : ∀ t ∈ p.pendingOf (txSender M tx), t.nonce ≠ tx.nonce)
      (hlist : list.flatten = (l.txs.put tx).items) (hstrict : list.strict = l.strict)
      (hsame : Same {p with queue := p.queue.insert (txSender M tx) list} q)
      (hall : Indexes M (l.txs.get tx.nonce) tx p q)

theorem insertTx_inserts (tx : Transaction) (isLocal : Bool) (p : TxPool) :
    Inserts M tx p (insertTx M tx isLocal p).2 := by
  unfold insertTx
  dsimp only
  cases hfilter : (p.pending.lookup (txSender M tx)).filter (·.overlaps tx) with
  | some l =>
    obtain ⟨hl, hoverlaps⟩ := filter_eq_some_iff.mp hfilter
    dsimp only
    split
    · exact .refused rfl
    · rename_i old list hadd
      obtain ⟨hlist, hstrict, rfl⟩ := TxList.add_some hadd
      refine .replaced l list hl hoverlaps hlist hstrict ((forgetAll_same _ _).trans ⟨rfl, rfl, rfl, rfl⟩) ?_
      exact index_indexes (M := M) _ tx {p with pending := p.pending.insert (txSender M tx) list}
  | none =>
    have hfree : ∀ t ∈ p.pendingOf (txSender M tx), t.nonce ≠ tx.nonce := by
      intro t ht heq
      obtain ⟨l, hl, ht⟩ := exists_of_mem_pendingOf ht
      have hoverlaps : l.overlaps tx = true := TxSortedMap.get_isSome_iff.mpr ⟨t, ht, heq⟩
      exact filter_eq_none_iff.mp hfilter l hl hoverlaps
    unfold enqueueTx
    dsimp only
    cases hadd : ((p.queue.lookup (txSender M tx)).getD (.new false)).add tx p.config.priceBump with
    | none => exact .refused rfl
    | some r =>
      obtain ⟨hlist, hstrict, hold⟩ := TxList.add_some hadd
      have hsame := indexed_same (M := M) r.1 tx {p with queue := p.queue.insert (txSender M tx) r.2}
      have hall := indexed_indexes (M := M) r.1 tx {p with queue := p.queue.insert (txSender M tx) r.2}
      rw [hold] at hsame hall
      dsimp only
      rw [hold]
      refine .queued _ r.2 rfl hfree hlist hstrict ?_ ?_
      · split
        · exact ⟨hsame.head, hsame.pending, hsame.queue, hsame.nonces⟩
        · exact hsame
      · split <;> exact hall

/-! ### Every operation is made of a few steps -/

/-- What an invariant has to survive, if all transactions that are added have `fit`. -/
structure Stable (M : Machine) (X : Rules) (fit : Transaction → Prop) (Inv : TxPool → Prop) : Prop where
  prices : ∀ {p} price priced, Inv p → Inv {p with gasPrice := price, priced := priced}
  remove : ∀ {p} outofbound hash, Inv p → Inv (removeTx M outofbound p hash)
  promote : ∀ {p} now addr, Inv p → Inv (promoteAccount M now p addr)
  dropLast : ∀ {p} addr, Inv p → Inv (dropLast M p addr)
  add : ∀ {p} tx isLocal, fit tx → Inv p → Inv (add M X tx isLocal p).2

theorem require_ok {c : Prop} [Decidable c] {e : PoolErr} (h : require c e = .ok u) : c := by
  unfold require at h
  split at h
  · assumption
  · exact nomatch h

theorem validateTx_ok {isLocal : Bool} (h : validateTx M X p tx isLocal = .ok u) :
    Admitted M X tx ∧ p.headNonce (txSender M tx) ≤ tx.nonce := by
  obtain ⟨_, hsize, h⟩ := except_bind_ok.mp h
  obtain ⟨_, -, h⟩ := except_bind_ok.mp h
  obtain ⟨_, hkey, h⟩ := except_bind_ok.mp h
  obtain ⟨valid, hverify, h⟩ := except_bind_ok.mp h
  obtain ⟨_, hvalid, h⟩ := except_bind_ok.mp h
  obtain ⟨_, -, h⟩ := except_bind_ok.mp h
  obtain ⟨_, hnonce, -⟩ := except_bind_ok.mp h
  refine ⟨⟨require_ok hsize, require_ok hkey, ?_⟩, require_ok hnonce⟩
  rw [require_ok hvalid] at hverify
  unfold verifyHash at hverify
  by_contra hcurve
  rw [if_neg hcurve] at hverify
  split_ifs at hverify
  exact nomatch hverify

theorem makeRoom_keeps (Inv : TxPool → Prop) (tx : Transaction)
    (hprices : ∀ {p} price priced, Inv p → Inv {p with gasPrice := price, priced := priced})
    (hremove : ∀ {p} outofbound hash, Inv p → Inv (removeTx M outofbound p hash)) (isLocal : Bool) (h : Inv p) :
    Inv (makeRoom M X tx isLocal p).2 := by
  unfold makeRoom
  dsimp only
  generalize (if (isLocal || containsTx M p.locals tx) = true then _ else underpriced M X p tx _ _) = cheaper
  split
  · exact h
  · split
    · exact hprices p.gasPrice _ h
    · exact foldlRecOn _ _ (hprices p.gasPrice _ h) fun _ h hash _ => hremove false hash h

theorem enqueueAll_head (txs : List Transaction) (p : TxPool) : (enqueueAll M txs p).currentState = p.currentState := by
  refine foldlRecOn (motive := fun q : TxPool => q.currentState = p.currentState) _ _ rfl fun q hq t _ => ?_
  cases h : enqueueTx M t q with
  | none => exact hq
  | some r => exact (enqueueTx_requeues h).head.trans hq

theorem removeTx_head (outofbound : Bool) (p : TxPool) (hash : Hash) :
    (removeTx M outofbound p hash).currentState = p.currentState := by
  unfold removeTx
  split
  · rfl
  · unfold unlist
    dsimp only
    split
    · rw [(lowerNonce_frame _ _ _).head, enqueueAll_head, (putPending_frame _ _ _).head]
    · split <;> rfl

theorem makeRoom_head (tx : Transaction) (isLocal : Bool) (p : TxPool) :
    (makeRoom M X tx isLocal p).2.currentState = p.currentState :=
  makeRoom_keeps (fun q => q.currentState = p.currentState) tx (fun _ _ h => h)
    (fun b hash h => (removeTx_head b _ hash).trans h) isLocal rfl

/-- `add` keeps an invariant whether it takes the transaction or not. `Ready` may say more than the invariant
while room is made: that the transaction is not known yet. -/
theorem add_keeps (Ready : TxPool → Prop)
    (hready : ∀ {p}, Inv p → p.all.lookup (tx.hash M.toEnv) = none → Ready p) (hinv : ∀ {p}, Ready p → Inv p)
    (hprices : ∀ {p} price priced, Ready p → Ready {p with gasPrice := price, priced := priced})
    (hremove : ∀ {p} outofbound hash, Ready p → Ready (removeTx M outofbound p hash)) (isLocal : Bool)
    (hinsert : ∀ {p}, Admitted M X tx → p.headNonce (txSender M tx) ≤ tx.nonce → Ready p →
      Inv (insertTx M tx isLocal p).2)
    (h : Inv p) : Inv (add M X tx isLocal p).2 := by
  refine Proc.state_bind ?_ fun _ t ht => ?_
  · show Inv (ite _ (_, p) (_, p) : Except PoolErr PUnit × TxPool).2
    split <;> exact h
  obtain ⟨hunknown, rfl⟩ := Proc.ensureState_ok.mp ht
  refine Proc.state_lift_bind h fun _ hvalid => ?_
  obtain ⟨hadmitted, hnonce⟩ := validateTx_ok hvalid
  have hroom := makeRoom_keeps (X := X) Ready tx hprices hremove isLocal (hready h (isNone_iff_eq_none.mp hunknown))
  have hhead := makeRoom_head (M := M) (X := X) tx isLocal t
  refine Proc.state_bind (hinv hroom) fun _ q hq => ?_
  rw [hq] at hroom hhead
  refine hinsert hadmitted ?_ hroom
  rwa [TxPool.headNonce, hhead]

section Stable
variable {fit : Transaction → Prop} {Inv : TxPool → Prop} (hs : Stable M X fit Inv) (σ : Schedule) (now : Nat)
include hs

theorem Stable.shrink {limit threshold : Nat} {offenders : List Address} {watched : Address} (n count : Nat) (h : Inv p) :
    Inv (shrink M limit offenders watched threshold n count p).2 := by
  induction n generalizing count p with
  | zero => exact h
  | succ n ih =>
    unfold Txpool.shrink
    split
    · exact ih _ (foldlRecOn _ _ h fun _ h a _ => hs.dropLast a h)
    · exact h

theorem Stable.equalize {limit : Nat} (spammers offenders : List Address) (count : Nat) (h : Inv p) :
    Inv (equalize M limit spammers offenders count p).2.2 := by
  induction spammers generalizing offenders count p with
  | nil => exact h
  | cons spammer rest ih =>
    unfold Txpool.equalize
    split
    · split
      · exact ih _ _ h
      · exact ih _ _ (hs.shrink _ _ h)
    · exact h

theorem Stable.limitPending (h : Inv p) : Inv (limitPending M σ p) := by
  unfold Txpool.limitPending
  dsimp only
  split
  · split
    · exact hs.equalize _ _ _ h
    · exact hs.shrink _ _ (hs.equalize _ _ _ h)
  · exact h

theorem Stable.dropQueued (addrs : List Address) (drop : Nat) (h : Inv p) : Inv (dropQueued M addrs drop p) := by
  have hremove : ∀ {p} (hashes : List Hash), Inv p → Inv (hashes.foldl (removeTx M true) p) :=
    fun hashes h => foldlRecOn hashes _ h fun _ h hash _ => hs.remove true hash h
  induction addrs generalizing drop p with
  | nil => exact h
  | cons addr rest ih =>
    unfold Txpool.dropQueued
    split
    · exact h
    · split
      · exact ih _ h
      · split
        · exact ih _ (hremove _ h)
        · exact hremove _ h

theorem Stable.limitQueue (h : Inv p) : Inv (limitQueue M σ p) := by
  unfold Txpool.limitQueue
  dsimp only
  split
  · exact hs.dropQueued _ _ h
  · exact h

theorem Stable.promoteExecutables (accounts : Option (List Address)) (h : Inv p) :
    Inv (promoteExecutables M σ now accounts p) := by
  unfold Txpool.promoteExecutables
  apply hs.limitQueue
  apply hs.limitPending
  exact foldlRecOn _ _ h fun _ h addr _ => hs.promote now addr h

theorem Stable.addTx (isLocal : Bool) (hfit : fit tx) (h : Inv p) : Inv (addTx M X σ now tx isLocal p).2 := by
  have hadd := hs.add tx isLocal hfit h
  refine Proc.state_bind hadd fun replace t ht => ?_
  rw [ht] at hadd
  cases replace with
  | true => exact hadd
  | false => exact hs.promoteExecutables σ now _ hadd

theorem Stable.addTxsLocked (isLocal : Bool) (txs : List Transaction) (hfit : ∀ t ∈ txs, fit t) (h : Inv p) :
    Inv (addTxsLocked M X σ now txs isLocal p) := by
  unfold Txpool.addTxsLocked
  dsimp only
  generalize hr : foldl _ _ _ = r
  have hfold : Inv r.2 := by
    rw [← hr]
    refine foldlRecOn (motive := fun r : List Address × TxPool => Inv r.2) _ _ h fun r h tx htx => ?_
    have hadd := hs.add tx isLocal (hfit tx htx) h
    split
    · rename_i q hq
      rwa [hq] at hadd
    · rename_i q hq
      rwa [hq] at hadd
  split
  · exact hfold
  · exact hs.promoteExecutables σ now _ hfold

end Stable

/-- **What survives the steps survives every operation but a reset.** -/
theorem Stable.step (hs : Stable M X fit Inv) (σ : Schedule) (now : Nat) (op : Op) (hfit : ∀ t ∈ op.txs, fit t)
    (hreset : ∀ head reinject, op = .reset head reinject → Inv (reset M X σ now head reinject p)) (h : Inv p) :
    Inv (step M X σ now p op) := by
  have hremove : ∀ {p} outofbound (hashes : List Hash), Inv p → Inv (hashes.foldl (removeTx M outofbound) p) :=
    fun outofbound hashes h => foldlRecOn hashes _ h fun _ h hash _ => hs.remove outofbound hash h
  cases op with
  | addLocal tx => exact hs.addTx σ now _ (hfit tx mem_cons_self) h
  | addRemote tx => exact hs.addTx σ now _ (hfit tx mem_cons_self) h
  | addLocals txs => exact hs.addTxsLocked σ now _ txs hfit h
  | addRemotes txs => exact hs.addTxsLocked σ now _ txs hfit h
  | removeTx hash outofbound => exact hs.remove outofbound hash h
  | setGasPrice price => exact hremove false _ (hs.prices price _ h)
  | evict =>
    refine foldlRecOn _ _ h fun q hq addr _ => ?_
    unfold evictAccount
    split
    · exact hq
    split
    · exact hremove true _ hq
    · exact hq
  | reset head reinject => exact hreset head reinject rfl

/-- **What survives the steps and a reset holds of every pool.** -/
theorem Reachable.invariant (hs : Stable M X fit Inv) (hfit : ∀ p op, ok p op → ∀ t ∈ op.txs, fit t)
    (hinit : ∀ σ now config head, Inv (newTxPool M X σ now config head))
    (hreset : ∀ {p} σ now head reinject, ok p (.reset head reinject) → Inv p → Inv (reset M X σ now head reinject p))
    (hp : Reachable M X ok p) : Inv p := by
  induction hp with
  | init σ now config head => exact hinit σ now config head
  | step _ σ now op hop ih =>
    exact hs.step σ now op (hfit _ op hop) (fun head reinject heq => hreset σ now head reinject (heq ▸ hop) ih) ih

/-! ### The head

Only a reset moves the head. -/

theorem promoteTx_head (now : Nat) (addr : Address) (p : TxPool) (tx : Transaction) :
    (promoteTx M now addr p tx).currentState = p.currentState := by
  cases hadd : ((p.pending.lookup addr).getD (.new true)).add tx p.config.priceBump with
  | none => exact (promoteTx_same hadd).head
  | some r => exact (promoteTx_promotes now hadd).frame.head

theorem promoteAccount_head (now : Nat) (p : TxPool) (addr : Address) :
    (promoteAccount M now p addr).currentState = p.currentState := by
  unfold promoteAccount
  split
  · rfl
  · rw [(putQueue_frame _ _ _).head, (forgetAll_same _ _).head]
    refine foldlRecOn _ _ ?_
      fun q hq t _ => (promoteTx_head now addr q t).trans hq
    exact ((forgetAll_same _ _).trans (forgetAll_same _ _)).head

theorem dropLast_head (p : TxPool) (addr : Address) : (dropLast M p addr).currentState = p.currentState := by
  cases hl : p.pending.lookup addr with
  | none =>
    unfold dropLast
    rw [hl]
  | some l => exact (dropLast_postpones hl).frame.head

theorem insertTx_head (tx : Transaction) (isLocal : Bool) (p : TxPool) :
    (insertTx M tx isLocal p).2.currentState = p.currentState := by
  cases insertTx_inserts tx isLocal p with
  | refused h => rw [h]
  | replaced _ _ _ _ _ _ hsame => exact hsame.head
  | queued _ _ _ _ _ _ hsame => exact hsame.head

theorem head_stable (trie : AccountTrie) : Stable M X (fun _ => True) (fun p => p.currentState = trie) where
  prices _ _ h := h
  remove outofbound hash h := (removeTx_head outofbound _ hash).trans h
  promote now addr h := (promoteAccount_head now _ addr).trans h
  dropLast addr h := (dropLast_head _ addr).trans h
  add tx isLocal _ h := add_keeps (fun p => p.currentState = trie) (fun h _ => h) (fun h => h) (fun _ _ h => h)
    (fun outofbound hash h => (removeTx_head outofbound _ hash).trans h) isLocal
    (fun _ _ h => (insertTx_head tx isLocal _).trans h) h

section
variable (p addr)

theorem demoteAccount_head : (demoteAccount M p addr).currentState = p.currentState := by
  unfold demoteAccount
  split
  · rfl
  · rw [(putPending_frame _ _ _).head, enqueueAll_head, enqueueAll_head]
    exact ((forgetAll_same _ _).trans (forgetAll_same _ _)).head

theorem followPending_frame : Frame addr p (followPending p addr) := by
  unfold followPending
  split
  · exact (Same.refl p).frame addr
  · exact setNext_frame p addr _

theorem followPending_lists : (followPending p addr).pending = p.pending ∧ (followPending p addr).queue = p.queue := by
  unfold followPending
  split <;> exact ⟨rfl, rfl⟩

end

theorem reset_head (σ : Schedule) (now : Nat) (head : Head) (reinject : List Transaction) (p : TxPool) :
    (reset M X σ now head reinject p).currentState = head.trie := by
  have hs : Stable M X (fun _ => True) (fun p => p.currentState = head.trie) := head_stable head.trie
  refine hs.promoteExecutables σ now none ?_
  refine foldlRecOn _ _ ?_ fun q hq addr _ => (followPending_frame q addr).head.trans hq
  refine foldlRecOn _ _ ?_
    fun q hq addr _ => (demoteAccount_head q addr).trans hq
  exact hs.addTxsLocked σ now false reinject (fun _ _ => trivial) rfl

end Okchain.Txpool
