import Okchain.Txpool.Nonces

/-! The nonce the pool reports.

While the chain only grows and no transaction has the last nonce there is, every operation that adds or takes away
pending transactions sets the reported nonce to the first free one. A reorganisation can break it: transactions of the
discarded branch are put back one by one, and those that are refused leave a hole, while `demoteUnexecutables` looks for
a gap in front of the list only.
-/
namespace Okchain.Txpool
open Lib State Protos Core List

def Small (tx : Transaction) : Prop := tx.nonce.toNat + 1 < 2 ^ 64

/-- The reported nonce is the one after the last pending transaction. -/
def Follows (p : TxPool) (a : Address) : Prop :=
  p.pendingOf a ≠ [] → (p.next a).toNat = (p.headNonce a).toNat + (p.pendingOf a).length

structure Tight (M : Machine) (X : Rules) (p : TxPool) : Prop where
  sound : Sound M X Small p
  follows : ∀ a, Follows p a

/-- The pending nonces of an account are those from its nonce on the head state up to the reported one. -/
def Ranged (p : TxPool) (a : Address) : Prop :=
  ∀ n : Nat, (∃ t ∈ p.pendingOf a, t.nonce.toNat = n) ↔ (p.headNonce a).toNat ≤ n ∧ n < (p.next a).toNat

variable {M : Machine} {X : Rules} {p q : TxPool} {a addr : Address} {n : Nat} {tx : Transaction}

theorem afterLast_eq {txs : List Transaction} {next : UInt64} (h : InOrder n txs) (hsmall : ∀ t ∈ txs, Small t)
    (hne : txs ≠ []) : (afterLast txs next).toNat = n + txs.length := by
  have hlast := getLast?_eq_some_getLast hne
  have hmem := getLast_mem hne
  generalize txs.getLast hne = last at hlast hmem
  -- the last one has the greatest nonce
  have hnonce : last.nonce.toNat + 1 = n + txs.length := by
    have hsplit := dropLast_append_getLast? last hlast
    rw [← hsplit, inOrder_append] at h
    have hend := h.2.1
    have hlen := congrArg length hsplit
    rw [length_append, length_singleton] at hlen
    omega
  unfold afterLast
  rw [hlast, Option.map_some, Option.getD_some, UInt64.toNat_add]
  have hone : (1 : UInt64).toNat = 1 := rfl
  rw [hone, Nat.mod_eq_of_lt (hsmall last hmem), hnonce]

theorem Tight.of_frame (h : Tight M X p) (hs : Sound M X Small q) (hf : Frame addr p q) (haddr : Follows q addr) :
    Tight M X q := by
  refine ⟨hs, fun a => ?_⟩
  by_cases ha : a = addr
  · rw [ha]
    exact haddr
  · have hfollows := h.follows a
    unfold Follows at ⊢
    rw [hf.pendingOf ha, hf.headNonce, hf.next a ha]
    exact hfollows

theorem Tight.of_same (h : Tight M X p) (hs : Same p q) : Tight M X q := by
  refine ⟨h.sound.of_same hs, fun a => ?_⟩
  have hfollows := h.follows a
  unfold Follows at ⊢
  rwa [hs.pendingOf, hs.headNonce, hs.next]

theorem Follows.of_eq (h : Follows p a) (hpending : q.pendingOf a = p.pendingOf a) (hhead : q.headNonce a = p.headNonce a)
    (hnext : q.next a = p.next a) : Follows q a := by
  unfold Follows at ⊢
  rwa [hpending, hhead, hnext]

theorem Tight.requeues (h : Tight M X p) (hs : Sound M X Small q) (hr : Requeues addr p q) : Tight M X q :=
  h.of_frame hs hr.frame ((h.follows addr).of_eq (by rw [hr.pendingOf]) (hr.frame.headNonce _) (by rw [hr.next]))

section
variable (hi : Stocked M X Small p) (h : Tight M X p)
include hi h

theorem removeTx_tight (outofbound : Bool) (hash : Hash) : Tight M X (removeTx M outofbound p hash) := by
  have hsound := removeTx_sound hi h.sound outofbound hash
  cases removeTx_removes (fun a t ht => hi.sender a t (mem_append_left _ ht)) outofbound hash with
  | queued addr hrequeues => exact h.requeues hsound hrequeues
  | pending tx l list invalids hl hremove hpostpones hnext =>
    have horder := (h.sound.lists (txSender M tx)).order
    have hfollows := h.follows (txSender M tx)
    unfold Follows at hfollows
    rw [pendingOf_of_lookup hl] at horder hfollows
    obtain ⟨k, hnonce, hk, hcuts⟩ := TxList.remove_cuts horder (h.sound.strict _ l hl) hremove
    refine h.of_frame hsound hpostpones.frame fun _ => ?_
    change k < l.flatten.length at hk
    have hlt : tx.nonce < p.next (txSender M tx) := by
      rw [UInt64.lt_iff_toNat_lt, hfollows (ne_nil_of_length_pos (by omega))]
      omega
    rw [hpostpones.frame.headNonce, hpostpones.pending, hcuts.length, hnext, if_pos hlt]
    exact hnonce

theorem dropLast_tight (addr : Address) : Tight M X (dropLast M p addr) := by
  have hsound := dropLast_sound hi h.sound addr
  cases hl : p.pending.lookup addr with
  | none =>
    unfold dropLast
    rwa [hl]
  | some l =>
    have hpostpones := dropLast_postpones (M := M) hl
    refine h.of_frame hsound hpostpones.frame fun hne => ?_
    have horder := (h.sound.lists addr).order
    have hfollows := h.follows addr
    unfold Follows at hfollows
    rw [pendingOf_of_lookup hl] at horder hfollows
    have hcuts := TxList.cap_cuts horder (k := l.len - 1) (Nat.sub_le _ _)
    rw [hpostpones.pending] at hne
    have hpos := length_pos_of_ne_nil hne
    rw [hcuts.length] at hpos
    have hnext := hsound.next addr
    rw [hpostpones.frame.headNonce, hpostpones.pending, hcuts.length] at hnext ⊢
    -- the new nonce is the old one or that of a transaction that was dropped
    have hge : (p.headNonce addr).toNat + (l.len - 1) ≤ ((dropLast M p addr).next addr).toNat := by
      rcases (dropLast_next (M := M) hl).2 with heq | ⟨t, ht, heq⟩
      · change _ → _ = _ + l.len at hfollows
        rw [heq, hfollows (ne_nil_of_length_pos (Nat.lt_of_lt_of_le hpos (Nat.sub_le _ _)))]
        omega
      · rw [heq]
        exact (hcuts.above t ht).2
    omega

theorem promoteAccount_tight (now : Nat) (addr : Address) : Tight M X (promoteAccount M now p addr) := by
  have hsound := promoteAccount_sound hi h.sound now addr
  obtain ⟨ready, hc⟩ := promoteAccount_continues h.sound now addr
  refine h.of_frame hsound hc.frame fun hne => ?_
  have hfollows := h.follows addr
  rw [hc.frame.headNonce, hc.pending, hc.next]
  rw [hc.pending] at hne
  by_cases hready : ready = []
  · rw [hready, append_nil] at hne ⊢
    exact hfollows hne
  · have hsmall : ∀ t ∈ ready, Small t := fun t ht =>
      (hsound.owned addr t (.inl (hc.pending ▸ mem_append_right _ ht))).2.2
    rw [afterLast_eq hc.order hsmall hready, length_append, Nat.add_assoc]

end

theorem insertTx_tight (h : Tight M X p) (isLocal : Bool) (hi : Stocked M X Small (insertTx M tx isLocal p).2) :
    Tight M X (insertTx M tx isLocal p).2 := by
  have hsound := insertTx_sound h.sound isLocal hi
  have hinserts := insertTx_inserts (M := M) tx isLocal p
  generalize (insertTx M tx isLocal p).2 = q at hsound hinserts
  cases hinserts with
  | refused heq => rwa [heq]
  | replaced l list hl hoverlaps hlist hstrict hsame =>
    have hlookup : q.pending.lookup (txSender M tx) = some list := by
      rw [hsame.pending]
      exact AList.lookup_insert _
    refine h.of_frame hsound ((insertPending_frame p _ list).trans (hsame.frame _)) fun _ => ?_
    have hfollows := h.follows (txSender M tx)
    have horder := (h.sound.lists (txSender M tx)).order
    unfold Follows at hfollows
    rw [pendingOf_of_lookup hl] at hfollows horder
    obtain ⟨-, hlen⟩ := TxSortedMap.put_replace horder hoverlaps
    obtain ⟨old, hold, -⟩ := TxSortedMap.get_isSome_iff.mp hoverlaps
    rw [pendingOf_of_lookup hlookup, hlist, hlen, hsame.next, hsame.headNonce]
    exact hfollows (ne_nil_of_mem hold)
  | queued _ list _ _ _ _ hsame =>
    exact h.requeues hsound ((insertQueue_requeues p _ list).trans (hsame.requeues _))

theorem tight_stable : Stable M X Small (fun p => Stocked M X Small p ∧ Tight M X p) :=
  .of_indexed (·.1.toIndexed) (fun _ _ h => ⟨h.1.of_eq rfl rfl rfl, h.2.of_same ⟨rfl, rfl, rfl, rfl⟩⟩)
    (fun b hash h => ⟨removeTx_stocked h.1 b hash, removeTx_tight h.1 h.2 b hash⟩)
    (fun now addr h => ⟨promoteAccount_stocked h.1 now addr, promoteAccount_tight h.1 h.2 now addr⟩)
    (fun addr h => ⟨dropLast_stocked h.1 addr, dropLast_tight h.1 h.2 addr⟩)
    fun isLocal htx hfit hunknown h =>
      have hi := insertTx_stocked h.1 isLocal htx hfit hunknown
      ⟨hi, insertTx_tight h.2 isLocal hi⟩

/-! ### A new head -/

theorem followPending_follows (h : Sound M X Small p) (addr : Address) : Follows (followPending p addr) addr := by
  intro hne
  rw [pendingOf_followPending] at hne ⊢
  rw [(followPending_frame p addr).headNonce, next_followPending]
  exact afterLast_eq (h.lists addr).order (fun t ht => (h.owned addr t (.inl ht)).2.2) hne

/-- Once the accounts with pending transactions were gone through, all reported nonces follow. -/
theorem followAll_follows (keys : List Address) (hi : Stocked M X Small p) (h : Sound M X Small p)
    (hrest : ∀ a, a ∉ keys → Follows p a) :
    Stocked M X Small (keys.foldl followPending p) ∧ Tight M X (keys.foldl followPending p) := by
  induction keys generalizing p with
  | nil => exact ⟨hi, h, fun a => hrest a not_mem_nil⟩
  | cons addr keys ih =>
    refine ih (followPending_stocked hi addr) (followPending_sound hi h addr) fun a ha => ?_
    by_cases haddr : a = addr
    · rw [haddr]
      exact followPending_follows h addr
    · have hframe := followPending_frame p addr
      have hbefore := hrest a fun hmem => (mem_cons.mp hmem).elim haddr ha
      exact hbefore.of_eq (hframe.pendingOf haddr) (hframe.headNonce a) (hframe.next a haddr)

theorem reset_tight (hi : Stocked M X Small p) (h : Sound M X Small p) (σ : Schedule) (now : Nat) (head : Head) :
    Stocked M X Small (reset M X σ now head [] p) ∧ Tight M X (reset M X σ now head [] p) := by
  unfold reset
  apply tight_stable.promoteExecutables
  refine followAll_follows _ (demoteUnexecutables_stocked (hi.onHead head) σ) (demoteUnexecutables_sound hi h σ head)
    fun a ha hne => ?_
  obtain ⟨t, ht⟩ := exists_mem_of_ne_nil _ hne
  obtain ⟨list, hlist, -⟩ := exists_of_mem_pendingOf ht
  refine absurd ((σ.keys_perm _).mem_iff.mpr ?_) ha
  exact AList.mem_keys.mp (AList.lookup_isSome.mp (hlist ▸ rfl))

theorem Tight.ranged (h : Tight M X p) (a : Address) : Ranged p a := by
  intro n
  constructor
  · rintro ⟨t, ht, rfl⟩
    have hbounds := (h.sound.lists a).order.bounds ht
    rw [h.follows a (ne_nil_of_mem ht)]
    exact hbounds
  · rintro ⟨hge, hlt⟩
    exact (h.sound.lists a).order.exists_of_bounds hge (Nat.lt_of_lt_of_le hlt (h.sound.next a))

/-- An operation that puts nothing back and adds no transaction with the last nonce there is. -/
def Op.Steady (op : Op) : Prop := op.Grows ∧ ∀ t ∈ op.txs, Small t

/-- **The pending nonces of every account are those from its nonce on the head state up to the reported one**,
in every pool that steady operations lead to. -/
theorem pending_ranged (hp : Reachable M X (fun _ op => op.Steady) p) (a : Address) : Ranged p a := by
  refine (hp.invariant tight_stable (fun _ _ hop => hop.2) (fun σ now config head => ?_) ?_).2.ranged a
  · exact reset_tight (emptyPool_stocked config) (emptyPool_sound config) σ now head
  · intro p σ now head reinject hop h
    have hnil : reinject = [] := hop.1
    rw [hnil]
    exact reset_tight h.1 h.2.sound σ now head

/-- The pool of a node that has one pending transaction of an account with nonce 5. -/
def fivePool : TxPool :=
  run Machine.sample Rules.sample
    (newTxPool Machine.sample Rules.sample .sample 0 defaultTxPoolConfig ⟨nonceTrie 5, 100000⟩)
    [(.sample, 1, .addRemote (poolTx 5 30000))]

theorem fivePool_ranged : Ranged fivePool sampleSender := by
  refine pending_ranged (M := Machine.sample) (X := Rules.sample) ?_ sampleSender
  refine Reachable.step (Reachable.init .sample 0 defaultTxPoolConfig ⟨nonceTrie 5, 100000⟩) .sample 1
    (.addRemote (poolTx 5 30000)) ⟨trivial, fun t ht => ?_⟩
  rw [List.mem_singleton.mp ht]
  show (5 : UInt64).toNat + 1 < 2 ^ 64
  decide

/-- The head moves to a branch on which the nonce is 3. Of the two transactions that are put back, the one with
nonce 4 exceeds the gas limit of the new head and is refused. -/
def reorgPool : TxPool :=
  run Machine.sample Rules.sample fivePool
    [(.sample, 2, .reset ⟨nonceTrie 3, 50000⟩ [poolTx 4 60000, poolTx 3 30000])]

/-- **After a reorganisation the nonces 3 and 5 are pending and 4 is not.** -/
theorem reorgPool_not_ranged : (reorgPool.pendingOf sampleSender).map (·.nonce) = [3, 5] ∧
    reorgPool.headNonce sampleSender = 3 ∧ reorgPool.next sampleSender = 6 ∧ ¬Ranged reorgPool sampleSender := by
  have hnonces : (reorgPool.pendingOf sampleSender).map (·.nonce) = [3, 5] := by decide +kernel
  have hhead : reorgPool.headNonce sampleSender = 3 := by decide +kernel
  have hnext : reorgPool.next sampleSender = 6 := by decide +kernel
  refine ⟨hnonces, hhead, hnext, fun hranged => ?_⟩
  have hfour := (hranged 4).mpr (by rw [hhead, hnext]; decide)
  obtain ⟨t, ht, hnonce⟩ := hfour
  have hmem : t.nonce ∈ (reorgPool.pendingOf sampleSender).map (·.nonce) := List.mem_map_of_mem ht
  rw [hnonces] at hmem
  have hcases : t.nonce = 3 ∨ t.nonce = 5 := by simpa using hmem
  rcases hcases with heq | heq
  · rw [heq] at hnonce
    exact absurd hnonce (by decide)
  · rw [heq] at hnonce
    exact absurd hnonce (by decide)

end Okchain.Txpool
