import Okchain.Txpool.Index

/-! Pending transactions have no nonce gaps.

For every account the pending transactions carry the nonces from the account's nonce on the head state upwards, none of
them is also queued, and the nonce the pool reports is not beyond the first free one. So what is promoted continues the
pending list, and operations that take transactions away cut it. `demoteUnexecutables` cuts off the front, and postpones
the whole list if there is nothing at the new nonce. Transactions that a reorganisation puts back are added before that,
on lists that still belong to the old head, so nothing is said about those here.
-/
namespace Okchain.Txpool
open Lib State Protos Core List Option

/-- The lists of one account: pending from `n` on without gaps, and nothing both pending and queued. -/
structure Gapless (n : Nat) (pending queue : List Transaction) : Prop where
  order : InOrder n pending
  apart : ∀ s ∈ pending, ∀ t ∈ queue, s.nonce ≠ t.nonce

def Strict (p : TxPool) : Prop := ∀ a list, p.pending.lookup a = some list → list.strict = true

/-- The lists of the account begin at its nonce on the head state. -/
def Settled (p : TxPool) (a : Address) : Prop := Gapless (p.headNonce a).toNat (p.pendingOf a) (p.queueOf a)

/-- **The invariant of the pool.** -/
structure Sound (M : Machine) (X : Rules) (fit : Transaction → Prop) (p : TxPool) : Prop where
  strict : Strict p
  owned : Owning M X fit p
  lists : ∀ a, Settled p a
  next : ∀ a, (p.next a).toNat ≤ (p.headNonce a).toNat + (p.pendingOf a).length

variable {M : Machine} {X : Rules} {fit : Transaction → Prop} {p q r : TxPool} {a addr : Address} {n k : Nat} {tx : Transaction}
  {pending queue queue' : List Transaction}

/-! ### One account -/

theorem InOrder.exists_of_bounds {l : List Transaction} {m : Nat} (h : InOrder n l) (hn : n ≤ m)
    (hm : m < n + l.length) : ∃ t ∈ l, t.nonce.toNat = m := by
  induction l generalizing n with
  | nil => simp at hm; omega
  | cons first rest ih =>
    obtain ⟨hfirst, hrest⟩ := h
    by_cases heq : n = m
    · exact ⟨first, mem_cons_self, hfirst.trans heq⟩
    · rw [length_cons] at hm
      obtain ⟨t, ht, hnonce⟩ := ih hrest (by omega) (by omega)
      exact ⟨t, mem_cons_of_mem _ ht, hnonce⟩

theorem Gapless.nil (n : Nat) (queue : List Transaction) : Gapless n [] queue := ⟨trivial, fun _ h => (nomatch h)⟩

/-- A queued nonce from `n` on lies beyond the pending ones. -/
theorem Gapless.beyond (h : Gapless n pending queue) (ht : tx ∈ queue) (hn : n ≤ tx.nonce.toNat) :
    n + pending.length ≤ tx.nonce.toNat := by
  by_contra hlt
  obtain ⟨s, hs, hnonce⟩ := h.order.exists_of_bounds hn (by omega)
  exact h.apart s hs tx ht (UInt64.toNat_inj.mp hnonce)

theorem Indexed.apart (h : Indexed M p) (a : Address) : ∀ s ∈ p.pendingOf a, ∀ t ∈ p.queueOf a, s.nonce ≠ t.nonce :=
  fun _ hs _ ht => (h.distinct a).ne_of_append hs ht

variable {l list : TxList} {txs : List Transaction}

/-! ### The other accounts -/

theorem Strict.of_frame (h : Strict p) (hf : Frame addr p q)
    (haddr : ∀ l, q.pending.lookup addr = some l → l.strict = true) : Strict q := by
  intro a l hl
  by_cases ha : a = addr
  · exact haddr l (ha ▸ hl)
  · exact h a l (hf.pending a ha ▸ hl)

section
variable (h : Sound M X fit p)
include h

theorem Sound.of_frame (hi : Stocked M X fit q) (hf : Frame addr p q)
    (hstrict : ∀ list, q.pending.lookup addr = some list → list.strict = true)
    (horder : InOrder (p.headNonce addr).toNat (q.pendingOf addr))
    (hnext : (q.next addr).toNat ≤ (p.headNonce addr).toNat + (q.pendingOf addr).length) : Sound M X fit q := by
  refine ⟨h.strict.of_frame hf hstrict, hi.owning, fun a => ⟨?_, hi.toIndexed.apart a⟩, fun a => ?_⟩
  · rw [hf.headNonce]
    by_cases ha : a = addr
    · rwa [ha]
    · rw [hf.pendingOf ha]
      exact (h.lists a).order
  · rw [hf.headNonce]
    by_cases ha : a = addr
    · rwa [ha]
    · rw [hf.next a ha, hf.pendingOf ha]
      exact h.next a

theorem Sound.of_same (hs : Same p q) : Sound M X fit q := by
  refine ⟨fun a list hlist => h.strict a list (hs.pending ▸ hlist), fun a t ht => ?_, fun a => ?_, fun a => ?_⟩
  · rw [hs.pendingOf, hs.queueOf] at ht
    exact h.owned a t ht
  · unfold Settled
    rw [hs.headNonce, hs.pendingOf, hs.queueOf]
    exact h.lists a
  · rw [hs.headNonce, hs.pendingOf, hs.next]
    exact h.next a

theorem Sound.requeues (hi : Stocked M X fit q) (hr : Requeues addr p q) : Sound M X fit q := by
  refine h.of_frame hi hr.frame (fun l hl => h.strict _ l (hr.pending ▸ hl)) ?_ ?_
  · rw [hr.pendingOf]
    exact (h.lists addr).order
  · rw [hr.pendingOf, hr.next]
    exact h.next addr

theorem Sound.cut (hi : Stocked M X fit q) (hl : p.pending.lookup addr = some l)
    (hp : Postpones addr list p q) (hcuts : TxList.Cuts (p.headNonce addr).toNat k l list txs)
    (hnext : (q.next addr).toNat ≤ (p.headNonce addr).toNat + k) : Sound M X fit q := by
  have horder := (h.lists addr).order
  rw [pendingOf_of_lookup hl] at horder
  refine h.of_frame hi hp.frame (fun l' hl' => ?_) ?_ ?_
  · rw [hp.strict l' hl', hcuts.strict]
    exact h.strict addr l hl
  · rw [hp.pending]
    exact hcuts.inOrder horder
  · rwa [hp.pending, hcuts.length]

end

/-! ### Removal -/

/-- **`removeTx` keeps the invariant.** -/
theorem removeTx_sound (hi : Stocked M X fit p) (h : Sound M X fit p) (outofbound : Bool) (hash : Hash) :
    Sound M X fit (removeTx M outofbound p hash) := by
  have hi' := removeTx_stocked hi outofbound hash
  cases removeTx_removes (fun a t ht => hi.sender a t (mem_append_left _ ht)) outofbound hash with
  | queued addr hrequeues => exact h.requeues hi' hrequeues
  | pending tx l list invalids hl hremove hpostpones hnext =>
    have horder := (h.lists (txSender M tx)).order
    rw [pendingOf_of_lookup hl] at horder
    obtain ⟨k, hnonce, -, hcuts⟩ := TxList.remove_cuts horder (h.strict _ l hl) hremove
    refine h.cut hi' hl hpostpones hcuts ?_
    rw [hnext, ← hnonce]
    split
    · exact Nat.le_refl _
    · exact UInt64.le_iff_toNat_le.mp (UInt64.not_lt.mp ‹_›)

theorem dropLast_next (hl : p.pending.lookup addr = some l) :
    (∀ t ∈ (l.cap (l.len - 1)).1, ((dropLast M p addr).next addr).toNat ≤ t.nonce.toNat) ∧
      ((dropLast M p addr).next addr = p.next addr ∨
        ∃ t ∈ (l.cap (l.len - 1)).1, (dropLast M p addr).next addr = t.nonce) := by
  have hfold : ∀ (txs : List Transaction) (q : TxPool),
      let r := txs.foldl (fun p tx => (p.forget (tx.hash M.toEnv)).lowerNonce addr tx.nonce) q
      (r.next addr).toNat ≤ (q.next addr).toNat ∧ (∀ t ∈ txs, (r.next addr).toNat ≤ t.nonce.toNat) ∧
        (r.next addr = q.next addr ∨ ∃ t ∈ txs, r.next addr = t.nonce) := by
    intro txs
    induction txs with
    | nil => exact fun q => ⟨Nat.le_refl _, fun _ h => (nomatch h), .inl rfl⟩
    | cons tx rest ih =>
      intro q
      have hlower := next_lowerNonce (q.forget (tx.hash M.toEnv)) addr tx.nonce
      obtain ⟨hnonce, hnext⟩ := lowerNonce_le (q.forget (tx.hash M.toEnv)) addr tx.nonce
      obtain ⟨hle, hmem, hcases⟩ := ih ((q.forget (tx.hash M.toEnv)).lowerNonce addr tx.nonce)
      refine ⟨hle.trans hnext, fun t ht => ?_, ?_⟩
      · cases ht with
        | head => exact hle.trans hnonce
        | tail _ ht => exact hmem t ht
      · rcases hcases with heq | ⟨t, ht, heq⟩
        · rw [foldl_cons, heq, hlower]
          split
          · exact .inr ⟨tx, mem_cons_self, rfl⟩
          · exact .inl rfl
        · exact .inr ⟨t, mem_cons_of_mem _ ht, heq⟩
  unfold dropLast
  rw [hl]
  exact (hfold _ _).2

theorem dropLast_sound (hi : Stocked M X fit p) (h : Sound M X fit p) (addr : Address) :
    Sound M X fit (dropLast M p addr) := by
  cases hl : p.pending.lookup addr with
  | none =>
    unfold dropLast
    rwa [hl]
  | some l =>
    have horder := (h.lists addr).order
    rw [pendingOf_of_lookup hl] at horder
    have hcuts := TxList.cap_cuts horder (k := l.len - 1) (Nat.sub_le _ _)
    refine h.cut (dropLast_stocked hi addr) hl (dropLast_postpones hl) hcuts ?_
    obtain ⟨hdropped, hcases⟩ := dropLast_next hl
    by_cases hlen : l.len = 0
    · have hnil : l.flatten = [] := length_eq_zero_iff.mp hlen
      have hnext := h.next addr
      rw [pendingOf_of_lookup hl, hnil] at hnext
      rcases hcases with heq | ⟨t, ht, -⟩
      · rw [heq]
        exact hnext.trans (Nat.le_add_right _ _)
      · have ht := TxList.mem_cap t (.inl ht)
        rw [hnil] at ht
        exact nomatch ht
    · obtain ⟨last, hlast, hnonce⟩ := (horder.drop (m := l.len - 1) (Nat.sub_le _ _)).exists_of_bounds
        (Nat.le_refl _) (by
          rw [length_drop]
          change _ < _ + (l.len - (l.len - 1))
          omega)
      have := hdropped last (mem_reverse.mpr hlast)
      omega

/-! ### Promotion -/

theorem promoteTx_next (now : Nat) (hstrict : Strict p) (horder : InOrder n (p.pendingOf addr))
    (hnonce : tx.nonce.toNat = n + (p.pendingOf addr).length) :
    ∃ list, Promotes addr list tx p (promoteTx M now addr p tx) ∧ list.strict = true ∧
      list.flatten = p.pendingOf addr ++ [tx] := by
  have hflat : _ = p.pendingOf addr := TxList.flatten_getD (p.pending.lookup addr) true
  have hliststrict : ((p.pending.lookup addr).getD (.new true)).strict = true := by
    cases hl : p.pending.lookup addr with
    | none => rfl
    | some l => exact hstrict addr l hl
  rw [← hflat] at horder hnonce ⊢
  have hnone : ((p.pending.lookup addr).getD (.new true)).txs.get tx.nonce = none := by
    rw [← not_isSome_iff_eq_none, TxSortedMap.get_isSome_iff]
    rintro ⟨t, ht, heq⟩
    have := (horder.bounds ht).2
    rw [heq] at this
    omega
  obtain ⟨list, hadd⟩ := TxList.add_new p.config.priceBump hnone
  obtain ⟨hlist, hkept, -⟩ := TxList.add_some hadd
  exact ⟨list, promoteTx_promotes now hadd, hkept.trans hliststrict, hlist.trans (TxSortedMap.put_next horder hnonce)⟩

/-- The nonce after the last of some transactions. -/
def afterLast (txs : List Transaction) (next : UInt64) : UInt64 := (txs.getLast?.map (·.nonce + 1)).getD next

theorem afterLast_cons (tx : Transaction) (rest : List Transaction) (next : UInt64) :
    afterLast (tx :: rest) next = afterLast rest (tx.nonce + 1) := by
  unfold afterLast
  rw [getLast?_cons]
  cases rest.getLast? <;> rfl

/-- After a list without gaps comes the next nonce, if it is not lost to the wrap. -/
theorem afterLast_le {next : UInt64} (h : InOrder n txs) (hnext : next.toNat ≤ n + txs.length) :
    (afterLast txs next).toNat ≤ n + txs.length := by
  unfold afterLast
  cases hlast : txs.getLast? with
  | none => exact hnext
  | some last =>
    have hbounds := (h.bounds (mem_of_getLast? hlast)).2
    rw [map_some, getD_some, UInt64.toNat_add]
    have hone : (1 : UInt64).toNat = 1 := rfl
    omega

theorem promoteAll (now : Nat) (ready : List Transaction) (hstrict : Strict p) (horder : InOrder n (p.pendingOf addr))
    (hready : InOrder (n + (p.pendingOf addr).length) ready) :
    let q := ready.foldl (promoteTx M now addr) p
    Frame addr p q ∧ Strict q ∧ q.pendingOf addr = p.pendingOf addr ++ ready ∧
      q.next addr = afterLast ready (p.next addr) := by
  induction ready generalizing p with
  | nil => exact ⟨(Same.refl p).frame addr, hstrict, (append_nil _).symm, rfl⟩
  | cons tx rest ih =>
    obtain ⟨hnonce, hrest⟩ := hready
    obtain ⟨list, hpromotes, hliststrict, hflat⟩ := promoteTx_next now hstrict horder hnonce
    have hpending : (promoteTx M now addr p tx).pendingOf addr = p.pendingOf addr ++ [tx] :=
      (pendingOf_of_lookup hpromotes.pending).trans hflat
    have hlen : ((promoteTx M now addr p tx).pendingOf addr).length = (p.pendingOf addr).length + 1 := by
      rw [hpending, length_append, length_singleton]
    have hstrict' : Strict (promoteTx M now addr p tx) := hstrict.of_frame hpromotes.frame fun l hl => by
      rw [← some.inj (hpromotes.pending.symm.trans hl)]
      exact hliststrict
    obtain ⟨hf, hs, hp, hn⟩ := ih hstrict'
      (by rw [hpending]; exact inOrder_append.mpr ⟨horder, hnonce, trivial⟩) (by rw [hlen]; exact hrest)
    refine ⟨hpromotes.frame.trans hf, hs, ?_, ?_⟩
    · rw [foldl_cons, hp, hpending, append_assoc]
      rfl
    · rw [foldl_cons, hn, hpromotes.next, afterLast_cons]

/-- A promotion that continues the pending list of an account. -/
structure Continues (addr : Address) (ready : List Transaction) (p q : TxPool) : Prop where
  frame : Frame addr p q
  strict : Strict q
  order : InOrder ((p.headNonce addr).toNat + (p.pendingOf addr).length) ready
  pending : q.pendingOf addr = p.pendingOf addr ++ ready
  next : q.next addr = afterLast ready (p.next addr)

/-- What is promoted begins at or below the reported nonce and above everything pending. -/
theorem promoteAccount_continues (h : Sound M X fit p) (now : Nat) (addr : Address) :
    ∃ ready, Continues addr ready p (promoteAccount M now p addr) := by
  unfold promoteAccount
  cases hlookup : p.queue.lookup addr with
  | none =>
    exact ⟨[], (Same.refl p).frame addr, h.strict, trivial, (append_nil _).symm, rfl⟩
  | some list =>
    dsimp only
    have hlists := h.lists addr
    unfold Settled at hlists
    rw [queueOf_of_lookup hlookup] at hlists
    generalize hrest : (list.forward (p.headNonce addr)).2.filter _ p.currentMaxGas = rest
    -- what is left after the first two steps was queued and is not below the head's nonce
    have hkept : ∀ t ∈ rest.2.2.flatten, (p.headNonce addr).toNat + (p.pendingOf addr).length ≤ t.nonce.toNat := by
      intro t ht
      rw [← hrest] at ht
      obtain ⟨ht, hge⟩ := TxList.mem_forward (TxList.mem_filter t (.inr ht))
      exact hlists.beyond ht (UInt64.le_iff_toNat_le.mp hge)
    have hrun : InOrder ((p.headNonce addr).toNat + (p.pendingOf addr).length)
        (rest.2.2.ready (p.pendingState.getNonce addr)).1 := by
      rcases TxSortedMap.ready_inOrder rest.2.2.txs (p.pendingState.getNonce addr) with hnil | ⟨first, hmem, hle, hrun⟩
      · unfold TxList.ready
        rw [hnil]
        exact trivial
      · have hge := hkept first hmem
        have hle : first.nonce.toNat ≤ (p.next addr).toNat := UInt64.le_iff_toNat_le.mp hle
        have hnext := h.next addr
        have hfirst : first.nonce.toNat = (p.headNonce addr).toNat + (p.pendingOf addr).length := by omega
        rw [← hfirst]
        exact hrun
    generalize rest.2.2.ready (p.pendingState.getNonce addr) = ready at hrun ⊢
    have hsame : Same p ((p.forgetAll M (list.forward (p.headNonce addr)).1).forgetAll M rest.1) :=
      (forgetAll_same _ _).trans (forgetAll_same _ _)
    have h' := h.of_same hsame
    generalize (p.forgetAll M (list.forward (p.headNonce addr)).1).forgetAll M rest.1 = q at hsame h' ⊢
    rw [← hsame.headNonce, ← hsame.pendingOf] at hrun
    obtain ⟨hframe, hstrict, hpending, hnext⟩ := promoteAll now ready.1 h'.strict (h'.lists addr).order hrun
    rw [hsame.headNonce] at hrun
    rw [hsame.pendingOf] at hrun hpending
    rw [hsame.next] at hnext
    generalize ready.1.foldl (promoteTx M now addr) q = r at hframe hstrict hpending hnext ⊢
    generalize (if r.locals.contains addr then ([], ready.2) else ready.2.cap r.config.accountQueue.toNat) = excess
    have hforget := forgetAll_same (M := M) excess.1 r
    have hput := putQueue_frame (r.forgetAll M excess.1) addr excess.2
    refine ⟨ready.1, ((hsame.frame addr).trans hframe).trans ((hforget.frame addr).trans hput), ?_, hrun, ?_, ?_⟩
    · exact fun a l hl => hstrict a l (hforget.pending ▸ hl)
    · rw [← hpending, ← hforget.pendingOf]
      rfl
    · rw [← hnext, ← hforget.next]
      rfl

/-- **Promotion keeps the invariant.** -/
theorem promoteAccount_sound (hi : Stocked M X fit p) (h : Sound M X fit p) (now : Nat) (addr : Address) :
    Sound M X fit (promoteAccount M now p addr) := by
  obtain ⟨ready, hc⟩ := promoteAccount_continues h now addr
  refine h.of_frame (promoteAccount_stocked hi now addr) hc.frame (hc.strict addr) ?_ ?_
  · rw [hc.pending]
    exact inOrder_append.mpr ⟨(h.lists addr).order, hc.order⟩
  · rw [hc.pending, hc.next, length_append, ← Nat.add_assoc]
    exact afterLast_le hc.order ((h.next addr).trans (Nat.le_add_right _ _))

/-! ### Admission -/

/-- A replacement takes the nonce of what it replaces; anything else is queued. -/
theorem insertTx_sound (h : Sound M X fit p) (isLocal : Bool) (hi : Stocked M X fit (insertTx M tx isLocal p).2) :
    Sound M X fit (insertTx M tx isLocal p).2 := by
  have hinserts := insertTx_inserts (M := M) tx isLocal p
  generalize (insertTx M tx isLocal p).2 = q at hi hinserts
  cases hinserts with
  | refused heq => rwa [heq]
  | replaced l list hl hoverlaps hlist hstrict hsame =>
    have hlookup : q.pending.lookup (txSender M tx) = some list := by
      rw [hsame.pending]
      exact AList.lookup_insert _
    have horder := (h.lists (txSender M tx)).order
    have hnext := h.next (txSender M tx)
    rw [pendingOf_of_lookup hl] at horder hnext
    obtain ⟨horder, hlen⟩ := TxSortedMap.put_replace horder hoverlaps
    refine h.of_frame hi ((insertPending_frame p _ list).trans (hsame.frame _)) (fun l' hl' => ?_) ?_ ?_
    · rw [← some.inj (hlookup.symm.trans hl'), hstrict]
      exact h.strict _ l hl
    · rwa [pendingOf_of_lookup hlookup, hlist]
    · rw [pendingOf_of_lookup hlookup, hlist, hlen, hsame.next]
      exact hnext
  | queued _ list _ _ _ _ hsame =>
    exact h.requeues hi ((insertQueue_requeues p _ list).trans (hsame.requeues _))

theorem sound_stable : Stable M X fit (fun p => Stocked M X fit p ∧ Sound M X fit p) :=
  .of_indexed (·.1.toIndexed) (fun _ _ h => ⟨h.1.of_eq rfl rfl rfl, h.2.of_same ⟨rfl, rfl, rfl, rfl⟩⟩)
    (fun b hash h => ⟨removeTx_stocked h.1 b hash, removeTx_sound h.1 h.2 b hash⟩)
    (fun now addr h => ⟨promoteAccount_stocked h.1 now addr, promoteAccount_sound h.1 h.2 now addr⟩)
    (fun addr h => ⟨dropLast_stocked h.1 addr, dropLast_sound h.1 h.2 addr⟩)
    fun isLocal htx hfit hunknown h =>
      have hi := insertTx_stocked h.1 isLocal htx hfit hunknown
      ⟨hi, insertTx_sound h.2 isLocal hi⟩

/-! ### A new head -/

theorem forward_inOrder (h : InOrder n l.flatten) (nonce : UInt64) :
    InOrder (n + (nonce.toNat - n)) (l.forward nonce).2.flatten := by
  have hdrop : (l.forward nonce).2.flatten = l.flatten.drop (nonce.toNat - n) := by
    rw [← h.filter_split.2]
    refine filter_congr fun t _ => ?_
    rw [← decide_not, ← decide_not, decide_eq_decide, UInt64.lt_iff_toNat_lt]
  rw [hdrop]
  by_cases hle : nonce.toNat - n ≤ l.flatten.length
  · exact h.drop hle
  · rw [drop_of_length_le (by omega)]
    exact trivial

theorem demoteAccount_order (hstrict : Strict p) (hi : Stocked M X fit p) (horder : InOrder n (p.pendingOf addr)) :
    InOrder ((demoteAccount M p addr).headNonce addr).toNat ((demoteAccount M p addr).pendingOf addr) := by
  cases hl : p.pending.lookup addr with
  | none =>
    have hnil : p.pendingOf addr = [] := by simp [TxPool.pendingOf, hl]
    unfold demoteAccount
    rw [hl, hnil]
    exact trivial
  | some l =>
    rw [pendingOf_of_lookup hl] at horder
    have hsender : ∀ t ∈ l.flatten, txSender M t = addr := fun t ht =>
      hi.sender addr t (mem_append_left _ (pendingOf_of_lookup hl ▸ ht))
    have hpostpones := (demoteAccount_postpones hl hsender).1
    rw [hpostpones.frame.headNonce, hpostpones.pending]
    have horder := forward_inOrder horder (p.headNonce addr)
    obtain ⟨k, hcuts⟩ := TxList.filter_cuts horder (hstrict addr l hl)
      ((StateDB.new p.currentState).getBalance addr) p.currentMaxGas
    generalize (l.forward (p.headNonce addr)).2.filter _ p.currentMaxGas = rest at hcuts ⊢
    split
    · exact trivial
    · rename_i hget
      obtain ⟨first, hfirst⟩ := ne_none_iff_exists'.mp hget
      have hmem : first ∈ rest.2.2.flatten := mem_of_find?_eq_some hfirst
      have hnonce : first.nonce = p.headNonce addr := by simpa using find?_some hfirst
      have hbounds := (hcuts.inOrder horder).bounds hmem
      have heq : n + ((p.headNonce addr).toNat - n) = (p.headNonce addr).toNat := by
        rw [hnonce] at hbounds
        omega
      rw [heq] at hcuts horder
      exact hcuts.inOrder horder

theorem demoteAccount_frame (hstrict : Strict p) (hi : Stocked M X fit p) (addr : Address) :
    Frame addr p (demoteAccount M p addr) ∧ Strict (demoteAccount M p addr) ∧
      (demoteAccount M p addr).pendingState = p.pendingState := by
  cases hl : p.pending.lookup addr with
  | none =>
    unfold demoteAccount
    rw [hl]
    exact ⟨(Same.refl p).frame addr, hstrict, rfl⟩
  | some l =>
    have hsender : ∀ t ∈ l.flatten, txSender M t = addr := fun t ht =>
      hi.sender addr t (mem_append_left _ (pendingOf_of_lookup hl ▸ ht))
    obtain ⟨hpostpones, hnonces⟩ := demoteAccount_postpones hl hsender
    refine ⟨hpostpones.frame, hstrict.of_frame hpostpones.frame fun l' hl' => ?_, hnonces⟩
    rw [hpostpones.strict l' hl', ← hstrict addr l hl]
    have hfilter := (l.forward (p.headNonce addr)).2.filter_strict
      ((StateDB.new p.currentState).getBalance addr) p.currentMaxGas
    split <;> exact hfilter

theorem demoteAll_settled (keys : List Address) (hstrict : Strict p) (hi : Stocked M X fit p)
    (horder : ∀ a, ∃ n, InOrder n (p.pendingOf a)) (hrest : ∀ a, a ∉ keys → InOrder (p.headNonce a).toNat (p.pendingOf a)) :
    let q := keys.foldl (demoteAccount M) p
    Strict q ∧ Stocked M X fit q ∧ (∀ a, InOrder (q.headNonce a).toNat (q.pendingOf a)) ∧
      q.currentState = p.currentState ∧ q.pendingState = p.pendingState := by
  induction keys generalizing p with
  | nil => exact ⟨hstrict, hi, fun a => hrest a not_mem_nil, rfl, rfl⟩
  | cons addr keys ih =>
    obtain ⟨n, hn⟩ := horder addr
    have hsettled := demoteAccount_order hstrict hi hn
    obtain ⟨hframe, hstrict', hnonces⟩ := demoteAccount_frame hstrict hi addr
    have horder' : ∀ a, ∃ n, InOrder n ((demoteAccount M p addr).pendingOf a) := by
      intro a
      by_cases haddr : a = addr
      · rw [haddr]
        exact ⟨_, hsettled⟩
      · rw [hframe.pendingOf haddr]
        exact horder a
    have hrest' : ∀ a, a ∉ keys → InOrder ((demoteAccount M p addr).headNonce a).toNat ((demoteAccount M p addr).pendingOf a) := by
      intro a ha
      by_cases haddr : a = addr
      · rwa [haddr]
      · rw [hframe.headNonce, hframe.pendingOf haddr]
        exact hrest a fun h => (mem_cons.mp h).elim haddr ha
    obtain ⟨hs, ho, hl, hhead, hstate⟩ := ih hstrict' (demoteAccount_stocked hi addr) horder' hrest'
    exact ⟨hs, ho, hl, hhead.trans hframe.head, hstate.trans hnonces⟩

section
variable (p addr)

theorem pendingOf_followPending : (followPending p addr).pendingOf = p.pendingOf := by
  unfold TxPool.pendingOf
  rw [(followPending_lists p addr).1]

theorem next_followPending : (followPending p addr).next addr = afterLast (p.pendingOf addr) (p.next addr) := by
  have hlast : (p.pending.lookup addr).bind (·.flatten.getLast?) = (p.pendingOf addr).getLast? := by
    unfold TxPool.pendingOf
    cases p.pending.lookup addr <;> rfl
  unfold followPending afterLast
  rw [hlast]
  cases (p.pendingOf addr).getLast? with
  | none => rfl
  | some tx =>
    show (p.setNext addr (tx.nonce + 1)).next addr = _
    rw [next_setNext, Function.update_self]
    rfl

end

section
variable (hi : Stocked M X fit p) (h : Sound M X fit p)
include hi h

/-- The reported nonce follows the last pending transaction. -/
theorem followPending_sound (addr : Address) : Sound M X fit (followPending p addr) := by
  refine h.of_frame (followPending_stocked hi addr) (followPending_frame p addr)
    (fun l hl => h.strict addr l ((followPending_lists p addr).1 ▸ hl)) ?_ ?_
  · rw [pendingOf_followPending]
    exact (h.lists addr).order
  · rw [pendingOf_followPending, next_followPending]
    exact afterLast_le (h.lists addr).order (h.next addr)

theorem demoteUnexecutables_sound (σ : Schedule) (head : Head) :
    Sound M X fit (demoteUnexecutables M σ (p.onHead head)) := by
  have hrest : ∀ a, a ∉ σ.keys (p.onHead head).pending.keys → (p.onHead head).pendingOf a = [] := by
    intro a ha
    have hnone : (p.onHead head).pending.lookup a = none := by
      rw [AList.lookup_eq_none]
      exact fun hmem => ha ((σ.keys_perm _).mem_iff.mpr hmem)
    simp [TxPool.pendingOf, hnone]
  obtain ⟨hstrict, hi', horder, hhead, hnonces⟩ := demoteAll_settled (p := p.onHead head)
    (σ.keys (p.onHead head).pending.keys) h.strict (hi.onHead head) (fun a => ⟨_, (h.lists a).order⟩)
    (fun a ha => hrest a ha ▸ trivial)
  refine ⟨hstrict, hi'.owning, fun a => ⟨horder a, hi'.toIndexed.apart a⟩, fun a => ?_⟩
  have hnext : (demoteUnexecutables M σ (p.onHead head)).next a =
      (demoteUnexecutables M σ (p.onHead head)).headNonce a := by
    unfold TxPool.next TxPool.headNonce demoteUnexecutables
    rw [hnonces, hhead]
    rfl
  rw [hnext]
  exact Nat.le_add_right _ _

/-- **A new head that puts nothing back keeps the invariant.** -/
theorem reset_sound (σ : Schedule) (now : Nat) (head : Head) : Sound M X fit (reset M X σ now head [] p) := by
  unfold reset
  refine (sound_stable.promoteExecutables σ now none ?_).2
  have hi' := demoteUnexecutables_stocked (hi.onHead head) σ
  exact foldlRecOn (motive := fun p => Stocked M X fit p ∧ Sound M X fit p) _ _
    ⟨hi', demoteUnexecutables_sound hi h σ head⟩
    fun _ h addr _ => ⟨followPending_stocked h.1 addr, followPending_sound h.1 h.2 addr⟩

end

theorem emptyPool_sound (config : TxPoolConfig) : Sound M X fit (emptyPool config) :=
  ⟨fun _ _ hl => (nomatch hl), (emptyPool_stocked config).owning, fun _ => .nil _ _, fun _ => Nat.le_refl _⟩

/-- **While the chain only grows, the pending transactions of every account carry the nonces from its nonce on
the head state upwards.** -/
theorem reachable_sound {ok : TxPool → Op → Prop} (hgrows : ∀ p op, ok p op → op.Grows)
    (hfit : ∀ p op, ok p op → ∀ t ∈ op.txs, fit t) (hp : Reachable M X ok p) : Sound M X fit p := by
  have hreset : ∀ {p} (σ : Schedule) (now : Nat) (head : Head), Stocked M X fit p ∧ Sound M X fit p →
      Stocked M X fit (reset M X σ now head [] p) ∧ Sound M X fit (reset M X σ now head [] p) := fun σ now head h =>
    ⟨reset_stocked h.1 σ now head [] fun _ ht => (nomatch ht), reset_sound h.1 h.2 σ now head⟩
  refine (hp.invariant sound_stable hfit
    (fun σ now config head => hreset σ now head ⟨emptyPool_stocked config, emptyPool_sound config⟩) ?_).2
  intro p σ now head reinject hop h
  have hnil : reinject = [] := hgrows p _ hop
  rw [hnil]
  exact hreset σ now head h

end Okchain.Txpool
