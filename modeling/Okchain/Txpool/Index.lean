import Okchain.Txpool.Invariant

/-! The index of the pool agrees with its lists.

`pool.all` finds a transaction by its hash, and every operation updates it by hand. An operation on one account is
described by a permutation of what the account held, split into what was dropped and what is still held. The nonces of
an account are all different, so moving a transaction to the other list is never refused.
-/
namespace Okchain.Txpool
open Lib State Protos Core List Option

def Distinct (l : List Transaction) : Prop := l.Pairwise (fun a b => a.nonce ≠ b.nonce)

def TxPool.held (p : TxPool) (a : Address) : List Transaction := p.pendingOf a ++ p.queueOf a

/-- **The invariant of the index.** -/
structure Indexed (M : Machine) (p : TxPool) : Prop where
  sender : ∀ a, ∀ t ∈ p.held a, txSender M t = a
  distinct : ∀ a, Distinct (p.held a)
  found : ∀ a, ∀ t ∈ p.held a, p.all.lookup (t.hash M.toEnv) = some t
  known : ∀ h t, p.all.lookup h = some t → t.hash M.toEnv = h ∧ t ∈ p.held (txSender M t)
  loose : ∀ a list, p.queue.lookup a = some list → list.strict = false

variable {M : Machine} {X : Rules} {p q r : TxPool} {a b addr : Address} {tx s t : Transaction}
  {txs dropped l l' : List Transaction}

/-! ### Lists with different nonces -/

theorem Distinct.perm (h : Distinct l) (hp : l.Perm l') : Distinct l' :=
  (hp.pairwise_iff fun hne => hne.symm).mp h

theorem Distinct.ne_of_append (h : Distinct (l ++ l')) (hs : s ∈ l) (ht : t ∈ l') : s.nonce ≠ t.nonce :=
  (pairwise_append.mp h).2.2 s hs t ht

theorem Distinct.right (h : Distinct (l ++ l')) : Distinct l' := (pairwise_append.mp h).2.1

theorem Distinct.left (h : Distinct (l ++ l')) : Distinct l := (pairwise_append.mp h).1

theorem TxSortedMap.distinct (m : TxSortedMap) : Distinct m.items :=
  m.sorted.imp fun {a b} hlt (heq : a.nonce = b.nonce) => UInt64.lt_irrefl b.nonce (heq ▸ hlt)

theorem TxList.distinct (list : TxList) : Distinct list.flatten := list.txs.distinct

variable {m : TxSortedMap} {nonce : UInt64}

theorem TxSortedMap.put_free (h : ∀ t ∈ m.items, t.nonce ≠ tx.nonce) :
    m.get tx.nonce = none ∧ (m.put tx).items.Perm (tx :: m.items) := by
  refine ⟨?_, ?_⟩
  · rw [← not_isSome_iff_eq_none, get_isSome_iff]
    rintro ⟨t, ht, heq⟩
    exact h t ht heq
  · have hall : m.items.filter (·.nonce ≠ tx.nonce) = m.items :=
      filter_eq_self.mpr fun t ht => decide_eq_true (h t ht)
    have hput := m.put_perm tx
    rwa [hall] at hput

theorem TxList.add_free {list : TxList} (bump : UInt64) (h : ∀ t ∈ list.flatten, t.nonce ≠ tx.nonce) :
    ∃ list', list.add tx bump = some (none, list') ∧ list'.flatten.Perm (tx :: list.flatten) := by
  obtain ⟨hnone, hperm⟩ := TxSortedMap.put_free h
  obtain ⟨list', hadd⟩ := TxList.add_new bump hnone
  exact ⟨list', hadd, (TxList.add_some hadd).1 ▸ hperm⟩

/-! ### The index -/

theorem Indexed.eq_of_hash (h : Indexed M p) (hs : s ∈ p.held a) (ht : t ∈ p.held b)
    (heq : s.hash M.toEnv = t.hash M.toEnv) : s = t :=
  some.inj ((h.found a s hs).symm.trans (heq ▸ h.found b t ht))

/-- What is held and not dropped with others of its account is still known when those are forgotten. -/
theorem Indexed.still_known (h : Indexed M p) (hheld : (p.held addr).Perm (dropped ++ l)) (ht : t ∈ l) :
    (if t.hash M.toEnv ∈ dropped.map (·.hash M.toEnv) then none else p.all.lookup (t.hash M.toEnv)) = some t := by
  have hmem : t ∈ p.held addr := hheld.mem_iff.mpr (mem_append_right _ ht)
  rw [if_neg, h.found addr t hmem]
  intro hdropped
  obtain ⟨d, hd, heq⟩ := mem_map.mp hdropped
  have heq := h.eq_of_hash (hheld.mem_iff.mpr (mem_append_left _ hd)) hmem heq
  exact ((h.distinct addr).perm hheld).ne_of_append hd ht (congrArg Transaction.nonce heq)

/-- Some transactions of one account were dropped, and the others moved between its lists at most. -/
structure Moves (M : Machine) (addr : Address) (dropped : List Transaction) (p q : TxPool) : Prop where
  frame : Frame addr p q
  perm : (p.held addr).Perm (dropped ++ q.held addr)
  all : ∀ h, q.all.lookup h = if h ∈ dropped.map (·.hash M.toEnv) then none else p.all.lookup h
  loose : ∀ list, q.queue.lookup addr = some list → list.strict = false

theorem Frame.held (h : Frame addr p q) (ha : a ≠ addr) : q.held a = p.held a := by
  unfold TxPool.held
  rw [h.pendingOf ha, h.queueOf ha]

theorem Moves.sub (hm : Moves M addr dropped p q) (ht : t ∈ q.held a) : t ∈ p.held a := by
  by_cases ha : a = addr
  · rw [ha] at ht ⊢
    exact hm.perm.mem_iff.mpr (mem_append_right _ ht)
  · rwa [hm.frame.held ha] at ht

theorem Frame.loose (h : Frame addr p q) (hp : ∀ a list, p.queue.lookup a = some list → list.strict = false)
    (hq : ∀ list, q.queue.lookup addr = some list → list.strict = false) (a : Address) (list : TxList)
    (hlookup : q.queue.lookup a = some list) : list.strict = false := by
  by_cases ha : a = addr
  · exact hq list (ha ▸ hlookup)
  · exact hp a list (h.queue a ha ▸ hlookup)

/-- **What is dropped from its list and from the index alike leaves them in agreement.** -/
theorem Indexed.moves (h : Indexed M p) (hm : Moves M addr dropped p q) : Indexed M q := by
  have hdropped : ∀ t ∈ dropped, t ∈ p.held addr := fun t ht => hm.perm.mem_iff.mpr (mem_append_left _ ht)
  have hapart : ∀ a, ∀ t ∈ q.held a, t ∉ dropped := by
    intro a t ht hd
    by_cases ha : a = addr
    · rw [ha] at ht
      exact ((h.distinct addr).perm hm.perm).ne_of_append hd ht rfl
    · exact ha ((h.sender a t (hm.sub ht)).symm.trans (h.sender addr t (hdropped t hd)))
  have hkept : ∀ a, ∀ t ∈ q.held a, q.all.lookup (t.hash M.toEnv) = p.all.lookup (t.hash M.toEnv) := by
    intro a t ht
    rw [hm.all, if_neg]
    intro hmem
    obtain ⟨d, hd, heq⟩ := mem_map.mp hmem
    exact hapart a t ht (h.eq_of_hash (hdropped d hd) (hm.sub ht) heq ▸ hd)
  refine ⟨fun a t ht => h.sender a t (hm.sub ht), fun a => ?_, fun a t ht => ?_, fun hash t hlookup => ?_,
    hm.frame.loose h.loose hm.loose⟩
  · by_cases ha : a = addr
    · rw [ha]
      exact ((h.distinct addr).perm hm.perm).right
    · rw [hm.frame.held ha]
      exact h.distinct a
  · rw [hkept a t ht]
    exact h.found a t (hm.sub ht)
  · rw [hm.all] at hlookup
    split at hlookup
    · exact nomatch hlookup
    rename_i hmem
    obtain ⟨heq, ht⟩ := h.known hash t hlookup
    refine ⟨heq, ?_⟩
    by_cases ha : txSender M t = addr
    · rw [ha] at ht ⊢
      refine (mem_append.mp (hm.perm.mem_iff.mp ht)).resolve_left fun hd => hmem ?_
      exact heq ▸ mem_map_of_mem hd
    · rwa [hm.frame.held ha]

/-- A transaction that is not known was put in, perhaps in the place of another with its nonce. -/
structure Replaces (M : Machine) (old : Option Transaction) (tx : Transaction) (p q : TxPool) : Prop where
  frame : Frame (txSender M tx) p q
  perm : ∃ rest, (p.held (txSender M tx)).Perm (old.toList ++ rest) ∧ (q.held (txSender M tx)).Perm (tx :: rest) ∧
    ∀ t ∈ rest, t.nonce ≠ tx.nonce
  all : Indexes M old tx p q
  loose : ∀ list, q.queue.lookup (txSender M tx) = some list → list.strict = false

variable {old : Option Transaction}

theorem Replaces.old_held (hr : Replaces M old tx p q) (ht : t ∈ old.toList) : t ∈ p.held (txSender M tx) := by
  obtain ⟨rest, hp, -, -⟩ := hr.perm
  exact hp.mem_iff.mpr (mem_append_left _ ht)

theorem Replaces.held (hr : Replaces M old tx p q) (h : Indexed M p) (ht : t ∈ q.held a) :
    t = tx ∧ a = txSender M tx ∨ t ∈ p.held a ∧ t ∉ old.toList := by
  obtain ⟨rest, hp, hq, -⟩ := hr.perm
  by_cases ha : a = txSender M tx
  · rw [ha] at ht ⊢
    rcases mem_cons.mp (hq.mem_iff.mp ht) with heq | ht
    · exact .inl ⟨heq, rfl⟩
    · refine .inr ⟨hp.mem_iff.mpr (mem_append_right _ ht), fun ho => ?_⟩
      exact ((h.distinct _).perm hp).ne_of_append ho ht rfl
  · rw [hr.frame.held ha] at ht
    refine .inr ⟨ht, fun ho => ha ?_⟩
    exact (h.sender a t ht).symm.trans (h.sender _ t (hr.old_held ho))

open TxPool (held indexed pendingOf putPending queueOf unlist)

/-- **What is put into a list and into the index alike leaves them in agreement.** -/
theorem Indexed.replaces (h : Indexed M p) (hr : Replaces M old tx p q)
    (hunknown : p.all.lookup (tx.hash M.toEnv) = none) : Indexed M q := by
  obtain ⟨rest, hp, hq, hfree⟩ := hr.perm
  refine ⟨fun a t ht => ?_, fun a => ?_, fun a t ht => ?_, fun hash t hlookup => ?_, hr.frame.loose h.loose hr.loose⟩
  · rcases hr.held h ht with ⟨rfl, rfl⟩ | ⟨ht, -⟩
    · rfl
    · exact h.sender a t ht
  · by_cases ha : a = txSender M tx
    · rw [ha]
      have hdistinct : Distinct (tx :: rest) :=
        .cons (fun t ht heq => hfree t ht heq.symm) ((h.distinct _).perm hp).right
      exact hdistinct.perm hq.symm
    · rw [hr.frame.held ha]
      exact h.distinct a
  · rw [hr.all hunknown]
    rcases hr.held h ht with ⟨rfl, -⟩ | ⟨ht, hnot⟩
    · rw [if_pos rfl]
    · have hfound := h.found a t ht
      rw [if_neg, if_neg, hfound]
      · intro hmem
        obtain ⟨o, ho, heq⟩ := mem_map.mp hmem
        exact hnot (h.eq_of_hash (hr.old_held ho) ht heq ▸ ho)
      · intro heq
        rw [heq, hunknown] at hfound
        exact nomatch hfound
  · rw [hr.all hunknown] at hlookup
    split at hlookup
    · rename_i heq
      rw [← some.inj hlookup]
      exact ⟨heq.symm, hq.mem_iff.mpr mem_cons_self⟩
    · split at hlookup
      · exact nomatch hlookup
      rename_i hmem
      obtain ⟨heq, ht⟩ := h.known hash t hlookup
      refine ⟨heq, ?_⟩
      by_cases ha : txSender M t = txSender M tx
      · rw [ha] at ht ⊢
        refine hq.mem_iff.mpr (mem_cons_of_mem _ ?_)
        refine (mem_append.mp (hp.mem_iff.mp ht)).resolve_left fun ho => hmem ?_
        exact heq ▸ mem_map_of_mem ho
      · rwa [hr.frame.held ha]

/-! ### Moving transactions to the queue -/

theorem indexed_known (hknown : p.all.lookup (tx.hash M.toEnv) = some t) : p.indexed M none tx = p := by
  show (if (p.all.lookup (tx.hash M.toEnv)).isNone = true then _ else p) = p
  rw [hknown]
  rfl

/-- Transactions that the index knows were added to the queue of the account. -/
structure Queues (addr : Address) (txs : List Transaction) (p q : TxPool) : Prop where
  requeues : Requeues addr p q
  perm : (q.queueOf addr).Perm (txs ++ p.queueOf addr)
  all : q.all = p.all
  loose : (∀ list, p.queue.lookup addr = some list → list.strict = false) →
    ∀ list, q.queue.lookup addr = some list → list.strict = false

theorem strict_getD (h : ∀ list, p.queue.lookup addr = some list → list.strict = false) :
    ((p.queue.lookup addr).getD (.new false)).strict = false := by
  cases hlist : p.queue.lookup addr with
  | none => rfl
  | some list => exact h list hlist

theorem enqueueTx_free (hknown : p.all.lookup (tx.hash M.toEnv) = some t)
    (hfree : ∀ t ∈ p.queueOf (txSender M tx), t.nonce ≠ tx.nonce) :
    ∃ q, enqueueTx M tx p = some (false, q) ∧ Queues (txSender M tx) [tx] p q := by
  have hflat : _ = p.queueOf (txSender M tx) := TxList.flatten_getD (p.queue.lookup (txSender M tx)) false
  rw [← hflat] at hfree
  obtain ⟨list, hadd, hperm⟩ := TxList.add_free p.config.priceBump hfree
  rw [hflat] at hperm
  have hsame : indexed M {p with queue := p.queue.insert (txSender M tx) list} none tx =
      {p with queue := p.queue.insert (txSender M tx) list} := indexed_known hknown
  have henqueue : enqueueTx M tx p = some (false, {p with queue := p.queue.insert (txSender M tx) list}) := by
    unfold enqueueTx
    dsimp only
    rw [hadd]
    dsimp only
    rw [hsame]
    rfl
  refine ⟨_, henqueue, enqueueTx_requeues henqueue, ?_, rfl, fun hloose l hl => ?_⟩
  · rw [queueOf_of_lookup (AList.lookup_insert _)]
    exact hperm
  · rw [AList.lookup_insert, some.injEq] at hl
    rw [← hl, (TxList.add_some hadd).2.1]
    exact strict_getD hloose

/-- **Postponing transactions of an account is never refused**, as their nonces are not in the queue. -/
theorem enqueueAll_free (txs : List Transaction) (hsender : ∀ t ∈ txs, txSender M t = addr)
    (hknown : ∀ t ∈ txs, p.all.lookup (t.hash M.toEnv) = some t) (hfree : Distinct (txs ++ p.queueOf addr)) :
    Queues addr txs p (enqueueAll M txs p) := by
  induction txs generalizing p with
  | nil => exact ⟨(Same.refl p).requeues addr, .refl _, rfl, id⟩
  | cons tx rest ih =>
    obtain ⟨hne, hrest⟩ := pairwise_cons.mp hfree
    have htx := hsender tx mem_cons_self
    obtain ⟨q, henqueue, hone⟩ := enqueueTx_free (hknown tx mem_cons_self)
      (fun t ht => (hne t (mem_append_right _ (htx ▸ ht))).symm)
    rw [htx] at hone
    have hstep : enqueueAll M (tx :: rest) p = enqueueAll M rest q := by simp [enqueueAll, henqueue]
    have hmoved : (tx :: (rest ++ p.queueOf addr)).Perm (rest ++ q.queueOf addr) :=
      perm_middle.symm.trans (hone.perm.symm.append_left rest)
    obtain ⟨hrequeues, hperm, hall, hloose⟩ := ih (fun t ht => hsender t (mem_cons_of_mem _ ht))
      (fun t ht => hone.all ▸ hknown t (mem_cons_of_mem _ ht)) (Distinct.perm hfree hmoved)
    rw [hstep]
    refine ⟨hone.requeues.trans hrequeues, ?_, hall.trans hone.all, hloose ∘ hone.loose⟩
    exact hperm.trans hmoved.symm

/-! ### Removal -/

section
variable (p addr)

theorem lowerNonce_all (nonce : UInt64) : (p.lowerNonce addr nonce).all = p.all := by
  unfold TxPool.lowerNonce
  split <;> rfl

theorem putPending_all (list : TxList) : (p.putPending addr list).all = p.all := by
  unfold putPending
  split <;> rfl

theorem putPending_queue (list : TxList) : (p.putPending addr list).queue = p.queue := by
  unfold putPending
  split <;> rfl

end

theorem putQueue_loose {list : TxList} (h : list.strict = false) (l : TxList)
    (hl : (p.putQueue addr list).queue.lookup addr = some l) : l.strict = false := by
  unfold TxPool.putQueue at hl
  split at hl
  · simp at hl
  · rw [AList.lookup_insert, some.injEq] at hl
    rwa [← hl]

theorem Distinct.filter_nonce (h : Distinct l) (htx : tx ∈ l) : l.filter (·.nonce = tx.nonce) = [tx] := by
  have heq : ∀ t ∈ l, t.nonce = tx.nonce → t = tx := by
    intro t ht hnonce
    by_contra hne
    have hsymm : Std.Symm fun a b : Transaction => a.nonce ≠ b.nonce := ⟨fun _ _ h => h.symm⟩
    exact List.Pairwise.forall h ht htx hne hnonce
  have hnodup : l.Nodup := h.imp fun hne heq => hne (congrArg Transaction.nonce heq)
  have hsame : l.filter (·.nonce = tx.nonce) = l.filter (· = tx) := by
    refine filter_congr fun t ht => ?_
    rw [decide_eq_decide]
    exact ⟨heq t ht, congrArg Transaction.nonce⟩
  rw [hsame, filter_eq, count_eq_one_of_mem hnodup htx]
  rfl

theorem TxList.remove_loose {list list' : TxList} {invalids : List Transaction} (hloose : list.strict = false)
    (hr : list.remove tx = some (invalids, list')) : invalids = [] ∧ list'.strict = false := by
  unfold TxList.remove at hr
  dsimp only at hr
  split at hr
  · rw [if_neg (by simp [hloose])] at hr
    cases hr
    exact ⟨rfl, hloose⟩
  · exact nomatch hr

theorem TxList.remove_isSome {list : TxList} (h : tx ∈ list.flatten) : (list.remove tx).isSome = true := by
  have hget : (list.txs.remove tx.nonce).1 = true := TxSortedMap.get_isSome_iff.mpr ⟨tx, h, rfl⟩
  unfold TxList.remove
  rw [if_pos hget]
  split <;> rfl

section
variable {kept : TxList} {moved : List Transaction}
  (hheld : (p.held addr).Perm (dropped ++ (kept.flatten ++ (moved ++ p.queueOf addr))))
include hheld

theorem Indexed.moved_sender (h : Indexed M p) (ht : t ∈ moved) : txSender M t = addr :=
  h.sender addr t (hheld.mem_iff.mpr (mem_append_right _ (mem_append_right _ (mem_append_left _ ht))))

/-- Of the pending transactions of an account some are dropped, some kept, and the others go back to its queue. -/
theorem Indexed.requeues (h : Indexed M p) (hqueue : q.queue = p.queue)
    (hall : ∀ h, q.all.lookup h = if h ∈ dropped.map (·.hash M.toEnv) then none else p.all.lookup h)
    (hpostpones : Postpones addr kept p r) (hqueued : r.queue = (enqueueAll M moved q).queue)
    (hindexed : r.all = (enqueueAll M moved q).all) : Moves M addr dropped p r := by
  have hqueueOf : q.queueOf addr = p.queueOf addr := by rw [queueOf, hqueue, queueOf]
  have hknown : ∀ t ∈ moved, q.all.lookup (t.hash M.toEnv) = some t := by
    intro t ht
    rw [hall]
    exact h.still_known hheld (mem_append_right _ (mem_append_left _ ht))
  have hqueues := enqueueAll_free moved (fun t ht => h.moved_sender hheld ht) hknown
    (by rw [hqueueOf]; exact ((h.distinct addr).perm hheld).right.right)
  refine ⟨hpostpones.frame, hheld.trans (List.Perm.append_left _ ?_), fun h => ?_, ?_⟩
  · have hperm := hqueues.perm
    have hqueuedOf : r.queueOf addr = (enqueueAll M moved q).queueOf addr := by rw [queueOf, hqueued, queueOf]
    rw [hqueueOf] at hperm
    rw [held, hpostpones.pending, hqueuedOf]
    exact hperm.symm.append_left _
  · rw [hindexed, hqueues.all]
    exact hall h
  · rw [hqueued]
    refine hqueues.loose ?_
    rw [hqueue]
    exact h.loose addr

end

/-- A transaction that is held is either pending, or queued under a nonce that is not pending. -/
theorem Indexed.pending_or_queued (h : Indexed M p) (htx : tx ∈ p.held addr) :
    (∃ list, p.pending.lookup addr = some list ∧ tx ∈ list.flatten) ∨
      (∃ list, p.queue.lookup addr = some list ∧ tx ∈ list.flatten) ∧
        ∀ list, p.pending.lookup addr = some list → ∀ t ∈ list.flatten, t.nonce ≠ tx.nonce := by
  rcases mem_append.mp htx with htx | htx
  · exact .inl (exists_of_mem_pendingOf htx)
  · refine .inr ⟨exists_of_mem_queueOf htx, fun list hlist t ht => ?_⟩
    exact (h.distinct addr).ne_of_append (pendingOf_of_lookup hlist ▸ ht) htx

/-- **`removeTx` drops one transaction and keeps the others.** -/
theorem removeTx_moves (h : Indexed M p) (outofbound : Bool) {hash : Hash} (hlookup : p.all.lookup hash = some tx) :
    Moves M (txSender M tx) [tx] p (removeTx M outofbound p hash) := by
  obtain ⟨rfl, htx⟩ := h.known hash tx hlookup
  unfold removeTx
  rw [hlookup]
  dsimp only
  generalize hq : ({p with all := _, priced := _} : TxPool) = q
  have hsame : Same p q := by
    rw [← hq]
    exact ⟨rfl, rfl, rfl, rfl⟩
  have hall : ∀ h, q.all.lookup h = if h ∈ [tx].map (·.hash M.toEnv) then none else p.all.lookup h := by
    rw [← hq]
    exact lookup_forgetAll [tx] p
  rcases h.pending_or_queued htx with ⟨list, hlist, hmem⟩ | ⟨⟨list, hlist, hmem⟩, hfree⟩
  · have hlist' : q.pending.lookup (txSender M tx) = some list := by rwa [hsame.pending]
    obtain ⟨r, hremove⟩ := isSome_iff_exists.mp (TxList.remove_isSome hmem)
    have hperm := TxList.remove_perm hremove
    rw [list.distinct.filter_nonce hmem] at hperm
    -- what was pending after it is still in the index, and its nonces are not in the queue
    have hheld : (p.held (txSender M tx)).Perm ([tx] ++ (r.2.flatten ++ (r.1 ++ p.queueOf (txSender M tx)))) := by
      unfold held
      rw [pendingOf_of_lookup hlist]
      refine (hperm.symm.append_right _).trans ?_
      rw [append_assoc, append_assoc]
      exact (perm_append_comm_assoc _ _ _).append_left _
    have hunlist : q.unlist M tx =
        (enqueueAll M r.1 (q.putPending (txSender M tx) r.2)).lowerNonce (txSender M tx) tx.nonce := by
      unfold unlist
      dsimp only
      rw [hlist', bind_some, hremove]
    obtain ⟨hframe, hpending, hstrict⟩ := (unlist_pending hlist' hremove fun t ht => h.moved_sender hheld ht).1
    refine h.requeues (q := q.putPending (txSender M tx) r.2) hheld ?_ (fun h => ?_)
      ⟨(hsame.frame _).trans hframe, hpending, hstrict⟩ ?_ ?_
    · rw [putPending_queue, hsame.queue]
    · rw [putPending_all, hall]
    · rw [hunlist, lowerNonce_queue]
    · rw [hunlist, lowerNonce_all]
  · have hlist' : q.queue.lookup (txSender M tx) = some list := by rwa [hsame.queue]
    obtain ⟨r, hremove⟩ := isSome_iff_exists.mp (TxList.remove_isSome hmem)
    obtain ⟨hnil, hloose⟩ := TxList.remove_loose (h.loose _ list hlist) hremove
    have hperm := TxList.remove_perm hremove
    rw [list.distinct.filter_nonce hmem, hnil] at hperm
    have hnone : (q.pending.lookup (txSender M tx)).bind (·.remove tx) = none := by
      rw [hsame.pending, bind_eq_none_iff]
      intro pending hpending
      have hget : (pending.txs.remove tx.nonce).1 = false := by
        rw [Bool.eq_false_iff]
        intro hget
        obtain ⟨t, ht, heq⟩ := TxSortedMap.get_isSome_iff.mp hget
        exact hfree pending hpending t ht heq
      unfold TxList.remove
      dsimp only
      rw [hget]
      rfl
    have hunlist : q.unlist M tx = q.putQueue (txSender M tx) r.2 := by
      unfold unlist
      dsimp only
      rw [hnone, hlist']
      dsimp only
      rw [hremove]
      rfl
    rw [hunlist]
    refine ⟨(hsame.frame _).trans (putQueue_frame q _ _), ?_, hall, putQueue_loose hloose⟩
    unfold held
    rw [queueOf_of_lookup hlist, queueOf_putQueue]
    have hpending : (q.putQueue (txSender M tx) r.2).pendingOf (txSender M tx) = p.pendingOf (txSender M tx) := by
      rw [← hsame.pendingOf]
      rfl
    rw [hpending]
    exact (hperm.symm.append_left _).trans (perm_append_comm_assoc _ _ _)

/-! ### Promotion -/

/-- **Promoting transactions of an account is never refused**, as their nonces are not pending. -/
theorem promoteAll_free (addr : Address) (now : Nat) (ready : List Transaction)
    (hknown : ∀ t ∈ ready, p.all.lookup (t.hash M.toEnv) = some t) (hfree : Distinct (ready ++ p.pendingOf addr)) :
    let q := ready.foldl (promoteTx M now addr) p
    Frame addr p q ∧ (q.pendingOf addr).Perm (ready ++ p.pendingOf addr) ∧ q.queue = p.queue ∧ q.all = p.all := by
  induction ready generalizing p with
  | nil => exact ⟨(Same.refl p).frame addr, .refl _, rfl, rfl⟩
  | cons tx rest ih =>
    obtain ⟨hne, -⟩ := pairwise_cons.mp hfree
    have hflat : _ = p.pendingOf addr := TxList.flatten_getD (p.pending.lookup addr) true
    have hother : ∀ t ∈ ((p.pending.lookup addr).getD (.new true)).flatten, t.nonce ≠ tx.nonce :=
      fun t ht => (hne t (mem_append_right _ (hflat ▸ ht))).symm
    obtain ⟨list, hadd, hperm⟩ := TxList.add_free p.config.priceBump hother
    rw [hflat] at hperm
    have hpromotes := promoteTx_promotes (M := M) now hadd
    have hall : (promoteTx M now addr p tx).all = p.all := by
      have hsame : indexed M {p with pending := p.pending.insert addr list} none tx =
          {p with pending := p.pending.insert addr list} := indexed_known (hknown tx mem_cons_self)
      unfold promoteTx
      rw [hadd]
      dsimp only
      rw [hsame]
    have hmoved : (tx :: (rest ++ p.pendingOf addr)).Perm (rest ++ (promoteTx M now addr p tx).pendingOf addr) := by
      rw [pendingOf_of_lookup hpromotes.pending]
      exact perm_middle.symm.trans (hperm.symm.append_left rest)
    obtain ⟨hf, hp, hq, ha⟩ := ih
      (fun t ht => hall ▸ hknown t (mem_cons_of_mem _ ht)) (Distinct.perm hfree hmoved)
    exact ⟨hpromotes.frame.trans hf, hp.trans hmoved.symm, hq.trans hpromotes.queue, ha.trans hall⟩

theorem forgetAll_append (p : TxPool) (txs txs' : List Transaction) :
    (p.forgetAll M txs).forgetAll M txs' = p.forgetAll M (txs ++ txs') := (foldl_append).symm

/-- What a promotion takes from the queue: too old, too much gas, ready, or beyond the limit of the queue. -/
theorem promoteAccount_moves (h : Indexed M p) (now : Nat) (addr : Address) :
    ∃ dropped, Moves M addr dropped p (promoteAccount M now p addr) := by
  unfold promoteAccount
  cases hlookup : p.queue.lookup addr with
  | none => exact ⟨[], (Same.refl p).frame addr, .refl _, fun _ => rfl, h.loose addr⟩
  | some list =>
    dsimp only
    have hloose := h.loose addr list hlookup
    have hold := list.forward_perm (p.headNonce addr)
    have hrest := (list.forward (p.headNonce addr)).2.filter_perm
      ((StateDB.new p.currentState).getBalance addr) p.currentMaxGas
    have hreststrict := (list.forward (p.headNonce addr)).2.filter_strict
      ((StateDB.new p.currentState).getBalance addr) p.currentMaxGas
    rw [TxList.filter_loose (l := (list.forward (p.headNonce addr)).2) hloose, nil_append] at hrest
    generalize (list.forward (p.headNonce addr)).2.filter _ p.currentMaxGas = rest at hrest hreststrict ⊢
    have hsplit := rest.2.2.ready_append (p.pendingState.getNonce addr)
    have hreadystrict : (rest.2.2.ready (p.pendingState.getNonce addr)).2.strict = false := hreststrict.trans hloose
    generalize rest.2.2.ready (p.pendingState.getNonce addr) = ready at hsplit hreadystrict ⊢
    rw [forgetAll_append]
    have hheld : (p.held addr).Perm
        ((list.forward (p.headNonce addr)).1 ++ rest.1 ++ (ready.1 ++ p.pendingOf addr ++ ready.2.flatten)) := by
      unfold held
      rw [queueOf_of_lookup hlookup]
      refine perm_iff_count.mpr fun t => ?_
      have h₁ := hold.count_eq t
      have h₂ := hrest.count_eq t
      have h₃ := congrArg (count t) hsplit
      simp only [count_append] at h₁ h₂ h₃ ⊢
      omega
    generalize (list.forward (p.headNonce addr)).1 ++ rest.1 = old at hheld ⊢
    have hdistinct := (h.distinct addr).perm hheld
    have hsame := forgetAll_same (M := M) old p
    have hall := lookup_forgetAll (M := M) old p
    generalize p.forgetAll M old = q at hsame hall ⊢
    have hknown : ∀ t ∈ ready.1, q.all.lookup (t.hash M.toEnv) = some t := by
      intro t ht
      rw [hall]
      exact h.still_known hheld (mem_append_left _ (mem_append_left _ ht))
    obtain ⟨hframe, hpending, hqueue, hpromoted⟩ := promoteAll_free addr now ready.1 hknown
      (by rw [hsame.pendingOf]; exact hdistinct.right.left)
    generalize ready.1.foldl (promoteTx M now addr) q = r at hframe hpending hqueue hpromoted ⊢
    generalize hover : (if r.locals.contains addr then ([], ready.2) else ready.2.cap r.config.accountQueue.toNat) = excess
    have hoverperm : (excess.1 ++ excess.2.flatten).Perm ready.2.flatten := by
      rw [← hover]
      split
      · exact .refl _
      · exact TxList.cap_perm _ _
    have hoverstrict : excess.2.strict = false := by
      rw [← hover]
      split <;> exact hreadystrict
    have hforget := forgetAll_same (M := M) excess.1 r
    refine ⟨old ++ excess.1, ?_, ?_, fun h => ?_, putQueue_loose hoverstrict⟩
    · exact (((hsame.frame addr).trans hframe).trans (hforget.frame addr)).trans (putQueue_frame _ _ _)
    · have hfinal : ((r.forgetAll M excess.1).putQueue addr excess.2).pendingOf addr = r.pendingOf addr := by
        rw [← hforget.pendingOf]
        rfl
      refine hheld.trans ?_
      unfold held
      rw [hfinal, queueOf_putQueue]
      rw [hsame.pendingOf] at hpending
      refine perm_iff_count.mpr fun t => ?_
      have h₁ := hoverperm.count_eq t
      have h₂ := hpending.count_eq t
      simp only [count_append] at h₁ h₂ ⊢
      omega
    · show (r.forgetAll M excess.1).all.lookup h = _
      rw [lookup_forgetAll, hpromoted, hall, map_append]
      simp only [mem_append]
      by_cases hmem : h ∈ excess.1.map (·.hash M.toEnv)
      · rw [if_pos hmem, if_pos (.inr hmem)]
      · simp only [hmem, if_false, or_false]

theorem dropLast_moves (h : Indexed M p) (addr : Address) : ∃ dropped, Moves M addr dropped p (dropLast M p addr) := by
  cases hlookup : p.pending.lookup addr with
  | none =>
    unfold dropLast
    rw [hlookup]
    exact ⟨[], (Same.refl p).frame addr, .refl _, fun _ => rfl, h.loose addr⟩
  | some list =>
    have hpostpones := dropLast_postpones (M := M) hlookup
    have hqueue : (dropLast M p addr).queue = p.queue := by
      unfold dropLast
      rw [hlookup]
      refine foldlRecOn (motive := fun q : TxPool => q.queue = p.queue) _ _ rfl fun q hq t _ => ?_
      rw [lowerNonce_queue]
      exact hq
    refine ⟨(list.cap (list.len - 1)).1, hpostpones.frame, ?_, fun h => ?_, fun l hl => h.loose addr l (hqueue ▸ hl)⟩
    · unfold held
      rw [hpostpones.pending, pendingOf_of_lookup hlookup, queueOf, queueOf, hqueue, ← append_assoc]
      exact (list.cap_perm _).symm.append_right _
    · unfold dropLast
      rw [hlookup]
      exact lookup_foldl_forget (fun _ _ => lowerNonce_all _ _ _) _ _ h

/-! ### Admission -/

theorem TxSortedMap.get_perm (m : TxSortedMap) (nonce : UInt64) :
    m.items.Perm ((m.get nonce).toList ++ m.items.filter (·.nonce ≠ nonce)) := by
  have hsplit := (filter_append_perm (fun t : Transaction => decide (t.nonce = nonce)) m.items).symm
  have hget : m.items.filter (·.nonce = nonce) = (m.get nonce).toList := by
    cases hfind : m.get nonce with
    | none =>
      have hnone := find?_eq_none.mp hfind
      exact filter_eq_nil_iff.mpr hnone
    | some t =>
      have hnonce : t.nonce = nonce := by simpa using find?_some hfind
      rw [← hnonce]
      exact m.distinct.filter_nonce (mem_of_find?_eq_some hfind)
  rw [hget] at hsplit
  have hrest : (m.items.filter fun t => !decide (t.nonce = nonce)) = m.items.filter (·.nonce ≠ nonce) :=
    filter_congr fun t _ => (decide_not).symm
  rwa [hrest] at hsplit

/-- A transaction is put into one of the lists of its sender, whose others do not have its nonce. -/
theorem Replaces.of_put (hframe : Frame (txSender M tx) p q)
    (hp : (p.held (txSender M tx)).Perm (m.items ++ l)) (hq : (q.held (txSender M tx)).Perm ((m.put tx).items ++ l))
    (hfree : ∀ t ∈ l, t.nonce ≠ tx.nonce)
    (hall : Indexes M (m.get tx.nonce) tx p q)
    (hloose : ∀ list, q.queue.lookup (txSender M tx) = some list → list.strict = false) :
    Replaces M (m.get tx.nonce) tx p q := by
  refine ⟨hframe, ⟨m.items.filter (·.nonce ≠ tx.nonce) ++ l, ?_, ?_, fun t ht => ?_⟩, hall, hloose⟩
  · rw [← append_assoc]
    exact hp.trans ((m.get_perm tx.nonce).append_right _)
  · exact hq.trans ((m.put_perm tx).append_right _)
  · rcases mem_append.mp ht with ht | ht
    · exact of_decide_eq_true (mem_filter.mp ht).2
    · exact hfree t ht

theorem insertTx_replaces (h : Indexed M p) (tx : Transaction) (isLocal : Bool) :
    (insertTx M tx isLocal p).2 = p ∨ ∃ old, Replaces M old tx p (insertTx M tx isLocal p).2 := by
  have hinserts := insertTx_inserts (M := M) tx isLocal p
  generalize (insertTx M tx isLocal p).2 = q at hinserts ⊢
  cases hinserts with
  | refused heq => exact .inl heq
  | replaced l list hl hoverlaps hlist _ hsame hall =>
    refine .inr ⟨_, .of_put ((insertPending_frame p _ list).trans (hsame.frame _)) (l := p.queueOf (txSender M tx)) ?_ ?_
      (fun t ht => ?_) hall fun l' hl' => h.loose _ l' (hsame.queue ▸ hl')⟩
    · unfold held
      rw [pendingOf_of_lookup hl]
      exact .refl _
    · unfold held
      rw [hsame.pendingOf, hsame.queueOf, pendingOf_of_lookup (AList.lookup_insert _), hlist]
      exact .refl _
    · obtain ⟨o, ho, hnonce⟩ := TxSortedMap.get_isSome_iff.mp hoverlaps
      exact hnonce ▸ ((h.distinct _).ne_of_append (pendingOf_of_lookup hl ▸ ho) ht).symm
  | queued l list hl hfree hlist hstrict hsame hall =>
    have hqueue : l.flatten = p.queueOf (txSender M tx) := hl ▸ TxList.flatten_getD _ false
    refine .inr ⟨_, .of_put ((insertQueue_requeues p _ list).frame.trans (hsame.frame _)) ?_ ?_ hfree hall fun l' hl' => ?_⟩
    · unfold held
      rw [← hqueue]
      exact perm_append_comm
    · unfold held
      rw [hsame.pendingOf, hsame.queueOf, queueOf_of_lookup (AList.lookup_insert _), hlist]
      exact perm_append_comm
    · rw [hsame.queue, AList.lookup_insert, some.injEq] at hl'
      rw [← hl', hstrict, ← hl]
      exact strict_getD (h.loose _)

theorem Indexed.of_eq (h : Indexed M p) (hpending : q.pending = p.pending) (hqueue : q.queue = p.queue)
    (hall : q.all = p.all) : Indexed M q := by
  have hheld : q.held = p.held := by
    unfold held pendingOf queueOf
    rw [hpending, hqueue]
  refine ⟨?_, ?_, ?_, ?_, ?_⟩
  · rw [hheld]
    exact h.sender
  · rw [hheld]
    exact h.distinct
  · rw [hheld, hall]
    exact h.found
  · rw [hheld, hall]
    exact h.known
  · rw [hqueue]
    exact h.loose

/-- What is not known stays so while others are removed. -/
theorem removeTx_unknown (h : Indexed M p) (outofbound : Bool) (hash : Hash) {unknown : Hash}
    (hunknown : p.all.lookup unknown = none) : (removeTx M outofbound p hash).all.lookup unknown = none := by
  cases hlookup : p.all.lookup hash with
  | none =>
    unfold removeTx
    rwa [hlookup]
  | some tx =>
    rw [(removeTx_moves h outofbound hlookup).all, hunknown, ite_self]

/-- What it takes to be stable for an invariant that includes the index: an admitted transaction is not known yet when
it is inserted. -/
theorem Stable.of_indexed {fit : Transaction → Prop} {Inv : TxPool → Prop} (hindexed : ∀ {p}, Inv p → Indexed M p)
    (hprices : ∀ {p} price priced, Inv p → Inv {p with gasPrice := price, priced := priced})
    (hremove : ∀ {p} outofbound hash, Inv p → Inv (removeTx M outofbound p hash))
    (hpromote : ∀ {p} now addr, Inv p → Inv (promoteAccount M now p addr))
    (hdrop : ∀ {p} addr, Inv p → Inv (Txpool.dropLast M p addr))
    (hinsert : ∀ {p tx} isLocal, Admitted M X tx → fit tx → p.all.lookup (tx.hash M.toEnv) = none → Inv p →
      Inv (insertTx M tx isLocal p).2) : Stable M X fit Inv where
  prices := hprices
  remove := hremove
  promote := hpromote
  dropLast := hdrop
  add tx isLocal hfit h := add_keeps (fun p => Inv p ∧ p.all.lookup (tx.hash M.toEnv) = none)
    (fun h hunknown => ⟨h, hunknown⟩) And.left (fun _ _ h => ⟨hprices _ _ h.1, h.2⟩)
    (fun b hash h => ⟨hremove b hash h.1, removeTx_unknown (hindexed h.1) b hash h.2⟩) isLocal
    (fun htx _ h => hinsert isLocal htx hfit h.2 h.1) h

/-! ### A new head -/

/-- What a new head takes from a pending list: too old, too much gas, or given back to the queue. -/
theorem demoteAccount_moves (h : Indexed M p) (addr : Address) :
    ∃ dropped, Moves M addr dropped p (demoteAccount M p addr) := by
  cases hlookup : p.pending.lookup addr with
  | none =>
    unfold demoteAccount
    rw [hlookup]
    exact ⟨[], (Same.refl p).frame addr, .refl _, fun _ => rfl, h.loose addr⟩
  | some list =>
    have hsender : ∀ t ∈ list.flatten, txSender M t = addr := fun t ht =>
      h.sender addr t (mem_append_left _ (pendingOf_of_lookup hlookup ▸ ht))
    have hpostpones := (demoteAccount_postpones hlookup hsender).1
    have hold := list.forward_perm (p.headNonce addr)
    have hrest := (list.forward (p.headNonce addr)).2.filter_perm
      ((StateDB.new p.currentState).getBalance addr) p.currentMaxGas
    unfold demoteAccount at hpostpones ⊢
    rw [hlookup] at hpostpones ⊢
    dsimp only at hpostpones ⊢
    generalize (list.forward (p.headNonce addr)).2.filter _ p.currentMaxGas = rest at hpostpones hrest ⊢
    have hgapped : ((if rest.2.2.txs.get (p.headNonce addr) = none then rest.2.2.cap 0 else ([], rest.2.2)).1 ++
        (if rest.2.2.txs.get (p.headNonce addr) = none then rest.2.2.cap 0 else ([], rest.2.2)).2.flatten).Perm
        rest.2.2.flatten := by
      split
      · exact TxList.cap_perm _ _
      · exact .refl _
    generalize (if rest.2.2.txs.get (p.headNonce addr) = none then rest.2.2.cap 0 else ([], rest.2.2)) = gapped
      at hpostpones hgapped ⊢
    rw [forgetAll_append] at hpostpones ⊢
    have hheld : (p.held addr).Perm ((list.forward (p.headNonce addr)).1 ++ rest.1 ++
        (gapped.2.flatten ++ (rest.2.1 ++ gapped.1 ++ p.queueOf addr))) := by
      unfold held
      rw [pendingOf_of_lookup hlookup]
      refine perm_iff_count.mpr fun t => ?_
      have h₁ := hold.count_eq t
      have h₂ := hrest.count_eq t
      have h₃ := hgapped.count_eq t
      simp only [count_append] at h₁ h₂ h₃ ⊢
      omega
    generalize (list.forward (p.headNonce addr)).1 ++ rest.1 = old at hheld hpostpones ⊢
    have henqueue : enqueueAll M gapped.1 (enqueueAll M rest.2.1 (p.forgetAll M old)) =
        enqueueAll M (rest.2.1 ++ gapped.1) (p.forgetAll M old) := foldl_append.symm
    rw [henqueue] at hpostpones ⊢
    exact ⟨old, h.requeues hheld (forgetAll_same old p).queue (lookup_forgetAll old p) hpostpones
      (putPending_queue _ _ _) (putPending_all _ _ _)⟩

/-! ### Every pool -/

/-- A pool whose index agrees with its lists, which hold admitted transactions only. -/
structure Stocked (M : Machine) (X : Rules) (fit : Transaction → Prop) (p : TxPool) : Prop extends Indexed M p where
  good : ∀ a, ∀ t ∈ p.held a, Admitted M X t ∧ fit t

section Stocked
variable {fit : Transaction → Prop}

section
variable (h : Stocked M X fit p)
include h

theorem Stocked.owning : Owning M X fit p := fun a t ht =>
  ⟨h.sender a t (mem_append.mpr ht), h.good a t (mem_append.mpr ht)⟩

theorem Stocked.moves (hm : Moves M addr dropped p q) : Stocked M X fit q :=
  ⟨h.toIndexed.moves hm, fun a t ht => h.good a t (hm.sub ht)⟩

theorem Stocked.of_eq (hpending : q.pending = p.pending) (hqueue : q.queue = p.queue)
    (hall : q.all = p.all) : Stocked M X fit q := by
  refine ⟨h.toIndexed.of_eq hpending hqueue hall, ?_⟩
  unfold held pendingOf queueOf
  rw [hpending, hqueue]
  exact h.good

theorem Stocked.onHead (head : Head) : Stocked M X fit (p.onHead head) := h.of_eq rfl rfl rfl

theorem removeTx_stocked (outofbound : Bool) (hash : Hash) : Stocked M X fit (removeTx M outofbound p hash) := by
  cases hlookup : p.all.lookup hash with
  | none =>
    unfold removeTx
    rwa [hlookup]
  | some tx => exact h.moves (removeTx_moves h.toIndexed outofbound hlookup)

theorem promoteAccount_stocked (now : Nat) (addr : Address) : Stocked M X fit (promoteAccount M now p addr) := by
  obtain ⟨dropped, hmoves⟩ := promoteAccount_moves h.toIndexed now addr
  exact h.moves hmoves

theorem dropLast_stocked (addr : Address) : Stocked M X fit (dropLast M p addr) := by
  obtain ⟨dropped, hmoves⟩ := dropLast_moves h.toIndexed addr
  exact h.moves hmoves

theorem insertTx_stocked (isLocal : Bool) (htx : Admitted M X tx) (hfit : fit tx)
    (hunknown : p.all.lookup (tx.hash M.toEnv) = none) : Stocked M X fit (insertTx M tx isLocal p).2 := by
  rcases insertTx_replaces h.toIndexed tx isLocal with heq | ⟨old, hreplaces⟩
  · rwa [heq]
  · refine ⟨h.toIndexed.replaces hreplaces hunknown, fun a t ht => ?_⟩
    rcases hreplaces.held h.toIndexed ht with ⟨rfl, -⟩ | ⟨ht, -⟩
    · exact ⟨htx, hfit⟩
    · exact h.good a t ht

theorem demoteAccount_stocked (addr : Address) : Stocked M X fit (demoteAccount M p addr) := by
  obtain ⟨dropped, hmoves⟩ := demoteAccount_moves h.toIndexed addr
  exact h.moves hmoves

end

theorem stocked_stable : Stable M X fit (Stocked M X fit) :=
  .of_indexed (·.toIndexed) (fun _ _ h => h.of_eq rfl rfl rfl) (fun outofbound hash h => removeTx_stocked h outofbound hash)
    (fun now addr h => promoteAccount_stocked h now addr) (fun addr h => dropLast_stocked h addr)
    fun isLocal htx hfit hunknown h => insertTx_stocked h isLocal htx hfit hunknown

theorem followPending_all (p : TxPool) (addr : Address) : (followPending p addr).all = p.all := by
  unfold followPending
  split <;> rfl

theorem followPending_stocked (h : Stocked M X fit p) (addr : Address) : Stocked M X fit (followPending p addr) :=
  h.of_eq (followPending_lists p addr).1 (followPending_lists p addr).2 (followPending_all p addr)

theorem demoteUnexecutables_stocked (h : Stocked M X fit p) (σ : Schedule) :
    Stocked M X fit (demoteUnexecutables M σ p) :=
  foldlRecOn _ _ h fun _ h addr _ => demoteAccount_stocked h addr

theorem reset_stocked (h : Stocked M X fit p) (σ : Schedule) (now : Nat) (head : Head) (reinject : List Transaction)
    (hfit : ∀ t ∈ reinject, fit t) : Stocked M X fit (reset M X σ now head reinject p) := by
  unfold reset
  apply stocked_stable.promoteExecutables
  have hadded := stocked_stable.addTxsLocked σ now false reinject hfit (h.onHead head)
  exact foldlRecOn _ _ (demoteUnexecutables_stocked hadded σ) fun _ h addr _ => followPending_stocked h addr

theorem emptyPool_stocked (config : TxPoolConfig) : Stocked M X fit (emptyPool config) :=
  ⟨⟨fun _ _ ht => (nomatch ht), fun _ => .nil, fun _ _ ht => (nomatch ht), fun _ _ h => (nomatch h),
    fun _ _ h => (nomatch h)⟩, fun _ _ ht => (nomatch ht)⟩

variable {ok : TxPool → Op → Prop}

section
variable (hok : ∀ p op, ok p op → ∀ t ∈ op.txs, fit t) (hp : Reachable M X ok p)
include hok hp

theorem reachable_stocked : Stocked M X fit p :=
  hp.invariant stocked_stable hok
    (fun σ now config head => reset_stocked (emptyPool_stocked config) σ now head [] fun _ ht => (nomatch ht))
    fun {p} σ now head reinject hop h => reset_stocked h σ now head reinject (hok p _ hop)

/-- **Every transaction of a pool was admitted and is listed under its sender**, however the chain moves. -/
theorem reachable_owning : Owning M X fit p := (reachable_stocked hok hp).owning

end

end Stocked

theorem reachable_indexed {ok : TxPool → Op → Prop} (hp : Reachable M X ok p) : Indexed M p := by
  have hstocked : Stocked M X (fun _ => True) p := reachable_stocked (fun _ _ _ _ _ => trivial) hp
  exact hstocked.toIndexed

/-! ### Every transaction in one place -/

inductive Kind
  | pending
  | queue
  deriving DecidableEq

def TxPool.list (p : TxPool) (kind : Kind) (a : Address) : Option TxList :=
  match kind with
  | .pending => p.pending.lookup a
  | .queue => p.queue.lookup a

/-- What the list of an account holds under a nonce. -/
def TxPool.slot (p : TxPool) (kind : Kind) (a : Address) (nonce : UInt64) : Option Transaction :=
  (p.list kind a).bind (·.txs.get nonce)

/-- The index has exactly the hashes of what is in the lists; every transaction is in one list, that of its
sender, under its nonce; and a nonce of an account is pending or queued, not both. -/
structure Consistent (M : Machine) (p : TxPool) : Prop where
  all : ∀ h, h ∈ p.all ↔ ∃ kind a nonce t, p.slot kind a nonce = some t ∧ t.hash M.toEnv = h
  one : ∀ h ∈ p.all, ∃! place : Kind × Address × UInt64,
    ∃ t, p.slot place.1 place.2.1 place.2.2 = some t ∧ t.hash M.toEnv = h
  key : ∀ kind a nonce t, p.slot kind a nonce = some t → txSender M t = a ∧ t.nonce = nonce
  apart : ∀ a nonce, p.slot .pending a nonce = none ∨ p.slot .queue a nonce = none

theorem TxSortedMap.get_eq_some : m.get nonce = some t ↔ t ∈ m.items ∧ t.nonce = nonce := by
  constructor
  · intro h
    exact ⟨mem_of_find?_eq_some h, by simpa using find?_some h⟩
  · rintro ⟨ht, rfl⟩
    obtain ⟨s, hs⟩ := isSome_iff_exists.mp (get_isSome_iff.mpr ⟨t, ht, rfl⟩)
    have hnonce : s.nonce = t.nonce := by simpa using find?_some hs
    rw [hs, eq_of_nonce_eq (mem_of_find?_eq_some hs) ht hnonce]

theorem slot_of_lookup {lists : AList fun _ : Address => TxList} : ((lists.lookup a).bind (·.txs.get nonce)) = some t ↔
    t ∈ ((lists.lookup a).map TxList.flatten).getD [] ∧ t.nonce = nonce := by
  cases lists.lookup a with
  | none => simp
  | some list => exact TxSortedMap.get_eq_some

theorem slot_pending : p.slot .pending a nonce = some t ↔ t ∈ p.pendingOf a ∧ t.nonce = nonce := slot_of_lookup

theorem slot_queue : p.slot .queue a nonce = some t ↔ t ∈ p.queueOf a ∧ t.nonce = nonce := slot_of_lookup

theorem mem_held_iff : t ∈ p.held a ↔ ∃ kind, p.slot kind a t.nonce = some t := by
  unfold held
  rw [mem_append]
  constructor
  · rintro (ht | ht)
    · exact ⟨.pending, slot_pending.mpr ⟨ht, rfl⟩⟩
    · exact ⟨.queue, slot_queue.mpr ⟨ht, rfl⟩⟩
  · rintro ⟨kind, hslot⟩
    cases kind with
    | pending => exact .inl (slot_pending.mp hslot).1
    | queue => exact .inr (slot_queue.mp hslot).1

theorem Indexed.held_of_slot (h : Indexed M p) {kind : Kind} (hslot : p.slot kind a nonce = some t) :
    t ∈ p.held a ∧ txSender M t = a ∧ t.nonce = nonce := by
  have hnonce : t.nonce = nonce := by
    cases kind with
    | pending => exact (slot_pending.mp hslot).2
    | queue => exact (slot_queue.mp hslot).2
  have hheld : t ∈ p.held a := mem_held_iff.mpr ⟨kind, hnonce ▸ hslot⟩
  exact ⟨hheld, h.sender a t hheld, hnonce⟩

theorem Indexed.slot_apart (h : Indexed M p) (a : Address) (nonce : UInt64) :
    p.slot .pending a nonce = none ∨ p.slot .queue a nonce = none := by
  by_contra hboth
  obtain ⟨hpending, hqueue⟩ := not_or.mp hboth
  obtain ⟨s, hs⟩ := ne_none_iff_exists'.mp hpending
  obtain ⟨t, ht⟩ := ne_none_iff_exists'.mp hqueue
  obtain ⟨hs, hsnonce⟩ := slot_pending.mp hs
  obtain ⟨ht, htnonce⟩ := slot_queue.mp ht
  exact (h.distinct a).ne_of_append hs ht (hsnonce.trans htnonce.symm)

theorem Indexed.consistent (h : Indexed M p) : Consistent M p := by
  have hall : ∀ hash, hash ∈ p.all ↔ ∃ kind a nonce t, p.slot kind a nonce = some t ∧ t.hash M.toEnv = hash := by
    intro hash
    rw [← AList.lookup_isSome, isSome_iff_exists]
    constructor
    · rintro ⟨t, hlookup⟩
      obtain ⟨hhash, ht⟩ := h.known hash t hlookup
      obtain ⟨kind, hslot⟩ := mem_held_iff.mp ht
      exact ⟨kind, txSender M t, t.nonce, t, hslot, hhash⟩
    · rintro ⟨kind, a, nonce, t, hslot, hhash⟩
      exact ⟨t, hhash ▸ h.found a t (h.held_of_slot hslot).1⟩
  refine ⟨hall, fun hash hmem => ?_, fun kind a nonce t hslot => (h.held_of_slot hslot).2, h.slot_apart⟩
  obtain ⟨kind, a, nonce, t, hslot, hhash⟩ := (hall hash).mp hmem
  refine ⟨(kind, a, nonce), ⟨t, hslot, hhash⟩, ?_⟩
  rintro ⟨kind', a', nonce'⟩ ⟨t', hslot', hhash'⟩
  dsimp only at hslot'
  -- one hash is one transaction, which names its sender and its nonce
  obtain ⟨hheld, hsender, hnonce⟩ := h.held_of_slot hslot
  obtain ⟨hheld', hsender', hnonce'⟩ := h.held_of_slot hslot'
  have heq : t' = t := h.eq_of_hash hheld' hheld (hhash'.trans hhash.symm)
  obtain rfl : a' = a := by rw [← hsender', ← hsender, heq]
  obtain rfl : nonce' = nonce := by rw [← hnonce', ← hnonce, heq]
  have hkind : kind' = kind := by
    have hapart := h.slot_apart a' nonce'
    cases kind <;> cases kind' <;> simp_all
  rw [hkind]

theorem reachable_run (ops : List (Schedule × Nat × Op)) (hp : Reachable M X (fun _ _ => True) p) :
    Reachable M X (fun _ _ => True) (run M X p ops) := by
  induction ops generalizing p with
  | nil => exact hp
  | cons op rest ih => exact ih (hp.step op.1 op.2.1 op.2.2 trivial)

/-- **The index agrees with the lists after any sequence of operations.** -/
theorem pool_consistent (M : Machine) (X : Rules) (σ : Schedule) (now : Nat) (config : TxPoolConfig) (head : Head)
    (ops : List (Schedule × Nat × Op)) : Consistent M (run M X (newTxPool M X σ now config head) ops) :=
  (reachable_indexed (reachable_run ops (.init σ now config head))).consistent

end Okchain.Txpool
