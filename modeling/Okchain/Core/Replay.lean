import Okchain.Core.StateRoot
import Okchain.Vm.PlainAccount

/-! Replay protection.

Blocks are executed one after the other, each on the state its predecessor committed. Every applied
transaction should raise its sender's nonce by one, so that no transaction is applied twice. A contract
creation is the exception: `Create` gives up before it raises the nonce when the sender cannot pay the
value, and `TransitionDb` counts the transaction as applied.
-/
variable {n : UInt64}

namespace Okchain.Core
open Lib State Vm Protos List
open Proc hiding step
open Proc (Keeps Ensures)
open UInt8 (toNat toNat_add)
open Progress (init)
open StateDB (getBalance getStateObject new put record)

/-! ### Runs -/

/-- A transaction as `Process` applied it, between two states, with the state its block started from. -/
structure TxStep where
  parent : AccountTrie
  tx : Transaction
  before : StateDB
  after : StateDB

section

variable (M : Machine)

/-- Execute a block as it is inserted: process, validate, commit. -/
def executeBlock (block : TxBlock) : Proc Err StateDB Hash := do
  let _ ← processedRoot M true block
  StateDB.commit M.toDatabase false

/-- The steps of the loop in `Process`. -/
def txSteps (parent : AccountTrie) (block : TxBlock) :
    List Transaction → Nat → Progress → StateDB → List TxStep
  | [], _, _, _ => []
  | tx :: txs, i, p, s =>
    match processTx M block i tx p s with
    | (.ok p, t) => ⟨parent, tx, s, t⟩ :: txSteps parent block txs (i + 1) p t
    | (.error _, _) => []

/-- The transactions that a sequence of blocks applies. A block that cannot be executed is rejected and
changes nothing. -/
def appliedSteps : AccountTrie → List TxBlock → List TxStep
  | _, [] => []
  | trie, block :: blocks =>
    match executeBlock M block (StateDB.new trie) with
    | (.ok _, t) =>
      txSteps M trie block block.body.transactions 0 Progress.init (StateDB.new trie) ++
        appliedSteps t.trie blocks
    | (.error _, _) => appliedSteps trie blocks

def TxStep.sender (step : TxStep) : Address := senderAddress M step.tx.senderPubKey

/-- The step raises its sender's nonce by exactly one. -/
def TxStep.RaisesNonce (step : TxStep) : Prop :=
  (step.after.getNonce (step.sender M)).toNat = (step.before.getNonce (step.sender M)).toNat + 1

/-- A transaction that can be counted on to raise the nonce for good: the nonce does not wrap around, a
contract creation can be paid for together with its gas, and the block did not start with the sender
stored as an empty account. -/
structure TxStep.Regular (step : TxStep) : Prop where
  nonce : step.before.getNonce (step.sender M) ≠ 0xFFFFFFFFFFFFFFFF
  affordable : step.tx.toAddr = none →
    ((asMsg M step.tx).gasCost + step.tx.amount.toNat : Int) ≤ step.before.getBalance (step.sender M)
  stored : ∀ d, step.parent (step.sender M) = some d → d.empty M.toDatabase = false

end

/-! ### One transaction -/

/-- The account at `a` is plain and its nonce is `nonce`. -/
def Nonced (D : Database) (a : Address) (sends : Prop) (nonce : UInt64) (s : StateDB) : Prop :=
  ∃ acc, Plain D a sends nonce acc s

/-- The same between transactions, when there is no snapshot left. -/
def Settled (D : Database) (a : Address) (sends : Prop) (nonce : UInt64) (s : StateDB) : Prop :=
  Nonced D a sends nonce s ∧ s.validRevisions = []

variable {M : Machine} {a : Address} {sends : Prop} {n : UInt64}
variable {s t : StateDB} {ctx : Context} {m : Msg} {n' : UInt64} {parent : AccountTrie} {block : TxBlock}
  {step : TxStep} {steps : List TxStep}

/-- Contract execution that starts between transactions. -/
theorem nonced_of_watched {α : Type} {x : Proc Err StateDB α}
    (hx : ∀ acc start base, Keeps (Watched M.toDatabase a sends n acc start base) x) :
    Ensures (Settled M.toDatabase a sends n) x (fun _ => Nonced M.toDatabase a sends n) := by
  intro s ⟨⟨acc, hplain⟩, hrev⟩ r t h
  have hs : Watched M.toDatabase a sends n acc s.journal.length s.nextRevisionId s := by
    refine ⟨⟨hplain, [], s.journal, rfl, rfl, fun _ h => (nomatch h)⟩, fun r hr => ?_, le_refl _⟩
    rw [hrev] at hr
    exact nomatch hr
  exact ⟨acc, (hx acc _ _ s hs r t h).since.plain⟩

theorem Nonced.addBalance (hs : Nonced M.toDatabase a sends n s) (x : Address) (amount : Int) :
    Nonced M.toDatabase a sends n (s.addBalance M.toDatabase x amount) := by
  obtain ⟨acc, hplain⟩ := hs
  exact ⟨acc, (addBalance_advance hplain x amount).plain⟩

theorem Settled.setNonce (hs : Settled M.toDatabase a sends n s) (hsend : sends) (n' : UInt64) :
    Settled M.toDatabase a sends n' (s.setNonce M.toDatabase a n') := by
  obtain ⟨⟨acc, hplain⟩, hrev⟩ := hs
  obtain ⟨hadv, _⟩ := getOrNewStateObject_advance hplain a
  exact ⟨⟨acc, hplain.setNonce hsend n'⟩, hadv.revisions.trans hrev⟩

theorem getBalance_setObjectBalance {x : Address} {o : StateObject} (ho : o.deleted = false) (amount : Int) :
    (s.setObjectBalance x o amount).getBalance x = amount := by
  simp [getBalance, getStateObject, StateDB.setObjectBalance, record, put, ho]

theorem getBalance_subBalance (D : Database) (s : StateDB) (x : Address) (v : Int) :
    (s.subBalance D x v).getBalance x = s.getBalance x - v := by
  have hzero : ∀ s' : StateDB, (s'.createObject D x).getBalance x = 0 := by
    intro s'
    unfold StateDB.createObject
    cases s'.getStateObject x <;>
      simp [getBalance, getStateObject, record, put, newObject, newAccount]
  unfold StateDB.subBalance StateDB.getOrNewStateObject
  cases ho : s.getStateObject x with
  | some o =>
    have hb : s.getBalance x = o.data.balance := by simp [getBalance, ho]
    have hdel : o.deleted = false := getStateObject_deleted ho
    by_cases hv : v = 0
    · simp [hv]
    · simp only [hv, if_false]
      rw [getBalance_setObjectBalance hdel, hb]
  | none =>
    have hb : s.getBalance x = 0 := by simp [getBalance, ho]
    by_cases hv : v = 0
    · simp only [hv, if_true]
      rw [hzero, hb, Int.sub_zero]
    · simp only [hv, if_false]
      rw [getBalance_setObjectBalance rfl, hb]
      rfl

theorem preCheck_ensures (m : Msg) (gp : UInt64) (b : Int) :
    Ensures (fun s => Settled M.toDatabase a sends n s ∧ s.getBalance m.sender = b) (preCheck M m gp)
      (fun _ s => Settled M.toDatabase a sends n s ∧ (m.sender = a → m.nonce = n) ∧
        s.getBalance m.sender = b - m.gasCost) := by
  refine .bind (R := fun k s => Settled M.toDatabase a sends n s ∧ s.getBalance m.sender = b ∧
    (m.sender = a → k = n)) (.read fun s hs => ?_) fun k => ?_
  · obtain ⟨⟨acc, hplain⟩, _⟩ := hs.1
    exact ⟨hs.1, hs.2, fun h => h ▸ hplain.nonce⟩
  refine .bind (R := fun _ s => Settled M.toDatabase a sends n s ∧ s.getBalance m.sender = b ∧
    (m.sender = a → k = n) ∧ ¬k < m.nonce) (.ensure fun h s hs => ⟨hs.1, hs.2.1, hs.2.2, h⟩) fun _ => ?_
  refine .bind (R := fun _ s => Settled M.toDatabase a sends n s ∧ s.getBalance m.sender = b ∧
    (m.sender = a → m.nonce = n)) (.ensure fun h s hs => ⟨hs.1, hs.2.1, fun ha => ?_⟩) fun _ => ?_
  · rw [← hs.2.2.1 ha]
    exact UInt64.le_antisymm (UInt64.not_lt.mp hs.2.2.2) (UInt64.not_lt.mp h)
  refine .bind keeps_ensureState fun _ => .bind keeps_ensure fun _ => ?_
  refine .bind (.update fun s hs => ?_) fun _ => .pure fun _ hs => hs
  obtain ⟨⟨⟨acc, hplain⟩, hrev⟩, hb, hn⟩ := hs
  have hadv := subBalance_advance hplain m.sender m.gasCost
  refine ⟨⟨⟨acc, hadv.plain⟩, hadv.revisions.trans hrev⟩, hn, ?_⟩
  rw [getBalance_subBalance, hb]

section

variable (happart : ∀ c k, createAddress M.toEnv c k ≠ a)
include happart

theorem interpret_keeps {acc : Option Account} {start base : Nat} {self : Address} (hself : self ≠ a)
    (frame : StateDB → Frame) :
    Keeps (Watched M.toDatabase a sends n acc start base) (do
      let t ← .read fun s => M.interpret ctx (view M s) (frame s)
      exec M.toDatabase t 1 self) :=
  .bind keeps_read fun t => (watched_frame fun c k _ => happart c k).exec_keeps t 1 hself

theorem call_nonced {gas : UInt64} {builtin : RunResult} {recipient : Address} (frame : StateDB → Frame) :
    Ensures (Settled M.toDatabase a sends n)
      (call M.toDatabase 0 m.sender recipient gas m.amount builtin do
        let t ← .read fun s => M.interpret ctx (view M s) (frame s)
        exec M.toDatabase t 1 recipient)
      (fun _ => Nonced M.toDatabase a sends n) :=
  nonced_of_watched fun _ _ _ => (watched_frame fun c k _ => happart c k).call_keeps fun hq =>
    interpret_keeps happart hq frame

theorem execute_other (hm : m.sender ≠ a) (gas : UInt64) :
    Ensures (Settled M.toDatabase a sends n) (execute M ctx m gas)
      (fun _ => Nonced M.toDatabase a sends n) := by
  unfold execute
  cases m.recipient with
  | none =>
    exact nonced_of_watched fun _ _ _ => (watched_frame fun c k _ => happart c k).create_keeps hm
      fun self hself => interpret_keeps happart hself fun _ => ⟨m.sender, self, m.data, [], gas, m.amount⟩
  | some recipient =>
    refine .bind (.update fun s hs => ?_) fun _ =>
      call_nonced happart _
    obtain ⟨⟨acc, hplain⟩, hrev⟩ := hs
    have hadv := setNonce_advance hplain hm (s.getNonce m.sender + 1)
    exact ⟨⟨acc, hadv.plain⟩, hadv.revisions.trans hrev⟩

/-- A message of the account itself raises its nonce, provided that it can pay for a creation. -/
theorem execute_self (hm : m.sender = a) (hsend : sends) (gas : UInt64) :
    Ensures (fun s => Settled M.toDatabase a sends n s ∧
        (m.recipient = none → (m.amount : Int) ≤ s.getBalance m.sender)) (execute M ctx m gas)
      (fun _ => Nonced M.toDatabase a sends (n + 1)) := by
  unfold execute
  cases m.recipient with
  | none =>
    refine .bind (R := fun can s => Settled M.toDatabase a sends n s ∧ can = true)
      (.read fun s hs => ⟨hs.1, decide_eq_true (hs.2 rfl)⟩) fun can => ?_
    refine .ite (fun hdepth => absurd hdepth (Nat.not_lt_zero _)) fun _ => ?_
    refine .ite (fun hcan s hs => ?_) fun _ => ?_
    · rw [hs.2] at hcan
      exact absurd hcan (by decide)
    refine .bind (R := fun k s => Settled M.toDatabase a sends n s ∧ k = n)
      (.read fun s hs => ?_) fun k => ?_
    · obtain ⟨⟨acc, hplain⟩, _⟩ := hs.1
      exact ⟨hs.1, hm ▸ hplain.nonce⟩
    refine .bind (R := fun _ => Settled M.toDatabase a sends (n + 1)) (.update fun s hs => ?_) fun _ => ?_
    · rw [hs.2, hm]
      exact hs.1.setNonce hsend (n + 1)
    refine .bind keeps_read fun collides => .ite (fun _ => .pure fun _ hs => hs.1) fun _ => ?_
    exact nonced_of_watched fun _ _ _ => (watched_frame fun c k _ => happart c k).createContract_keeps
      (happart _ _) (interpret_keeps happart (happart _ _) _)
  | some recipient =>
    refine .bind (.update fun s hs => ?_) fun _ =>
      call_nonced happart _
    obtain ⟨⟨acc, hplain⟩, _⟩ := hs.1
    rw [hm, hplain.nonce]
    exact hs.1.setNonce hsend (n + 1)

omit happart in
theorem refundGas_keeps (m : Msg) (gas : UInt64) : Keeps (Nonced M.toDatabase a sends n) (refundGas M m gas) :=
  .bind keeps_read fun _ => .bind (.update fun _ hs => hs.addBalance _ _) fun _ => .pure fun _ hs => hs

/-- The nonce of `a` after a message. -/
def nonceAfter (a sender : Address) (n : UInt64) : UInt64 := if sender = a then n + 1 else n

/-- What has to be known about a message of `a` in the state before it. -/
def Admissible (a : Address) (sends : Prop) (m : Msg) (s : StateDB) : Prop :=
  m.sender = a → sends ∧
    (m.recipient = none → (m.gasCost + m.amount : Int) ≤ s.getBalance m.sender)

/-- **One transaction.** It carries the nonce of its sender, raises it, and leaves every other nonce
alone. -/
theorem transitionDb_ensures (ctx : Context) (m : Msg) (gp : UInt64) :
    Ensures (fun s => Settled M.toDatabase a sends n s ∧ Admissible a sends m s) (transitionDb M ctx m gp)
      (fun _ s => Nonced M.toDatabase a sends (nonceAfter a m.sender n) s ∧ (m.sender = a → m.nonce = n)) := by
  intro s ⟨hs, hadm⟩ r t h
  suffices hrun : Ensures (fun s' => Settled M.toDatabase a sends n s' ∧
      s'.getBalance m.sender = s.getBalance m.sender) (transitionDb M ctx m gp) (fun _ s' =>
      Nonced M.toDatabase a sends (nonceAfter a m.sender n) s' ∧ (m.sender = a → m.nonce = n)) from
    hrun s ⟨hs, rfl⟩ r t h
  refine .bind (preCheck_ensures m gp (s.getBalance m.sender)) fun gp' => ?_
  refine .bind keeps_lift fun intrinsic => .bind keeps_ensure fun _ => ?_
  refine .bind (R := fun _ s => Nonced M.toDatabase a sends (nonceAfter a m.sender n) s ∧
    (m.sender = a → m.nonce = n)) (fun s' ⟨hs', hn, hb⟩ r' t' h' => ⟨?_, hn⟩) fun r' => ?_
  · unfold nonceAfter
    by_cases hm : m.sender = a
    · obtain ⟨hsend, hafford⟩ := hadm hm
      rw [if_pos hm]
      refine execute_self happart hm hsend _ s' ⟨hs', fun hnone => ?_⟩ r' t' h'
      have := hafford hnone
      omega
    · rw [if_neg hm]
      exact execute_other happart hm _ s' hs' r' t' h'
  · refine .bind keeps_ensure fun _ => ?_
    refine .bind (R := fun _ s => Nonced M.toDatabase a sends (nonceAfter a m.sender n) s ∧
      (m.sender = a → m.nonce = n)) (fun s' hs' gas t' h' => ?_) fun gas => ?_
    · exact ⟨refundGas_keeps m _ s' hs'.1 gas t' h', hs'.2⟩
    · exact .bind keeps_ensure fun _ => .pure fun _ hs => hs

omit happart in
theorem finalise_ensures : Ensures (Nonced M.toDatabase a sends n)
    (StateDB.finalise M.toDatabase true) (fun _ => Settled M.toDatabase a sends n) :=
  .bind keeps_ensureState fun _ => .update fun _ hs => ⟨⟨_, hs.choose_spec.finalised⟩, rfl⟩

theorem applyTransaction_ensures (header : TxBlockHeader) (tx : Transaction) (gp usedGas : UInt64) :
    Ensures (fun s => Settled M.toDatabase a sends n s ∧ Admissible a sends (asMsg M tx) s)
      (applyTransaction M header tx gp usedGas)
      (fun _ s => Settled M.toDatabase a sends (nonceAfter a (asMsg M tx).sender n) s ∧
        ((asMsg M tx).sender = a → tx.nonce = n)) := by
  refine .bind keeps_lift fun ctx => .bind (transitionDb_ensures happart ctx _ gp) fun applied => ?_
  refine .bind (R := fun _ s => Settled M.toDatabase a sends (nonceAfter a (asMsg M tx).sender n) s ∧
    ((asMsg M tx).sender = a → tx.nonce = n)) (fun s hs u t h => ?_) fun _ => ?_
  · exact ⟨finalise_ensures s hs.1 u t h, hs.2⟩
  · exact .bind keeps_read fun _ => .pure fun _ hs => hs

theorem processTx_ensures (block : TxBlock) (i : Nat) (tx : Transaction) (p : Progress) :
    Ensures (fun s => Settled M.toDatabase a sends n s ∧ Admissible a sends (asMsg M tx) s)
      (processTx M block i tx p)
      (fun _ s => Settled M.toDatabase a sends (nonceAfter a (asMsg M tx).sender n) s ∧
        ((asMsg M tx).sender = a → tx.nonce = n)) := by
  refine .bind keeps_lift fun bhash => ?_
  refine .bind (R := fun _ s => Settled M.toDatabase a sends n s ∧ Admissible a sends (asMsg M tx) s)
    (.update fun s hs => ?_) fun _ => ?_
  · obtain ⟨⟨⟨acc, hplain⟩, hrev⟩, hadm⟩ := hs
    exact ⟨⟨⟨acc, hplain.of_sameAt ⟨rfl, rfl, Iff.rfl⟩⟩, hrev⟩, hadm⟩
  · refine .bind (applyTransaction_ensures happart _ _ _ _) fun r => ?_
    exact .bind keeps_lift fun _ => .pure fun _ hs => hs

end

/-! ### One block -/

theorem creditShard_keeps (header : TxBlockHeader) (shardId : UInt32) (reward : Int) :
    Keeps (Nonced M.toDatabase a sends n) (creditShard M header shardId reward) :=
  .bind keeps_lift fun _ => .update fun _ hs => hs.addBalance _ _

theorem creditShards_keeps (header : TxBlockHeader) (total fees : Int) (shards : List (UInt32 × Nat))
    (paid : Int) : Keeps (Nonced M.toDatabase a sends n) (creditShards M header total fees shards paid) := by
  induction shards generalizing paid with
  | nil => exact .pure fun _ hs => hs
  | cons shard rest ih =>
    cases rest with
    | nil => exact creditShard_keeps header _ _
    | cons next rest =>
      exact .bind keeps_ensure fun _ => .bind (creditShard_keeps header _ _) fun _ => ih _

theorem creditBackups_keeps (reward : Int) (coinbases : List Bytes) :
    Keeps (Nonced M.toDatabase a sends n) (creditBackups M reward coinbases) := by
  induction coinbases with
  | nil => exact .pure fun _ hs => hs
  | cons coinbase rest ih => exact .bind (.update fun _ hs => hs.addBalance _ _) fun _ => ih

theorem assignRwards_keeps (header : TxBlockHeader) (fees : Nat) (shards : List (UInt32 × Nat)) :
    Keeps (Nonced M.toDatabase a sends n) (assignRwards M header fees shards) :=
  .bind (creditShards_keeps header _ _ _ _) fun _ => .bind (creditBackups_keeps _ _) fun _ =>
    .bind keeps_lift fun _ => .update fun _ hs => hs.addBalance _ _

/-- The nonce of `a` climbs from `n` to `n'` along the steps: a step of `a` carries the nonce and raises
it, any other step leaves it. -/
def Climbs (M : Machine) (a : Address) : UInt64 → List TxStep → UInt64 → Prop
  | n, [], n' => n' = n
  | n, step :: steps, n' =>
    step.before.getNonce a = n ∧ step.after.getNonce a = nonceAfter a (step.sender M) n ∧
      (step.sender M = a → step.tx.nonce = n) ∧ Climbs M a (nonceAfter a (step.sender M) n) steps n'

theorem Climbs.append {xs ys : List TxStep} {n'' : UInt64} (hx : Climbs M a n xs n') (hy : Climbs M a n' ys n'') :
    Climbs M a n (xs ++ ys) n'' := by
  induction xs generalizing n with
  | nil => exact hx ▸ hy
  | cons step xs ih => exact ⟨hx.1, hx.2.1, hx.2.2.1, ih hx.2.2.2⟩

theorem Nonced.getNonce (hs : Nonced M.toDatabase a sends n s) : s.getNonce a = n :=
  hs.choose_spec.nonce

theorem admissible_of_regular {tx : Transaction}
    (h : (asMsg M tx).sender = a → sends ∧ TxStep.Regular M ⟨parent, tx, s, t⟩) :
    Admissible a sends (asMsg M tx) s := by
  intro ha
  obtain ⟨hsend, hreg⟩ := h ha
  refine ⟨hsend, fun hnone => hreg.affordable ?_⟩
  exact Option.map_eq_none_iff.mp hnone

variable {txs : List Transaction} {i : Nat} {p : Progress} {root : Hash} {trie : AccountTrie}

/-- **One block.** Along the transactions of a block the nonce climbs. -/
theorem txSteps_climbs (happart : ∀ c k, createAddress M.toEnv c k ≠ a)
    {p' : Progress} (hs : Settled M.toDatabase a sends n s)
    (hreg : ∀ step ∈ txSteps M parent block txs i p s, step.sender M = a → sends ∧ step.Regular M)
    (h : processTxs M block txs i p s = (.ok p', t)) :
    ∃ n', Climbs M a n (txSteps M parent block txs i p s) n' ∧ Settled M.toDatabase a sends n' t := by
  induction txs generalizing i p s n with
  | nil =>
    obtain ⟨_, rfl⟩ := pure_ok.mp h
    exact ⟨n, rfl, hs⟩
  | cons tx txs ih =>
    obtain ⟨p₁, s₁, hstep, hrest⟩ := bind_ok.mp h
    have hsteps : txSteps M parent block (tx :: txs) i p s =
        ⟨parent, tx, s, s₁⟩ :: txSteps M parent block txs (i + 1) p₁ s₁ := by
      rw [txSteps, hstep]
    rw [hsteps] at hreg ⊢
    have hadm : Admissible a sends (asMsg M tx) s := admissible_of_regular (hreg _ mem_cons_self)
    obtain ⟨hs₁, hn⟩ := processTx_ensures happart block i tx p s ⟨hs, hadm⟩ p₁ s₁ hstep
    obtain ⟨n', hclimb, ht⟩ := ih hs₁ (fun step hmem => hreg step (mem_cons_of_mem _ hmem)) hrest
    exact ⟨n', ⟨hs.1.getNonce, hs₁.1.getNonce, hn, hclimb⟩, ht⟩

theorem executeBlock_ok (h : executeBlock M block s = (.ok root, t)) :
    ∃ p u v, processTxs M block block.body.transactions 0 init s = (.ok p, u) ∧
      assignRwards M block.header p.gasFeeTotal p.gasFeeUsedShards u = (.ok ⟨⟩, v) ∧
      t.trie = (v.finalised M.toDatabase true).committedTrie M.toDatabase false := by
  obtain ⟨⟨_, _⟩, w, hroot, hcommit⟩ := bind_ok.mp h
  obtain ⟨receipts, v, hprocess, -, rfl, -⟩ := processedRoot_ok.mp hroot
  obtain ⟨p, u, htxs, hrewards⟩ := bind_ok.mp hprocess
  obtain ⟨_, v', hassign, hpure⟩ := bind_ok.mp hrewards
  obtain ⟨-, rfl⟩ := pure_ok.mp hpure
  obtain ⟨-, rfl, -⟩ := (StateDB.commit_ok M.toDatabase).mp hcommit
  exact ⟨p, u, v, htxs, hassign, rfl⟩

theorem txSteps_parent (h : step ∈ txSteps M parent block txs i p s) : step.parent = parent := by
  induction txs generalizing i p s with
  | nil => exact nomatch h
  | cons tx txs ih =>
    unfold txSteps at h
    rcases hrun : processTx M block i tx p s with ⟨e | p', t⟩
    · rw [hrun] at h
      exact nomatch h
    · rw [hrun] at h
      rcases mem_cons.mp h with rfl | h
      · rfl
      · exact ih h

/-- An executed block: the nonce climbs, and what is committed for the account has no code and the nonce
reached. -/
theorem executeBlock_climbs (happart : ∀ c k, createAddress M.toEnv c k ≠ a)
    (hcode : ∀ d, trie a = some d → d.codeHash = M.emptyCodeHash)
    (h : executeBlock M block (new trie) = (.ok root, t))
    (hreg : ∀ step ∈ txSteps M trie block block.body.transactions 0 init (new trie),
      step.sender M = a → step.Regular M) :
    (∀ d, t.trie a = some d → d.codeHash = M.emptyCodeHash) ∧
      Climbs M a (storedNonce (trie a))
        (txSteps M trie block block.body.transactions 0 init (new trie))
        (storedNonce (t.trie a)) := by
  obtain ⟨p, u, v, htxs, hassign, htrie⟩ := executeBlock_ok h
  let sends := ∃ step ∈ txSteps M trie block block.body.transactions 0 init (new trie),
    step.sender M = a
  have hnew : Settled M.toDatabase a sends (storedNonce (trie a)) (new trie) := by
    refine ⟨⟨_, plain_new fun d hd => ⟨hcode d hd, ?_⟩⟩, rfl⟩
    intro ⟨step, hmem, ha⟩
    refine (hreg step hmem ha).stored d ?_
    rw [txSteps_parent hmem, ha]
    exact hd
  obtain ⟨n', hclimb, hu⟩ := txSteps_climbs happart hnew
    (fun step hmem ha => ⟨⟨step, hmem, ha⟩, hreg step hmem ha⟩) htxs
  obtain ⟨acc, hv⟩ := assignRwards_keeps block.header _ _ u hu.1 _ v hassign
  obtain ⟨hcode', hnonce⟩ := hv.finalised.committedTrie
  rw [htrie, hnonce]
  exact ⟨hcode', hclimb⟩

/-! ### Every run -/

/-- **A run of blocks.** The nonce climbs along all applied transactions. -/
theorem appliedSteps_climbs (happart : ∀ c k, createAddress M.toEnv c k ≠ a)
    (hcode : ∀ d, trie a = some d → d.codeHash = M.emptyCodeHash) {blocks : List TxBlock}
    (hreg : ∀ step ∈ appliedSteps M trie blocks, step.sender M = a → step.Regular M) :
    ∃ n', Climbs M a (storedNonce (trie a)) (appliedSteps M trie blocks) n' := by
  induction blocks generalizing trie with
  | nil => exact ⟨_, rfl⟩
  | cons block blocks ih =>
    unfold appliedSteps at hreg ⊢
    rcases hrun : executeBlock M block (new trie) with ⟨e | root, t⟩
    · rw [hrun] at hreg
      exact ih hcode hreg
    · rw [hrun] at hreg
      obtain ⟨hcode', hclimb⟩ := executeBlock_climbs happart hcode hrun
        fun step hmem => hreg step (mem_append_left _ hmem)
      obtain ⟨n', hrest⟩ := ih hcode' fun step hmem => hreg step (mem_append_right _ hmem)
      exact ⟨n', hclimb.append hrest⟩

theorem toNat_succ (h : n ≠ 0xFFFFFFFFFFFFFFFF) : (n + 1).toNat = n.toNat + 1 := by
  have hne : n.toNat ≠ 0xFFFFFFFFFFFFFFFF := fun heq => h (UInt64.toNat.inj heq)
  have hlt := n.toNat_lt
  show (n.toNat + 1) % 2 ^ 64 = n.toNat + 1
  omega

theorem Climbs.raises (h : Climbs M a n steps n') (hmem : step ∈ steps) (ha : step.sender M = a)
    (hreg : step.Regular M) :
    step.RaisesNonce M := by
  induction steps generalizing n with
  | nil => exact nomatch hmem
  | cons head steps ih =>
    obtain ⟨hbefore, hafter, _, hrest⟩ := h
    rcases mem_cons.mp hmem with rfl | hmem
    · have hmax := hreg.nonce
      unfold TxStep.RaisesNonce
      rw [ha] at hmax ⊢
      rw [hafter, nonceAfter, if_pos ha, ← hbefore]
      exact toNat_succ hmax
    · exact ih hrest hmem

theorem Climbs.le_nonce (h : Climbs M a n steps n') (hreg : ∀ step ∈ steps, step.Regular M)
    (hmem : step ∈ steps) (ha : step.sender M = a) : n.toNat ≤ step.tx.nonce.toNat := by
  induction steps generalizing n with
  | nil => exact nomatch hmem
  | cons head steps ih =>
    obtain ⟨hbefore, _, hn, hrest⟩ := h
    rcases mem_cons.mp hmem with rfl | hmem
    · rw [hn ha]
    · have hle := ih hrest (fun s hs => hreg s (mem_cons_of_mem _ hs)) hmem
      refine le_trans ?_ hle
      unfold nonceAfter
      by_cases hhead : head.sender M = a
      · have hmax := (hreg head mem_cons_self).nonce
        rw [hhead, hbefore] at hmax
        rw [if_pos hhead, toNat_succ hmax]
        exact Nat.le_succ _
      · rw [if_neg hhead]

theorem nodup_of_climbs (hreg : ∀ step ∈ steps, step.Regular M)
    (h : ∀ step ∈ steps, ∃ n n', Climbs M (step.sender M) n steps n') :
    (steps.map fun step => (step.sender M, step.tx.nonce)).Nodup := by
  induction steps with
  | nil => exact nodup_nil
  | cons head steps ih =>
    have hreg' : ∀ step ∈ steps, step.Regular M := fun s hs => hreg s (mem_cons_of_mem _ hs)
    rw [map_cons, nodup_cons]
    refine ⟨fun hmem => ?_, ih hreg' fun step hstep => ?_⟩
    · obtain ⟨step, hstep, heq⟩ := mem_map.mp hmem
      obtain ⟨hsender, hnonce⟩ := Prod.mk.inj heq
      obtain ⟨n, n', hbefore, _, hn, hrest⟩ := h head mem_cons_self
      have hmax := (hreg head mem_cons_self).nonce
      rw [hbefore] at hmax
      have hle := hrest.le_nonce hreg' hstep hsender
      rw [nonceAfter, if_pos rfl, toNat_succ hmax, hnonce, hn rfl] at hle
      exact Nat.not_succ_le_self _ hle
    · obtain ⟨n, n', _, _, _, hrest⟩ := h step (mem_cons_of_mem _ hstep)
      exact ⟨_, n', hrest⟩

/-- **The replay theorem.** Take any sequence of blocks on a state. No contract address is the address of
a sender, and no sender has code at the start. If all applied transactions are regular, then each of them
raises its sender's nonce by one, no two of them share sender and nonce, and none is applied twice. -/
theorem replay_protected {trie : AccountTrie} {blocks : List TxBlock}
    (happart : ∀ step ∈ appliedSteps M trie blocks, ∀ c k, createAddress M.toEnv c k ≠ step.sender M)
    (hcode : ∀ step ∈ appliedSteps M trie blocks, ∀ d, trie (step.sender M) = some d →
      d.codeHash = M.emptyCodeHash)
    (hregular : ∀ step ∈ appliedSteps M trie blocks, step.Regular M) :
    (∀ step ∈ appliedSteps M trie blocks, step.RaisesNonce M) ∧
      ((appliedSteps M trie blocks).map fun step => (step.sender M, step.tx.nonce)).Nodup ∧
      ((appliedSteps M trie blocks).map TxStep.tx).Nodup := by
  have hclimb : ∀ step ∈ appliedSteps M trie blocks,
      ∃ n n', Climbs M (step.sender M) n (appliedSteps M trie blocks) n' := fun step hmem =>
    ⟨_, appliedSteps_climbs (happart step hmem) (hcode step hmem) fun s hs _ => hregular s hs⟩
  have hnodup := nodup_of_climbs hregular hclimb
  refine ⟨fun step hmem => ?_, hnodup, ?_⟩
  · obtain ⟨n, n', hstep⟩ := hclimb step hmem
    exact hstep.raises hmem rfl (hregular step hmem)
  · have hmap : ((appliedSteps M trie blocks).map fun step => (step.sender M, step.tx.nonce)) =
        ((appliedSteps M trie blocks).map TxStep.tx).map
          fun tx => (senderAddress M tx.senderPubKey, tx.nonce) := by
      rw [List.map_map]
      rfl
    rw [hmap] at hnodup
    exact hnodup.of_map _

/-! ### Two runs -/

instance (step : TxStep) : Decidable (step.Regular M) :=
  decidable_of_iff (step.before.getNonce (step.sender M) ≠ 0xFFFFFFFFFFFFFFFF ∧
      (step.tx.toAddr = none →
        ((asMsg M step.tx).gasCost + step.tx.amount.toNat : Int) ≤ step.before.getBalance (step.sender M)) ∧
      ∀ d ∈ step.parent (step.sender M), d.empty M.toDatabase = false)
    ⟨fun h => ⟨h.1, h.2.1, h.2.2⟩, fun h => ⟨h.nonce, h.affordable, h.stored⟩⟩

instance (step : TxStep) : Decidable (step.RaisesNonce M) :=
  inferInstanceAs (Decidable (_ = _))

/-- The sample machine with a digest that tells the sender's key from everything else. -/
def Machine.replaySample : Machine where
  toDatabase := {Machine.sample.toDatabase with
    keccak := fun b => if b = sampleKey.tail then bytesToHash [42] else default}
  interpret := Machine.sample.interpret
  precompile := Machine.sample.precompile
  onCurve := Machine.sample.onCurve
  blockHash := Machine.sample.blockHash
  shardingSum := Machine.sample.shardingSum
  sortShards := Machine.sample.sortShards
  sortShards_perm := Machine.sample.sortShards_perm
  sortShards_sorted := Machine.sample.sortShards_sorted

def replayTrie : AccountTrie := fun a =>
  if a = bytesToAddress [42] then
    some {newAccount Machine.replaySample.toDatabase with balance := 100000000}
  else none

/-- A call and a contract creation in two blocks. -/
def replayBlocks : List TxBlock :=
  [sampleBlock 2 [sampleTx (some [5]) 0 7], sampleBlock 3 [sampleTx none 1 9]]

/-- A key's digest input is never an RLP list: its first byte would announce more bytes than it has. -/
theorem encode_list_ne_sampleKey (l : List Rlp.Item) : Rlp.encode (.list l) ≠ sampleKey.tail := by
  intro h
  have hlen := congrArg length h
  have hseven : toNat 7 = 7 := rfl
  rw [Rlp.encode, Rlp.head] at h hlen
  rw [show sampleKey.tail = 7 :: replicate 63 7 from rfl] at h hlen
  by_cases hsize : (Rlp.encodeAll l).length < 56
  · rw [if_pos hsize] at h
    have hhead := congrArg toNat (cons.inj h).1
    simp only [toNat_add, UInt8.toNat_ofNat', show toNat 0xC0 = 0xC0 from rfl] at hhead
    omega
  · rw [if_neg hsize] at h hlen
    have hhead := congrArg toNat (cons.inj h).1
    simp only [toNat_add, UInt8.toNat_ofNat', show toNat 0xF7 = 0xF7 from rfl] at hhead
    simp only [length_append, length_cons, length_replicate] at hlen
    omega

theorem createAddress_replaySample (c : Address) (k : UInt64) :
    createAddress Machine.replaySample.toEnv c k = bytesToAddress ((default : Hash).bytes.drop 12) := by
  unfold createAddress
  rw [Env.hashList_eq]
  show bytesToAddress ((if _ = sampleKey.tail then bytesToHash [42] else default : Hash).bytes.drop 12) = _
  rw [if_neg (encode_list_ne_sampleKey _)]

/-- The theorem at these blocks; both transactions are applied. -/
theorem replay_protected_replayBlocks :
    (appliedSteps Machine.replaySample replayTrie replayBlocks).length = 2 ∧
      (∀ step ∈ appliedSteps Machine.replaySample replayTrie replayBlocks,
        step.RaisesNonce Machine.replaySample) ∧
      ((appliedSteps Machine.replaySample replayTrie replayBlocks).map TxStep.tx).Nodup := by
  have hsender : ∀ step ∈ appliedSteps Machine.replaySample replayTrie replayBlocks,
      step.sender Machine.replaySample = bytesToAddress [42] := by decide +kernel
  obtain ⟨hraises, -, hnodup⟩ := @replay_protected Machine.replaySample replayTrie replayBlocks
    (fun step hmem c k => by rw [hsender step hmem, createAddress_replaySample]; decide)
    (fun step hmem d hd => by
      rw [hsender step hmem, replayTrie, if_pos rfl, Option.some.injEq] at hd
      rw [← hd]
      rfl)
    (by decide +kernel)
  exact ⟨by decide +kernel, hraises, hnodup⟩

/-- The same contract creation in two blocks: its sender cannot pay the value, so the nonce stays and the
transaction is applied again. -/
theorem unaffordable_creation_replayed :
    (appliedSteps Machine.sample (sampleTrie 20000000)
      [sampleBlock 2 [sampleTx none 0 100000000], sampleBlock 3 [sampleTx none 0 100000000]]).map
        TxStep.tx = [sampleTx none 0 100000000, sampleTx none 0 100000000] := by
  decide +kernel

end Okchain.Core
