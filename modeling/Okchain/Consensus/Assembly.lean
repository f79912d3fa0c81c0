import Okchain.Core.Funds
import Okchain.Consensus.Payout
import Okchain.Txpool.Admission
import Okchain.Txpool.Nonces

/-! From the pools of the shards to an executed block.

The leader of a shard takes the transactions of its senders from its pool, and the DS leader puts the micro blocks one
after the other. So the transactions of one sender stand in the final block as they do in one pool, with the nonces
`Process` asks for. Whether the sender can pay no one has checked: the check is commented out in `validateTx`.
-/
variable {i : Nat} {tx : Transaction}

namespace Okchain.Consensus
open Lib State Core Protos Txpool List

/-! ### The transactions of one sender -/

section Pool
variable {M : Machine} {X : Rules} {p : TxPool} {tx : Transaction}

theorem pendingTxList_sender (howned : Owning M X (fun _ => True) p) (σ : Schedule) (a : Address) :
    (pendingTxList σ p).filter (fun tx => txSender M tx = a) = p.pendingOf a := by
  have hsender : ∀ c, ∀ tx ∈ p.pendingOf c, txSender M tx = c := fun c tx htx => (howned c tx (.inl htx)).1
  have hself : (p.pendingOf a).filter (fun tx => txSender M tx = a) = p.pendingOf a :=
    filter_eq_self.mpr fun tx htx => decide_eq_true (hsender a tx htx)
  have hothers : ∀ c, c ≠ a → (p.pendingOf c).filter (fun tx => txSender M tx = a) = [] := fun c hc =>
    filter_eq_nil_iff.mpr fun tx htx heq => hc ((hsender c tx htx).symm.trans (of_decide_eq_true heq))
  have hkeys : (σ.keys p.pending.keys).Perm p.pending.keys := σ.keys_perm _
  unfold pendingTxList
  rw [filter_flatMap]
  by_cases ha : a ∈ σ.keys p.pending.keys
  · exact (Buckets.flatMap_eq_single (hkeys.nodup_iff.mpr p.pending.keys_nodup) ha fun c _ => hothers c).trans hself
  · have hnone : p.pending.lookup a = none := AList.lookup_eq_none.mpr fun h => ha (hkeys.mem_iff.mpr (AList.mem_keys.mp h))
    have hnil : p.pendingOf a = [] := by simp [TxPool.pendingOf, hnone]
    rw [hnil]
    refine flatMap_eq_nil_iff.mpr fun c hc => hothers c ?_
    rintro rfl
    exact ha hc

/-- Admission and execution name the same sender. -/
theorem senderOf_admitted (h : Txpool.Admitted M X tx) : senderOf M tx = txSender M tx := by
  unfold senderOf senderAddress txSender
  rw [if_pos h.onCurve, if_pos h.keyLength]

theorem transferGas_admitted (h : Txpool.Admitted M X tx) :
    intrinsicGas tx.data false = .ok (transferGas tx) ∧ transferGas tx ≤ 10000000 := by
  have hlen : tx.data.length ≤ 32 * 1024 := (X.data_le_size tx).trans h.size
  have hcost := intrinsicCost_lt hlen false
  have hmeter : intrinsicGas tx.data false = .ok (UInt64.ofNat (intrinsicCost tx.data false)) := by
    rw [intrinsicGas, meter_eq _ (by omega)]
    exact if_pos (by omega)
  have hgas : transferGas tx = UInt64.ofNat (intrinsicCost tx.data false) := by
    unfold transferGas
    rw [hmeter]
    rfl
  refine ⟨hmeter.trans (congrArg Except.ok hgas.symm), ?_⟩
  rw [hgas, UInt64.le_iff_toNat_le, UInt64.toNat_ofNat_of_lt' (Nat.lt_trans hcost (by decide))]
  exact Nat.le_of_lt hcost

end Pool

/-! ### The shards and their leaders -/

section
variable {P : Platform} {X : Rules} {ds : DSBlock} {head : AccountTrie} {leads : Nat → RoleShardingLead P}
  {σ : Nat → Schedule} {micro : Nat → MicroBlock} {s : PeerServer P} {l : List MicroBlock} {b : TxBlock}

/-- The micro blocks of the shards of a DS block. Every leader composes its own from its own pool, which has followed a
growing chain up to the head. -/
structure FromPools (X : Rules) (ds : DSBlock) (head : AccountTrie) (leads : Nat → RoleShardingLead P) (σ : Nat → Schedule)
    (micro : Nat → MicroBlock) : Prop where
  id : ∀ i < ds.header.shardingSum.toNat, (leads i).shardingID = UInt32.ofNat i
  dsHead : ∀ i < ds.header.shardingSum.toNat, (leads i).peerServer.dsHead = ds
  pool : ∀ i < ds.header.shardingSum.toNat, Reachable P.toMachine X (fun _ op => op.Grows) (leads i).txPool
  head : ∀ i < ds.header.shardingSum.toNat, (leads i).txPool.currentState = head
  micro : ∀ i < ds.header.shardingSum.toNat, composeMicroblock (σ i) (leads i) = .ok (micro i)

def shardOfAccount (ds : DSBlock) (a : Address) : Nat := (correspondShardID a.bytes ds.header.shardingSum).toNat

theorem micro_of_mem (hl : l.Perm ((range ds.header.shardingSum.toNat).map micro)) {m : MicroBlock} (hm : m ∈ l) :
    ∃ i < ds.header.shardingSum.toNat, m = micro i := by
  obtain ⟨i, hi, rfl⟩ := mem_map.mp (hl.mem_iff.mp hm)
  exact ⟨i, mem_range.mp hi, rfl⟩

namespace FromPools

section
variable (h : FromPools X ds head leads σ micro)
include h

section
variable (hi : i < ds.header.shardingSum.toNat)
include hi

theorem sound : Sound P.toMachine X (fun _ => True) (leads i).txPool :=
  reachable_sound (fun _ _ hop => hop) (fun _ _ _ _ _ => trivial) (h.pool i hi)

theorem transactions : (micro i).transactions =
        (pendingTxList (σ i) (leads i).txPool).filter (fun tx => shardOfAccount ds (txSender P.toMachine tx) = i) ∧
      (micro i).shardID = UInt32.ofNat i ∧ (micro i).header.dsBlockNum = ds.header.blockNumber := by
  obtain ⟨htxs, hid, hnum⟩ := composeMicroblock_ok (h.micro i hi)
  have hi' : (UInt32.ofNat i).toNat = i := UInt32.toNat_ofNat_of_lt' (hi.trans ds.header.shardingSum.toNat_lt)
  rw [filterTxs_eq (h.dsHead i hi), h.id i hi, hi'] at htxs
  exact ⟨htxs, hid.trans (h.id i hi), hnum.trans (congrArg (·.header.blockNumber) (h.dsHead i hi))⟩

theorem admitted (htx : tx ∈ (micro i).transactions) : Txpool.Admitted P.toMachine X tx := by
  rw [(h.transactions hi).1] at htx
  obtain ⟨a, -, ha⟩ := mem_flatMap.mp (mem_of_mem_filter htx)
  exact ((h.sound hi).owned a tx (.inl ha)).2.1

theorem sender (a : Address) : (micro i).transactions.filter (fun tx => txSender P.toMachine tx = a) =
      if shardOfAccount ds a = i then (leads i).txPool.pendingOf a else [] := by
  have howned := (h.sound hi).owned
  rw [(h.transactions hi).1, filter_comm, pendingTxList_sender howned]
  have hshard : ∀ tx ∈ (leads i).txPool.pendingOf a, shardOfAccount ds (txSender P.toMachine tx) = shardOfAccount ds a :=
    fun tx htx => congrArg (shardOfAccount ds) (howned a tx (.inl htx)).1
  split
  · next hshared => exact filter_eq_self.mpr fun tx htx => decide_eq_true ((hshard tx htx).trans hshared)
  · next hother => exact filter_eq_nil_iff.mpr fun tx htx heq => hother ((hshard tx htx).symm.trans (of_decide_eq_true heq))

end

end

variable (hl : l.Perm ((List.range ds.header.shardingSum.toNat).map micro))
include hl

section
variable (h : FromPools X ds head leads σ micro)
include h

theorem shardIDs : (l.map (·.shardID)).Perm ((range ds.header.shardingSum.toNat).map UInt32.ofNat) := by
  refine (hl.map _).trans (List.Perm.of_eq ?_)
  rw [map_map]
  exact map_congr_left fun i hi => (h.transactions (mem_range.mp hi)).2.1

section
variable (hcompose : composeFinalBlock s l = .ok b)
include hcompose

theorem dsBlockNum : b.header.dsBlockNum = ds.header.blockNumber := by
  obtain ⟨first, rest, previous, hash, hlist, -, hheader, -⟩ := composeFinalBlock_ok hcompose
  obtain ⟨i, hi, hfirst⟩ := micro_of_mem hl (hlist ▸ mem_cons_self)
  rw [hheader]
  rw [hfirst]
  exact (h.transactions hi).2.2

theorem admitted_composed (htx : tx ∈ b.body.transactions) : Txpool.Admitted P.toMachine X tx := by
  obtain ⟨first, rest, previous, hash, -, -, -, hbody⟩ := composeFinalBlock_ok hcompose
  rw [hbody] at htx
  obtain ⟨m, hm, htx⟩ := mem_flatMap.mp htx
  obtain ⟨i, hi, rfl⟩ := micro_of_mem hl hm
  exact h.admitted hi htx

/-- **The transactions of a sender in the final block** are those its shard's leader has pending, in that order. -/
theorem sentBy_composed {a : Address} (ha : shardOfAccount ds a < ds.header.shardingSum.toNat) :
    sentBy P.toMachine a b.body.transactions = (leads (shardOfAccount ds a)).txPool.pendingOf a := by
  have hnames : sentBy P.toMachine a b.body.transactions =
      b.body.transactions.filter (fun tx => txSender P.toMachine tx = a) := by
    refine filter_congr fun tx htx => ?_
    rw [senderOf_admitted (h.admitted_composed hl hcompose htx)]
  obtain ⟨first, rest, previous, hash, -, -, -, hbody⟩ := composeFinalBlock_ok hcompose
  have hnodup := (h.shardIDs hl).nodup_iff.mpr (shardIDs_nodup _)
  have hmine : micro (shardOfAccount ds a) ∈ l :=
    hl.mem_iff.mpr (mem_map_of_mem (mem_range.mpr ha))
  rw [hnames, hbody, filter_flatMap, Buckets.flatMap_eq_single hnodup.of_map hmine, h.sender ha, if_pos rfl]
  intro m hm hne
  obtain ⟨i, hi, rfl⟩ := micro_of_mem hl hm
  have hother : shardOfAccount ds a ≠ i := fun heq => hne (congrArg micro heq.symm)
  rw [h.sender hi, if_neg hother]

end

end

end FromPools

/-! ### Executing the block -/

structure Sustained (P : Platform) (head : AccountTrie) (b : TxBlock) : Prop where
  /-- Every transaction moves coins to an account without code. -/
  plain : ∀ tx ∈ b.body.transactions, PlainTransfer (Codeless P.toMachine head) tx
  /-- Every sender has what its transaction needs once the transfers before it are done, those to the sender as well as
  its own. -/
  funds : ∀ before tx after, b.body.transactions = before ++ tx :: after →
    Funded P.toMachine (before.foldl (balancesAfter P.toMachine) (StateDB.new head).getBalance) tx
  /-- The gas pool of the block is not used up. -/
  few : b.body.transactions.length ≤ 1000000000
  /-- There are fees to share out, or there is nobody to share with. -/
  fees : (∃ tx ∈ b.body.transactions, transferFee tx ≠ 0) ∨ OneShard P.toMachine b
  /-- The accounts of the head can be written back at the height of the block. -/
  writable : ∀ a d, head a = some d → WritableAt b.header.blockNumber.toNat d

theorem headed_composed (hcompose : composeFinalBlock s l = .ok b)
    (hstored : (P.shardingSum b.header.dsBlockNum).isSome) : Headed P.toMachine b := by
  refine ⟨?_, ?_, dsCoinBase_ne_nil hcompose, hstored⟩ <;>
  · obtain ⟨first, rest, previous, hash, -, -, hheader, -⟩ := composeFinalBlock_ok hcompose
    rw [hheader]
    rfl

theorem Sustained.affordable (h : Sustained P head b) (hpools : FromPools X ds head leads σ micro)
    (hsum : 1 ≤ ds.header.shardingSum) (hl : l.Perm ((range ds.header.shardingSum.toNat).map micro))
    (hcompose : composeFinalBlock s l = .ok b) :
    Affordable P.toMachine (Codeless P.toMachine head) (StateDB.new head).getBalance (StateDB.new head).getNonce
      b.body.transactions := by
  have hne : ds.header.shardingSum ≠ 0 := by
    intro hzero
    rw [hzero] at hsum
    exact absurd hsum (by decide)
  have hlt : ∀ a, shardOfAccount ds a < ds.header.shardingSum.toNat := fun a => correspondShardID_lt _ hne
  -- a place in the block is a place in the sender's pending list
  have hplace : ∀ before tx after, b.body.transactions = before ++ tx :: after →
      (leads (shardOfAccount ds (senderOf P.toMachine tx))).txPool.pendingOf (senderOf P.toMachine tx) =
        sentBy P.toMachine (senderOf P.toMachine tx) before ++
          tx :: sentBy P.toMachine (senderOf P.toMachine tx) after := by
    intro before tx after hsplit
    rw [← hpools.sentBy_composed hl hcompose (hlt _), hsplit]
    unfold sentBy
    rw [filter_append, filter_cons_of_pos (by simp)]
  refine ⟨h.plain, fun tx htx => transferGas_admitted (hpools.admitted_composed hl hcompose htx), ?_, h.funds⟩
  · intro before tx after hsplit
    have horder := ((hpools.sound (hlt (senderOf P.toMachine tx))).lists (senderOf P.toMachine tx)).order
    rw [hplace before tx after hsplit, inOrder_append] at horder
    unfold TxPool.headNonce at horder
    rw [hpools.head _ (hlt _)] at horder
    exact horder.2.1

/-- **Assembled blocks execute** on the head, whatever order the micro blocks come in, as long as the pools have followed
a growing chain and the senders can pay. -/
theorem composed_executes (hsum : 1 ≤ ds.header.shardingSum)
    (hstored : P.shardingSum ds.header.blockNumber = some ds.header.shardingSum)
    (hpools : FromPools X ds head leads σ micro) (hl : l.Perm ((List.range ds.header.shardingSum.toNat).map micro))
    (hcompose : composeFinalBlock s l = .ok b) (h : Sustained P head b) :
    (process P.toMachine b (StateDB.new head)).1.isOk = true := by
  have hnum := hpools.dsBlockNum hl hcompose
  have hcovers : Covers P l b.header.dsBlockNum := ⟨_, hnum ▸ hstored, hpools.shardIDs hl⟩
  have hhead := headed_composed hcompose (Option.isSome_iff_exists.mpr ⟨_, hnum ▸ hstored⟩)
  obtain ⟨p, t, hrun⟩ := processTxs_affordable hhead h.writable (h.affordable hpools hsum hl hcompose) h.few
  have hcharged := processTxs_charged hrun
  have htotal : p.gasFeeTotal = 0 + feesPaid b.body.transactions :=
    (processTxs_holds b _ h.plain 0 Progress.init _ ⟨quiet_new P.toDatabase head, rfl⟩ p t hrun).1
  have hfees : 2 ≤ p.gasFeeUsedShards.length → p.gasFeeTotal ≠ 0 := by
    intro hshards hzero
    obtain ⟨tx, htx, tx', htx', hdiffer⟩ := hcharged.two_le.mp hshards
    rcases h.fees with ⟨paying, hmem, hfee⟩ | hone
    · rw [htotal, Nat.zero_add, feesPaid, List.sum_eq_zero_iff_forall_eq_nat] at hzero
      exact hfee (UInt64.toNat_inj.mp (hzero _ (List.mem_map_of_mem hmem)))
    · exact hdiffer (hone tx htx tx' htx')
  have hassign := assignRwards_eq (M := P.toMachine) (hcovers.payable hcompose hcharged hfees) t
  exact Proc.isOk_iff.mpr ⟨_, _, (Proc.bind_run hrun).trans (Proc.bind_run hassign)⟩

end

/-! ### One transaction in the pools of two shards -/

/-- A pool on a head that one transaction was added to. -/
def poolOn (head : AccountTrie) (tx : Transaction) : TxPool :=
  step twoShards.toMachine Rules.sample .sample 1
    (newTxPool twoShards.toMachine Rules.sample .sample 0 defaultTxPoolConfig ⟨head, 100000⟩) (.addRemote tx)

def leadOn (head : AccountTrie) (tx : Transaction) (i : Nat) : RoleShardingLead twoShards :=
  {twoShardsLead i with txPool := poolOn head tx}

def microOn (head : AccountTrie) (tx : Transaction) (i : Nat) : MicroBlock :=
  (composeMicroblock .sample (leadOn head tx i)).toOption.getD (emptyMicroBlock 0)

def microsOn (head : AccountTrie) (tx : Transaction) : List MicroBlock := [microOn head tx 0, microOn head tx 1]

section
variable (head : AccountTrie) (tx : Transaction)

theorem leadOn_txPool (i : Nat) : (leadOn head tx i).txPool = poolOn head tx := by
  unfold leadOn
  dsimp only

theorem leadOn_dsHead (i : Nat) : (leadOn head tx i).peerServer.dsHead = twoShardsBlock := by
  unfold leadOn twoShardsLead
  dsimp only

theorem poolOn_reachable : Reachable twoShards.toMachine Rules.sample (fun _ op => op.Grows) (poolOn head tx) := by
  exact .step (.init _ _ _ _) _ _ _ trivial

theorem poolOn_head : (poolOn head tx).currentState = head := by
  exact (head_stable head).step .sample 1 (.addRemote tx)
    (fun _ _ => trivial) (fun _ _ h => nomatch h) (reset_head .sample 0 ⟨head, 100000⟩ [] _)

theorem fromPools_poolOn : FromPools Rules.sample twoShardsBlock head
    (leadOn head tx) (fun _ => .sample) (microOn head tx) := by
  refine ⟨fun i _ => ?_, fun i _ => leadOn_dsHead head tx i, fun i _ => ?_, fun i _ => ?_, fun i _ => ?_⟩
  · unfold leadOn twoShardsLead
    dsimp only
  · rw [leadOn_txPool]
    exact poolOn_reachable head tx
  · exact poolOn_head head tx
  · rfl

theorem microsOn_perm : (microsOn head tx).Perm
    ((range twoShardsBlock.header.shardingSum.toNat).map (microOn head tx)) := .refl _

end

/-- With twenty million coins the block is executed. -/
theorem composed_executes_funded : ∃ b,
    composeFinalBlock (twoShardsLead 0).peerServer (microsOn fundedTrie (poolTx 0 30000)) = .ok b ∧
    b.body.transactions = [poolTx 0 30000] ∧
    (process twoShards.toMachine b (StateDB.new fundedTrie)).1.isOk = true := by
  have htxs : (composed (microsOn fundedTrie (poolTx 0 30000))).body.transactions = [poolTx 0 30000] := by decide +kernel
  have hcompose := composed_ok (l := microsOn fundedTrie (poolTx 0 30000)) (by decide +kernel)
  refine ⟨_, hcompose, htxs, composed_executes (by decide) rfl (fromPools_poolOn _ _) (microsOn_perm _ _) hcompose
    ⟨?_, ?_, ?_, ?_, ?_⟩⟩
  · intro tx htx
    rw [htxs] at htx
    rw [List.mem_singleton.mp htx]
    exact ⟨bytesToAddress [9], rfl, by decide +kernel, by unfold Codeless; decide +kernel⟩
  · intro before tx after hsplit
    cases before with
    | nil =>
      obtain ⟨rfl, -⟩ := List.cons.inj (htxs.symm.trans hsplit)
      unfold Funded
      decide +kernel
    | cons _ before => exact absurd (List.cons.inj (htxs.symm.trans hsplit)).2 (by simp)
  · rw [htxs]
    decide
  · rw [htxs]
    exact .inl ⟨_, List.mem_singleton_self _, by decide +kernel⟩
  · intro a d hd
    rw [← Option.some.inj hd]
    exact ⟨by decide, Int.natCast_nonneg _⟩

/-- **The sender has nothing.** The pool takes its transaction all the same, and the block it ends up in cannot be
executed. -/
theorem unfunded_block_fails :
    FromPools Rules.sample twoShardsBlock (nonceTrie 5) (leadOn (nonceTrie 5) (poolTx 5 30000)) (fun _ => .sample)
      (microOn (nonceTrie 5) (poolTx 5 30000)) ∧
    ∃ b, composeFinalBlock (twoShardsLead 0).peerServer (microsOn (nonceTrie 5) (poolTx 5 30000)) = .ok b ∧
      (process twoShards.toMachine b (StateDB.new (nonceTrie 5))).1 = .error (.core .insufficientBalanceForGas) := by
  refine ⟨fromPools_poolOn _ _, composed (microsOn (nonceTrie 5) (poolTx 5 30000)), composed_ok (by decide +kernel), ?_⟩
  have hfails : (process twoShards.toMachine (composed (microsOn (nonceTrie 5) (poolTx 5 30000)))
      (StateDB.new (nonceTrie 5))).1.map (fun _ => ()) = .error (.core .insufficientBalanceForGas) := by decide +kernel
  revert hfails
  cases (process twoShards.toMachine (composed (microsOn (nonceTrie 5) (poolTx 5 30000))) (StateDB.new (nonceTrie 5))).1 with
  | error e => exact fun h => congrArg Except.error (Except.error.inj h)
  | ok r => exact fun h => nomatch h

end Okchain.Consensus
