import Okchain.Chain.Storage
import Okchain.Consensus.Role
import Okchain.Consensus.Wire
import Okchain.Lib.Buckets
import Okchain.Txpool.Index

/-! The micro block of a shard, after `composeMicroblock` and `FilterTxs`.

A shard leader takes from its pool the transactions whose sender falls into its shard. The shard of a sender is computed
here from the head of the DS chain, and once more, from the DS block the final block names, when the fee of a
transaction is credited (`getShardId`).
-/
namespace Okchain.Consensus
open Lib Protos Core Txpool
open List hiding beq_eq_decide

def correspondShardID (buf : Bytes) (n : UInt32) : UInt32 :=
  if n = 0 then 0 else UInt32.ofNat (Rlp.ofBeBytes buf % n.toNat)

theorem correspondShardID_lt (buf : Bytes) {n : UInt32} (hn : n ≠ 0) : (correspondShardID buf n).toNat < n.toNat := by
  have hpos : 0 < n.toNat := Nat.pos_of_ne_zero fun h => hn (UInt32.toNat_inj.mp h)
  unfold correspondShardID
  rw [if_neg hn]
  exact (Nat.mod_le _ _).trans_lt (Nat.mod_lt _ hpos)

/-- A shard leader: its node, the shard it leads, its pool, and the micro block of the role, which no leader sets. -/
structure RoleShardingLead (P : Platform) where
  peerServer : PeerServer P
  shardingID : UInt32
  txPool : TxPool
  currentMicroBlock : Option MicroBlock

section
variable {P : Platform}

def shardOf (P : Platform) (ds : DSBlock) (tx : Transaction) : UInt32 :=
  correspondShardID (txSender P.toMachine tx).bytes ds.header.shardingSum

def RoleShardingLead.isFiltered (r : RoleShardingLead P) (tx : Transaction) : Bool :=
  r.shardingID != shardOf P r.peerServer.dsHead tx

def RoleShardingLead.filterTxs (r : RoleShardingLead P) (txs : List Transaction) : List Transaction :=
  txs.filter fun tx => !r.isFiltered tx

def microBlockType : Rlp.GoType :=
  .ptr (.struct [Chain.Storage.txBlockHeaderType, .uint, .ptr Server.peerEndpointType, .bytes,
    .slice Chain.Storage.transactionType])

def microBlockValue (b : MicroBlock) : Rlp.GoValue :=
  .ptr (.struct [Chain.Storage.txBlockHeaderValue b.header, .uint b.shardID.toNat, Server.peerEndpointValue b.miner,
    .bytes b.shardingLeadCoinBase, .slice (b.transactions.map Chain.Storage.transactionValue)])

/-- `composeMicroblock`. What it calls gas used is the sum of the gas prices. -/
def composeMicroblock (σ : Schedule) (r : RoleShardingLead P) : Except Err MicroBlock := do
  let s := r.peerServer
  let dsBlockHash ← s.dsHead.hash P.toEnv
  let transactions := r.filterTxs (pendingTxList σ r.txPool)
  return {
    header := {
      version := 1
      timestamp := some s.clock
      previousBlockHash := match r.currentMicroBlock with
        | none => "000000000000000000000000000000".toUTF8.toList
        | some b => (P.hash microBlockType (microBlockValue b)).bytes
      blockNumber := s.txHead.header.blockNumber + 1
      dsCoinBase := []
      shardingLeadCoinBase := []
      stateRoot := "state delta hash".toUTF8.toList
      txRoot := computeMerkelRoot P transactions
      gasLimit := 0
      gasUsed := (transactions.map (·.gasPrice)).sum
      dsBlockNum := s.dsHead.header.blockNumber
      dsBlockHash := dsBlockHash.bytes
      miner := none
      txNum := UInt64.ofNat transactions.length
      boolMap := []
      signature := []
      multiPubKey := []}
    shardID := r.shardingID
    miner := some s.selfNode
    shardingLeadCoinBase := s.coinBase
    transactions := transactions}

variable {r : RoleShardingLead P} {ds : DSBlock}

theorem composeMicroblock_isOk (σ : Schedule)
    (h : (r.peerServer.dsHead.hash P.toEnv).isOk) : (composeMicroblock σ r).isOk := by
  obtain ⟨hash, hhash⟩ := exists_of_isOk h
  unfold composeMicroblock
  dsimp only
  rw [hhash]
  rfl

theorem composeMicroblock_ok {σ : Schedule} {b : MicroBlock} (h : composeMicroblock σ r = .ok b) :
    b.transactions = r.filterTxs (pendingTxList σ r.txPool) ∧ b.shardID = r.shardingID ∧
      b.header.dsBlockNum = r.peerServer.dsHead.header.blockNumber := by
  obtain ⟨hash, -, h⟩ := except_bind_ok.mp h
  cases h
  exact ⟨rfl, rfl, rfl⟩

theorem filterTxs_eq (hds : r.peerServer.dsHead = ds) (txs : List Transaction) :
    r.filterTxs txs = txs.filter (fun tx => (shardOf P ds tx).toNat = r.shardingID.toNat) := by
  unfold RoleShardingLead.filterTxs RoleShardingLead.isFiltered
  rw [hds]
  refine filter_congr fun tx _ => ?_
  rw [bne, Bool.not_not, beq_eq_decide, decide_eq_decide, UInt32.toNat_inj]
  exact eq_comm

/-- What the fee of a transaction is credited to, once the DS block is stored. -/
theorem getShardId_eq (hstored : P.shardingSum ds.header.blockNumber = some ds.header.shardingSum)
    (tx : Transaction) : getShardId P.toMachine tx ds.header.blockNumber = .ok (shardOf P ds tx) := by
  unfold getShardId
  rw [hstored]
  rfl

end

/-! ### The transactions of one sender -/

section
variable {M : Machine} {X : Rules} {p : TxPool}

/-- A pool lists the transactions of an account one after the other, and no others of that account. -/
theorem pendingTxList_split (howned : Owning M X (fun _ => True) p) (σ : Schedule) {a : Address} (ha : p.pendingOf a ≠ []) :
    ∃ before after, pendingTxList σ p = before ++ p.pendingOf a ++ after ∧
      ∀ tx ∈ before ++ after, txSender M tx ≠ a := by
  have hkeys : (σ.keys p.pending.keys).Perm p.pending.keys := σ.keys_perm _
  have hmem : a ∈ σ.keys p.pending.keys := by
    obtain ⟨tx, htx⟩ := exists_mem_of_ne_nil _ ha
    obtain ⟨l, hl, -⟩ := exists_of_mem_pendingOf htx
    exact hkeys.mem_iff.mpr (AList.mem_keys.mp (AList.lookup_isSome.mp (Option.isSome_iff_exists.mpr ⟨l, hl⟩)))
  obtain ⟨before, after, hsplit⟩ := append_of_mem hmem
  have hnodup : (before ++ a :: after).Nodup := hsplit ▸ hkeys.nodup_iff.mpr p.pending.keys_nodup
  refine ⟨before.flatMap p.pendingOf, after.flatMap p.pendingOf, ?_, fun tx htx => ?_⟩
  · unfold pendingTxList
    rw [hsplit, flatMap_append, flatMap_cons, append_assoc]
  · rw [← flatMap_append] at htx
    obtain ⟨b, hb, htx⟩ := mem_flatMap.mp htx
    have hsender : txSender M tx = b := (howned b tx (.inl htx)).1
    rintro rfl
    have hother := (nodup_middle.mp hnodup)
    exact (nodup_cons.mp hother).1 (hsender ▸ hb)

end

/-! ### The shards of a DS block -/

section
variable {P : Platform} {X : Rules}

/-- The leaders of the shards of a DS block: numbered from 0, on that block, each with the same transactions
pending in a pool of its own. -/
structure Leads (X : Rules) (ds : DSBlock) (leads : Nat → RoleShardingLead P) (σ : Nat → Schedule)
    (pending : List Transaction) : Prop where
  id : ∀ i < ds.header.shardingSum.toNat, (leads i).shardingID = UInt32.ofNat i
  dsHead : ∀ i < ds.header.shardingSum.toNat, (leads i).peerServer.dsHead = ds
  pool : ∀ i < ds.header.shardingSum.toNat, Reachable P.toMachine X (fun _ _ => True) (leads i).txPool
  pending : ∀ i < ds.header.shardingSum.toNat, pendingTxList (σ i) (leads i).txPool = pending

variable {ds : DSBlock} {leads : Nat → RoleShardingLead P} {σ : Nat → Schedule} {pending : List Transaction}

variable {i : Nat} {b : MicroBlock}

section
variable (h : Leads X ds leads σ pending) (hi : i < ds.header.shardingSum.toNat) (hb : composeMicroblock (σ i) (leads i) = .ok b)
include h hi hb

theorem Leads.transactions :
    b.transactions = pending.filter (fun tx => (shardOf P ds tx).toNat = i) ∧ b.shardID = UInt32.ofNat i ∧
      b.header.dsBlockNum = ds.header.blockNumber := by
  obtain ⟨htxs, hid, hnum⟩ := composeMicroblock_ok hb
  have hi' : (UInt32.ofNat i).toNat = i := UInt32.toNat_ofNat_of_lt' (hi.trans ds.header.shardingSum.toNat_lt)
  rw [filterTxs_eq (h.dsHead i hi), h.pending i hi, h.id i hi, hi'] at htxs
  exact ⟨htxs, hid.trans (h.id i hi), hnum.trans (congrArg (·.header.blockNumber) (h.dsHead i hi))⟩

theorem Leads.together {tx : Transaction} (htx : tx ∈ b.transactions) :
    ∃ before after, b.transactions = before ++ (leads i).txPool.pendingOf (txSender P.toMachine tx) ++ after ∧
      ∀ other ∈ before ++ after, txSender P.toMachine other ≠ txSender P.toMachine tx := by
  have howned : Owning P.toMachine X (fun _ => True) (leads i).txPool :=
    reachable_owning (fun _ _ _ _ _ => trivial) (h.pool i hi)
  obtain ⟨htxs, -, -⟩ := h.transactions hi hb
  rw [htxs] at htx ⊢
  obtain ⟨hmem, hshard⟩ := mem_filter.mp htx
  have hlisted : tx ∈ (leads i).txPool.pendingOf (txSender P.toMachine tx) := by
    rw [← h.pending i hi] at hmem
    obtain ⟨a, -, ha⟩ := mem_flatMap.mp hmem
    rwa [(howned a tx (.inl ha)).1]
  obtain ⟨before, after, hsplit, hothers⟩ := pendingTxList_split howned (σ i) (ne_nil_of_mem hlisted)
  -- the sender's transactions all fall into the shard of this one
  have hkept : ((leads i).txPool.pendingOf (txSender P.toMachine tx)).filter (fun t => (shardOf P ds t).toNat = i) =
      (leads i).txPool.pendingOf (txSender P.toMachine tx) := by
    refine filter_eq_self.mpr fun t ht => ?_
    have hsender : txSender P.toMachine t = txSender P.toMachine tx := (howned _ t (.inl ht)).1
    have hsame : shardOf P ds t = shardOf P ds tx := by
      unfold shardOf
      rw [hsender]
    rwa [hsame]
  refine ⟨before.filter (fun t => (shardOf P ds t).toNat = i), after.filter (fun t => (shardOf P ds t).toNat = i), ?_,
    fun other hother => ?_⟩
  · rw [← h.pending i hi, hsplit, filter_append, filter_append, hkept]
  · rw [← filter_append] at hother
    exact hothers other (mem_of_mem_filter hother)

end

/-- **The shards divide the pending transactions.** Every one of them is in exactly one micro block and all
of them together are the pending ones, a sender's transactions stand together as the pool has them, and the fee
of a transaction is credited to the shard whose micro block it was in. The leaders compose their blocks as soon
as the DS block has a hash. -/
theorem microblocks_partition (hsum : 1 ≤ ds.header.shardingSum)
    (hstored : P.shardingSum ds.header.blockNumber = some ds.header.shardingSum) (h : Leads X ds leads σ pending) :
    ((ds.hash P.toEnv).isOk →
      ∀ i < ds.header.shardingSum.toNat, (composeMicroblock (σ i) (leads i)).isOk) ∧
    ∀ micro : Nat → MicroBlock,
      (∀ i < ds.header.shardingSum.toNat, composeMicroblock (σ i) (leads i) = .ok (micro i)) →
      ((List.range ds.header.shardingSum.toNat).flatMap fun i => (micro i).transactions).Perm pending ∧
      (∀ tx ∈ pending, ∃! i, i < ds.header.shardingSum.toNat ∧ tx ∈ (micro i).transactions) ∧
      ∀ i < ds.header.shardingSum.toNat, ∀ tx ∈ (micro i).transactions,
        getShardId P.toMachine tx (micro i).header.dsBlockNum = .ok (micro i).shardID ∧
        ∃ before after,
          (micro i).transactions = before ++ (leads i).txPool.pendingOf (txSender P.toMachine tx) ++ after ∧
          ∀ other ∈ before ++ after, txSender P.toMachine other ≠ txSender P.toMachine tx := by
  have hne : ds.header.shardingSum ≠ 0 := by
    intro hzero
    rw [hzero] at hsum
    exact absurd hsum (by decide)
  have hlt : ∀ tx, (shardOf P ds tx).toNat < ds.header.shardingSum.toNat := fun _ => correspondShardID_lt _ hne
  refine ⟨fun hhash i hi => composeMicroblock_isOk _ (by rwa [h.dsHead i hi]), fun micro hmicro => ⟨?_, ?_, ?_⟩⟩
  · have hblocks : ((List.range ds.header.shardingSum.toNat).flatMap fun i => (micro i).transactions) =
        (List.range ds.header.shardingSum.toNat).flatMap
          fun i => pending.filter (fun tx => (shardOf P ds tx).toNat = i) :=
      List.flatMap_congr fun i hi => (h.transactions (List.mem_range.mp hi) (hmicro i (List.mem_range.mp hi))).1
    rw [hblocks]
    exact Buckets.flatMap_filter_perm_self _ fun tx _ => hlt tx
  · intro tx htx
    refine ⟨(shardOf P ds tx).toNat, ⟨hlt tx, ?_⟩, fun i hi => ?_⟩
    · rw [(h.transactions (hlt tx) (hmicro _ (hlt tx))).1]
      exact List.mem_filter.mpr ⟨htx, by simp⟩
    · have hin := hi.2
      rw [(h.transactions hi.1 (hmicro i hi.1)).1] at hin
      exact (of_decide_eq_true (List.mem_filter.mp hin).2).symm
  · intro i hi tx htx
    refine ⟨?_, h.together hi (hmicro i hi) htx⟩
    obtain ⟨htxs, hid, hnum⟩ := h.transactions hi (hmicro i hi)
    have hshard : (shardOf P ds tx).toNat = i := by
      rw [htxs] at htx
      exact of_decide_eq_true (List.mem_filter.mp htx).2
    rw [hnum, getShardId_eq hstored, hid, ← hshard, UInt32.ofNat_toNat]

end

/-! ### Two shards -/

/-- The computable platform with a DS chain of blocks with two shards. -/
def twoShards : Platform := {Platform.sample with shardingSum := fun _ => some 2}

def twoShardsBlock : DSBlock := {Chain.dsFirst with header := {Chain.dsFirst.header with shardingSum := 2}}

/-- A transaction of a sender in the other shard. -/
def otherTx : Transaction := {poolTx 0 30000 with senderPubKey := otherKey}

def twoShardsAdd (p : TxPool) (tx : Transaction) : TxPool :=
  step twoShards.toMachine Rules.sample .sample 1 p (.addRemote tx)

def twoShardsPool : TxPool :=
  [poolTx 5 30000, otherTx, poolTx 6 30000].foldl twoShardsAdd
    (newTxPool twoShards.toMachine Rules.sample .sample 0 defaultTxPoolConfig ⟨nonceTrie 5, 100000⟩)

def twoShardsLead (i : Nat) : RoleShardingLead twoShards where
  peerServer := {sampleNode i [] with
    privateKey := i
    dsHead := twoShardsBlock
    headState := nonceTrie 5
    leader := Chain.peerWithKey i
    currentType := .microBlock
    poWSubList := []
    currentStage := .microBlock
    lastStage := .microBlock}
  shardingID := UInt32.ofNat i
  txPool := twoShardsPool
  currentMicroBlock := none

theorem twoShardsLead_txPool (i : Nat) : (twoShardsLead i).txPool = twoShardsPool := by
  unfold twoShardsLead
  dsimp only

theorem twoShardsPool_reachable : Reachable twoShards.toMachine Rules.sample (fun _ _ => True) twoShardsPool := by
  have hadd : ∀ {p} (tx : Transaction), Reachable twoShards.toMachine Rules.sample (fun _ _ => True) p →
      Reachable twoShards.toMachine Rules.sample (fun _ _ => True) (twoShardsAdd p tx) :=
    fun _ h => .step h _ _ _ trivial
  exact hadd _ (hadd _ (hadd _ (.init _ _ _ _)))

theorem twoShards_leads : Leads Rules.sample twoShardsBlock twoShardsLead (fun _ => .sample)
    (pendingTxList .sample twoShardsPool) := by
  refine ⟨fun i _ => ?_, fun i _ => ?_, fun i _ => ?_, fun i _ => ?_⟩
  · rfl
  · rfl
  · rw [twoShardsLead_txPool]
    exact twoShardsPool_reachable
  · rw [twoShardsLead_txPool]

/-- Two transactions of one sender and one of another are pending. They are of both shards, and each is in the micro
block of one of them. -/
theorem twoShards_partition : pendingTxList .sample twoShardsPool = [poolTx 5 30000, poolTx 6 30000, otherTx] ∧
    shardOf twoShards twoShardsBlock (poolTx 5 30000) ≠ shardOf twoShards twoShardsBlock otherTx ∧
    ∀ micro : Nat → MicroBlock, (∀ i < 2, composeMicroblock .sample (twoShardsLead i) = .ok (micro i)) →
      ∀ tx ∈ [poolTx 5 30000, poolTx 6 30000, otherTx], ∃! i, i < 2 ∧ tx ∈ (micro i).transactions := by
  have hpending : pendingTxList .sample twoShardsPool = [poolTx 5 30000, poolTx 6 30000, otherTx] := by
    decide +kernel
  refine ⟨hpending, by decide +kernel, fun micro hmicro => ?_⟩
  rw [← hpending]
  exact ((microblocks_partition (by decide) rfl twoShards_leads).2 micro hmicro).2.1

end Okchain.Consensus
