import Okchain.Core.Fees
import Okchain.Consensus.MicroBlock
import Okchain.Consensus.MicroBlockList

/-! Rewards of a composed final block.

`composeFinalBlock` lists the coinbases of the micro blocks in the order in which they came in, and `assignRwards`
looks up the leader of shard `k` at place `k`, which can be another shard's. And the percentages are taken of the fees,
which may all be zero.
-/
namespace Okchain.Consensus
open Lib State Core Protos List

section
variable {P : Platform} {s : PeerServer P} {l : List MicroBlock} {b : TxBlock} {p : Progress} {u t : StateDB}

/-- One micro block for each shard of the DS block with this number, in any order. -/
def Covers (P : Platform) (l : List MicroBlock) (dsBlockNum : UInt64) : Prop :=
  ∃ sum, P.shardingSum dsBlockNum = some sum ∧
    (l.map (·.shardID)).Perm ((List.range sum.toNat).map UInt32.ofNat)

variable {M : Machine} {tx : Transaction} {k : UInt32}

theorem getShardId_lt {n : UInt64} {sum : UInt32} (hstored : M.shardingSum n = some sum)
    (hsum : sum ≠ 0) (h : getShardId M tx n = .ok k) : k.toNat < sum.toNat := by
  unfold getShardId at h
  rw [hstored] at h
  have hk : (if sum = 0 then 0 else UInt32.ofNat (Rlp.ofBeBytes (txSender M tx).bytes % sum.toNat)) = k := Except.ok.inj h
  rw [if_neg hsum] at hk
  have hpos : 0 < sum.toNat := Nat.pos_of_ne_zero fun h => hsum (UInt32.toNat_inj.mp h)
  have hlt := Nat.mod_lt (Rlp.ofBeBytes (txSender M tx).bytes) hpos
  rwa [← hk, UInt32.toNat_ofNat_of_lt' (hlt.trans sum.toNat_lt)]

variable (hcovers : Covers P l b.header.dsBlockNum) (hcompose : composeFinalBlock s l = .ok b)
  (hcharged : Charged P.toMachine b b.body.transactions p)

include hcovers hcompose in
theorem Covers.shard (h : getShardId P.toMachine tx b.header.dsBlockNum = .ok k) :
    k.toNat < l.length ∧ ∃! m, m ∈ l ∧ m.shardID = k := by
  obtain ⟨first, rest, previous, hash, hl, -⟩ := composeFinalBlock_ok hcompose
  obtain ⟨sum, hstored, hperm⟩ := hcovers
  have hlength : l.length = sum.toNat := by
    have := hperm.length_eq
    rwa [length_map, length_map, length_range] at this
  have hsum : sum ≠ 0 := by
    rintro rfl
    rw [hl] at hlength
    exact nomatch hlength
  have hk := getShardId_lt hstored hsum h
  obtain ⟨m, hm, hid⟩ := mem_map.mp (hperm.mem_iff.mpr (mem_shardIDs.mpr (UInt32.lt_iff_toNat_lt.mpr hk)))
  have hinj := inj_on_of_nodup_map (hperm.nodup_iff.mpr (shardIDs_nodup sum))
  exact ⟨hlength ▸ hk, m, ⟨hm, hid⟩, fun m' ⟨hm', hid'⟩ => hinj hm' hm (hid'.trans hid.symm)⟩

include hcompose in
theorem leads_composed : b.header.shardingLeadCoinBase = l.map (·.shardingLeadCoinBase) := by
  obtain ⟨first, rest, previous, hash, -, -, hheader, -⟩ := composeFinalBlock_ok hcompose
  rw [hheader]
  rfl

include hcovers hcompose hcharged in
theorem Covers.named : Named b.header p.gasFeeUsedShards := by
  intro shard hshard
  obtain ⟨tx, -, hid⟩ := (hcharged.shards shard.1).mp (mem_map_of_mem hshard)
  rw [leads_composed hcompose, length_map]
  exact (hcovers.shard hcompose hid).1

include hcompose in
theorem dsCoinBase_ne_nil : b.header.dsCoinBase ≠ [] := by
  obtain ⟨first, rest, previous, hash, -, -, hheader, -⟩ := composeFinalBlock_ok hcompose
  rw [hheader]
  exact cons_ne_nil _ _

include hcovers hcompose hcharged in
theorem Covers.payable (hfees : 2 ≤ p.gasFeeUsedShards.length → p.gasFeeTotal ≠ 0) :
    Payable b.header p.gasFeeTotal p.gasFeeUsedShards :=
  ⟨hfees, hcovers.named hcompose hcharged, dsCoinBase_ne_nil hcompose⟩

def OneShard (M : Machine) (b : TxBlock) : Prop := ∀ tx ∈ b.body.transactions, ∀ tx' ∈ b.body.transactions,
  getShardId M tx b.header.dsBlockNum = getShardId M tx' b.header.dsBlockNum

/-- **Assigning the rewards does not panic** exactly if some transaction has a fee, or all are of one shard. -/
theorem assignRwards_isOk_iff (hcompose : composeFinalBlock s l = .ok b) (hcovers : Covers P l b.header.dsBlockNum)
    (hrun : processTxs P.toMachine b b.body.transactions 0 Progress.init u = (.ok p, t)) :
    (assignRwards P.toMachine b.header p.gasFeeTotal p.gasFeeUsedShards t).1.isOk = true ↔
      (∃ charged ∈ b.body.transactions.zip p.receipts, feeOf charged ≠ 0) ∨ OneShard P.toMachine b := by
  have hcharged := processTxs_charged hrun
  have hfees : (2 ≤ p.gasFeeUsedShards.length → p.gasFeeTotal ≠ 0) ↔
      (∃ charged ∈ b.body.transactions.zip p.receipts, feeOf charged ≠ 0) ∨ OneShard P.toMachine b := by
    rw [hcharged.two_le, hcharged.total_ne_zero, imp_iff_or_not]
    push Not
    rfl
  rw [← hfees, Proc.isOk_iff]
  constructor
  · rintro ⟨_, v, hassign⟩
    exact (assignRwards_payable hassign).fees
  · intro h
    exact ⟨_, _, assignRwards_eq (hcovers.payable hcompose hcharged h) t⟩

/-- The reward of every shard is credited to the coinbase in its micro block. -/
def PaysLeads (M : Machine) (l : List MicroBlock) (b : TxBlock) (p : Progress) : Prop :=
  ∀ e ∈ shardRewards M b.header p.gasFeeTotal p.gasFeeUsedShards, ∃ m ∈ l, m.shardID = e.1.1 ∧
    leadOf b.header e.1 = bytesToAddress m.shardingLeadCoinBase

/-- The micro block that came in at the place of a shard with transactions names the same account as that shard's. -/
def InPlace (M : Machine) (l : List MicroBlock) (b : TxBlock) : Prop :=
  ∀ tx ∈ b.body.transactions, ∀ k, getShardId M tx b.header.dsBlockNum = .ok k → ∀ m ∈ l, m.shardID = k →
    ∀ other ∈ l[k.toNat]?, bytesToAddress other.shardingLeadCoinBase = bytesToAddress m.shardingLeadCoinBase

include hcompose in
theorem leadOf_composed {shard : UInt32 × Nat} {other : MicroBlock}
    (h : l[shard.1.toNat]? = some other) : leadOf b.header shard = bytesToAddress other.shardingLeadCoinBase := by
  unfold leadOf
  rw [leads_composed hcompose, getD_eq_getElem?_getD, getElem?_map, h]
  rfl

theorem shardRewards_fst {header : TxBlockHeader} {gasFeeTotal : Nat} {shards : List (UInt32 × Nat)}
    {shard : UInt32 × Nat} :
    (∃ reward, (shard, reward) ∈ shardRewards M header gasFeeTotal shards) ↔ shard ∈ shards := by
  have hfst : (shardRewards M header gasFeeTotal shards).map Prod.fst = M.sortShards shards := Shares.deal_fst _ _
  rw [← (M.sortShards_perm shards).mem_iff, ← hfst, mem_map]
  exact ⟨fun ⟨reward, h⟩ => ⟨_, h, rfl⟩, fun ⟨e, he, heq⟩ => ⟨e.2, heq ▸ he⟩⟩

include hcovers hcompose hcharged in
theorem paysLeads_inPlace : PaysLeads P.toMachine l b p ↔ InPlace P.toMachine l b := by
  constructor
  · intro h tx htx k hk m hm hid other hother
    obtain ⟨shard, hshard, rfl⟩ := mem_map.mp ((hcharged.shards k).mpr ⟨tx, htx, hk⟩)
    obtain ⟨reward, hreward⟩ := shardRewards_fst.mpr hshard
    obtain ⟨m', hm', hid', hlead⟩ := h _ hreward
    obtain rfl := (hcovers.shard hcompose hk).2.unique ⟨hm', hid'⟩ ⟨hm, hid⟩
    rw [← leadOf_composed hcompose hother]
    exact hlead
  · intro h e he
    obtain ⟨tx, htx, hk⟩ := (hcharged.shards e.1.1).mp (mem_map_of_mem (shardRewards_fst.mp ⟨e.2, he⟩))
    obtain ⟨hplace, m, ⟨hm, hid⟩, -⟩ := hcovers.shard hcompose hk
    refine ⟨m, hm, hid, ?_⟩
    rw [leadOf_composed hcompose (getElem?_eq_getElem hplace)]
    exact h tx htx _ hk m hm hid _ (getElem?_eq_getElem hplace)

/-- **Rewards of the shards.** `assignRwards` makes the listed credits, and those of the shards go to the leaders that
made their micro blocks exactly if these came in at their places. -/
theorem paysLeads_iff (hcompose : composeFinalBlock s l = .ok b) (hcovers : Covers P l b.header.dsBlockNum) {v : StateDB}
    (hrun : processTxs P.toMachine b b.body.transactions 0 Progress.init u = (.ok p, t))
    (hassign : assignRwards P.toMachine b.header p.gasFeeTotal p.gasFeeUsedShards t = (.ok ⟨⟩, v)) :
    v = creditAll P.toDatabase t (rewardCredits P.toMachine b.header p.gasFeeTotal p.gasFeeUsedShards) ∧
      (PaysLeads P.toMachine l b p ↔ InPlace P.toMachine l b) :=
  ⟨congrArg Prod.snd (hassign.symm.trans (assignRwards_eq (assignRwards_payable hassign) t)),
    paysLeads_inPlace hcovers hcompose (processTxs_charged hrun)⟩

end

/-! ### Two shards with a transaction each -/

def fundedTrie : AccountTrie := fun _ => some {newAccount twoShards.toDatabase with balance := 20000000}

def senderKey (shardID : UInt32) : Bytes := List.replicate 64 7 ++ [7 + shardID.toUInt8]

/-- A micro block with one transaction of its shard. -/
def microBlockOf (shardID : UInt32) (gasPrice : UInt64) : MicroBlock := {emptyMicroBlock shardID with
  transactions := [{sampleTx (some [5]) 0 7 with senderPubKey := senderKey shardID, gasPrice := gasPrice}]}

def composed (l : List MicroBlock) : TxBlock :=
  (composeFinalBlock (twoShardsLead 0).peerServer l).toOption.getD (sampleBlock 0 [])

/-- The loop over the transactions of the composed block. -/
def processed (l : List MicroBlock) : Except Err Progress × StateDB :=
  processTxs twoShards.toMachine (composed l) (composed l).body.transactions 0 Progress.init (StateDB.new fundedTrie)

theorem composed_ok {l : List MicroBlock} (h : (composeFinalBlock (twoShardsLead 0).peerServer l).isOk = true) :
    composeFinalBlock (twoShardsLead 0).peerServer l = .ok (composed l) := by
  obtain ⟨b, hb⟩ := exists_of_isOk h
  unfold composed
  rw [hb]
  rfl

theorem processed_ok (l : List MicroBlock) (total shards : Nat)
    (h : (processed l).1.map (fun p => (p.gasFeeTotal, p.gasFeeUsedShards.length)) = .ok (total, shards)) :
    ∃ p t, processed l = (.ok p, t) ∧ p.gasFeeTotal = total ∧ p.gasFeeUsedShards.length = shards := by
  rcases hrun : processed l with ⟨_ | p, t⟩
  · rw [hrun] at h
    nomatch h
  · rw [hrun] at h
    obtain ⟨htotal, hshards⟩ := Prod.mk.inj (Except.ok.inj h)
    exact ⟨p, t, rfl, htotal, hshards⟩

/-- The micro blocks of the two shards with a price, in the order of the shards. -/
def inOrder : List MicroBlock := [microBlockOf 0 1, microBlockOf 1 1]

def reversed : List MicroBlock := [microBlockOf 1 1, microBlockOf 0 1]

def unpriced : List MicroBlock := [microBlockOf 0 0, microBlockOf 1 0]

theorem inOrder_covers : Covers twoShards inOrder (composed inOrder).header.dsBlockNum := ⟨2, rfl, .refl _⟩

theorem inOrder_composed : composeFinalBlock (twoShardsLead 0).peerServer inOrder = .ok (composed inOrder) :=
  composed_ok (by decide +kernel)

/-- At two transactions with a price nothing goes wrong. -/
theorem assignRwards_isOk_inOrder : ∃ p t, processed inOrder = (.ok p, t) ∧
    (assignRwards twoShards.toMachine (composed inOrder).header p.gasFeeTotal p.gasFeeUsedShards t).1.isOk = true := by
  obtain ⟨p, t, hrun, htotal, -⟩ := processed_ok inOrder 42000 2 (by decide +kernel)
  have hfee := (processTxs_charged hrun).total_ne_zero.mp (by rw [htotal]; decide)
  exact ⟨p, t, hrun, (assignRwards_isOk_iff inOrder_composed inOrder_covers hrun).mpr (.inl hfee)⟩

/-- Two transactions of different shards that cost nothing: the percentages are taken of zero. -/
theorem zero_fees_panic : ∃ p t,
    composeFinalBlock (twoShardsLead 0).peerServer unpriced = .ok (composed unpriced) ∧
    Covers twoShards unpriced (composed unpriced).header.dsBlockNum ∧ processed unpriced = (.ok p, t) ∧
    (assignRwards twoShards.toMachine (composed unpriced).header p.gasFeeTotal p.gasFeeUsedShards t).1 =
      .error (.panic .divisionByZero) := by
  obtain ⟨p, t, hrun, htotal, hshards⟩ := processed_ok unpriced 0 2 (by decide +kernel)
  refine ⟨p, t, composed_ok (by decide +kernel), ⟨2, rfl, .refl _⟩, hrun, ?_⟩
  rw [htotal, assignRwards_divisionByZero (Nat.le_of_eq hshards.symm)]

/-- At micro blocks that came in at their places the leaders get their own rewards. -/
theorem paysLeads_inOrder : ∃ p t, processed inOrder = (.ok p, t) ∧
    PaysLeads twoShards.toMachine inOrder (composed inOrder) p := by
  obtain ⟨p, t, hrun, htotal, -⟩ := processed_ok inOrder 42000 2 (by decide +kernel)
  have hpayable := inOrder_covers.payable inOrder_composed (processTxs_charged hrun) fun _ => by rw [htotal]; decide
  have hassign := assignRwards_eq (M := twoShards.toMachine) hpayable t
  refine ⟨p, t, hrun, (paysLeads_iff inOrder_composed inOrder_covers hrun hassign).2.mpr ?_⟩
  rintro tx - k - m hm rfl other hother
  rcases List.mem_cons.mp hm with rfl | hm
  · rw [Option.mem_some_iff.mp hother]
  · obtain rfl := List.mem_singleton.mp hm
    rw [Option.mem_some_iff.mp hother]

/-- The micro block of the second shard came in first: the leaders of the two shards get each other's rewards. -/
theorem rewards_swapped : ∃ p t v,
    composeFinalBlock (twoShardsLead 0).peerServer reversed = .ok (composed reversed) ∧
    Covers twoShards reversed (composed reversed).header.dsBlockNum ∧ processed reversed = (.ok p, t) ∧
    assignRwards twoShards.toMachine (composed reversed).header p.gasFeeTotal p.gasFeeUsedShards t = (.ok ⟨⟩, v) ∧
    ¬PaysLeads twoShards.toMachine reversed (composed reversed) p := by
  obtain ⟨p, t, hrun, htotal, -⟩ := processed_ok reversed 42000 2 (by decide +kernel)
  have hcompose : composeFinalBlock (twoShardsLead 0).peerServer reversed = .ok (composed reversed) :=
    composed_ok (by decide +kernel)
  have hcovers : Covers twoShards reversed (composed reversed).header.dsBlockNum := ⟨2, rfl, .swap _ _ []⟩
  have hcharged := processTxs_charged hrun
  have hpayable := hcovers.payable hcompose hcharged fun _ => by rw [htotal]; decide
  have hassign := assignRwards_eq (M := twoShards.toMachine) hpayable t
  refine ⟨p, t, _, hcompose, hcovers, hrun, hassign, fun hpays => ?_⟩
  have hplace := (paysLeads_inPlace hcovers hcompose hcharged).mp hpays
  have htx : {sampleTx (some [5]) 0 7 with senderPubKey := senderKey 0, gasPrice := 1} ∈
      (composed reversed).body.transactions := by
    exact List.mem_flatMap.mpr ⟨microBlockOf 0 1, by simp [reversed], List.mem_singleton_self _⟩
  have hsame := hplace _ htx 0 (by decide +kernel) (microBlockOf 0 1) (by simp [reversed]) rfl (microBlockOf 1 1) rfl
  exact absurd hsame (by decide)

end Okchain.Consensus
