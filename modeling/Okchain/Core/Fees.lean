import Okchain.Core.RewardSplit

/-! The fees that `Process` collects.

One pass over the transactions adds up their fees, in total and for each shard. A fee is the product of the gas used
and the price in 64 bits, so it can be zero although neither factor is.
-/
namespace Okchain.Core
open Lib Proc State Protos List
open Prod (fst snd)

variable {i : Nat} {txs : List Transaction}

/-! ### Fees of the shards -/

section
variable {shards : List (UInt32 × Nat)} {id : UInt32} {fee : Nat}

section
variable (shards id fee)

theorem addFee_sum : ((addFee shards id fee).map snd).sum = (shards.map snd).sum + fee := by
  induction shards with
  | nil => simp [addFee]
  | cons shard rest ih =>
    unfold addFee
    split
    · simp only [map_cons, sum_cons]
      omega
    · simp only [map_cons, sum_cons]
      omega

theorem addFee_fst : (addFee shards id fee).map fst =
      if id ∈ shards.map fst then shards.map fst else shards.map fst ++ [id] := by
  induction shards with
  | nil => rfl
  | cons shard rest ih =>
    unfold addFee
    by_cases hid : shard.1 = id
    · rw [if_pos hid, if_pos (hid ▸ mem_cons_self)]
      rfl
    · rw [if_neg hid, map_cons, ih]
      simp only [map_cons, mem_cons, Ne.symm hid, false_or]
      split <;> rfl

end

theorem mem_addFee {k : UInt32} : k ∈ (addFee shards id fee).map fst ↔ k ∈ shards.map fst ∨ k = id := by
  rw [addFee_fst]
  split
  · next hid => exact ⟨.inl, fun h => h.elim (fun h => h) fun h => h ▸ hid⟩
  · rw [mem_append, mem_singleton]

theorem addFee_nodup (h : (shards.map fst).Nodup) : ((addFee shards id fee).map fst).Nodup := by
  rw [addFee_fst]
  split
  · exact h
  · next hid => exact nodup_append_comm.mp (nodup_cons.mpr ⟨hid, h⟩)

end

/-! ### The loop -/

/-- The fee `Process` charges for a transaction. -/
def feeOf (charged : Transaction × Receipt) : UInt64 := charged.2.gasUsed * charged.1.gasPrice

section
variable {M : Machine} {block : TxBlock} {p p' : Progress} {s t : StateDB} {tx : Transaction}

theorem processTx_ok (h : processTx M block i tx p s = (.ok p', t)) :
    ∃ bhash receipt gasPool shardId, block.hash M.toEnv = .ok bhash ∧
      applyTransaction M block.header tx p.gasPool p.usedGas
        (s.prepare (tx.hash M.toEnv) bhash block.header.blockNumber i) = (.ok (receipt, gasPool), t) ∧
      getShardId M tx block.header.dsBlockNum = .ok shardId ∧
      p' = {
        gasPool := gasPool
        usedGas := receipt.cumulativeGasUsed
        gasFeeTotal := p.gasFeeTotal + (feeOf (tx, receipt)).toNat
        gasFeeUsedShards := addFee p.gasFeeUsedShards shardId (feeOf (tx, receipt)).toNat
        receipts := p.receipts ++ [receipt]} := by
  obtain ⟨bhash, hbhash, h₁⟩ := lift_bind_ok.mp h
  rw [bind_update] at h₁
  obtain ⟨⟨receipt, gasPool⟩, s₁, happly, h₂⟩ := bind_ok.mp h₁
  obtain ⟨shardId, hshard, h₃⟩ := lift_bind_ok.mp h₂
  obtain ⟨rfl, rfl⟩ := pure_ok.mp h₃
  exact ⟨bhash, receipt, gasPool, shardId, hbhash, happly, hshard, rfl⟩

/-- What has been charged for these transactions. -/
structure Charged (M : Machine) (block : TxBlock) (txs : List Transaction) (p : Progress) : Prop where
  receipts : p.receipts.length = txs.length
  total : p.gasFeeTotal = ((txs.zip p.receipts).map fun charged => (feeOf charged).toNat).sum
  split : (p.gasFeeUsedShards.map Prod.snd).sum = p.gasFeeTotal
  shards : ∀ k, k ∈ p.gasFeeUsedShards.map Prod.fst ↔ ∃ tx ∈ txs, getShardId M tx block.header.dsBlockNum = .ok k
  named : ∀ tx ∈ txs, ∃ k, getShardId M tx block.header.dsBlockNum = .ok k
  distinct : (p.gasFeeUsedShards.map Prod.fst).Nodup

theorem charged_init : Charged M block [] Progress.init :=
  ⟨rfl, rfl, rfl, fun _ => by simp [Progress.init], (fun _ h => nomatch h), nodup_nil⟩

theorem Charged.step (h : Charged M block txs p) (hstep : processTx M block i tx p s = (.ok p', t)) :
    Charged M block (txs ++ [tx]) p' := by
  obtain ⟨bhash, receipt, gasPool, shardId, -, -, hshard, rfl⟩ := processTx_ok hstep
  constructor
  · rw [length_append, length_append, h.receipts]
    rfl
  · rw [zip_append h.receipts.symm, map_append, sum_append, ← h.total]
    rfl
  · rw [addFee_sum, h.split]
  · intro k
    rw [mem_addFee, h.shards]
    constructor
    · rintro (⟨tx', htx', hk⟩ | rfl)
      · exact ⟨tx', mem_append_left _ htx', hk⟩
      · exact ⟨tx, mem_append_right _ (mem_singleton_self tx), hshard⟩
    · rintro ⟨tx', htx', hk⟩
      rcases mem_append.mp htx' with htx' | htx'
      · exact .inl ⟨tx', htx', hk⟩
      · rw [mem_singleton.mp htx', hshard] at hk
        exact .inr (Except.ok.inj hk).symm
  · intro tx' htx'
    rcases mem_append.mp htx' with htx' | htx'
    · exact h.named tx' htx'
    · rw [mem_singleton.mp htx']
      exact ⟨shardId, hshard⟩
  · exact addFee_nodup h.distinct

theorem Charged.run {done : List Transaction} (h : Charged M block done p)
    (hrun : processTxs M block txs i p s = (.ok p', t)) : Charged M block (done ++ txs) p' := by
  induction txs generalizing done i p s with
  | nil =>
    obtain ⟨rfl, -⟩ := pure_ok.mp hrun
    rwa [append_nil]
  | cons tx txs ih =>
    obtain ⟨p₁, s₁, hstep, hrest⟩ := bind_ok.mp hrun
    have := ih (h.step hstep) hrest
    rwa [append_assoc] at this

theorem processTxs_charged (hrun : processTxs M block txs i Progress.init s = (.ok p, t)) : Charged M block txs p :=
  charged_init.run hrun

/-- Nothing was charged if and only if every fee is zero. -/
theorem Charged.total_ne_zero (h : Charged M block txs p) :
    p.gasFeeTotal ≠ 0 ↔ ∃ charged ∈ txs.zip p.receipts, feeOf charged ≠ 0 := by
  rw [h.total, Ne, List.sum_eq_zero_iff_forall_eq_nat]
  simp only [forall_mem_map, ← UInt64.toNat_inj, Ne]
  push Not
  rfl

/-- At least two shards were charged if and only if two transactions are of different shards. -/
theorem Charged.two_le (h : Charged M block txs p) : 2 ≤ p.gasFeeUsedShards.length ↔
    ∃ tx ∈ txs, ∃ tx' ∈ txs, getShardId M tx block.header.dsBlockNum ≠ getShardId M tx' block.header.dsBlockNum := by
  rw [← length_map]
  constructor
  · intro hlen
    obtain ⟨k, k', rest, hkeys⟩ : ∃ k k' rest, p.gasFeeUsedShards.map fst = k :: k' :: rest := by
      match hkeys : p.gasFeeUsedShards.map fst with
      | [] | [_] => rw [hkeys] at hlen; exact absurd hlen (by simp)
      | k :: k' :: rest => exact ⟨k, k', rest, rfl⟩
    have hne : k ≠ k' := by
      have hdistinct := h.distinct
      rw [hkeys] at hdistinct
      exact fun heq => (nodup_cons.mp hdistinct).1 (heq ▸ mem_cons_self)
    have hk : k ∈ p.gasFeeUsedShards.map fst := hkeys ▸ mem_cons_self
    have hk' : k' ∈ p.gasFeeUsedShards.map fst := hkeys ▸ mem_cons_of_mem k mem_cons_self
    obtain ⟨tx, htx, hshard⟩ := (h.shards k).mp hk
    obtain ⟨tx', htx', hshard'⟩ := (h.shards k').mp hk'
    exact ⟨tx, htx, tx', htx', fun heq => hne (Except.ok.inj (hshard.symm.trans (heq.trans hshard')))⟩
  · rintro ⟨tx, htx, tx', htx', hne⟩
    obtain ⟨k, hk⟩ := h.named tx htx
    obtain ⟨k', hk'⟩ := h.named tx' htx'
    have hkk' : k ≠ k' := fun heq => hne (hk.trans (heq ▸ hk'.symm))
    have hmem := (h.shards k).mpr ⟨tx, htx, hk⟩
    have hmem' := (h.shards k').mpr ⟨tx', htx', hk'⟩
    have hsub : [k, k'] ⊆ p.gasFeeUsedShards.map fst := by
      intro x hx
      rcases mem_cons.mp hx with rfl | hx
      · exact hmem
      · rw [mem_singleton.mp hx]
        exact hmem'
    exact (subperm_of_subset (by simpa using hkk') hsub).length_le

end

end Okchain.Core
