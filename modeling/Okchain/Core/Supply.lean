import Okchain.Core.Processor
import Okchain.State.Supply
import Okchain.Vm.PlainAccount

/-! What executing a block of transfers does to the coins there are.

A transfer to an account without code costs its intrinsic gas. The sender pays for it at the price of `AsMsg`, which is
one whatever the transaction says; `Process` then pays the same gas at the price the transaction does say, multiplied
as a 64-bit number, and the block's yield on top. Sharing out the rewards loses nothing.
-/
variable {recipient : Address}

namespace Okchain.Core
open Lib Proc State Vm Protos List
open Proc (Keeps Ensures)
open StateDB (new)

section

variable {D : Database} {codeless : Address → Prop} {n : Int}

/-! ### A call -/

theorem addWeight_holds (x : Address) : Keeps (Holds D codeless n) (StateDB.addWeight D x) :=
  .bind (height_keeps _) fun _ => .update fun s hs =>
    (hs.getOrNew x).setObjectWeight (getStateObject_getOrNew D s x) _ _

theorem subWeight_holds (x : Address) (v : Int) : Keeps (Holds D codeless n) (StateDB.subWeight D x v) := by
  refine .bind (R := fun o s => Holds D codeless n s ∧ s.getStateObject x = some o)
    (.step fun s hs => ⟨hs.getOrNew x, getStateObject_getOrNew D s x⟩) fun o => ?_
  refine .bind keeps_ensure fun _ => .bind (height_keeps _) fun h => ?_
  exact .update fun s hs => hs.1.setObjectWeight hs.2 _ _

/-- A transfer moves coins; there are as many as before. -/
theorem transfer_holds (sender recipient : Address) (amount : Nat) :
    Keeps (Holds D codeless n) (transfer D sender recipient amount) := by
  refine .bind (R := fun _ => Holds D codeless (n - amount)) ?_ fun _ => ?_
  · exact .bind (subWeight_holds sender amount) fun _ => .update fun s hs => hs.subBalance sender amount
  · refine .bind (addWeight_holds recipient) fun _ => .update fun s hs => ?_
    have := hs.addBalance recipient amount
    rwa [Int.sub_add_cancel] at this

theorem createIfAbsent_holds (present : Bool) (x : Address) :
    Ensures (fun s => Holds D codeless n s ∧ present = s.exist x) (createIfAbsent D present x)
      (fun _ => Holds D codeless n) := by
  refine .ite (fun _ => .pure fun _ hs => hs.1) fun hpresent => ?_
  refine .bind (R := fun prev s => Holds D codeless n s ∧ s.getStateObject x = none ∧ prev = none)
    (.read fun s hs => ?_) fun prev => ?_
  · have habsent : s.getStateObject x = none := by
      rw [← Option.not_isSome_iff_eq_none]
      exact fun h => hpresent (hs.2.trans h)
    exact ⟨hs.1, habsent, habsent⟩
  · refine .bind (R := fun _ s => Holds D codeless n s ∧ prev = none)
      (.update fun s hs => ⟨hs.1.createObject hs.2.1, hs.2.2⟩) fun _ => ?_
    intro s hs
    rw [hs.2]
    exact Ensures.pure (fun _ hs => hs) s hs.1

/-- Calling an account without code moves the value, if the caller has it, and uses no gas. -/
theorem call_holds (hcode : codeless recipient) (hpre : precompiled recipient = false)
    (depth : Nat) (caller : Address) (gas : UInt64) (value : Nat) (builtin : RunResult)
    (interpret : Proc Err StateDB RunResult) :
    Ensures (Holds D codeless n) (call D depth caller recipient gas value builtin interpret)
      (fun r s => Holds D codeless n s ∧ r.gas = gas) := by
  refine .bind keeps_read fun can => ?_
  refine .ite (fun _ => .pure fun _ hs => ⟨hs, rfl⟩) fun _ => ?_
  refine .ite (fun _ => .pure fun _ hs => ⟨hs, rfl⟩) fun _ => ?_
  refine .bind (R := fun _ => Holds D codeless n) (.step fun s hs => hs.of_same rfl rfl rfl) fun snapshot => ?_
  refine .bind (R := fun present s => Holds D codeless n s ∧ present = s.exist recipient)
    (.read fun _ hs => ⟨hs, rfl⟩) fun present => ?_
  refine .ite (fun _ => .pure fun _ hs => ⟨hs.1, rfl⟩) fun _ => ?_
  refine .bind (createIfAbsent_holds present recipient) fun _ => .bind (transfer_holds _ _ _) fun _ => ?_
  refine .bind (R := fun code s => Holds D codeless n s ∧ code = [])
    (.read fun s hs => ⟨hs, hs.quiet.code recipient hcode⟩) fun code => ?_
  intro s ⟨hs, hnone⟩
  rw [hnone]
  unfold run
  rw [hpre]
  exact Ensures.pure (fun _ hs => ⟨hs, rfl⟩) s hs

end

section

variable {M : Machine} {codeless : Address → Prop} {n : Int}

/-! ### A transaction -/

theorem preCheck_holds (m : Msg) (gp : UInt64) : Ensures (Holds M.toDatabase codeless n) (preCheck M m gp)
      (fun _ => Holds M.toDatabase codeless (n - m.gasCost)) := by
  refine .bind keeps_read fun _ => .bind keeps_ensure fun _ => .bind keeps_ensure fun _ => ?_
  refine .bind keeps_ensureState fun _ => .bind keeps_ensure fun _ => ?_
  exact .bind (.update fun s hs => hs.subBalance m.sender m.gasCost) fun _ => .pure fun _ hs => hs

theorem execute_holds {ctx : Context} {m : Msg} (hrecipient : m.recipient = some recipient)
    (hcode : codeless recipient) (hpre : precompiled recipient = false) (gas : UInt64) :
    Ensures (Holds M.toDatabase codeless n) (execute M ctx m gas)
      (fun r s => Holds M.toDatabase codeless n s ∧ r.gas = gas) := by
  unfold execute
  rw [hrecipient]
  exact .bind (.update fun s hs => hs.setNonce m.sender _) fun _ => call_holds hcode hpre _ _ _ _ _ _

theorem refund_none (limit gas : UInt64) : gas + min ((limit - gas) / 2) 0 = gas := by
  have hmin : min ((limit - gas) / 2) 0 = 0 := by
    show (if (limit - gas) / 2 ≤ 0 then (limit - gas) / 2 else 0) = 0
    split
    · exact UInt64.le_zero_iff.mp ‹_›
    · rfl
  rw [hmin, UInt64.add_zero]

theorem refundGas_holds (m : Msg) (gas : UInt64) : Ensures (Holds M.toDatabase codeless n) (refundGas M m gas)
      (fun gas' s => Holds M.toDatabase codeless (n + (gas.toNat * m.gasPrice : Nat)) s ∧ gas' = gas) := by
  refine .bind (R := fun refund s => Holds M.toDatabase codeless n s ∧ refund = 0)
    (.read fun s hs => ⟨hs, hs.quiet.refund⟩) fun refund => ?_
  intro s ⟨hs, hzero⟩
  rw [hzero, refund_none]
  exact Ensures.bind (.update fun s hs => hs.addBalance m.sender _)
    (fun _ => .pure fun _ hs => ⟨hs, rfl⟩) s hs

/-- **One message.** A call of an account without code costs its intrinsic gas at the message's price. -/
theorem transitionDb_holds {ctx : Context} {m : Msg} (hrecipient : m.recipient = some recipient)
    (hcode : codeless recipient) (hpre : precompiled recipient = false) (gp : UInt64) :
    Ensures (Holds M.toDatabase codeless n) (transitionDb M ctx m gp)
      (fun r s => intrinsicGas m.data false = .ok r.gasUsed ∧
        Holds M.toDatabase codeless (n - (r.gasUsed.toNat * m.gasPrice : Nat)) s) := by
  refine .bind (preCheck_holds m gp) fun gp' => ?_
  refine .bind (R := fun intrinsic s => intrinsicGas m.data false = .ok intrinsic ∧
    Holds M.toDatabase codeless (n - m.gasCost) s) (.lift fun intrinsic h s hs => ⟨?_, hs⟩) fun intrinsic => ?_
  · rwa [hrecipient] at h
  refine .bind (R := fun _ s => intrinsicGas m.data false = .ok intrinsic ∧ intrinsic ≤ m.gasLimit ∧
    Holds M.toDatabase codeless (n - m.gasCost) s) (.ensure fun h s hs => ⟨hs.1, h, hs.2⟩) fun _ => ?_
  intro s ⟨hintrinsic, hle, hs⟩
  have hused : m.gasLimit - (m.gasLimit - intrinsic) = intrinsic := sub_sub_cancel _ _
  have hleft : (m.gasLimit - intrinsic).toNat = m.gasLimit.toNat - intrinsic.toNat :=
    UInt64.toNat_sub_of_le _ _ hle
  have hprice : n - m.gasCost + ((m.gasLimit - intrinsic).toNat * m.gasPrice : Nat) =
      n - (intrinsic.toNat * m.gasPrice : Nat) := by
    have hmul : (m.gasLimit.toNat - intrinsic.toNat) * m.gasPrice + intrinsic.toNat * m.gasPrice =
        m.gasLimit.toNat * m.gasPrice := by
      rw [← Nat.add_mul, Nat.sub_add_cancel (UInt64.le_iff_toNat_le.mp hle)]
    rw [hleft, Msg.gasCost]
    omega
  refine Ensures.bind (execute_holds hrecipient hcode hpre _) (fun r => ?_) s hs
  refine .bind keeps_ensure fun _ => ?_
  intro s ⟨hs, hgas⟩
  rw [hgas]
  refine Ensures.bind (refundGas_holds m _) (fun gas => ?_) s hs
  refine .bind keeps_ensure fun _ => .pure fun s ⟨hs, hgas⟩ => ?_
  rw [hgas, hused]
  rw [hprice] at hs
  exact ⟨hintrinsic, hs⟩

def transferGas (tx : Transaction) : UInt64 := (intrinsicGas tx.data false).toOption.getD 0

/-- What `Process` adds to the fees for a transfer. -/
def transferFee (tx : Transaction) : UInt64 := transferGas tx * tx.gasPrice

/-- A transaction that only moves coins on a state: it calls an account without code. A precompiled
contract has none in the state, but runs all the same. -/
def PlainTransfer (codeless : Address → Prop) (tx : Transaction) : Prop :=
  ∃ recipient, tx.toAddr.map bytesToAddress = some recipient ∧ precompiled recipient = false ∧ codeless recipient

/-- One round of the loop in `Process`: the sender pays for the gas, and the fee is put down. -/
theorem processTx_holds {tx : Transaction} (htx : PlainTransfer codeless tx) (block : TxBlock) (i : Nat)
    (p : Progress) :
    Ensures (Holds M.toDatabase codeless n) (processTx M block i tx p)
      (fun p' s => p'.gasFeeTotal = p.gasFeeTotal + (transferFee tx).toNat ∧
        Holds M.toDatabase codeless (n - (transferGas tx).toNat) s) := by
  obtain ⟨recipient, hrecipient, hpre, hcode⟩ := htx
  refine .bind keeps_lift fun bhash => ?_
  refine .bind (R := fun _ => Holds M.toDatabase codeless n) (.update fun s hs => hs.of_same rfl rfl rfl) fun _ => ?_
  refine .bind (R := fun r s => r.1.gasUsed = transferGas tx ∧
    Holds M.toDatabase codeless (n - (transferGas tx).toNat) s) ?_ fun r => ?_
  · refine .bind keeps_lift fun ctx => ?_
    refine .bind (transitionDb_holds hrecipient hcode hpre _) fun applied => ?_
    refine .bind (R := fun _ s => intrinsicGas tx.data false = .ok applied.gasUsed ∧
      Holds M.toDatabase codeless (n - (applied.gasUsed.toNat * 1 : Nat)) s) ?_ fun _ => ?_
    · exact .bind keeps_ensureState fun _ => .update fun s hs => ⟨hs.1, hs.2.finalised⟩
    · refine .bind keeps_read fun logs => .pure fun s ⟨hgas, hs⟩ => ?_
      have hused : transferGas tx = applied.gasUsed := by
        unfold transferGas
        rw [hgas]
        rfl
      rw [Nat.mul_one] at hs
      rw [hused]
      exact ⟨rfl, hs⟩
  · refine .bind keeps_lift fun shardId => .pure fun s ⟨hgas, hs⟩ => ⟨?_, hs⟩
    rw [hgas]
    rfl

def gasCharged (txs : List Transaction) : Nat := (txs.map fun tx => (transferGas tx).toNat).sum

/-- The fees of the transfers, as `Process` adds them up. -/
def feesPaid (txs : List Transaction) : Nat := (txs.map fun tx => (transferFee tx).toNat).sum

theorem processTxs_holds (block : TxBlock) (txs : List Transaction)
    (htxs : ∀ tx ∈ txs, PlainTransfer codeless tx) (i : Nat) (p : Progress) :
    Ensures (Holds M.toDatabase codeless n) (processTxs M block txs i p)
      (fun p' s => p'.gasFeeTotal = p.gasFeeTotal + feesPaid txs ∧
        Holds M.toDatabase codeless (n - gasCharged txs) s) := by
  induction txs generalizing n i p with
  | nil => exact .pure fun s hs => ⟨rfl, by simpa [gasCharged] using hs⟩
  | cons tx txs ih =>
    refine .bind (processTx_holds (htxs tx (by simp)) block i p) fun p' => ?_
    intro s ⟨hfee, hs⟩ p'' t h
    obtain ⟨hfees, ht⟩ := ih (fun tx htx => htxs tx (mem_cons_of_mem _ htx)) (i + 1) p' s hs p'' t h
    refine ⟨?_, ?_⟩
    · rw [hfees, hfee, feesPaid, feesPaid, map_cons, sum_cons, Nat.add_assoc]
    · have hsum : n - (transferGas tx).toNat - gasCharged txs = n - gasCharged (tx :: txs) := by
        rw [gasCharged, gasCharged, map_cons, sum_cons]
        omega
      rwa [hsum] at ht

/-! ### The rewards -/

theorem creditShard_holds (header : TxBlockHeader) (shardId : UInt32) (reward : Int) :
    Ensures (Holds M.toDatabase codeless n) (creditShard M header shardId reward)
      (fun _ => Holds M.toDatabase codeless (n + reward)) :=
  .bind keeps_lift fun _ => .update fun _ hs => hs.addBalance _ _

/-- The shards together get what is theirs: the last one gets what was not paid yet. -/
theorem creditShards_holds (header : TxBlockHeader) (total fees : Int) (shards : List (UInt32 × Nat)) (paid : Int)
    (hnone : shards = [] → total = paid) :
    Ensures (Holds M.toDatabase codeless n) (creditShards M header total fees shards paid)
      (fun _ => Holds M.toDatabase codeless (n + (total - paid))) := by
  induction shards generalizing n paid with
  | nil =>
    refine .pure fun s hs => ?_
    rwa [hnone rfl, Int.sub_self, Int.add_zero]
  | cons shard rest ih =>
    cases rest with
    | nil => exact creditShard_holds header _ _
    | cons next rest =>
      refine .bind keeps_ensure fun _ => .bind (creditShard_holds header _ _) fun _ => ?_
      intro s hs u t h
      have := ih _ (fun h => (nomatch h)) s hs u t h
      rwa [show ∀ r : Int, n + r + (total - (paid + r)) = n + (total - paid) by intro r; omega] at this

theorem creditBackups_holds (reward : Int) (coinbases : List Bytes) :
    Ensures (Holds M.toDatabase codeless n) (creditBackups M reward coinbases)
      (fun _ => Holds M.toDatabase codeless (n + reward * coinbases.length)) := by
  induction coinbases generalizing n with
  | nil => exact .pure fun s hs => by simpa using hs
  | cons coinbase rest ih =>
    refine .bind (R := fun _ => Holds M.toDatabase codeless (n + reward))
      (.update fun _ hs => hs.addBalance _ _) fun _ => ?_
    intro s hs u t h
    have := ih s hs u t h
    rwa [show n + reward + reward * rest.length = n + reward * (rest.length + 1 : Nat) by push_cast; ring] at this

/-- `assignRwards` pays out the fees and the yield, and nothing is lost to rounding. -/
theorem assignRwards_holds (header : TxBlockHeader) (fees : Nat) (shards : List (UInt32 × Nat)) :
    Ensures (Holds M.toDatabase codeless n) (assignRwards M header fees shards)
      (fun _ => Holds M.toDatabase codeless (n + (fees + yieldReward header.blockNumber : Nat))) := by
  have hnone : M.sortShards shards = [] → shards = [] := fun h => (h ▸ M.sortShards_perm shards).nil_eq.symm
  refine .bind (creditShards_holds header _ _ _ _ fun h => by simp [hnone h]) fun _ => ?_
  refine .bind (creditBackups_holds _ _) fun _ => .bind keeps_lift fun leader => .update fun s hs => ?_
  refine cast (congrArg (Holds M.toDatabase codeless · _) ?_) (hs.addBalance (bytesToAddress leader) _)
  by_cases hshards : shards = []
  · subst hshards
    simp
  · rw [if_neg hshards]
    push_cast
    ring

/-! ### A block -/

def Codeless (M : Machine) (trie : AccountTrie) (a : Address) : Prop :=
  (StateDB.new trie).getCode M.toDatabase a = []

section
variable {trie : AccountTrie} {block : TxBlock} {r : List Receipt × UInt64} {t : StateDB}
variable (hplain : ∀ tx ∈ block.body.transactions, PlainTransfer (Codeless M trie) tx)
  (hrun : process M block (new trie) = (.ok r, t))
include hplain hrun

theorem process_holds : ∃ n, Holds M.toDatabase (Codeless M trie) n t ∧ n + gasCharged block.body.transactions =
      (new trie).supply + yieldReward block.header.blockNumber + feesPaid block.body.transactions := by
  have hprocess : Ensures (Holds M.toDatabase (Codeless M trie)
      (new trie).supply) (process M block) (fun _ s => ∃ n, Holds M.toDatabase (Codeless M trie) n s ∧
      n + gasCharged block.body.transactions =
        (new trie).supply + yieldReward block.header.blockNumber + feesPaid block.body.transactions) := by
    refine .bind (processTxs_holds block _ hplain 0 Progress.init) fun p => ?_
    intro s ⟨hfees, hs⟩
    refine Ensures.bind (assignRwards_holds block.header p.gasFeeTotal p.gasFeeUsedShards)
      (fun _ => .pure fun s hs => ⟨_, hs, ?_⟩) s hs
    rw [hfees]
    simp only [Progress.init]
    omega
  exact hprocess _ ⟨quiet_new M.toDatabase trie, rfl⟩ r t hrun

/-- **What a block of transfers does to the coins there are.** -/
theorem process_supply : t.supply + gasCharged block.body.transactions =
      (new trie).supply + yieldReward block.header.blockNumber + feesPaid block.body.transactions := by
  obtain ⟨n, hholds, hsum⟩ := process_holds hplain hrun
  rw [hholds.supply, hsum]

end

/-- The gas of the block is paid out at the prices it was charged at. -/
def FeesMatch (block : TxBlock) : Prop :=
  feesPaid block.body.transactions = gasCharged block.body.transactions
  deriving Decidable

/-- **Conservation.** A block of transfers that is executed adds its yield to the coins there are exactly
if the fees paid out are the gas charged. -/
theorem supply_conserved_iff {trie : AccountTrie} {block : TxBlock} {r : List Receipt × UInt64} {t : StateDB}
    (hplain : ∀ tx ∈ block.body.transactions, PlainTransfer (Codeless M trie) tx)
    (hrun : process M block (StateDB.new trie) = (.ok r, t)) :
    t.supply = (StateDB.new trie).supply + yieldReward block.header.blockNumber ↔ FeesMatch block := by
  have hsupply := process_supply hplain hrun
  unfold FeesMatch
  omega

end

/-! ### Two blocks -/

def pricedTx (gasPrice : UInt64) : Transaction := {sampleTx (some [9]) 0 5 with gasPrice := gasPrice}

theorem plainTransfer_nine {M : Machine} {trie : AccountTrie} {tx : Transaction}
    (hcode : trie (bytesToAddress [9]) = none) (htx : tx.toAddr = some [9]) : PlainTransfer (Codeless M trie) tx := by
  refine ⟨bytesToAddress [9], by rw [htx]; rfl, by decide +kernel, ?_⟩
  unfold Codeless StateDB.getCode StateDB.getStateObject
  simp [new, hcode]

theorem pricedTx_plain (gasPrice : UInt64) (trie : AccountTrie) (hcode : trie (bytesToAddress [9]) = none) :
    ∀ tx ∈ (sampleBlock 2 [pricedTx gasPrice]).body.transactions, PlainTransfer (Codeless Machine.sample trie) tx :=
  forall_mem_singleton.mpr (plainTransfer_nine hcode rfl)

/-- At price one the block adds its yield. -/
theorem supply_conserved_priceOne :
    ∃ r t, process Machine.sample (sampleBlock 2 [pricedTx 1]) (StateDB.new (sampleTrie 20000000)) = (.ok r, t) ∧
      t.supply = (StateDB.new (sampleTrie 20000000)).supply + 500000000000 := by
  obtain ⟨r, hr⟩ := exists_of_isOk (show (process Machine.sample (sampleBlock 2 [pricedTx 1])
    (StateDB.new (sampleTrie 20000000))).1.isOk = true by decide +kernel)
  obtain ⟨t, hrun⟩ := fst_ok.mp hr
  exact ⟨r, t, hrun, (supply_conserved_iff (pricedTx_plain 1 _ (by decide +kernel)) hrun).mpr (by decide +kernel)⟩

/-- At price two the sender pays for 21000 gas and the rewards hold twice as much: the block makes 21000
coins more than its yield. -/
theorem priceTwo_mints :
    ∃ r t, process Machine.sample (sampleBlock 2 [pricedTx 2]) (StateDB.new (sampleTrie 20000000)) = (.ok r, t) ∧
      (∀ tx ∈ (sampleBlock 2 [pricedTx 2]).body.transactions,
        PlainTransfer (Codeless Machine.sample (sampleTrie 20000000)) tx) ∧
      t.supply = (StateDB.new (sampleTrie 20000000)).supply + yieldReward 2 + 21000 := by
  obtain ⟨r, hr⟩ := exists_of_isOk (show (process Machine.sample (sampleBlock 2 [pricedTx 2])
    (StateDB.new (sampleTrie 20000000))).1.isOk = true by decide +kernel)
  obtain ⟨t, hrun⟩ := fst_ok.mp hr
  have hplain := pricedTx_plain 2 (sampleTrie 20000000) (by decide +kernel)
  refine ⟨r, t, hrun, hplain, ?_⟩
  have hsupply := process_supply hplain hrun
  rw [show gasCharged (sampleBlock 2 [pricedTx 2]).body.transactions = 21000 by decide +kernel,
    show feesPaid (sampleBlock 2 [pricedTx 2]).body.transactions = 42000 by decide +kernel] at hsupply
  have hnumber : (sampleBlock 2 [pricedTx 2]).header.blockNumber = 2 := rfl
  rw [hnumber] at hsupply
  omega

end Okchain.Core
