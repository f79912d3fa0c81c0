import Okchain.Core.StateRoot
import Okchain.Vm.Logs

/-! Blocks that execute alike.

Executing a block looks neither at the gas its header claims nor at the version of a transaction. The
version does change the hash of the transaction, but that hash only names the logs, and logs do not
reach the accounts.
-/
namespace Okchain.Core
open Lib State Vm Protos
open Proc (Respects Relates)

def SameButVersion (tx tx' : Transaction) : Prop := tx' = {tx with version := tx'.version}

/-- The block with another gas claim and other transactions. -/
def retold (b : TxBlock) (gasUsed : UInt64) (txs : List Transaction) : TxBlock where
  header := {b.header with gasUsed := gasUsed}
  body := {b.body with transactions := txs}

section

variable (M : Machine)

theorem preCheck_respects (m : Msg) (gp : UInt64) : Respects SameButLogs (preCheck M m gp) := by
  refine .bind (read_respects fun _ => rfl) fun _ => .bind .ensure fun _ => .bind .ensure fun _ => ?_
  refine .bind (.ensureState fun s t h => ?_) fun _ => .bind .ensure fun _ => ?_
  · rw [h.reads (f := fun s => s.getBalance m.sender) fun _ => rfl]
  · exact .bind (update_respects (subBalance_blind M.toDatabase m.sender _)) fun _ => .pure

theorem execute_respects (ctx : Context) (m : Msg) (gas : UInt64) : Respects SameButLogs (execute M ctx m gas) := by
  unfold execute
  cases m.recipient with
  | none =>
    exact create_respects M.toDatabase fun self =>
      .bind (read_respects fun _ => rfl) fun t => exec_respects M.toDatabase t 1 self
  | some recipient =>
    refine .bind (update_respects (setNonce_blind M.toDatabase m.sender _ fun _ => rfl)) fun _ => ?_
    exact call_respects M.toDatabase
      (.bind (read_respects fun _ => rfl) fun t => exec_respects M.toDatabase t 1 recipient)

theorem transitionDb_respects (ctx : Context) (m : Msg) (gp : UInt64) :
    Respects SameButLogs (transitionDb M ctx m gp) := by
  refine .bind (preCheck_respects M m gp) fun gp => .bind .lift fun _ => .bind .ensure fun _ => ?_
  refine .bind (execute_respects M ctx m _) fun r => .bind .ensure fun _ => .bind ?_ fun gas =>
    .bind .ensure fun _ => .pure
  refine .bind (read_respects fun _ => rfl) fun _ => ?_
  exact .bind (update_respects (addBalance_blind M.toDatabase m.sender _)) fun _ => .pure

theorem creditShards_respects (header : TxBlockHeader) (total fees : Int) (shards : List (UInt32 × Nat))
    (paid : Int) : Respects SameButLogs (creditShards M header total fees shards paid) := by
  have hcredit : ∀ shard reward, Respects SameButLogs (creditShard M header shard reward) := fun _ reward =>
    .bind .lift fun coinbase => update_respects (addBalance_blind M.toDatabase _ reward)
  induction shards generalizing paid with
  | nil => exact .pure
  | cons shard rest ih =>
    cases rest with
    | nil => exact hcredit _ _
    | cons next rest => exact .bind .ensure fun _ => .bind (hcredit _ _) fun _ => ih _

theorem assignRwards_retold (b : TxBlock) (gasUsed : UInt64) (txs : List Transaction) (fees : Nat)
    (shards : List (UInt32 × Nat)) :
    assignRwards M (retold b gasUsed txs).header fees shards = assignRwards M b.header fees shards := by
  have hshards : ∀ total fees shards paid, creditShards M (retold b gasUsed txs).header total fees shards paid =
      creditShards M b.header total fees shards paid := by
    intro total fees shards
    induction shards with
    | nil => exact fun _ => rfl
    | cons shard rest ih =>
      intro paid
      cases rest with
      | nil => rfl
      | cons next rest =>
        unfold creditShards
        simp only [ih]
        rfl
  unfold assignRwards
  simp only [hshards]
  rfl

theorem creditBackups_respects (reward : Int) (coinbases : List Bytes) :
    Respects SameButLogs (creditBackups M reward coinbases) := by
  induction coinbases with
  | nil => exact .pure
  | cons coinbase rest ih => exact .bind (update_respects (addBalance_blind M.toDatabase _ reward)) fun _ => ih

theorem assignRwards_respects (header : TxBlockHeader) (fees : Nat) (shards : List (UInt32 × Nat)) :
    Respects SameButLogs (assignRwards M header fees shards) := by
  refine .bind (creditShards_respects M header _ _ _ 0) fun _ => ?_
  refine .bind (creditBackups_respects M _ _) fun _ => .bind .lift fun _ => ?_
  exact update_respects (addBalance_blind M.toDatabase _ _)

/-! ### Executing both blocks -/

def SameButReceipts (p p' : Progress) : Prop := p' = {p with receipts := p'.receipts}

/-- The two receipts charge the same gas, and the same gas is left. -/
def SameGas (a a' : Receipt × UInt64) : Prop :=
  a'.1.gasUsed = a.1.gasUsed ∧ a'.1.cumulativeGasUsed = a.1.cumulativeGasUsed ∧ a'.2 = a.2

variable {b : TxBlock} {gasUsed : UInt64} {txs : List Transaction}

theorem applyTransaction_relates {tx tx' : Transaction} (htx : SameButVersion tx tx') (gp used : UInt64) :
    Relates SameButLogs SameGas (applyTransaction M b.header tx gp used)
      (applyTransaction M (retold b gasUsed txs).header tx' gp used) := by
  rw [htx]
  refine .bind (Respects.lift) fun ctx _ h => ?_
  subst h
  refine .bind (transitionDb_respects M ctx (asMsg M tx) gp) fun applied _ h => ?_
  subst h
  refine .bind (finalise_respects M.toDatabase true) fun _ _ _ => ?_
  refine .bind (V := fun _ _ => True) (.read fun _ _ _ => trivial) fun logs logs' _ => ?_
  exact .pure ⟨rfl, rfl, rfl⟩

theorem processTx_relates {tx tx' : Transaction} (htx : SameButVersion tx tx') (i : Nat) {p p' : Progress}
    (hp : SameButReceipts p p') :
    Relates SameButLogs SameButReceipts (processTx M b i tx p)
      (processTx M (retold b gasUsed txs) i tx' p') := by
  rw [hp]
  refine .bind (Respects.lift) fun bhash _ h => ?_
  subst h
  refine .bind (prepare_relates _ _ bhash _ i) fun _ _ _ => ?_
  refine .bind (applyTransaction_relates M htx p.gasPool p.usedGas) fun a a' ha => ?_
  obtain ⟨hgas, hcumulative, hpool⟩ := ha
  have hshard : getShardId M tx' b.header.dsBlockNum = getShardId M tx b.header.dsBlockNum := by rw [htx]; rfl
  have hprice : tx'.gasPrice = tx.gasPrice := by rw [htx]
  refine .bind (V := Eq) ?_ fun shard _ h => ?_
  · show Relates SameButLogs Eq (.lift (getShardId M tx b.header.dsBlockNum))
      (.lift (getShardId M tx' b.header.dsBlockNum))
    rw [hshard]
    exact Respects.lift
  · subst h
    refine .pure ?_
    unfold SameButReceipts
    rw [hgas, hcumulative, hpool, hprice]

theorem processTxs_relates {todo todo' : List Transaction} (htodo : List.Forall₂ SameButVersion todo todo')
    (i : Nat) {p p' : Progress} (hp : SameButReceipts p p') :
    Relates SameButLogs SameButReceipts (processTxs M b todo i p)
      (processTxs M (retold b gasUsed txs) todo' i p') := by
  induction htodo generalizing i p p' with
  | nil => exact .pure hp
  | cons htx _ ih => exact .bind (processTx_relates M htx i hp) fun _ _ h => ih (i + 1) h

/-- **Twins have one root.** -/
theorem processedRoot_relates (htxs : List.Forall₂ SameButVersion b.body.transactions txs) (del : Bool) :
    Relates SameButLogs Eq (processedRoot M del b) (processedRoot M del (retold b gasUsed txs)) := by
  refine .bind (V := fun r r' => r'.2 = r.2) ?_ fun r r' h => ?_
  · refine .bind (processTxs_relates M htxs 0 rfl) fun p p' hp => ?_
    rw [hp, assignRwards_retold]
    exact .bind (assignRwards_respects M b.header p.gasFeeTotal p.gasFeeUsedShards) fun _ _ _ => .pure rfl
  · obtain ⟨receipts, used⟩ := r
    obtain ⟨receipts', used'⟩ := r'
    change used' = used at h
    subst h
    refine Respects.bind (.bind (finalise_respects M.toDatabase del) fun _ => ?_) fun _ => .pure
    exact read_respects fun _ => rfl

end

end Okchain.Core
