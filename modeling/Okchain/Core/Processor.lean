import Okchain.Core.Transition
import Okchain.Protos.Crypto

/-! Executing a block, after `core/state_processor.go`.

`Process` applies the transactions one by one, finalising the state after each, and then credits the
block reward and the fees: to the leaders of the shards the transactions belong to, in increasing
order of the fees their shard collected, and to the DS committee.
-/
namespace Okchain.Core
open Lib State Vm Protos

structure Receipt where
  failed : Bool
  cumulativeGasUsed : UInt64
  txHash : Hash
  gasUsed : UInt64
  contractAddress : Option Address
  logs : List Log

section

variable (M : Machine)

def newEVMContext (m : Msg) (header : TxBlockHeader) : Except Err Context := do
  let beneficiary ← index header.dsCoinBase 0
  let timestamp ← deref header.timestamp
  return {
    getHash := M.blockHash (bytesToHash header.previousBlockHash) header.txNum
    origin := m.sender
    gasPrice := m.gasPrice
    coinbase := bytesToAddress beneficiary
    gasLimit := header.gasLimit
    blockNumber := header.blockNumber
    time := timestamp.second}

/-- `P256Signer.Sender`; the caller drops the error and is left with the zero address. -/
def txSender (tx : Transaction) : Address :=
  if tx.senderPubKey.length = 65 then bytesToAddress ((M.keccak tx.senderPubKey.tail).bytes.drop 12)
  else default

def getShardId (tx : Transaction) (dsNum : UInt64) : Except Err UInt32 := do
  let shardsNum ← deref (M.shardingSum dsNum)
  return if shardsNum = 0 then 0
    else UInt32.ofNat (Rlp.ofBeBytes (txSender M tx).bytes % shardsNum.toNat)

/-- How far `Process` has come. -/
structure Progress where
  gasPool : UInt64
  usedGas : UInt64
  gasFeeTotal : Nat
  gasFeeUsedShards : List (UInt32 × Nat)
  receipts : List Receipt

def Progress.init : Progress where
  gasPool := 10000000000000000
  usedGas := 0
  gasFeeTotal := 0
  gasFeeUsedShards := []
  receipts := []

def addFee (shards : List (UInt32 × Nat)) (shardId : UInt32) (fee : Nat) : List (UInt32 × Nat) :=
  match shards with
  | [] => [(shardId, fee)]
  | (id, total) :: rest =>
    if id = shardId then (id, total + fee) :: rest else (id, total) :: addFee rest shardId fee

def applyTransaction (header : TxBlockHeader) (tx : Transaction) (gp usedGas : UInt64) :
    Proc Err StateDB (Receipt × UInt64) := do
  let m := asMsg M tx
  let ctx ← .lift (newEVMContext M m header)
  let applied ← transitionDb M ctx m gp
  StateDB.finalise M.toDatabase true
  let logs ← .read fun s => s.logs (tx.hash M.toEnv)
  pure ({
    failed := applied.failed
    cumulativeGasUsed := usedGas + applied.gasUsed
    txHash := tx.hash M.toEnv
    gasUsed := applied.gasUsed
    contractAddress := if m.recipient.isNone then some (createAddress M.toEnv m.sender tx.nonce) else none
    logs := logs}, applied.gasPool)

/-- One round of the loop in `Process`. -/
def processTx (block : TxBlock) (i : Nat) (tx : Transaction) (p : Progress) :
    Proc Err StateDB Progress := do
  let bhash ← .lift (block.hash M.toEnv)
  .update fun s => s.prepare (tx.hash M.toEnv) bhash block.header.blockNumber i
  let (receipt, gasPool) ← applyTransaction M block.header tx p.gasPool p.usedGas
  let shardId ← .lift (getShardId M tx block.header.dsBlockNum)
  let txFee := (receipt.gasUsed * tx.gasPrice).toNat
  pure {
    gasPool := gasPool
    usedGas := receipt.cumulativeGasUsed
    gasFeeTotal := p.gasFeeTotal + txFee
    gasFeeUsedShards := addFee p.gasFeeUsedShards shardId txFee
    receipts := p.receipts ++ [receipt]}

/-- The loop in `Process`. -/
def processTxs (block : TxBlock) : List Transaction → Nat → Progress → Proc Err StateDB Progress
  | [], _, p => pure p
  | tx :: txs, i, p => do
    let p ← processTx M block i tx p
    processTxs block txs (i + 1) p

/-! ### Rewards -/

def dampedBlocks : Nat := 1576800

/-- The newly issued coins of a block, halved every `DAMPEDBLOCKS` blocks. -/
def yieldReward (blockNumber : UInt64) : Nat := 500000000000 >>> (blockNumber.toNat / dampedBlocks)

def creditShard (header : TxBlockHeader) (shardId : UInt32) (reward : Int) : Proc Err StateDB PUnit := do
  let coinbase ← .lift (index header.shardingLeadCoinBase shardId.toNat)
  .update fun s => s.addBalance M.toDatabase (bytesToAddress coinbase) reward

/-- Credit the shards in order: all but the last by their percentage of the fees, rounded down, and
the last with what remains. -/
def creditShards (header : TxBlockHeader) (shardsRewardTotal gasFeeTotal : Int) :
    List (UInt32 × Nat) → Int → Proc Err StateDB PUnit
  | [], _ => pure ⟨⟩
  | [(shardId, _)], paid => creditShard M header shardId (shardsRewardTotal - paid)
  | (shardId, fee) :: rest, paid => do
    .ensure (gasFeeTotal ≠ 0) (.panic .divisionByZero)
    let percent := (fee : Int) * 100 / gasFeeTotal
    let reward := shardsRewardTotal * percent / 100
    creditShard M header shardId reward
    creditShards header shardsRewardTotal gasFeeTotal rest (paid + reward)

def creditBackups (reward : Int) : List Bytes → Proc Err StateDB PUnit
  | [] => pure ⟨⟩
  | coinbase :: rest => do
    .update fun s => s.addBalance M.toDatabase (bytesToAddress coinbase) reward
    creditBackups reward rest

def assignRwards (header : TxBlockHeader) (gasFeeTotal : Nat) (gasFeeUsedShards : List (UInt32 × Nat)) :
    Proc Err StateDB PUnit := do
  let totalReward : Int := (gasFeeTotal : Int) + yieldReward header.blockNumber
  let shardsCnt : Int := gasFeeUsedShards.length
  let shardAverageReward := totalReward * 10 / (11 + 10 * shardsCnt)
  let shardsRewardTotal := shardsCnt * shardAverageReward
  creditShards M header shardsRewardTotal gasFeeTotal (M.sortShards gasFeeUsedShards) 0
  let dsRewardTotal := if gasFeeUsedShards = [] then totalReward else totalReward - shardsRewardTotal
  let dsBackupCnt : Int := (header.dsCoinBase.length : Int) - 1
  let dsBackupAverageReward := dsRewardTotal * 10 / (11 + 10 * dsBackupCnt)
  creditBackups M dsBackupAverageReward header.dsCoinBase.tail
  let leader ← .lift (index header.dsCoinBase 0)
  let paid := dsBackupAverageReward * header.dsCoinBase.tail.length
  .update fun s => s.addBalance M.toDatabase (bytesToAddress leader) (dsRewardTotal - paid)

def process (block : TxBlock) : Proc Err StateDB (List Receipt × UInt64) := do
  let p ← processTxs M block block.body.transactions 0 Progress.init
  assignRwards M block.header p.gasFeeTotal p.gasFeeUsedShards
  pure (p.receipts, p.usedGas)

end

/-! ### The order of the shards

Go ranges over the map of fees in any order and sorts it without keeping the order of ties, and does so again
each time a block is executed. -/

/-- A way in which the entries of the map can come out of `sortByGasFee`. -/
structure ShardOrder where
  sort : List (UInt32 × Nat) → List (UInt32 × Nat)
  perm : ∀ l, (sort l).Perm l
  sorted : ∀ l, (sort l).Pairwise (fun a b => a.2 ≤ b.2)

/-- The machine of a node that gets them in this way. -/
def Machine.ordered (M : Machine) (o : ShardOrder) : Machine :=
  {M with sortShards := o.sort, sortShards_perm := o.perm, sortShards_sorted := o.sorted}

section
variable {M : Machine} (o : ShardOrder) {block : TxBlock} {header : TxBlockHeader}

end

/-! ### A computable machine

For evaluating the model on concrete inputs: contracts that do nothing, one shard, and a state root
that is the checksum of the nonces and balances at three addresses. -/

def sampleKey : Bytes := List.replicate 65 7

def otherKey : Bytes := List.replicate 64 7 ++ [8]

def accountBytes : Option Account → Bytes
  | none => [0]
  | some a => [1] ++ Rlp.beBytes a.nonce.toNat ++ [2] ++ Rlp.beBytes a.balance.toNat

def Machine.sample : Machine where
  toEnv := Env.sample
  openStorageTrie _ := some fun _ => none
  contractCode _ := none
  accountRoot t := checksum ([bytesToAddress [1], bytesToAddress [9],
    bytesToAddress ((checksum sampleKey.tail).bytes.drop 12)].flatMap fun a => accountBytes (t a))
  storageRoot _ := default
  interpret _ _ f := .halt ⟨[], f.gas, none⟩
  precompile _ _ gas := ⟨[], gas, none⟩
  onCurve b := b.length == 65
  blockHash _ _ _ := default
  shardingSum _ := some 0
  sortShards := List.insertionSort (fun a b => a.2 ≤ b.2)
  sortShards_perm := List.perm_insertionSort _
  sortShards_sorted := by
    have total : Std.Total (fun a b : UInt32 × Nat => a.2 ≤ b.2) := ⟨fun a b => Nat.le_total a.2 b.2⟩
    have trans : IsTrans (UInt32 × Nat) (fun a b => a.2 ≤ b.2) := ⟨fun a b c => Nat.le_trans⟩
    exact List.pairwise_insertionSort _

theorem exists_of_isOk {ε α : Type} {x : Except ε α} (h : x.isOk = true) : ∃ a, x = .ok a := by
  cases x with
  | error e => exact nomatch h
  | ok a => exact ⟨a, rfl⟩

def sampleSender : Address := senderAddress Machine.sample sampleKey

def sampleTrie (balance : Int) : AccountTrie := fun a =>
  if a = sampleSender then some {newAccount Machine.sample.toDatabase with balance := balance} else none

def sampleTx (toAddr : Option Bytes) (nonce amount : UInt64) : Transaction where
  version := 1
  nonce := nonce
  senderPubKey := sampleKey
  toAddr := toAddr
  amount := amount
  signature := []
  gasPrice := 1
  gasLimit := 0
  code := []
  data := []
  timestamp := some ⟨1, 1⟩

def samplePeer : PeerEndpoint := ⟨some ⟨[]⟩, [], 0, [], [], []⟩

def sampleBlock (number : UInt64) (txs : List Transaction) : TxBlock where
  header := {
    version := 1
    timestamp := some ⟨1, 1⟩
    previousBlockHash := []
    blockNumber := number
    dsCoinBase := [[9]]
    shardingLeadCoinBase := [[9]]
    stateRoot := []
    txRoot := []
    gasLimit := 1
    gasUsed := 0
    dsBlockNum := 1
    dsBlockHash := []
    miner := some samplePeer
    txNum := UInt64.ofNat txs.length
    boolMap := []
    signature := []
    multiPubKey := []}
  body := ⟨0, [], txs, []⟩

end Okchain.Core
