import Okchain.Chain.BlockHash

/-! The head after a restart, after `loadLastState` and `repair`.

A chain that starts takes the block under "LastBlock" as its head. If its state cannot be opened, `repair` goes back
from parent to parent until one can be. The block it finds is stored through a pointer to a local variable of
`loadLastState`; the current block of the chain stays what it was.
-/
namespace Okchain.Chain.Recovery
open Lib Protos Chain.Storage

/-- The database of a chain, and the states that can be opened in it. -/
structure TxDatabase where
  kv : KvStore
  states : Hash → Option State.AccountTrie

def getBytes (kv : KvStore) (key : Bytes) : Bytes := (kv key).getD []

def readHeadBlockHash (kv : KvStore) : Hash := bytesToHash (getBytes kv headBlockKey)

def readCanonicalHash (kv : KvStore) (number : UInt64) : Hash := bytesToHash (getBytes kv (canonicalHashKey number))

def readHeaderNumber (kv : KvStore) (hash : Hash) : Option UInt64 :=
  let data := getBytes kv (getHeaderNumberKey hash)
  if data.length ≠ 8 then none else some (UInt64.ofNat (Rlp.ofBeBytes data))

namespace TxDatabase

variable (db : TxDatabase)

def getBlock (hash : Hash) (number : UInt64) : Option TxBlock := readBlock db.kv hash number

def getBlockByNumber (number : UInt64) : Option TxBlock :=
  let hash := readCanonicalHash db.kv number
  if hash = default then none else db.getBlock hash number

def getBlockByHash (hash : Hash) : Option TxBlock :=
  db.getBlock hash ((readHeaderNumber db.kv hash).getD missingNumber)

/-- Whether `state.New` opens the state of a block. -/
def opens (b : TxBlock) : Bool := (db.states (bytesToHash b.header.stateRoot)).isSome

/-- The parent of a block, as `repair` looks for it. -/
def parent (b : TxBlock) : Option TxBlock := db.getBlock b.parentHash (b.numberU64 - 1)

/-- `repair`, with the block its pointer is left at; no result means that it has not ended yet. -/
def repair : Nat → TxBlock → Option (Except Err TxBlock)
  | 0, _ => none
  | fuel + 1, head =>
    if db.opens head then some (.ok head)
    else match db.parent head with
      | some p => repair fuel p
      | none => some (.error (.chain .unknownAncestor))

/-- The block that is the last one of the chain according to the database. -/
def headBlock : Option TxBlock :=
  let head := readHeadBlockHash db.kv
  if head = default then none else db.getBlockByHash head

/-- `BlockChain.loadLastState`: the current block after it. `Reset` does nothing. -/
def baseLoadLastState (currentBlock : Option TxBlock) : Option TxBlock :=
  match db.headBlock with
  | some b => some b
  | none => currentBlock

/-- `TxBlockChain.loadLastState` of a chain with this current block: the error it returns, and the current block
after it. `CurrentBlock` panics if none is set. -/
def loadLastState (fuel : Nat) (currentBlock : Option TxBlock) : Option (Except Err Unit × Option TxBlock) :=
  match db.baseLoadLastState currentBlock with
  | none => some (.error (.panic .nilDereference), none)
  | some b =>
    if db.opens b then some (.ok (), some b)
    else (db.repair fuel b).map fun
      -- the repaired block is in a local variable
      | .ok _ => (.ok (), some b)
      | .error e => (.error e, some b)

/-- A chain that starts without an error has a current block whose state can be opened. -/
def Usable : Prop :=
  ∀ fuel currentBlock, db.loadLastState fuel none = some (.ok (), currentBlock) →
    ∃ b, currentBlock = some b ∧ db.opens b = true

/-- Back from the block over stored parents there is one whose state can be opened. -/
inductive Recoverable : TxBlock → Prop
  | here {b} : db.opens b = true → Recoverable b
  | before {b p} : db.parent b = some p → Recoverable p → Recoverable b

end TxDatabase

variable {db : TxDatabase} {b p : TxBlock}

open TxDatabase (baseLoadLastState headBlock loadLastState parent repair)

/-- `repair` finds what there is to be found. -/
theorem recoverable_iff : db.Recoverable b ↔ ∃ fuel found, db.repair fuel b = some (.ok found) := by
  constructor
  · intro h
    induction h with
    | @here b hopens => exact ⟨1, b, if_pos hopens⟩
    | @before b p hparent _ ih =>
      obtain ⟨fuel, found, hrun⟩ := ih
      by_cases hopens : db.opens b = true
      · exact ⟨1, b, if_pos hopens⟩
      · refine ⟨fuel + 1, found, ?_⟩
        rw [repair, if_neg hopens, hparent]
        exact hrun
  · rintro ⟨fuel, found, hrun⟩
    induction fuel generalizing b with
    | zero => exact nomatch hrun
    | succ fuel ih =>
      rw [repair] at hrun
      split at hrun
      next hopens => exact .here hopens
      next =>
        cases hparent : db.parent b with
        | none =>
          rw [hparent] at hrun
          exact nomatch hrun
        | some p =>
          rw [hparent] at hrun
          exact .before hparent (ih hrun)

/-- Where blocks are stored under their own numbers and the state of block 0 can be opened, `repair` ends. -/
theorem repair_ends (hown : ∀ hash number b, db.getBlock hash number = some b → b.numberU64 = number)
    (hgenesis : ∀ hash b, db.getBlock hash 0 = some b → db.opens b = true) {hash : Hash} {n : Nat}
    (hstored : db.getBlock hash (UInt64.ofNat n) = some b) :
    ∃ result, db.repair (n + 1) b = some result := by
  induction n generalizing b hash with
  | zero => exact ⟨.ok b, if_pos (hgenesis hash b hstored)⟩
  | succ n ih =>
    rw [repair]
    by_cases hopens : db.opens b = true
    · exact ⟨.ok b, if_pos hopens⟩
    · rw [if_neg hopens]
      cases hparent : db.parent b with
      | none => exact ⟨_, rfl⟩
      | some p =>
        have hnumber : b.numberU64 - 1 = UInt64.ofNat n := by
          rw [hown _ _ _ hstored, UInt64.sub_eq_iff_eq_add, UInt64.ofNat_add]
          rfl
        unfold parent at hparent
        rw [hnumber] at hparent
        exact ih hparent

theorem loadLastState_none (h : db.headBlock = none) (fuel : Nat) :
    db.loadLastState fuel none = some (.error (.panic .nilDereference), none) := by
  unfold loadLastState baseLoadLastState
  rw [h]

theorem loadLastState_some (h : db.headBlock = some b) (fuel : Nat) (currentBlock : Option TxBlock) :
    db.loadLastState fuel currentBlock = if db.opens b then some (.ok (), some b)
      else (db.repair fuel b).map fun
        | .ok _ => (.ok (), some b)
        | .error e => (.error e, some b) := by
  unfold loadLastState baseLoadLastState
  rw [h]

theorem loadLastState_ends (hown : ∀ hash number b, db.getBlock hash number = some b → b.numberU64 = number)
    (hgenesis : ∀ hash b, db.getBlock hash 0 = some b → db.opens b = true) :
    ∃ fuel result, db.loadLastState fuel none = some result := by
  cases hhead : db.headBlock with
  | none => exact ⟨0, _, loadLastState_none hhead 0⟩
  | some b =>
    obtain ⟨hash, number, hstored⟩ : ∃ hash number, db.getBlock hash number = some b := by
      unfold headBlock at hhead
      dsimp only at hhead
      split at hhead
      · exact nomatch hhead
      · exact ⟨_, _, hhead⟩
    rw [← UInt64.ofNat_toNat (x := number)] at hstored
    obtain ⟨result, hrun⟩ := repair_ends hown hgenesis hstored
    refine ⟨number.toNat + 1, ?_⟩
    rw [loadLastState_some hhead]
    split
    · exact ⟨_, rfl⟩
    · rw [hrun]
      exact ⟨_, rfl⟩

/-- **The head after a restart.** Whatever is missing in the database: the head is usable whenever the chain starts
without an error, exactly if the state of the last block can be opened, or no block before it has one that can. -/
theorem loadLastState_usable_iff (db : TxDatabase) :
    db.Usable ↔ ∀ b, db.headBlock = some b → db.opens b = true ∨ ¬ db.Recoverable b := by
  constructor
  · intro h b hhead
    by_contra hno
    obtain ⟨hclosed, hrecoverable⟩ := not_or.mp hno
    obtain ⟨fuel, found, hrun⟩ := recoverable_iff.mp (not_not.mp hrecoverable)
    have hload : db.loadLastState fuel none = some (.ok (), some b) := by
      rw [loadLastState_some hhead, if_neg hclosed, hrun]
      rfl
    obtain ⟨b', hb', hopens⟩ := h fuel (some b) hload
    rw [← Option.some.inj hb'] at hopens
    exact hclosed hopens
  · intro h fuel currentBlock hload
    cases hhead : db.headBlock with
    | none =>
      rw [loadLastState_none hhead] at hload
      exact nomatch hload
    | some b =>
      rw [loadLastState_some hhead] at hload
      rcases h b hhead with hopens | hlost
      · rw [if_pos hopens] at hload
        exact ⟨b, (Prod.mk.inj (Option.some.inj hload)).2.symm, hopens⟩
      · rw [if_neg fun hopens => hlost (.here hopens)] at hload
        obtain ⟨result, hrun, hresult⟩ := Option.map_eq_some_iff.mp hload
        cases result with
        | ok found => exact absurd (recoverable_iff.mpr ⟨fuel, found, hrun⟩) hlost
        | error e => exact nomatch (Prod.mk.inj hresult).1

/-! ### A lost state -/

/-- A database with genesis and the first block, of which only the state of genesis is there. -/
def lostState : TxDatabase where
  kv := ((Storage.batchInsert Env.sample none txGenesis emptyDb >>= Storage.batchInsert Env.sample none txFirst).toOption).getD
    emptyDb
  states root := if root = bytesToHash txGenesis.header.stateRoot then some (Core.sampleTrie 1) else none

/-- Genesis and its state are readable and the start succeeds, with a head whose state cannot be opened. The repair
has found genesis. -/
theorem head_not_repaired : lostState.getBlockByNumber 0 = some txGenesis ∧ lostState.opens txGenesis = true ∧
    lostState.repair 2 txFirst = some (.ok txGenesis) ∧
    lostState.loadLastState 2 none = some (.ok (), some txFirst) ∧ lostState.opens txFirst = false := by
  decide +kernel

end Okchain.Chain.Recovery
