import Okchain.Chain.DsChain
import Okchain.Core.StateRoot

/-! The transaction chain, after `core/blockchain/block_validator.go` and `tx_blockchain.go`.

A block is validated in five stages: its header against the stored parent and the DS chain, its body, its seal, the
execution of its transactions, and the resulting state root. The head of the chain is not looked at.
-/
namespace Okchain.Chain
open Lib Protos State Core

/-- The transaction chain keeps the states that can be opened, by root. -/
abbrev TxBlockChain := BlockChain TxBlock (Hash → Option AccountTrie)

/-- What validating a block takes as given: how blocks are executed, the DS chain if there is one, and
whether it has a BLS signer. -/
structure Validator where
  machine : Machine
  dsBC : Option DSBlockChain
  signer : Bool

/-- A `uint64` read as an `int64`. -/
def toInt64 (x : UInt64) : Int := Int.bmod x.toNat (2 ^ 64)

/-- `Timestamp2Time(t).Unix()`: nanoseconds are carried over into seconds. -/
def unixTime (t : Timestamp) : Int := Int.bmod (toInt64 t.second + toInt64 t.nanosecond / 1000000000) (2 ^ 64)

/-- `AllowedFutureBlkTime`, in seconds. -/
def allowedFutureBlkTime : Int := 15

variable (V : Validator)

/-- The DS block a header names exists, if there is a DS chain to ask. -/
def dsBlockExists (h : TxBlockHeader) : Bool :=
  match V.dsBC with
  | none => true
  | some ds => (ds.getBlock (bytesToHash h.dsBlockHash) h.dsBlockNum).isSome

/-- `verifyHeader`, at the time `now`. -/
def verifyHeader (now : Int) (h parent : TxBlockHeader) : Except Err Unit :=
  match h.timestamp with
  | none => .error (.chain .timestamp)
  | some t =>
    if t.nanosecond = 0 ∨ t.second = 0 then .error (.chain .timestamp)
    else if now + allowedFutureBlkTime < unixTime t then .error (.chain .futureBlock)
    else if 0x7FFFFFFFFFFFFFFF < h.gasLimit then .error (.chain .invalidGasLimit)
    else if h.gasLimit < h.gasUsed then .error (.chain .invalidGasUsed)
    else if 1 < h.blockNumber - parent.blockNumber then .error (.chain .futureBlock)
    else if !dsBlockExists V h then .error (.chain .dsBlockNotExist)
    else .ok ⟨⟩

/-- `VerifyHeader`. -/
def txVerifyHeader (now : Int) (c : TxBlockChain) (h : TxBlockHeader) : Except Err Unit := do
  let hash ← h.hash V.machine.toEnv
  if (c.getBlock hash h.blockNumber).isSome then .error (.chain .knownBlock)
  else match c.getBlock (bytesToHash h.previousBlockHash) (h.blockNumber - 1) with
    | none => .error (.chain .unknownAncestor)
    | some parent => verifyHeader V now h parent.header

def hasBlockAndState (c : TxBlockChain) (hash : Hash) (number : UInt64) : Bool :=
  match c.getBlock hash number with
  | none => false
  | some b => (c.extra (bytesToHash b.header.stateRoot)).isSome

/-- `ValidateBody`. The root of the transactions is computed as well, but a mismatch is not an error. -/
def validateBody (c : TxBlockChain) (b : TxBlock) : Except Err Unit := do
  let hash ← b.hash V.machine.toEnv
  if hasBlockAndState c hash b.numberU64 then .error (.chain .knownBlock)
  else if (c.getBlock b.parentHash (b.numberU64 - 1)).isNone then .error (.chain .unknownAncestor)
  else if !hasBlockAndState c b.parentHash (b.numberU64 - 1) then .error (.chain .prunedAncestor)
  else if b.header.txNum.toNat ≠ b.body.transactions.length then .error (.chain .transations)
  else .ok ⟨⟩

/-- The block as it is sealed: of the coinbases only the first. -/
def TxBlock.cutCoinBase (b : TxBlock) : Except Err TxBlock := do
  let first ← index b.header.dsCoinBase 0
  return {b with header := {b.header with dsCoinBase := [first]}}

def sealHash (b : TxBlock) : Except Err Hash := do
  let cut ← TxBlock.cutCoinBase b
  cut.mHash V.machine.toEnv

/-- The seal of a block against the DS block it names. -/
def verifySealBy (base : DSBlock) (b : TxBlock) : Except Err Unit := do
  let sorted ← checkSeal V.machine.toEnv base.body.committee b.header.boolMap b.header.multiPubKey
    b.header.signature (sealHash V b)
  orError (.chain .checkCoinBase) (checkCoinBase2 b sorted base.getCoinbaseByPubkey)
  if (b.getVoteTickets : Int) < getToleranceSize base.body.committee.length then
    .error (.chain .bitmapTolerence)
  else .ok ⟨⟩

def verifySeal (b : TxBlock) : Except Err Unit :=
  if 1 < b.header.blockNumber ∧ 1 ≤ b.header.dsBlockNum then
    match V.dsBC with
    | none => .error (.chain .blockSignerNotFound)
    | some ds =>
      if !V.signer then .error (.chain .blockSignerNotFound)
      else match ds.getBlockByNumber b.header.dsBlockNum with
        | none => .error (.chain .dsBlockNotExist)
        | some base => verifySealBy V base b
  else .ok ⟨⟩

/-- Execution and `ValidateState`: the state to be committed. -/
def executeAndValidate (b : TxBlock) : Proc Err StateDB Unit := do
  let (root, _) ← processedRoot V.machine true b
  .ensure (b.header.stateRoot = root.bytes) (.chain .invalidMerkleRoot)

/-- `TxBlockChain.ValidateBlock`. -/
def txValidateBlock (now : Int) (c : TxBlockChain) (b : TxBlock) : Except Err StateDB := do
  txVerifyHeader V now c b.header
  validateBody V c b
  verifySeal V b
  let parent ← deref (c.getBlockByHash b.parentHash)
  match c.extra (bytesToHash parent.header.stateRoot) with
  | none => .error (.chain .missingTrieNode)
  | some trie =>
    match executeAndValidate V b (StateDB.new trie) with
    | (.ok _, s) => .ok s
    | (.error e, _) => .error e

/-- What `ReadBlock` returns after `WriteBlock`. A missing recipient reads back as an empty one. -/
def txReadBack (b : TxBlock) : Option TxBlock :=
  if b.header.timestamp.isSome && readableEndpoint b.header.miner &&
      b.body.transactions.all (·.timestamp.isSome)
  then some {b with body := {b.body with
    transactions := b.body.transactions.map fun t => {t with toAddr := some (t.toAddr.getD [])}}}
  else none

/-- The commit of `batchInsert`: the validated state can then be opened by its root. -/
def commitState (hot : StateDB) (states : Hash → Option AccountTrie) : Except Err (Hash → Option AccountTrie) :=
  match StateDB.commit V.machine.toDatabase false hot with
  | (.ok root, s) => .ok (Function.update states root (some s.trie))
  | (.error e, _) => .error e

/-- The transaction chain as an implementation of a chain, at the time `now`. -/
def txImpl (now : Int) : Impl TxBlock (Hash → Option AccountTrie) StateDB where
  numberU64 := TxBlock.numberU64
  parentHash := TxBlock.parentHash
  hash := TxBlock.hash V.machine.toEnv
  readBack := txReadBack
  validateBlock := txValidateBlock V now
  isFutureBlockErr e := e = .chain .futureBlock ∨ e = .chain .unknownAncestor ∨
    e = .chain .dsBlockNotExist ∨ e = .chain .prunedAncestor ∨ e = .chain .checkCoinBase
  commit := commitState V

/-! ### What accepting says -/

variable {V : Validator}

variable {now : Int} {c : TxBlockChain} {b : TxBlock} {hot : StateDB}

theorem txVerifyHeader_ok {h : TxBlockHeader} {u : Unit} (hok : txVerifyHeader V now c h = .ok u) :
    ∃ hash parent, h.hash V.machine.toEnv = .ok hash ∧ c.getBlock hash h.blockNumber = none ∧
      c.getBlock (bytesToHash h.previousBlockHash) (h.blockNumber - 1) = some parent ∧
      verifyHeader V now h parent.header = .ok u := by
  obtain ⟨hash, hhash, hok⟩ := except_bind_ok.mp hok
  split at hok
  · exact nomatch hok
  · cases hparent : c.getBlock (bytesToHash h.previousBlockHash) (h.blockNumber - 1) with
    | none =>
      rw [hparent] at hok
      exact nomatch hok
    | some parent =>
      rw [hparent] at hok
      exact ⟨hash, parent, hhash, Option.not_isSome_iff_eq_none.mp ‹_›, rfl, hok⟩

/-- The stages an accepted block has passed. -/
theorem txValidateBlock_ok (h : txValidateBlock V now c b = .ok hot) :
    txVerifyHeader V now c b.header = .ok ⟨⟩ ∧ validateBody V c b = .ok ⟨⟩ ∧ verifySeal V b = .ok ⟨⟩ ∧
      ∃ parent trie, c.getBlockByHash b.parentHash = some parent ∧
        c.extra (bytesToHash parent.header.stateRoot) = some trie ∧
        executeAndValidate V b (StateDB.new trie) = (.ok ⟨⟩, hot) := by
  obtain ⟨_, hheader, h⟩ := except_bind_ok.mp h
  obtain ⟨_, hbody, h⟩ := except_bind_ok.mp h
  obtain ⟨_, hseal, h⟩ := except_bind_ok.mp h
  obtain ⟨parent, hparent, h⟩ := except_bind_ok.mp h
  refine ⟨hheader, hbody, hseal, parent, ?_⟩
  cases hstate : c.extra (bytesToHash parent.header.stateRoot) with
  | none =>
    rw [hstate] at h
    exact nomatch h
  | some trie =>
    rw [hstate] at h
    refine ⟨trie, deref_ok.mp hparent, rfl, ?_⟩
    dsimp only at h
    rcases hrun : executeAndValidate V b (StateDB.new trie) with ⟨e | u, s⟩
    · rw [hrun] at h
      exact nomatch h
    · rw [hrun] at h
      rw [Except.ok.inj h]

theorem txValidateBlock_of {parent : TxBlock} {trie : AccountTrie} (hheader : txVerifyHeader V now c b.header = .ok ⟨⟩)
    (hbody : validateBody V c b = .ok ⟨⟩) (hseal : verifySeal V b = .ok ⟨⟩)
    (hparent : c.getBlockByHash b.parentHash = some parent)
    (htrie : c.extra (bytesToHash parent.header.stateRoot) = some trie)
    (hrun : executeAndValidate V b (StateDB.new trie) = (.ok ⟨⟩, hot)) :
    txValidateBlock V now c b = .ok hot := by
  refine except_bind_ok.mpr ⟨_, hheader, except_bind_ok.mpr ⟨_, hbody, except_bind_ok.mpr ⟨_, hseal, ?_⟩⟩⟩
  refine except_bind_ok.mpr ⟨parent, deref_ok.mpr hparent, ?_⟩
  rw [htrie]
  dsimp only
  rw [hrun]

end Okchain.Chain
