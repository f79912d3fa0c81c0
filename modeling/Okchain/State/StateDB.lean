import Okchain.Protos.Hash
import Okchain.Lib.Proc

/-! The world state and its journal, after `core/state`.

Accounts live in a trie. A `StateDB` keeps decoded accounts in `stateObjects`, remembers in `stateObjectsDirty` which of
them were changed, and records an undo entry for every change. An object carries a callback that marks its account
dirty and is dropped when it has fired, which `onDirty` records.

A cached object that was never written equals the trie's entry, so in the model a read leaves the state alone. The
Merkle tries are finite maps with a root function.
-/
namespace Okchain.State
open Lib Function
open Protos

structure Account where
  nonce : UInt64
  balance : Int
  root : Hash
  codeHash : Bytes
  lastUpdatedHeight : Int
  weightAtLastUpdatedHeight : Int
  deriving DecidableEq

abbrev AccountTrie := Address → Option Account
abbrev StorageTrie := Hash → Option Hash
abbrev Storage := Hash → Option Hash

/-- The storage tries and the code store, by root and by hash, and the root functions. -/
structure Database extends Env where
  openStorageTrie : Hash → Option StorageTrie
  contractCode : Hash → Option Bytes
  accountRoot : AccountTrie → Hash
  storageRoot : StorageTrie → Hash

/-- `emptyCodeHash`, the digest of no code. -/
def Database.emptyCodeHash (D : Database) : Bytes := (D.keccak []).bytes

structure StateObject where
  data : Account
  dbErr : Bool
  trie : Option StorageTrie
  code : Option Bytes
  cachedStorage : Storage
  dirtyStorage : Storage
  dirtyCode : Bool
  suicided : Bool
  touched : Bool
  deleted : Bool
  onDirty : Bool

/-- What one change to the state needs to be undone. -/
inductive JournalEntry
  | createObject (account : Address)
  | resetObject (account : Address) (prev : StateObject)
  | suicide (account : Address) (prev : Bool) (prevbalance : Int)
  | balance (account : Address) (prev : Int)
  | nonce (account : Address) (prev : UInt64)
  | storage (account : Address) (key prevalue : Hash)
  | code (account : Address) (prevcode : Option Bytes) (prevhash : Bytes)
  | refund (prev : UInt64)
  | addLog (txhash : Hash)
  | addPreimage (hash : Hash)
  | touch (account : Address) (prev prevDirty : Bool)

structure Log where
  address : Address
  topics : List Hash
  data : Bytes
  blockNumber : UInt64
  txHash : Hash
  txIndex : Nat
  blockHash : Hash
  index : Nat

structure Revision where
  id : Nat
  journalIndex : Nat

/-- The journal and the revisions are kept newest first. -/
structure StateDB where
  trie : AccountTrie
  stateObjects : Address → Option StateObject
  stateObjectsDirty : Finset Address
  refund : UInt64
  thash : Hash
  bhash : Hash
  bheight : Option Int
  txIndex : Nat
  logs : Hash → List Log
  logSize : Nat
  preimages : Hash → Option Bytes
  journal : List JournalEntry
  validRevisions : List Revision
  nextRevisionId : Nat

/-- `state.New` on a trie that was opened. -/
def StateDB.new (trie : AccountTrie) : StateDB where
  trie := trie
  stateObjects _ := none
  stateObjectsDirty := ∅
  refund := 0
  thash := default
  bhash := default
  bheight := none
  txIndex := 0
  logs _ := []
  logSize := 0
  preimages _ := none
  journal := []
  validRevisions := []
  nextRevisionId := 0

def newObject (data : Account) : StateObject where
  data := data
  dbErr := false
  trie := none
  code := none
  cachedStorage _ := none
  dirtyStorage _ := none
  dirtyCode := false
  suicided := false
  touched := false
  deleted := false
  onDirty := true

/-! ### Objects -/

section

variable (D : Database)

/-- The zero account with the defaults `newObject` fills in. -/
def newAccount : Account where
  nonce := 0
  balance := 0
  root := default
  codeHash := D.emptyCodeHash
  lastUpdatedHeight := 0
  weightAtLastUpdatedHeight := 0

def Account.empty (a : Account) : Bool :=
  a.nonce == 0 && a.balance == 0 && a.codeHash == D.emptyCodeHash

def StateObject.empty (o : StateObject) : Bool := o.data.empty D

/-- `getTrie`: a storage trie that cannot be opened counts as empty, and the error is kept. -/
def StateObject.getTrie (o : StateObject) : StorageTrie × Bool :=
  match o.trie with
  | some t => (t, o.dbErr)
  | none =>
    match D.openStorageTrie o.data.root with
    | some t => (t, o.dbErr)
    | none => (fun _ => none, true)

def StateObject.getState (o : StateObject) (key : Hash) : Hash :=
  match o.cachedStorage key with
  | some v => v
  | none => ((o.getTrie D).1 key).getD default

/-- `updateTrie`: flush the changed slots. A zero value deletes its slot. -/
def StateObject.updateTrie (o : StateObject) : StateObject :=
  let flushed : StorageTrie := fun key =>
    match o.dirtyStorage key with
    | none => (o.getTrie D).1 key
    | some v => if v = default then none else some v
  {o with trie := some flushed, dirtyStorage := fun _ => none, dbErr := (o.getTrie D).2}

def StateObject.updateRoot (o : StateObject) : StateObject :=
  let o := o.updateTrie D
  {o with data := {o.data with root := D.storageRoot (o.getTrie D).1}}

/-- `Code`. -/
def StateObject.getCode (o : StateObject) : Option Bytes :=
  match o.code with
  | some c => some c
  | none => if o.data.codeHash = D.emptyCodeHash then none else D.contractCode (bytesToHash o.data.codeHash)

end

/-- `Weight`: the coin age grows with the balance and the height since the last update. -/
def StateObject.weight (o : StateObject) (height : Int) : Int :=
  o.data.weightAtLastUpdatedHeight + o.data.balance * (height - o.data.lastUpdatedHeight)

/-! ### Reading -/

namespace StateDB

/-- `getStateObject`: the live object unless it was deleted, else the trie's account. -/
def getStateObject (s : StateDB) (addr : Address) : Option StateObject :=
  match s.stateObjects addr with
  | some o => if o.deleted then none else some o
  | none => (s.trie addr).map newObject

def exist (s : StateDB) (addr : Address) : Bool := (s.getStateObject addr).isSome

def getBalance (s : StateDB) (addr : Address) : Int :=
  match s.getStateObject addr with
  | some o => o.data.balance
  | none => 0

def getNonce (s : StateDB) (addr : Address) : UInt64 :=
  match s.getStateObject addr with
  | some o => o.data.nonce
  | none => 0

def getCode (D : Database) (s : StateDB) (addr : Address) : Bytes :=
  match s.getStateObject addr with
  | some o => (o.getCode D).getD []
  | none => []

def getCodeHash (s : StateDB) (addr : Address) : Hash :=
  match s.getStateObject addr with
  | some o => bytesToHash o.data.codeHash
  | none => default

def getState (D : Database) (s : StateDB) (addr : Address) (key : Hash) : Hash :=
  match s.getStateObject addr with
  | some o => o.getState D key
  | none => default

def isEmpty (D : Database) (s : StateDB) (addr : Address) : Bool :=
  match s.getStateObject addr with
  | some o => o.empty D
  | none => true

def hasSuicided (s : StateDB) (addr : Address) : Bool :=
  match s.getStateObject addr with
  | some o => o.suicided
  | none => false

/-! ### Writing -/

/-- Put a changed object in place. Every setter fires the callback if it is still there. -/
def put (s : StateDB) (addr : Address) (o : StateObject) : StateDB :=
  {s with
    stateObjects := update s.stateObjects addr (some {o with onDirty := false})
    stateObjectsDirty := if o.onDirty then insert addr s.stateObjectsDirty else s.stateObjectsDirty}

def record (s : StateDB) (e : JournalEntry) : StateDB := {s with journal := e :: s.journal}

/-- `createObject`. The new object is dirty from the start; a previous one is kept in the journal. -/
def createObject (D : Database) (s : StateDB) (addr : Address) : StateDB :=
  match s.getStateObject addr with
  | none => (s.put addr (newObject (newAccount D))).record (.createObject addr)
  | some prev => (s.put addr (newObject (newAccount D))).record (.resetObject addr prev)

def getOrNewStateObject (D : Database) (s : StateDB) (addr : Address) : StateObject × StateDB :=
  match s.getStateObject addr with
  | some o => (o, s)
  | none => ({newObject (newAccount D) with onDirty := false}, s.createObject D addr)

/-- `stateObject.touch`. -/
def touch (s : StateDB) (addr : Address) (o : StateObject) : StateDB :=
  (s.put addr {o with touched := true}).record (.touch addr o.touched !o.onDirty)

/-- `stateObject.SetBalance`. -/
def setObjectBalance (s : StateDB) (addr : Address) (o : StateObject) (amount : Int) : StateDB :=
  (s.put addr {o with data := {o.data with balance := amount}}).record (.balance addr o.data.balance)

/-- `stateObject.setWeight`; weights are not journaled. -/
def setObjectWeight (s : StateDB) (addr : Address) (o : StateObject) (weight height : Int) : StateDB :=
  s.put addr {o with data := {o.data with
    weightAtLastUpdatedHeight := weight, lastUpdatedHeight := height}}

/-- `AddBalance`: adding nothing to an empty account touches it. -/
def addBalance (D : Database) (s : StateDB) (addr : Address) (amount : Int) : StateDB :=
  let (o, s) := s.getOrNewStateObject D addr
  if amount = 0 then
    if o.empty D then s.touch addr o else s
  else s.setObjectBalance addr o (o.data.balance + amount)

def subBalance (D : Database) (s : StateDB) (addr : Address) (amount : Int) : StateDB :=
  let (o, s) := s.getOrNewStateObject D addr
  if amount = 0 then s else s.setObjectBalance addr o (o.data.balance - amount)

def setBalance (D : Database) (s : StateDB) (addr : Address) (amount : Int) : StateDB :=
  let (o, s) := s.getOrNewStateObject D addr
  s.setObjectBalance addr o amount

def setNonce (D : Database) (s : StateDB) (addr : Address) (nonce : UInt64) : StateDB :=
  let (o, s) := s.getOrNewStateObject D addr
  (s.put addr {o with data := {o.data with nonce := nonce}}).record (.nonce addr o.data.nonce)

def setCode (D : Database) (s : StateDB) (addr : Address) (code : Bytes) : StateDB :=
  let (o, s) := s.getOrNewStateObject D addr
  (s.put addr {o with
    code := some code, dirtyCode := true
    data := {o.data with codeHash := (D.keccak code).bytes}}).record
      (.code addr (o.getCode D) o.data.codeHash)

def setState (D : Database) (s : StateDB) (addr : Address) (key value : Hash) : StateDB :=
  let (o, s) := s.getOrNewStateObject D addr
  (s.put addr {o with
    cachedStorage := update o.cachedStorage key (some value)
    dirtyStorage := update o.dirtyStorage key (some value)}).record
      (.storage addr key (o.getState D key))

/-- `Suicide`: the account keeps existing until the transaction is finalised. -/
def suicide (s : StateDB) (addr : Address) : StateDB :=
  match s.getStateObject addr with
  | none => s
  | some o =>
    (s.put addr {o with suicided := true, data := {o.data with balance := 0}}).record
      (.suicide addr o.suicided o.data.balance)

def addRefund (s : StateDB) (gas : UInt64) : StateDB :=
  {s with refund := s.refund + gas}.record (.refund s.refund)

def addLog (s : StateDB) (log : Log) : StateDB :=
  let log := {log with txHash := s.thash, blockHash := s.bhash, txIndex := s.txIndex, index := s.logSize}
  {s with
    logs := update s.logs s.thash (s.logs s.thash ++ [log])
    logSize := s.logSize + 1}.record (.addLog s.thash)

def addPreimage (s : StateDB) (hash : Hash) (preimage : Bytes) : StateDB :=
  match s.preimages hash with
  | some _ => s
  | none => {s with preimages := update s.preimages hash (some preimage)}.record (.addPreimage hash)

def prepare (s : StateDB) (thash bhash : Hash) (bheight : UInt64) (ti : Nat) : StateDB :=
  {s with thash := thash, bhash := bhash, bheight := some bheight.toNat, txIndex := ti}

def snapshot (s : StateDB) : Nat × StateDB :=
  (s.nextRevisionId, {s with
    nextRevisionId := s.nextRevisionId + 1
    validRevisions := ⟨s.nextRevisionId, s.journal.length⟩ :: s.validRevisions})

/-! ### Operations that can panic -/

/-- The block height weights are computed at; it is nil until `Prepare` was called. -/
def height : Proc Err StateDB Int := fun s => (deref s.bheight, s)

def addWeight (D : Database) (addr : Address) : Proc Err StateDB PUnit := do
  let h ← height
  .update fun s =>
    let (o, s) := s.getOrNewStateObject D addr
    s.setObjectWeight addr o (o.weight h) h

/-- `subWeight`: the weight shrinks in proportion to the balance, which is divided by. -/
def subWeight (D : Database) (addr : Address) (v : Int) : Proc Err StateDB PUnit := do
  let o ← .step fun s => s.getOrNewStateObject D addr
  .ensure (o.data.balance ≠ 0) (.panic .divisionByZero)
  let h ← height
  .update fun s => s.setObjectWeight addr o
    (o.data.weightAtLastUpdatedHeight * (o.data.balance - v) / o.data.balance) h

def addBalanceAndWeight (D : Database) (addr : Address) (amount : Int) : Proc Err StateDB PUnit := do
  addWeight D addr
  .update fun s => s.addBalance D addr amount

def subBalanceAndWeight (D : Database) (addr : Address) (amount : Int) : Proc Err StateDB PUnit := do
  subWeight D addr amount
  .update fun s => s.subBalance D addr amount

def clearWeight (addr : Address) : Proc Err StateDB PUnit := do
  let found ← .read fun s => s.getStateObject addr
  match found with
  | none => pure ⟨⟩
  | some o => do
    let h ← height
    .update fun s => s.setObjectWeight addr o 0 h

/-- `CreateAccount`: the balance of a previous object is carried over. -/
def createAccount (D : Database) (addr : Address) : Proc Err StateDB PUnit := do
  let prev ← .read fun s => s.getStateObject addr
  .update fun s => s.createObject D addr
  match prev with
  | none => pure ⟨⟩
  | some prev => do
    let h ← height
    .update fun s => s.put addr {newObject {newAccount D with
      balance := prev.data.balance, lastUpdatedHeight := h} with onDirty := false}

/-! ### Undoing -/

/-- The address `touchChange` makes an exception for. -/
def ripemd : Address := bytesToAddress [3]

/-- The live object at an address; a nil pointer is dereferenced. -/
def liveObject (addr : Address) : Proc Err StateDB StateObject := fun s =>
  (deref (s.getStateObject addr), s)

/-- `undo`, one case per kind of entry. -/
def undo : JournalEntry → Proc Err StateDB PUnit
  | .createObject a => .update fun s => {s with
      stateObjects := update s.stateObjects a none
      stateObjectsDirty := s.stateObjectsDirty.erase a}
  | .resetObject a prev => .update fun s => {s with
      stateObjects := update s.stateObjects a (some prev)}
  | .suicide a prev prevbalance => .update fun s =>
      match s.getStateObject a with
      | none => s
      | some o => s.put a {o with suicided := prev, data := {o.data with balance := prevbalance}}
  | .balance a prev => do
      let o ← liveObject a
      .update fun s => s.put a {o with data := {o.data with balance := prev}}
  | .nonce a prev => do
      let o ← liveObject a
      .update fun s => s.put a {o with data := {o.data with nonce := prev}}
  | .storage a key prevalue => do
      let o ← liveObject a
      .update fun s => s.put a {o with
        cachedStorage := update o.cachedStorage key (some prevalue)
        dirtyStorage := update o.dirtyStorage key (some prevalue)}
  | .code a prevcode prevhash => do
      let o ← liveObject a
      .update fun s => s.put a {o with
        code := prevcode, dirtyCode := true
        data := {o.data with codeHash := (bytesToHash prevhash).bytes}}
  | .refund prev => .update fun s => {s with refund := prev}
  | .addLog txhash => do
      .ensureState (fun s => s.logs txhash ≠ []) (.panic .indexOutOfRange)
      .update fun s => {s with
        logs := update s.logs txhash (s.logs txhash).dropLast
        logSize := s.logSize - 1}
  | .addPreimage hash => .update fun s => {s with preimages := update s.preimages hash none}
  | .touch a prev prevDirty =>
      -- the callback that marked the account stays dropped
      if prev = false ∧ a ≠ ripemd then do
        let o ← liveObject a
        .update fun s => {s with
          stateObjects := update s.stateObjects a (some {o with touched := prev})
          stateObjectsDirty := if prevDirty then s.stateObjectsDirty else s.stateObjectsDirty.erase a}
      else pure ⟨⟩

/-- Undo the newest `n` entries, newest first. -/
def undoNewest : Nat → Proc Err StateDB PUnit
  | 0 => pure ⟨⟩
  | n + 1 => do
    let top ← .step fun s => (s.journal.head?, {s with journal := s.journal.tail})
    match top with
    | none => pure ⟨⟩
    | some e => do
      undo e
      undoNewest n

def revertToSnapshot (revid : Nat) : Proc Err StateDB PUnit := do
  let found ← .read fun s => s.validRevisions.find? (fun r => r.id == revid)
  match found with
  | none => .throw (.panic .invalidRevision)
  | some r => do
    let n ← .read fun s => s.journal.length - r.journalIndex
    undoNewest n
    .update fun s => {s with validRevisions := s.validRevisions.filter (fun r => r.id < revid)}

end StateDB

end Okchain.State
