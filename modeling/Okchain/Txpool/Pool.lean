import Mathlib.Data.List.AList
import Mathlib.Data.List.MinMax
import Okchain.Core.Processor
import Okchain.Txpool.TxList

/-! The transaction pool, after `core/txpool/tx_pool.go`.

The pool keeps for every account the transactions that can be executed now, `pending`, and those that have to wait,
`queue`. An added transaction goes to the queue and is promoted when the nonces before it are there; a new head demotes
what it has made unexecutable. The check of the sender's balance is commented out.

Go iterates over a map in no particular order, and pops entries of equal weight in an order of its own. A `Schedule`
makes these choices. The heap of prices is kept as the list of its entries.
-/
namespace Okchain.Txpool
open Lib State Protos Core

/-- The errors of package `txpool`. -/
inductive PoolErr
  | knownTransaction
  | invalidSender
  | nonceTooLow
  | underpriced
  | replaceUnderpriced
  | outOfGas
  | intrinsicGas
  | gasLimit
  | oversizedData
  | panic
  deriving DecidableEq, Repr

/-- What admission takes as given: the length of a transaction's protobuf encoding, which holds its data,
the signature check for a decoded key, and the cheapest entry of the price heap with the rest. -/
structure Rules where
  size : Transaction → Nat
  data_le_size : ∀ tx, tx.data.length ≤ size tx
  ecdsaVerify : Bytes → Bytes → Bytes → Bool
  pop : List Transaction → Option (Transaction × List Transaction)
  pop_none : ∀ l, pop l = none → l = []
  pop_perm : ∀ l tx rest, pop l = some (tx, rest) → l.Perm (tx :: rest)
  pop_cheapest : ∀ l tx rest, pop l = some (tx, rest) → ∀ other ∈ rest, tx.gasPrice ≤ other.gasPrice

/-- The orders in which one operation goes through the maps. -/
structure Schedule where
  keys : List Address → List Address
  keys_perm : ∀ l, (keys l).Perm l
  longest : List (Address × Nat) → List (Address × Nat)
  longest_perm : ∀ l, (longest l).Perm l
  longest_sorted : ∀ l, (longest l).Pairwise (fun a b => b.2 ≤ a.2)
  oldest : List (Address × Nat) → List (Address × Nat)
  oldest_perm : ∀ l, (oldest l).Perm l
  oldest_sorted : ∀ l, (oldest l).Pairwise (fun a b => a.2 ≤ b.2)

/-- The fields of `TxPoolConfig` that the operations read. -/
structure TxPoolConfig where
  locals : List Address
  noLocals : Bool
  priceLimit : UInt64
  priceBump : UInt64
  accountSlots : UInt64
  globalSlots : UInt64
  accountQueue : UInt64
  globalQueue : UInt64
  lifetime : Int

def defaultTxPoolConfig : TxPoolConfig where
  locals := []
  noLocals := false
  priceLimit := 1
  priceBump := 10
  accountSlots := 3000
  globalSlots := 40960
  accountQueue := 3000
  globalQueue := 40960
  lifetime := 3 * 3600 * 10 ^ 9

def TxPoolConfig.sanitize (c : TxPoolConfig) : TxPoolConfig :=
  {c with
    priceLimit := if c.priceLimit < 1 then defaultTxPoolConfig.priceLimit else c.priceLimit
    priceBump := if c.priceBump < 1 then defaultTxPoolConfig.priceBump else c.priceBump}

/-! ### The pool's view of the nonces -/

/-- `ManagedState`: a copy of the head state, and the nonces it manages itself. -/
structure ManagedState where
  stored : Address → UInt64
  accounts : Address → Option UInt64

namespace ManagedState

/-- `ManageState`. -/
def manage (trie : AccountTrie) : ManagedState := ⟨(StateDB.new trie).getNonce, fun _ => none⟩

/-- `GetNonce`; `getAccount` follows the copy if its nonce is higher. -/
def getNonce (ms : ManagedState) (addr : Address) : UInt64 :=
  match ms.accounts addr with
  | some start => if start < ms.stored addr then ms.stored addr else start
  | none => ms.stored addr

def setNonce (ms : ManagedState) (addr : Address) (nonce : UInt64) : ManagedState :=
  ⟨Function.update ms.stored addr nonce, Function.update ms.accounts addr (some nonce)⟩

theorem getNonce_setNonce (ms : ManagedState) (addr : Address) (nonce : UInt64) :
    (ms.setNonce addr nonce).getNonce = Function.update ms.getNonce addr nonce := by
  funext a
  unfold getNonce setNonce
  by_cases ha : a = addr
  · subst ha
    simp
  · simp [Function.update_of_ne ha]

end ManagedState

/-! ### Prices -/

abbrev Lookup := AList (fun _ : Hash => Transaction)

/-- `txPricedList`. -/
structure PricedList where
  items : List Transaction
  stales : Int

/-- `Removed`: the heap is rebuilt when more than a quarter of it is stale. -/
def PricedList.removed (l : PricedList) (all : Lookup) : PricedList :=
  if l.stales + 1 ≤ (l.items.length / 4 : Nat) then {l with stales := l.stales + 1}
  else ⟨all.entries.map Sigma.snd, 0⟩

def PricedList.put (l : PricedList) (tx : Transaction) : PricedList := {l with items := tx :: l.items}

/-! ### The pool -/

structure TxPool where
  config : TxPoolConfig
  gasPrice : Int
  currentState : AccountTrie
  pendingState : ManagedState
  currentMaxGas : UInt64
  locals : List Address
  pending : AList (fun _ : Address => TxList)
  queue : AList (fun _ : Address => TxList)
  beats : AList (fun _ : Address => Nat)
  all : Lookup
  priced : PricedList

section

variable (M : Machine) (X : Rules)

def containsTx (locals : List Address) (tx : Transaction) : Bool :=
  tx.senderPubKey.length == 65 && locals.contains (txSender M tx)

/-- `Underpriced`, after the stale entries on top of the heap are popped. -/
def underpriced (p : TxPool) (tx : Transaction) : Nat → PricedList → Bool × PricedList
  | 0, l => (false, l)
  | n + 1, l =>
    match X.pop l.items with
    | none => (false, l)
    | some (head, rest) =>
      if (p.all.lookup (head.hash M.toEnv)).isNone then underpriced p tx n ⟨rest, l.stales - 1⟩
      else (decide (tx.gasPrice ≤ head.gasPrice), l)

/-- The loop of `Discard`: pop until `count` transactions of other accounts than the local ones are found.
Returns what is dropped, what is kept and the rest. -/
def discardLoop (p : TxPool) : Nat → Nat → PricedList → List Transaction × List Transaction × PricedList
  | 0, _, l => ([], [], l)
  | n + 1, count, l =>
    if count = 0 then ([], [], l)
    else match X.pop l.items with
      | none => ([], [], l)
      | some (tx, rest) =>
        if (p.all.lookup (tx.hash M.toEnv)).isNone then discardLoop p n count ⟨rest, l.stales - 1⟩
        else if containsTx M p.locals tx then
          let r := discardLoop p n count ⟨rest, l.stales⟩
          (r.1, tx :: r.2.1, r.2.2)
        else
          let r := discardLoop p n (count - 1) ⟨rest, l.stales⟩
          (tx :: r.1, r.2.1, r.2.2)

def discard (p : TxPool) (count : Nat) : List Transaction × PricedList :=
  let r := discardLoop M X p p.priced.items.length count p.priced
  (r.1, {r.2.2 with items := r.2.1 ++ r.2.2.items})

/-- The loop of `Cap`: pop until the price reaches the threshold. Returns what is dropped, what is kept and the
rest. -/
def capLoop (p : TxPool) (threshold : Int) : Nat → PricedList → List Transaction × List Transaction × PricedList
  | 0, l => ([], [], l)
  | n + 1, l =>
    match X.pop l.items with
    | none => ([], [], l)
    | some (tx, rest) =>
      if (p.all.lookup (tx.hash M.toEnv)).isNone then capLoop p threshold n ⟨rest, l.stales - 1⟩
      else if threshold ≤ tx.gasPrice.toNat then ([], [tx], ⟨rest, l.stales⟩)
      else if containsTx M p.locals tx then
        let r := capLoop p threshold n ⟨rest, l.stales⟩
        (r.1, tx :: r.2.1, r.2.2)
      else
        let r := capLoop p threshold n ⟨rest, l.stales⟩
        (tx :: r.1, r.2.1, r.2.2)

/-- `Cap` of the price list. -/
def capPriced (p : TxPool) (threshold : Int) : List Transaction × PricedList :=
  let r := capLoop M X p threshold p.priced.items.length p.priced
  (r.1, {r.2.2 with items := r.2.1 ++ r.2.2.items})

/-- The order of the points of P-256. -/
def p256Order : Nat := 0xffffffff00000000ffffffffffffffffbce6faada7179e84f3b9cac2fc632551

/-- Both halves of a signature are between zero and the order. Otherwise `ecdsa.Verify` does not look at the key. -/
def inRange (sig : Bytes) : Bool :=
  [sig.take 32, sig.drop 32].all fun half => 0 < Rlp.ofBeBytes half && Rlp.ofBeBytes half < p256Order

/-- `VerifyHash`. A key that is no point of the curve reaches the verifier as a nil point. -/
def verifyHash (digest sig pubKey : Bytes) : Except PoolErr Bool :=
  if sig.length ≠ 64 then .error .invalidSender
  else if M.onCurve pubKey then .ok (X.ecdsaVerify pubKey digest sig)
  else if inRange sig then .error .panic
  else .ok false

/-- `IntrinsicGas` of package `txpool`. -/
def poolIntrinsicGas (data : Bytes) (contractCreation : Bool) : Except PoolErr UInt64 :=
  meter 53000 21000 68 4 .outOfGas data contractCreation

def TxPool.headNonce (p : TxPool) (addr : Address) : UInt64 := (StateDB.new p.currentState).getNonce addr

/-- Go on only if `c` holds. -/
def require (c : Prop) [Decidable c] (e : PoolErr) : Except PoolErr Unit := if c then .ok () else .error e

/-- `validateTx`. The amount is unsigned, so it is never negative. -/
def validateTx (p : TxPool) (tx : Transaction) (isLocal : Bool) : Except PoolErr Unit := do
  require (X.size tx ≤ 32 * 1024) .oversizedData
  require (tx.gasLimit ≤ p.currentMaxGas) .gasLimit
  require (tx.senderPubKey.length = 65) .invalidSender
  let valid ← verifyHash M X (tx.hash M.toEnv).bytes tx.signature tx.senderPubKey
  require (valid = true) .invalidSender
  require (isLocal = true ∨ txSender M tx ∈ p.locals ∨ p.gasPrice ≤ tx.gasPrice.toNat) .underpriced
  require (p.headNonce (txSender M tx) ≤ tx.nonce) .nonceTooLow
  -- the check that the balance covers the cost is commented out in the source
  let intrGas ← poolIntrinsicGas tx.data tx.toAddr.isNone
  require (intrGas ≤ tx.gasLimit) .intrinsicGas

/-- Take a transaction out of the index, and tell the price heap. -/
def TxPool.forget (p : TxPool) (hash : Hash) : TxPool :=
  {p with all := p.all.erase hash, priced := p.priced.removed (p.all.erase hash)}

/-- Drop transactions that were taken out of a list. -/
def TxPool.forgetAll (p : TxPool) (txs : List Transaction) : TxPool :=
  txs.foldl (fun p tx => p.forget (tx.hash M.toEnv)) p

/-- Put a transaction into the index and the price heap. -/
def TxPool.index (p : TxPool) (tx : Transaction) : TxPool :=
  {p with all := p.all.insert (tx.hash M.toEnv) tx, priced := p.priced.put tx}

/-- Index a transaction that was put into a list in the place of another. -/
def TxPool.indexed (p : TxPool) (old : Option Transaction) (tx : Transaction) : TxPool :=
  let p := p.forgetAll M old.toList
  if (p.all.lookup (tx.hash M.toEnv)).isNone then p.index M tx else p

/-- `enqueueTx`: nothing if a queued transaction is as good, else whether one was replaced. -/
def enqueueTx (tx : Transaction) (p : TxPool) : Option (Bool × TxPool) :=
  let sender := txSender M tx
  match ((p.queue.lookup sender).getD (.new false)).add tx p.config.priceBump with
  | none => none
  | some (old, list) => some (old.isSome, {p with queue := p.queue.insert sender list}.indexed M old tx)

def enqueueAll (txs : List Transaction) (p : TxPool) : TxPool :=
  txs.foldl (fun p tx => ((enqueueTx M tx p).map Prod.snd).getD p) p

/-- Lower the pending nonce of an account to that of a transaction it has lost. -/
def TxPool.lowerNonce (p : TxPool) (addr : Address) (nonce : UInt64) : TxPool :=
  if nonce < p.pendingState.getNonce addr then {p with pendingState := p.pendingState.setNonce addr nonce} else p

/-- Put an account's pending list back, or delete it when it is empty. -/
def TxPool.putPending (p : TxPool) (addr : Address) (list : TxList) : TxPool :=
  if list.isEmpty then {p with pending := p.pending.erase addr, beats := p.beats.erase addr}
  else {p with pending := p.pending.insert addr list}

/-- Put an account's queue back, or delete it when it is empty. -/
def TxPool.putQueue (p : TxPool) (addr : Address) (list : TxList) : TxPool :=
  {p with queue := if list.isEmpty then p.queue.erase addr else p.queue.insert addr list}

/-- Take a transaction out of its account's lists. What was pending after it is postponed. -/
def TxPool.unlist (p : TxPool) (tx : Transaction) : TxPool :=
  let addr := txSender M tx
  match (p.pending.lookup addr).bind (·.remove tx) with
  | some (invalids, list) => (enqueueAll M invalids (p.putPending addr list)).lowerNonce addr tx.nonce
  | none =>
    match p.queue.lookup addr with
    | none => p
    | some future => p.putQueue addr (((future.remove tx).map Prod.snd).getD future)

def removeTx (outofbound : Bool) (p : TxPool) (hash : Hash) : TxPool :=
  match p.all.lookup hash with
  | none => p
  | some tx =>
    let all := p.all.erase hash
    TxPool.unlist M {p with all := all, priced := if outofbound then p.priced.removed all else p.priced} tx

def promoteTx (now : Nat) (addr : Address) (p : TxPool) (tx : Transaction) : TxPool :=
  match ((p.pending.lookup addr).getD (.new true)).add tx p.config.priceBump with
  | none => p.forget (tx.hash M.toEnv)
  | some (old, list) =>
    let p := {p with pending := p.pending.insert addr list}.indexed M old tx
    {p with
      beats := p.beats.insert addr now
      pendingState := p.pendingState.setNonce addr (tx.nonce + 1)}

/-- `promoteExecutables` for one account. -/
def promoteAccount (now : Nat) (p : TxPool) (addr : Address) : TxPool :=
  match p.queue.lookup addr with
  | none => p
  | some list =>
    let old := list.forward (p.headNonce addr)
    let unpayable := old.2.filter ((StateDB.new p.currentState).getBalance addr) p.currentMaxGas
    let ready := unpayable.2.2.ready (p.pendingState.getNonce addr)
    let p := (p.forgetAll M old.1).forgetAll M unpayable.1
    let p := ready.1.foldl (promoteTx M now addr) p
    let excess := if p.locals.contains addr then ([], ready.2) else ready.2.cap p.config.accountQueue.toNat
    (p.forgetAll M excess.1).putQueue addr excess.2

/-! ### Limits -/

def TxPool.pendingLen (p : TxPool) (addr : Address) : Nat := ((p.pending.lookup addr).map TxList.len).getD 0

def TxPool.pendingOf (p : TxPool) (addr : Address) : List Transaction :=
  ((p.pending.lookup addr).map TxList.flatten).getD []

def TxPool.queueOf (p : TxPool) (addr : Address) : List Transaction :=
  ((p.queue.lookup addr).map TxList.flatten).getD []

/-- How many transactions there are in a map of lists. -/
def total (lists : AList (fun _ : Address => TxList)) : Nat := (lists.entries.map fun e => e.2.len).sum

/-- Drop the last pending transaction of an account. -/
def dropLast (p : TxPool) (addr : Address) : TxPool :=
  match p.pending.lookup addr with
  | none => p
  | some list =>
    let capped := list.cap (list.len - 1)
    capped.1.foldl (fun p tx => (p.forget (tx.hash M.toEnv)).lowerNonce addr tx.nonce)
      {p with pending := p.pending.insert addr capped.2}

/-- Take a transaction from every offender, as long as there are too many and the list of `watched` is
longer than the threshold. -/
def shrink (limit : Nat) (offenders : List Address) (watched : Address) (threshold : Nat) :
    Nat → Nat → TxPool → Nat × TxPool
  | 0, count, p => (count, p)
  | n + 1, count, p =>
    if limit < count ∧ threshold < p.pendingLen watched then
      shrink limit offenders watched threshold n (count - offenders.length) (offenders.foldl (dropLast M) p)
    else (count, p)

/-- Go through the spammers, longest lists first; each one sets the length the ones before it are cut to.
Returns the offenders. -/
def equalize (limit : Nat) : List Address → List Address → Nat → TxPool → List Address × Nat × TxPool
  | [], offenders, count, p => (offenders, count, p)
  | spammer :: rest, offenders, count, p =>
    if limit < count then
      match offenders.getLast? with
      | none => equalize limit rest [spammer] count p
      | some last =>
        let r := shrink M limit offenders last (p.pendingLen spammer) count count p
        equalize limit rest (offenders ++ [spammer]) r.1 r.2
    else (offenders, count, p)

/-- The part of `promoteExecutables` that keeps `pending` below `GlobalSlots`. -/
def limitPending (σ : Schedule) (p : TxPool) : TxPool :=
  let limit := p.config.globalSlots.toNat
  if limit < total p.pending then
    let spammers := ((σ.keys p.pending.keys).filter fun a =>
      !p.locals.contains a && decide (p.config.accountSlots.toNat < p.pendingLen a)).map fun a => (a, p.pendingLen a)
    let r := equalize M limit ((σ.longest spammers).map Prod.fst) [] (total p.pending) p
    match r.1.getLast? with
    | none => r.2.2
    | some last => (shrink M limit r.1 last p.config.accountSlots.toNat r.2.1 r.2.1 r.2.2).2
  else p

/-- Drop queued transactions, account by account. -/
def dropQueued : List Address → Nat → TxPool → TxPool
  | [], _, p => p
  | addr :: rest, drop, p =>
    if drop = 0 then p
    else match p.queue.lookup addr with
      | none => dropQueued rest drop p
      | some list =>
        if list.len ≤ drop then
          dropQueued rest (drop - list.len) ((list.flatten.map (·.hash M.toEnv)).foldl (removeTx M true) p)
        else ((list.flatten.reverse.take drop).map (·.hash M.toEnv)).foldl (removeTx M true) p

/-- The part of `promoteExecutables` that keeps `queue` below `GlobalQueue`. -/
def limitQueue (σ : Schedule) (p : TxPool) : TxPool :=
  let limit := p.config.globalQueue.toNat
  if limit < total p.queue then
    let addresses := ((σ.keys p.queue.keys).filter fun a => !p.locals.contains a).map fun a =>
      (a, (p.beats.lookup a).getD 0)
    dropQueued M ((σ.oldest addresses).reverse.map Prod.fst) (total p.queue - limit) p
  else p

/-- `promoteExecutables`; without accounts all that have a queue are meant. -/
def promoteExecutables (σ : Schedule) (now : Nat) (accounts : Option (List Address)) (p : TxPool) : TxPool :=
  let p := (accounts.getD (σ.keys p.queue.keys)).foldl (promoteAccount M now) p
  limitQueue M σ (limitPending M σ p)

/-! ### Adding -/

/-- Make room in a full pool; a cheaper transaction is refused. -/
def makeRoom (tx : Transaction) (isLocal : Bool) : Proc PoolErr TxPool PUnit := fun p =>
  let slots := p.config.globalSlots + p.config.globalQueue
  if p.all.keys.length < slots.toNat then (.ok ⟨⟩, p)
  else
    let cheaper := if isLocal || containsTx M p.locals tx then (false, p.priced)
      else underpriced M X p tx p.priced.items.length p.priced
    let p := {p with priced := cheaper.2}
    if cheaper.1 then (.error .underpriced, p)
    else
      let room := ((p.all.keys.length : Int) - (slots - 1).toInt64.toInt).toNat
      let dropped := discard M X p room
      (.ok ⟨⟩, (dropped.1.map (·.hash M.toEnv)).foldl (removeTx M false) {p with priced := dropped.2})

/-- `add` once there is room: into the pending list if it replaces a transaction there, else into the queue.
Returns whether it replaced one. -/
def insertTx (tx : Transaction) (isLocal : Bool) : Proc PoolErr TxPool Bool := fun p =>
  let sender := txSender M tx
  match (p.pending.lookup sender).filter (·.overlaps tx) with
  | some list =>
    match list.add tx p.config.priceBump with
    | none => (.error .replaceUnderpriced, p)
    | some (old, list) =>
      (.ok old.isSome, ({p with pending := p.pending.insert sender list}.forgetAll M old.toList).index M tx)
  | none =>
    match enqueueTx M tx p with
    | none => (.error .replaceUnderpriced, p)
    | some (replace, p) =>
      (.ok replace, if isLocal && !p.locals.contains sender then {p with locals := sender :: p.locals} else p)

def add (tx : Transaction) (isLocal : Bool) : Proc PoolErr TxPool Bool := do
  .ensureState (fun p => (p.all.lookup (tx.hash M.toEnv)).isNone = true) .knownTransaction
  let p ← .read id
  .lift (validateTx M X p tx isLocal)
  makeRoom M X tx isLocal
  insertTx M tx isLocal

def addTx (σ : Schedule) (now : Nat) (tx : Transaction) (isLocal : Bool) : Proc PoolErr TxPool PUnit := do
  let replace ← add M X tx isLocal
  if replace then pure ⟨⟩
  else .update (promoteExecutables M σ now (some [txSender M tx]))

/-- `addTxsLocked`: add transactions, then promote those of the accounts that have a new one. -/
def addTxsLocked (σ : Schedule) (now : Nat) (txs : List Transaction) (isLocal : Bool) (p : TxPool) : TxPool :=
  let r := txs.foldl (fun (r : List Address × TxPool) tx =>
    match add M X tx isLocal r.2 with
    | (.ok false, p) => (if r.1.contains (txSender M tx) then r.1 else txSender M tx :: r.1, p)
    | (_, p) => (r.1, p)) ([], p)
  if r.1 = [] then r.2 else promoteExecutables M σ now (some (σ.keys r.1)) r.2

def addLocal (σ : Schedule) (now : Nat) (tx : Transaction) (p : TxPool) : Except PoolErr PUnit × TxPool :=
  addTx M X σ now tx (!p.config.noLocals) p

def addRemote (σ : Schedule) (now : Nat) (tx : Transaction) (p : TxPool) : Except PoolErr PUnit × TxPool :=
  addTx M X σ now tx false p

/-! ### A new head -/

/-- `demoteUnexecutables` for one account. -/
def demoteAccount (p : TxPool) (addr : Address) : TxPool :=
  match p.pending.lookup addr with
  | none => p
  | some list =>
    let nonce := p.headNonce addr
    let old := list.forward nonce
    let unpayable := old.2.filter ((StateDB.new p.currentState).getBalance addr) p.currentMaxGas
    let p := (p.forgetAll M old.1).forgetAll M unpayable.1
    let p := enqueueAll M unpayable.2.1 p
    -- a gap in front postpones all of them
    let gapped := if unpayable.2.2.txs.get nonce = none then unpayable.2.2.cap 0 else ([], unpayable.2.2)
    (enqueueAll M gapped.1 p).putPending addr gapped.2

def demoteUnexecutables (σ : Schedule) (p : TxPool) : TxPool :=
  (σ.keys p.pending.keys).foldl (demoteAccount M) p

/-- The pending nonce of an account follows its last pending transaction. -/
def followPending (p : TxPool) (addr : Address) : TxPool :=
  match (p.pending.lookup addr).bind (·.flatten.getLast?) with
  | none => p
  | some tx => {p with pendingState := p.pendingState.setNonce addr (tx.nonce + 1)}

structure Head where
  trie : AccountTrie
  gasLimit : UInt64

/-- The pool on a new head, before its transactions are looked at. -/
def TxPool.onHead (p : TxPool) (head : Head) : TxPool :=
  {p with
    currentState := head.trie
    pendingState := .manage head.trie
    currentMaxGas := head.gasLimit}

/-- `reset`. The transactions to put back are those of a branch that the new head has discarded; there are
none if it extends the old one. -/
def reset (σ : Schedule) (now : Nat) (head : Head) (reinject : List Transaction) (p : TxPool) : TxPool :=
  let p := demoteUnexecutables M σ (addTxsLocked M X σ now reinject false (p.onHead head))
  let p := (σ.keys p.pending.keys).foldl followPending p
  promoteExecutables M σ now none p

/-- The pool `newTxPool` starts from, before its first `reset`. -/
def emptyPool (config : TxPoolConfig) : TxPool where
  config := config.sanitize
  gasPrice := config.sanitize.priceLimit.toNat
  currentState _ := none
  pendingState := .manage fun _ => none
  currentMaxGas := 0
  locals := config.locals
  pending := ∅
  queue := ∅
  beats := ∅
  all := ∅
  priced := ⟨[], 0⟩

def newTxPool (σ : Schedule) (now : Nat) (config : TxPoolConfig) (head : Head) : TxPool :=
  reset M X σ now head [] (emptyPool config)

/-! ### Prices and age -/

def setGasPrice (price : Int) (p : TxPool) : TxPool :=
  let capped := capPriced M X {p with gasPrice := price} price
  (capped.1.map (·.hash M.toEnv)).foldl (removeTx M false) {p with gasPrice := price, priced := capped.2}

/-- `time.Since`, which saturates. -/
def since (now beat : Nat) : Int := max (-2 ^ 63) (min ((now : Int) - beat) (2 ^ 63 - 1))

/-- Evict the queue of an account that has not been heard of for too long. -/
def evictAccount (now : Nat) (p : TxPool) (addr : Address) : TxPool :=
  if p.locals.contains addr then p
  else if p.config.lifetime < since now ((p.beats.lookup addr).getD 0) then
    ((p.queueOf addr).map (·.hash M.toEnv)).foldl (removeTx M true) p
  else p

/-- The eviction of `loop`. -/
def evict (σ : Schedule) (now : Nat) (p : TxPool) : TxPool := (σ.keys p.queue.keys).foldl (evictAccount M now) p

/-! ### Runs -/

inductive Op
  | addLocal (tx : Transaction)
  | addRemote (tx : Transaction)
  | addLocals (txs : List Transaction)
  | addRemotes (txs : List Transaction)
  | removeTx (hash : Hash) (outofbound : Bool)
  | setGasPrice (price : Int)
  | evict
  | reset (head : Head) (reinject : List Transaction)

def Op.txs : Op → List Transaction
  | .addLocal tx => [tx]
  | .addRemote tx => [tx]
  | .addLocals txs => txs
  | .addRemotes txs => txs
  | .reset _ reinject => reinject
  | _ => []

def step (σ : Schedule) (now : Nat) (p : TxPool) : Op → TxPool
  | .addLocal tx => (addLocal M X σ now tx p).2
  | .addRemote tx => (addRemote M X σ now tx p).2
  | .addLocals txs => addTxsLocked M X σ now txs (!p.config.noLocals) p
  | .addRemotes txs => addTxsLocked M X σ now txs false p
  | .removeTx hash outofbound => removeTx M outofbound p hash
  | .setGasPrice price => setGasPrice M X price p
  | .evict => evict M σ now p
  | .reset head reinject => reset M X σ now head reinject p

/-- The pools that operations with `ok` lead to. -/
inductive Reachable (ok : TxPool → Op → Prop) : TxPool → Prop
  | init (σ : Schedule) (now : Nat) (config : TxPoolConfig) (head : Head) :
      Reachable ok (newTxPool M X σ now config head)
  | step {p : TxPool} (hp : Reachable ok p) (σ : Schedule) (now : Nat) (op : Op) (hop : ok p op) :
      Reachable ok (step M X σ now p op)

/-- The pool after a sequence of operations, each with the orders it goes through the maps in and its time. -/
def run (p : TxPool) (ops : List (Schedule × Nat × Op)) : TxPool :=
  ops.foldl (fun p op => step M X op.1 op.2.1 p op.2.2) p

/-- An operation of a pool whose chain only grows: nothing is put back. -/
def Op.Grows : Op → Prop
  | .reset _ reinject => reinject = []
  | _ => True

def pendingTxList (σ : Schedule) (p : TxPool) : List Transaction :=
  (σ.keys p.pending.keys).flatMap p.pendingOf

end

/-! ### A computable pool

For evaluating the model on concrete inputs: every signature is good, and maps are gone through in the order
of their entries. -/

def Rules.sample : Rules where
  size tx := tx.data.length
  data_le_size _ := Nat.le_refl _
  ecdsaVerify _ _ _ := true
  pop l := (l.argmin (·.gasPrice.toNat)).map fun tx => (tx, l.erase tx)
  pop_none l h := List.argmin_eq_none.mp (Option.map_eq_none_iff.mp h)
  pop_perm l tx rest h := by
    obtain ⟨cheapest, hcheapest, heq⟩ := Option.map_eq_some_iff.mp h
    obtain ⟨rfl, rfl⟩ := Prod.mk.inj heq
    exact List.perm_cons_erase (List.argmin_mem hcheapest)
  pop_cheapest l tx rest h other hother := by
    obtain ⟨cheapest, hcheapest, heq⟩ := Option.map_eq_some_iff.mp h
    obtain ⟨rfl, rfl⟩ := Prod.mk.inj heq
    have hle := List.le_of_mem_argmin (f := fun tx : Transaction => tx.gasPrice.toNat) (List.mem_of_mem_erase hother)
      hcheapest
    exact UInt64.le_iff_toNat_le.mpr hle

def Schedule.sample : Schedule where
  keys := id
  keys_perm := List.Perm.refl
  longest := List.insertionSort (fun a b => b.2 ≤ a.2)
  longest_perm := List.perm_insertionSort _
  longest_sorted := by
    have total : Std.Total (fun a b : Address × Nat => b.2 ≤ a.2) := ⟨fun a b => Nat.le_total b.2 a.2⟩
    have trans : IsTrans (Address × Nat) (fun a b => b.2 ≤ a.2) := ⟨fun a b c hab hbc => Nat.le_trans hbc hab⟩
    exact List.pairwise_insertionSort _
  oldest := List.insertionSort (fun a b => a.2 ≤ b.2)
  oldest_perm := List.perm_insertionSort _
  oldest_sorted := by
    have total : Std.Total (fun a b : Address × Nat => a.2 ≤ b.2) := ⟨fun a b => Nat.le_total a.2 b.2⟩
    have trans : IsTrans (Address × Nat) (fun a b => a.2 ≤ b.2) := ⟨fun a b c => Nat.le_trans⟩
    exact List.pairwise_insertionSort _

def nonceTrie (nonce : UInt64) : AccountTrie := fun a =>
  if a = sampleSender then some {newAccount Machine.sample.toDatabase with nonce := nonce} else none

def poolTx (nonce gasLimit : UInt64) : Transaction :=
  {sampleTx (some [9]) nonce 1 with signature := List.replicate 64 0, gasLimit := gasLimit}

end Okchain.Txpool
