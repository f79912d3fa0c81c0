import Okchain.Lib.Proc
import Okchain.Protos.Crypto

/-! The part the two block chains share, after `core/blockchain/blockchain.go`.

Blocks are stored under their number and their hash, next to an index from hashes to numbers, one canonical
hash for every number, the head block, and a bounded cache of blocks that came too early, which
`ProcFutureBlocks` retries.
-/
namespace Okchain.Chain
open Lib Protos

def futureBlkCacheLimit : Nat := 1024

def missingNumber : UInt64 := 0xFFFFFFFFFFFFFFFF

/-- `GetToleranceSize` of a committee of `n` members. -/
def getToleranceSize (n : Nat) : Int := ((n : Int) - 1) * 667 / 1000 + 1

/-- A chain of blocks `B` that keeps `X` besides. The zero hash stands for no canonical hash. The
future blocks are listed from the most to the least recently used. -/
structure BlockChain (B X : Type) where
  blocks : UInt64 → Hash → Option B
  numbers : Hash → Option UInt64
  canonical : UInt64 → Hash
  currentBlock : B
  futureBlocks : List (Hash × B)
  extra : X

/-- What is asked of a block, `protos.IBlock`. -/
structure IBlock (B : Type) where
  numberU64 : B → UInt64
  parentHash : B → Hash
  hash : B → Except Err Hash

/-- What the two chains implement differently. `readBack` is what reading a written block returns;
validating leaves something to be committed with the block. -/
structure Impl (B X Hot : Type) extends IBlock B where
  readBack : B → Option B
  validateBlock : BlockChain B X → B → Except Err Hot
  isFutureBlockErr : Err → Bool
  commit : Hot → X → Except Err X

section

variable {B X Hot : Type}

/-! ### Reading -/

namespace BlockChain

def getBlock (c : BlockChain B X) (hash : Hash) (number : UInt64) : Option B := c.blocks number hash

def getBlockByNumber (c : BlockChain B X) (number : UInt64) : Option B :=
  if c.canonical number = default then none else c.getBlock (c.canonical number) number

def getBlockNumber (c : BlockChain B X) (hash : Hash) : UInt64 := (c.numbers hash).getD missingNumber

def getBlockByHash (c : BlockChain B X) (hash : Hash) : Option B := c.getBlock hash (c.getBlockNumber hash)

/-! ### Writing -/

/-- `futureBlocks.Add`. -/
def addFuture (c : BlockChain B X) (hash : Hash) (b : B) : BlockChain B X :=
  {c with futureBlocks :=
    ((hash, b) :: c.futureBlocks.filter (·.1 ≠ hash)).take futureBlkCacheLimit}

/-- `futureBlocks.Remove`. -/
def removeFuture (c : BlockChain B X) (hash : Hash) : BlockChain B X :=
  {c with futureBlocks := c.futureBlocks.filter (·.1 ≠ hash)}

/-- The writes of `batchInsert`: the block, its canonical hash, and what the chain commits. -/
def write (c : BlockChain B X) (number : UInt64) (hash : Hash) (stored : Option B) (extra : X) : BlockChain B X :=
  {c with
    blocks := fun n h => if n = number ∧ h = hash then stored else c.blocks n h
    numbers := Function.update c.numbers hash (some number)
    canonical := Function.update c.canonical number hash
    extra := extra}

/-- A chain that holds nothing but its genesis block. -/
def genesis (b : B) (hash : Hash) (extra : X) : BlockChain B X where
  blocks n h := if n = 0 ∧ h = hash then some b else none
  numbers h := if h = hash then some 0 else none
  canonical n := if n = 0 then hash else default
  currentBlock := b
  futureBlocks := []
  extra := extra

end BlockChain

/-! ### Inserting -/

variable (I : Impl B X Hot)

/-- The first half of `InsertBlock`: validate, and keep a block that came too early for later. -/
def validate (b : B) : Proc Err (BlockChain B X) Hot := fun c =>
  match I.validateBlock c b with
  | .ok hot => (.ok hot, c)
  | .error e =>
    if I.isFutureBlockErr e then
      match I.hash b with
      | .ok hash => (.error e, c.addFuture hash b)
      | .error p => (.error p, c)
    else (.error e, c)

/-- `batchInsert`, and taking the block out of the future blocks. -/
def batchInsert (b : B) (hot : Hot) : Proc Err (BlockChain B X) PUnit := do
  let hash ← .lift (I.hash b)
  let extra ← .read fun c => c.extra
  let extra ← .lift (I.commit hot extra)
  .update fun c => (c.write (I.numberU64 b) hash (I.readBack b) extra).removeFuture hash

/-- `currentBlock.Store`. -/
def store (b : B) : Proc Err (BlockChain B X) PUnit := .update fun c => {c with currentBlock := b}

def insertBlock (b : B) : Proc Err (BlockChain B X) PUnit := do
  let hot ← validate I b
  batchInsert I b hot
  store b

/-- The orders in which `ProcFutureBlocks` may retry the future blocks: sorted by number, and the sort
is not stable. -/
def FutureOrder (I : IBlock B) (c : BlockChain B X) (order : List B) : Prop :=
  order.Perm (c.futureBlocks.map Prod.snd) ∧
    order.Pairwise fun a b => I.numberU64 a ≤ I.numberU64 b

/-- `ProcFutureBlocks` in one of these orders. Errors are dropped. -/
def procFutureBlocks (order : List B) (c : BlockChain B X) : BlockChain B X :=
  order.foldl (fun c b => (insertBlock I b c).2) c

end

end Okchain.Chain
