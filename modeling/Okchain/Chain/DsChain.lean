import Okchain.Chain.Base

/-! The DS chain, after `core/blockchain/ds_blockchain.go`.

A DS block must have a known parent and a number above the head. From the second block on it must be
signed by the committee of its parent: the bool map selects members of the sorted committee, the sum of
their keys must be the key in the header, and the signature on the block must verify under it.
-/
namespace Okchain.Chain
open Lib Protos

abbrev DSBlockChain := BlockChain DSBlock PUnit

/-- A timestamp that is missing or zero in one of its parts is refused. -/
def validTimestamp (t : Option Timestamp) : Bool :=
  match t with
  | none => false
  | some t => t.nanosecond != 0 && t.second != 0

/-- The checks of the seal of a block by a committee. -/
def checkSeal (E : Env) (committee : List PeerEndpoint) (boolMap : List Bool) (multiPubKey signature : Bytes)
    (mHash : Except Err Hash) : Except Err (List PeerEndpoint) := do
  let sorted ← sortByPubkey E committee
  orError (.chain .mismatchMultiPubkey) (blsMultiPubkeyVerify E boolMap sorted multiPubKey)
  let digest ← mHash
  let valid ← orError (.chain .mismatchMultiSignature) (verifyHash E digest.bytes signature multiPubKey)
  if valid then return sorted else .error (.chain .mismatchMultiSignature)

/-- `DSBlockChain.validateBlock`. `signer` tells whether the chain has a BLS signer. -/
def dsValidateBlock (E : Env) (signer : Bool) (c : DSBlockChain) (b : DSBlock) : Except Err PUnit := do
  if !validTimestamp b.header.timestamp then .error (.chain .timestamp)
  else match c.getBlock b.parentHash (b.numberU64 - 1) with
    | none => .error (.chain .unknownAncestor)
    | some parent =>
      if b.numberU64 ≤ c.currentBlock.numberU64 then .error (.chain .knownBlock)
      else if 1 < b.numberU64 ∧ signer then do
        let _ ← checkSeal E parent.body.committee b.header.boolMap b.header.multiPubKey b.header.signature
          (b.mHash E)
        if (b.getVoteTickets : Int) < getToleranceSize parent.body.committee.length then
          .error (.chain .bitmapTolerence)
        else .ok ⟨⟩
      else .ok ⟨⟩

/-! ### Storage

A nil pointer to a message is stored as an empty list, which does not decode into the message again. -/

def readableEndpoint (p : Option PeerEndpoint) : Bool :=
  match p with
  | none => false
  | some p => p.id.isSome

/-- What `GetDsBlock` returns after `WriteDsBlock`. -/
def dsReadBack (b : DSBlock) : Option DSBlock :=
  if b.header.timestamp.isSome && readableEndpoint b.header.newLeader && readableEndpoint b.header.miner &&
      b.body.committee.all (·.id.isSome) && b.body.shardingNodes.all (·.id.isSome)
  then some b else none

/-- The DS chain as an implementation of a chain. -/
def dsImpl (E : Env) (signer : Bool) : Impl DSBlock PUnit PUnit where
  numberU64 := DSBlock.numberU64
  parentHash := DSBlock.parentHash
  hash := DSBlock.hash E
  readBack := dsReadBack
  validateBlock := dsValidateBlock E signer
  isFutureBlockErr e := e = .chain .unknownAncestor
  commit _ extra := .ok extra

/-! ### What the signature commits to -/

/-- No other DS block with the same signed hash and the same multi-signature is accepted on the chain
with another committee, other sharding nodes or another number of shards. -/
def BindsCommittee (E : Env) (signer : Bool) (c : DSBlockChain) (b : DSBlock) : Prop :=
  ∀ b', dsValidateBlock E signer c b = .ok ⟨⟩ → dsValidateBlock E signer c b' = .ok ⟨⟩ →
    b'.parentHash = b.parentHash → b'.mHash E = b.mHash E →
    b'.header.signature = b.header.signature → b'.header.multiPubKey = b.header.multiPubKey →
    b'.header.boolMap = b.header.boolMap →
    b'.body.committee = b.body.committee ∧ b'.body.shardingNodes = b.body.shardingNodes ∧
      b'.header.shardingSum = b.header.shardingSum

theorem dsValidateBlock_committee (E : Env) (signer : Bool) (c : DSBlockChain) (b : DSBlock)
    (committee : List PeerEndpoint) :
    dsValidateBlock E signer c {b with body := {b.body with committee := committee}} =
      dsValidateBlock E signer c b := rfl

/-- **The committee theorem.** A DS block binds its committee only if it is not accepted at all: with
every accepted block, the same block with another committee is accepted under the same signature. -/
theorem bindsCommittee_iff (E : Env) (signer : Bool) (c : DSBlockChain) (b : DSBlock) :
    BindsCommittee E signer c b ↔ dsValidateBlock E signer c b ≠ .ok ⟨⟩ := by
  refine ⟨fun hbinds hok => ?_, fun hrefused b' hok => absurd hok hrefused⟩
  let other : DSBlock := {b with body := {b.body with
    committee := b.body.committee ++ [⟨none, [], 0, [], [], []⟩]}}
  have hother : dsValidateBlock E signer c other = .ok ⟨⟩ :=
    (dsValidateBlock_committee E signer c b _).trans hok
  have heq : b.body.committee ++ [⟨none, [], 0, [], [], []⟩] = b.body.committee :=
    (hbinds other hok hother rfl rfl rfl rfl rfl).1
  have hlen := congrArg List.length heq
  rw [List.length_append, List.length_singleton] at hlen
  omega

/-! ### Sample blocks -/

/-- A peer with a private key of the computable environment. -/
def peerWithKey (key : Nat) : PeerEndpoint := ⟨some ⟨[110]⟩, [], 0, Lib.MultiSig.natBytes key, [], []⟩

/-- A DS block with the winning nonce `nonce`, as yet unsigned. -/
def dsSample (number nonce : UInt64) (parent : Bytes) (committee : List PeerEndpoint) : DSBlock where
  header := {
    version := 1
    timestamp := some ⟨1, 1⟩
    previousBlockHash := parent
    shardingSum := 1
    winnerPubKey := []
    winnerNonce := nonce
    blockNumber := number
    powDifficulty := 1
    powSubmissionNum := 1
    newLeader := some (peerWithKey 5)
    miner := some (peerWithKey 5)
    boolMap := [true]
    signature := []
    multiPubKey := Lib.MultiSig.natBytes 5}
  body := ⟨[], committee, []⟩

def hashBytes : Except Err Hash → Bytes
  | .ok h => h.bytes
  | .error _ => []

def dsSigned (b : DSBlock) : DSBlock :=
  {b with header := {b.header with
    signature := Lib.MultiSig.natBytes (5 * Lib.MultiSig.messageNat (hashBytes (b.mHash Env.sample)))}}

def dsGenesis : DSBlock := dsSample 0 0 [] []

/-- The first block, whose committee is the node with key 5. -/
def dsFirst : DSBlock := dsSample 1 0 (hashBytes (dsGenesis.hash Env.sample)) [peerWithKey 5]

def dsSecond (nonce : UInt64) (committee : List PeerEndpoint) : DSBlock :=
  dsSigned (dsSample 2 nonce (hashBytes (dsFirst.hash Env.sample)) committee)

def dsGenesisChain : DSBlockChain :=
  .genesis dsGenesis (bytesToHash (hashBytes (dsGenesis.hash Env.sample))) ⟨⟩

def dsChainOfFirst : DSBlockChain := (insertBlock (dsImpl Env.sample true) dsFirst dsGenesisChain).2

/-- A node that syncs the signed second block can be given another committee. -/
theorem dsSecond_committee_swapped :
    dsValidateBlock Env.sample true dsChainOfFirst (dsSecond 0 [peerWithKey 5]) = .ok ⟨⟩ ∧
    dsValidateBlock Env.sample true dsChainOfFirst
      {dsSecond 0 [peerWithKey 5] with body := ⟨[], [peerWithKey 6], []⟩} = .ok ⟨⟩ ∧
    ¬BindsCommittee Env.sample true dsChainOfFirst (dsSecond 0 [peerWithKey 5]) := by
  have hok : dsValidateBlock Env.sample true dsChainOfFirst (dsSecond 0 [peerWithKey 5]) = .ok ⟨⟩ := by
    decide +kernel
  have hother : dsValidateBlock Env.sample true dsChainOfFirst
      {dsSecond 0 [peerWithKey 5] with body := ⟨[], [peerWithKey 6], []⟩} = .ok ⟨⟩ := by
    decide +kernel
  refine ⟨hok, hother, fun hbinds => ?_⟩
  have heq : [peerWithKey 6] = [peerWithKey 5] := (hbinds _ hok hother rfl rfl rfl rfl rfl).1
  exact absurd heq (by decide)

end Okchain.Chain
