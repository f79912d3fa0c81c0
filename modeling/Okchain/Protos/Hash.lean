import Okchain.Protos.Types
import Okchain.Rlp.Writer
import Okchain.Lib.MultiSig

/-! Block and transaction hashes.

Every hash is Keccak-256 over the RLP encoding of a list of fields. Which fields are in the list
decides what a hash, or a signature on it, commits to. A nil `Miner` or `NewLeader` is dereferenced
while the list is built, so a block hash can panic.

Keccak-256, the signature library and the unstable sort are parameters, gathered in `Env`.
-/
namespace Okchain
open Lib (Bytes MultiSig)
open Okchain.Rlp (Encoded GoType GoValue hashedBytes)
open Protos

/-- The key `ByPubkey` compares: the first eight bytes of the public key. -/
def Protos.PeerEndpoint.sortKey (p : PeerEndpoint) : Nat := Lib.Rlp.ofBeBytes (p.pubkey.take 8)

/-- The code the model takes as given. `sortPeers` is `sort.Sort(ByPubkey)`: some permutation in
increasing order, with ties broken in a way callers cannot rely on. -/
structure Env where
  keccak : Bytes → Hash
  bls : MultiSig
  sortPeers : List PeerEndpoint → List PeerEndpoint
  sortPeers_perm : ∀ l, (sortPeers l).Perm l
  sortPeers_sorted : ∀ l, (sortPeers l).Pairwise (fun a b => a.sortKey ≤ b.sortKey)

namespace Env

variable (E : Env)

/-- `util.Hash`. The error of the encoder is dropped. -/
def hash (t : GoType) (v : GoValue) : Hash := E.keccak (hashedBytes t v)

/-- `util.Hash` of an `[]interface{}`. -/
def hashList (m : List Encoded) : Hash := E.hash (.slice .interface) (.slice (m.map Encoded.value))

/-- The two lists do not form a Keccak collision: equal digests come from equal encodings. -/
def NoCollision (m₁ m₂ : List Encoded) : Prop :=
  E.hashList m₁ = E.hashList m₂ → m₁.map Encoded.item = m₂.map Encoded.item

theorem hashList_eq (m : List Encoded) : E.hashList m = E.keccak (Lib.Rlp.encode (.list (m.map Encoded.item))) := by
  unfold hashList hash
  rw [Okchain.Rlp.hashedBytes_encoded]

end Env

namespace Protos
open Okchain.Rlp

/-- A `*Timestamp`; nil encodes as the empty list. -/
def ofTimestamp : Option Timestamp → Encoded
  | some t => ⟨.interface (.ptr (.struct [.uint, .uint]))
      (.ptr (.struct [.uint t.second.toNat, .uint t.nanosecond.toNat])),
      .list [.str (Lib.Rlp.beBytes t.second.toNat), .str (Lib.Rlp.beBytes t.nanosecond.toNat)], rfl⟩
  | none => ⟨.interface (.ptr (.struct [.uint, .uint])) .nil, .list [], rfl⟩

/-! ### Transactions -/

def Transaction.hashed (t : Transaction) : List Encoded :=
  [ofUint t.version.toNat, ofUint t.nonce.toNat, ofBytes t.senderPubKey, ofBytes (t.toAddr.getD []),
    ofUint t.amount.toNat, ofUint t.gasPrice.toNat, ofUint t.gasLimit.toNat, ofBytes t.code,
    ofBytes t.data, ofTimestamp t.timestamp]

def Transaction.hash (E : Env) (t : Transaction) : Hash := E.hashList t.hashed

/-! ### Transaction blocks -/

/-- Neither the timestamp, nor the state root, nor the gas used is in the list. -/
def TxBlockHeader.hashed (h : TxBlockHeader) : Except Err (List Encoded) := do
  let miner ← deref h.miner
  return [ofUint h.version.toNat, ofBytes h.previousBlockHash, ofUint h.blockNumber.toNat,
      ofByteSlices h.dsCoinBase, ofBytes h.txRoot, ofUint h.gasLimit.toNat, ofUint h.dsBlockNum.toNat,
      ofBytes h.dsBlockHash, ofUint h.txNum.toNat, ofBytes miner.pubkey]
    ++ h.dsCoinBase.map ofBytes ++ h.shardingLeadCoinBase.map ofBytes

/-- Of the transactions only the signatures are in the list. -/
def TxBlockBody.hashed (b : TxBlockBody) : List Encoded :=
  [ofBytes b.currentBlockHash, ofUint b.numberOfMicroBlock.toNat]
    ++ b.microBlockHashes.map ofBytes ++ b.transactions.map (fun t => ofBytes t.signature)

def TxBlockHeader.hash (E : Env) (h : TxBlockHeader) : Except Err Hash := do
  return E.hashList (← h.hashed)

def TxBlockBody.hash (E : Env) (b : TxBlockBody) : Hash := E.hashList b.hashed

def TxBlock.hash (E : Env) (b : TxBlock) : Except Err Hash := b.header.hash E

def TxBlock.mHash (E : Env) (b : TxBlock) : Except Err Hash := do
  return E.hashList [ofBytes (← b.header.hash E).bytes, ofBytes (b.body.hash E).bytes]

/-! ### DS blocks -/

def DSBlockHeader.hashed (h : DSBlockHeader) : Except Err (List Encoded) := do
  let newLeader ← deref h.newLeader
  let id ← deref newLeader.id
  let miner ← deref h.miner
  return [ofUint h.version.toNat, ofTimestamp h.timestamp, ofBytes h.previousBlockHash,
    ofBytes h.winnerPubKey, ofUint h.winnerNonce.toNat, ofUint h.blockNumber.toNat,
    ofUint h.powDifficulty.toNat, ofString id.name, ofBytes miner.pubkey]

/-- Of the body only the sharding nodes' keys are in the list; the committee is not. -/
def DSBlockBody.hashed (b : DSBlockBody) : List Encoded :=
  ofBytes b.currentBlockHash :: b.shardingNodes.map (fun p => ofBytes p.pubkey)

def DSBlockHeader.hash (E : Env) (h : DSBlockHeader) : Except Err Hash := do
  return E.hashList (← h.hashed)

def DSBlockBody.hash (E : Env) (b : DSBlockBody) : Hash := E.hashList b.hashed

def DSBlock.hash (E : Env) (b : DSBlock) : Except Err Hash := b.header.hash E

def DSBlock.mHash (E : Env) (b : DSBlock) : Except Err Hash := do
  return E.hashList [ofBytes (← b.header.hash E).bytes, ofBytes (b.body.hash E).bytes]

/-! ### Micro blocks and view-change blocks -/

def MicroBlock.hash (E : Env) (b : MicroBlock) : Except Err Hash := do
  let miner ← deref b.miner
  return E.hashList ([ofUint b.header.blockNumber.toNat, ofUint b.header.txNum.toNat,
    ofUint b.header.dsBlockNum.toNat, ofBytes b.header.dsBlockHash, ofBytes miner.pubkey,
    ofUint b.shardID.toNat, ofBytes b.shardingLeadCoinBase]
    ++ b.transactions.map (fun t => ofBytes t.signature))

def VCBlock.hash (E : Env) (b : VCBlock) : Except Err Hash := do
  let newLeader ← deref b.header.newLeader
  return E.hashList [ofString b.header.stage, ofUint b.header.viewChangeDSNo.toNat,
    ofUint b.header.viewChangeTXNo.toNat, ofBytes newLeader.pubkey]

end Protos
end Okchain
