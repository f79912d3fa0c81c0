import Okchain.Common

/-! The wire messages of `protos`.

Slices are lists: an empty slice and a nil one encode and compare alike everywhere except in
`Transaction.ToAddr`, where nil means contract creation. A pointer is an `Option`. The header and the
body of a block are values here: every function that takes a block dereferences both at once.
-/
namespace Okchain.Protos
open Lib (Bytes)

structure Timestamp where
  second : UInt64
  nanosecond : UInt64
  deriving DecidableEq, Repr, Inhabited

structure PeerID where
  name : Bytes
  deriving DecidableEq, Repr, Inhabited

structure PeerEndpoint where
  id : Option PeerID
  address : Bytes
  port : UInt32
  pubkey : Bytes
  roleid : Bytes
  coinbase : Bytes
  deriving DecidableEq, Repr, Inhabited

/-- `Message_Type`, an open enumeration over `int32`. The consensus messages are named. -/
inductive MessageType
  | consensusAnnounce
  | consensusResponse
  | consensusFinalResponse
  | consensusFinalCollectiveSig
  | consensusBroadCastBlock
  | other (code : Int)
  deriving DecidableEq, Repr

def MessageType.code : MessageType → Int
  | .consensusAnnounce => 301
  | .consensusResponse => 304
  | .consensusFinalResponse => 308
  | .consensusFinalCollectiveSig => 309
  | .consensusBroadCastBlock => 310
  | .other c => c

structure Message where
  type : MessageType
  timestamp : Option Timestamp
  payload : Bytes
  signature : Bytes
  peer : Option PeerEndpoint
  deriving DecidableEq, Repr

structure Transaction where
  version : UInt32
  nonce : UInt64
  senderPubKey : Bytes
  toAddr : Option Bytes
  amount : UInt64
  signature : Bytes
  gasPrice : UInt64
  gasLimit : UInt64
  code : Bytes
  data : Bytes
  timestamp : Option Timestamp
  deriving DecidableEq, Repr

structure DSBlockHeader where
  version : UInt32
  timestamp : Option Timestamp
  previousBlockHash : Bytes
  shardingSum : UInt32
  winnerPubKey : Bytes
  winnerNonce : UInt64
  blockNumber : UInt64
  powDifficulty : UInt64
  powSubmissionNum : UInt64
  newLeader : Option PeerEndpoint
  miner : Option PeerEndpoint
  boolMap : List Bool
  signature : Bytes
  multiPubKey : Bytes
  deriving DecidableEq, Repr

structure DSBlockBody where
  shardingNodes : List PeerEndpoint
  committee : List PeerEndpoint
  currentBlockHash : Bytes
  deriving DecidableEq, Repr

structure DSBlock where
  header : DSBlockHeader
  body : DSBlockBody
  deriving DecidableEq, Repr

structure TxBlockHeader where
  version : UInt32
  timestamp : Option Timestamp
  previousBlockHash : Bytes
  blockNumber : UInt64
  dsCoinBase : List Bytes
  shardingLeadCoinBase : List Bytes
  stateRoot : Bytes
  txRoot : Bytes
  gasLimit : UInt64
  gasUsed : UInt64
  dsBlockNum : UInt64
  dsBlockHash : Bytes
  miner : Option PeerEndpoint
  txNum : UInt64
  boolMap : List Bool
  signature : Bytes
  multiPubKey : Bytes
  deriving DecidableEq, Repr

structure TxBlockBody where
  numberOfMicroBlock : UInt32
  microBlockHashes : List Bytes
  transactions : List Transaction
  currentBlockHash : Bytes
  deriving DecidableEq, Repr

structure TxBlock where
  header : TxBlockHeader
  body : TxBlockBody
  deriving DecidableEq, Repr

structure MicroBlock where
  header : TxBlockHeader
  shardID : UInt32
  miner : Option PeerEndpoint
  shardingLeadCoinBase : Bytes
  transactions : List Transaction
  deriving DecidableEq, Repr

structure VCBlockHeader where
  timestamp : Option Timestamp
  viewChangeDSNo : UInt64
  viewChangeTXNo : UInt64
  newLeader : Option PeerEndpoint
  stage : Bytes
  boolMap : List Bool
  signature : Bytes
  multiPubKey : Bytes
  deriving DecidableEq, Repr

structure VCBlock where
  header : VCBlockHeader
  deriving DecidableEq, Repr

structure BoolMapSignature where
  boolMap : List Bool
  signature : Bytes
  deriving DecidableEq, Repr

structure DSBlockWithSig2 where
  block : DSBlock
  sig2 : BoolMapSignature
  deriving DecidableEq, Repr

structure TxBlockWithSig2 where
  block : TxBlock
  sig2 : BoolMapSignature
  deriving DecidableEq, Repr

structure VCBlockWithSig2 where
  block : VCBlock
  sig2 : BoolMapSignature
  deriving DecidableEq, Repr

/-- `ConsensusType`, an open enumeration over `int32`. -/
inductive ConsensusType
  | dsBlock
  | microBlock
  | finalBlock
  | viewChange
  | unknown (code : Int)
  deriving DecidableEq, Repr

structure ConsensusPayload where
  type : ConsensusType
  msg : Bytes
  deriving DecidableEq, Repr

/-- The votes of a bool map: how many of its bits are set. -/
def voteTickets (boolMap : List Bool) : Nat := boolMap.countP id

def DSBlock.getVoteTickets (b : DSBlock) : Nat := voteTickets b.header.boolMap
def TxBlock.getVoteTickets (b : TxBlock) : Nat := voteTickets b.header.boolMap

def DSBlock.numberU64 (b : DSBlock) : UInt64 := b.header.blockNumber
def TxBlock.numberU64 (b : TxBlock) : UInt64 := b.header.blockNumber
def DSBlock.parentHash (b : DSBlock) : Hash := bytesToHash b.header.previousBlockHash
def TxBlock.parentHash (b : TxBlock) : Hash := bytesToHash b.header.previousBlockHash

/-- `GetCoinbaseByPubkey`: the committee is searched first, then the sharding nodes. -/
def DSBlock.getCoinbaseByPubkey (b : DSBlock) (pubkey : Bytes) : Option Bytes :=
  ((b.body.committee ++ b.body.shardingNodes).find? (·.pubkey = pubkey)).map (·.coinbase)

end Okchain.Protos
