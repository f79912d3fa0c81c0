import Okchain.Consensus.Base
import Okchain.Lib.Merkle

/-! What a DS backup checks and answers, after `role_ds_backup.go` and `role_base.go`.

An announced block that passes becomes the current block of its kind, and the response carries that
block with the backup's signature on its hash. The backup keeps no record of what it signed before.
-/
namespace Okchain.Consensus
open Lib Protos Core State

variable (P : Platform)

/-! ### Merkle roots of transactions -/

def merkelLevel : List Bytes → List Bytes
  | left :: right :: rest => (P.sha256 (left ++ right)).bytes :: merkelLevel rest
  | _ => []

/-- The loop runs half as often as there are leaves, past the level with a single node. -/
def merkelLoop : Nat → List Bytes → List Bytes
  | 0, nodes => nodes
  | n + 1, nodes => merkelLoop n (Merkle.padEven (merkelLevel P nodes))

/-- The root data of `NewMerkleTree`. -/
def newMerkleTree (data : List Bytes) : Bytes :=
  match merkelLoop P ((Merkle.padEven data).length / 2) ((Merkle.padEven data).map fun d => (P.sha256 d).bytes) with
  | [] => List.replicate 32 48
  | root :: _ => root

def computeMerkelRoot (txs : List Transaction) : Bytes :=
  newMerkleTree P (txs.map fun tx => (tx.hash P.toEnv).bytes)

/-! ### Announced blocks -/

def peerName (p : PeerEndpoint) : Except Err Bytes := return (← deref p.id).name

def announced {B : Type} (c : Codec B) (msg : Message) : Except Err B := do
  let announce ← P.payload.decode msg.payload
  c.decode announce.msg

/-- The sharding nodes from the second one on, against the PoW submissions at the same places. -/
def checkShardingNodes (pows : List PoWSubmission) (nodes : List PeerEndpoint) :
    List Nat → Except Err Unit
  | [] => .ok ⟨⟩
  | i :: rest => do
    let pow ← deref pows[i]?
    let expected ← peerName (← deref pow.peer)
    let actual ← peerName (← index nodes i)
    if expected = actual then checkShardingNodes pows nodes rest else .error (.consensus .verifyBlock)

/-- The checks of `verifyDSBlock`. -/
def checkDSBlock (s : PeerServer P) (b : DSBlock) : Except Err Unit :=
  match s.poWSubList with
  | [] => .error (.consensus .emptyPoWList)
  | pow :: _ => do
    let pows := s.poWSubList.length
    if pow.publicKey ≠ b.header.winnerPubKey then .error (.consensus .verifyBlock)
    else if pow.nonce ≠ b.header.winnerNonce then .error (.consensus .verifyBlock)
    else if s.dsHead.numberU64 + 1 ≠ b.header.blockNumber then .error (.consensus .verifyBlock)
    else if pow.difficulty ≠ b.header.powDifficulty then .error (.consensus .verifyBlock)
    else if b.header.previousBlockHash ≠ (← s.dsHead.hash P.toEnv).bytes then .error (.consensus .verifyBlock)
    else if s.shardingSize = 0 then .error (.panic .divisionByZero)
    else
      let numOfSharding := pows / s.shardingSize
      let shardingNodesTotal := numOfSharding * s.shardingSize
      if b.header.shardingSum ≠ (if numOfSharding = 0 then 1 else UInt32.ofNat numOfSharding) then
        .error (.consensus .verifyBlock)
      else
        let first ← peerName (← index b.body.shardingNodes 0)
        let last ← peerName (← index s.committee.reverse 0)
        if first ≠ last then .error (.consensus .verifyBlock)
        else
          let total := if shardingNodesTotal = 0 then pows else shardingNodesTotal
          checkShardingNodes s.poWSubList b.body.shardingNodes ((List.range total).drop 1)
          if pow.peer ≠ b.header.newLeader then .error (.consensus .verifyBlock) else return ⟨⟩

def verifyDSBlock (msg : Message) : NodeProc P Unit := do
  let b ← .lift (announced P P.dsBlock msg)
  let s ← .read id
  .lift (checkDSBlock P s b)
  .update ((dsSlot P).set b)

/-- `verifyFinalBlock`. Of the number, the version, the timestamp, the coinbases of the committee and
the gas nothing is checked. -/
def verifyFinalBlock (msg : Message) : NodeProc P Unit := do
  let b ← .lift (announced P P.txBlock msg)
  let mine ← (finalSlot P).current
  .ensure (mine.body.microBlockHashes.isPerm b.body.microBlockHashes) (.consensus .verifyBlock)
  .ensure (mine.header.shardingLeadCoinBase.isPerm b.header.shardingLeadCoinBase) (.consensus .verifyBlock)
  .ensure (b.body.numberOfMicroBlock = mine.body.numberOfMicroBlock) (.consensus .verifyBlock)
  .ensure (b.header.txNum = mine.header.txNum) (.consensus .verifyBlock)
  .ensure (b.header.dsBlockNum = mine.header.dsBlockNum) (.consensus .verifyBlock)
  .ensure (b.header.previousBlockHash = mine.header.previousBlockHash) (.consensus .verifyBlock)
  .ensure (computeMerkelRoot P b.body.transactions = b.header.txRoot) (.consensus .verifyBlock)
  .update ((finalSlot P).set b)

/-! ### View changes -/

/-- `ConsensusType_name`. -/
def consensusTypeName : ConsensusType → Bytes
  | .dsBlock => "DsBlockConsensus".toUTF8.toList
  | .microBlock => "MicroBlockConsensus".toUTF8.toList
  | .finalBlock => "FinalBlockConsensus".toUTF8.toList
  | .viewChange => "ViewChangeConsensus".toUTF8.toList
  | .unknown _ => []

/-- The node after the one at which `p` is first found with the same key. -/
def nextOf (nodes : List PeerEndpoint) (p : PeerEndpoint) : Option PeerEndpoint :=
  match nodes.findIdx? (fun q => q.pubkey = p.pubkey) with
  | some i => nodes[(i + 1) % nodes.length]?
  | none => none

/-- The shard member whose turn it is, counted from the head of the chain. -/
def shardTurn (s : PeerServer P) : Except Err Nat :=
  if s.dsHead.body.shardingNodes.length / s.shardingSize ≠ 0 then
    .ok (s.txHead.numberU64.toNat % s.shardingSize)
  else if s.dsHead.body.shardingNodes.length = 0 then .error (.panic .divisionByZero)
  else .ok (s.txHead.numberU64.toNat % s.dsHead.body.shardingNodes.length)

/-- `&pb.PeerEndpoint{}`. -/
def emptyEndpoint : PeerEndpoint := ⟨none, [], 0, [], [], []⟩

/-- `getNewLeaderWhenNotViewChange`; nil when the committee is too small. -/
def getNewLeaderWhenNotViewChange (s : PeerServer P) : ConsensusType → Except Err (Option PeerEndpoint)
  | .dsBlock | .finalBlock => .ok s.committee[1]?
  | .microBlock =>
    if s.shardingSize = 0 then .error (.panic .divisionByZero)
    else if s.shardingNodes = [] then .ok (some emptyEndpoint)
    else do
      let turn ← shardTurn P s
      if turn < s.shardingNodes.length then return s.shardingNodes[(turn + 1) % s.shardingNodes.length]?
      else return some emptyEndpoint
  | _ => .ok (some emptyEndpoint)

/-- `GetNewLeader`: while a view change is under way, the one after the leader it has chosen. -/
def getNewLeader (s : PeerServer P) : Except Err (Option PeerEndpoint) := do
  let leader ← getNewLeaderWhenNotViewChange P s s.currentStage
  if s.currentStage ≠ .viewChange then return leader
  else match s.currentVCBlock.bind (·.header.newLeader) with
    | none => return leader
    | some chosen =>
      match s.lastStage with
      | .dsBlock | .finalBlock => return (nextOf s.committee chosen).or leader
      | .microBlock => return (nextOf s.shardingNodes chosen).or leader
      | _ => return leader

def verifyVCBlock (msg : Message) : NodeProc P Unit := do
  let b ← .lift (announced P P.vcBlock msg)
  let s ← .read id
  .ensure s.currentVCBlock.isSome (.consensus .emptyBlock)
  .ensure (b.header.viewChangeTXNo = s.txHead.numberU64) (.consensus .verifyBlock)
  .ensure (b.header.viewChangeDSNo = s.dsHead.numberU64) (.consensus .verifyBlock)
  .ensure (b.header.stage = consensusTypeName s.lastStage) (.consensus .verifyBlock)
  let named ← .lift (deref b.header.newLeader)
  let expected ← .lift (do deref (← getNewLeader P s))
  .ensure (named.pubkey = expected.pubkey) (.consensus .verifyBlock)
  .update ((vcSlot P).set b)

/-- `RoleDsBackup.VerifyBlock`. -/
def verifyAnnounced (msg : Message) : ConsensusType → NodeProc P Unit
  | .dsBlock => verifyDSBlock P msg
  | .finalBlock => verifyFinalBlock P msg
  | .viewChange => verifyVCBlock P msg
  | _ => .throw (.consensus .handleInCurrentState)

/-! ### Responses -/

/-- `produceConsensusPayload`. -/
def consensusPayload (type : ConsensusType) (msg : Bytes) : Bytes := P.payload.marshal ⟨type, msg⟩

/-- Sign the current block, put the signature into it, and answer with it. -/
def respondWith {B : Type} [SealedBlock B] (slot : Slot P B) (c : Codec B) (what : B → Signable)
    (type : ConsensusType) : NodeProc P Message := do
  let b ← slot.current
  let sign ← blsSign (what b)
  slot.modify (withSignature · (P.bls.serializeSig sign))
  let b ← slot.current
  signedMessage .consensusResponse (consensusPayload P type (c.marshal b))

def preConsensusProcessDsBlock : NodeProc P Message := respondWith P (dsSlot P) P.dsBlock .dsBlock .dsBlock

def preConsensusProcessVCBlock : NodeProc P Message := respondWith P (vcSlot P) P.vcBlock .vcBlock .viewChange

/-- `preConsensusProcessFinalBlock`: the backup's coinbase is appended after signing. -/
def preConsensusProcessFinalBlock : NodeProc P Message := do
  let b ← (finalSlot P).current
  let sign ← blsSign (.finalBlock b)
  (finalSlot P).modify (withSignature · (P.bls.serializeSig sign))
  let coinBase ← .read fun s => s.coinBase
  (finalSlot P).modify fun b => {b with header := {b.header with
    dsCoinBase := b.header.dsCoinBase ++ [coinBase]}}
  let b ← (finalSlot P).current
  signedMessage .consensusResponse (consensusPayload P .finalBlock (P.txBlock.marshal b))

def composeResponse : ConsensusType → NodeProc P Message
  | .dsBlock => preConsensusProcessDsBlock P
  | .finalBlock => preConsensusProcessFinalBlock P
  | .viewChange => preConsensusProcessVCBlock P
  | _ => .throw (.consensus .handleInCurrentState)

def counterSign {B : Type} [SealedBlock B] (slot : Slot P B) (type : ConsensusType) : NodeProc P Message := do
  let b ← slot.current
  let sign2 ← blsSign (.signature (getSeal b).signature)
  signedMessage .consensusFinalResponse (consensusPayload P type (P.bls.serializeSig sign2))

def composeFinalResponse : ConsensusType → NodeProc P Message
  | .dsBlock => counterSign P (dsSlot P) .dsBlock
  | .finalBlock => counterSign P (finalSlot P) .finalBlock
  | .viewChange => counterSign P (vcSlot P) .viewChange
  | _ => .throw (.consensus .handleInCurrentState)

end Okchain.Consensus
