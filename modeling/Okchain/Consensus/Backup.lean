import Okchain.Consensus.Role

/-! The backup's half of a round, after `consensus_backup.go`.

A backup listens to one leader. It answers an announcement with its signature on the block, a collective
signature of a quorum with its signature on that signature, and completes the round when it is sent a
block with both. What a handler has changed before it fails stays changed.
-/
namespace Okchain.Consensus
open Lib Protos Core State
open Chain (getToleranceSize)

variable {P : Platform}

/-- The caller of a handler replaces its error; what it changed stays. -/
def orFail {α : Type} (e : Err) (x : NodeProc P α) : NodeProc P α := fun s => (orError e (x s).1, (x s).2)

/-- The caller drops the error; a panic goes through. -/
def dropError {σ : Type} (x : Proc Err σ Unit) : Proc Err σ Unit := fun s =>
  match x s with
  | (.error (.panic p), t) => (.error (.panic p), t)
  | (_, t) => (.ok ⟨⟩, t)

/-- `MessageVerify` as the handlers use it. -/
def authenticate (msg : Message) : NodeProc P Unit :=
  .lift (orError (.consensus .verifyMessage) (Server.messageVerify P.toEnv msg))

def committeeSort : NodeProc P (List PeerEndpoint) := do
  let committee ← .read fun s => s.committee
  .lift (sortByPubkey P.toEnv committee)

/-- A view change of a shard's round is decided by the shard, of any other by the DS committee. -/
def ofShard (stage : Bytes) : Bool := stage == consensusTypeName .microBlock

/-- Whether the current round is one of the DS committee. -/
def inCommittee (type : ConsensusType) : NodeProc P Bool :=
  match type with
  | .dsBlock | .finalBlock => pure true
  | .viewChange => do
    let b ← (vcSlot P).current
    pure !(ofShard b.header.stage)
  | _ => pure false

/-! ### The first signature round -/

/-- The current block against the collective signature of the first round. -/
def checkSig1 {B : Type} [SealedBlock B] (slot : Slot P B) (signed : B → Except Err Hash) (sig1 : P.bls.Sig)
    (multiPubkey : P.bls.PubKey) (signature : Bytes) : NodeProc P Unit := do
  let b ← slot.current
  let hash ← .lift (signed b)
  let verified ← .lift (blsVerify P.toEnv sig1 multiPubkey hash.bytes)
  .ensure verified (.consensus .signatureRoundOne)
  slot.modify (withSignature · signature)

def withDSCoinBase (b : TxBlock) (dsCoinBase : List Bytes) : TxBlock :=
  {b with header := {b.header with dsCoinBase := dsCoinBase}}

/-- The block as it is signed: of the coinbases only the first. -/
def cutCoinBase (b : TxBlock) : Except Err TxBlock := do
  let first ← index b.header.dsCoinBase 0
  return withDSCoinBase b [first]

def cutHash (E : Env) (b : TxBlock) : Except Err Hash := do
  (← cutCoinBase b).mHash E

def checkCurrentSig1 (type : ConsensusType) (sig1 : P.bls.Sig) (multiPubkey : P.bls.PubKey) (signature : Bytes) :
    NodeProc P Unit :=
  match type with
  | .dsBlock => checkSig1 (dsSlot P) (digest P.toEnv) sig1 multiPubkey signature
  | .finalBlock => checkSig1 (finalSlot P) (cutHash P.toEnv) sig1 multiPubkey signature
  | .viewChange => checkSig1 (vcSlot P) (digest P.toEnv) sig1 multiPubkey signature
  | _ => pure ⟨⟩

/-- What `verifyBlockSig1` does once the committee is sorted. -/
def checkBlockSig1 (sorted : List PeerEndpoint) (msg : Message) (type : ConsensusType) : NodeProc P Unit := do
  let payload ← .lift (P.payload.decode msg.payload)
  let blockSig1 ← .lift (P.boolMapSignature.decode payload.msg)
  let (multiPubkey, counter) ← .lift (sumByBoolMap P.toEnv blockSig1.boolMap sorted)
  .ensure (getToleranceSize sorted.length ≤ counter) (.consensus .notEnoughSignatures)
  let sig1 ← .lift (orError (.consensus .signatureRoundOne) (deserializeSig P.toEnv blockSig1.signature))
  checkCurrentSig1 type sig1 multiPubkey blockSig1.signature

def verifyBlockSig1 (msg : Message) (type : ConsensusType) : NodeProc P Unit := do
  let committee ← inCommittee type
  .ensure committee (.consensus .cannotProcessType)
  checkBlockSig1 (← committeeSort) msg type

/-! ### The finished block -/

/-- How many signatures `verifyBlock` expects when the members are not the committee's. -/
def expectedOfShard (s : PeerServer P) : Except Err Int :=
  let nodes := s.dsHead.body.shardingNodes.length
  let shards := s.dsHead.header.shardingSum.toNat
  if shards = 1 then .ok (getToleranceSize nodes)
  else if shards = 0 then .error (.panic .divisionByZero)
  else .ok (getToleranceSize (nodes / shards))

/-- The second signature round: a quorum has signed the signature of the block. -/
def checkSig2 (sig2 : BoolMapSignature) (sorted : List PeerEndpoint) (signature : Bytes) (expected : Int) :
    NodeProc P Unit := do
  let multiSig2 ← .lift (deserializeSig P.toEnv sig2.signature)
  .lift (verifyMultiSignByBoolMap P.toEnv sig2.boolMap sorted multiSig2 signature expected)

/-- The block in the slot and the finished one agree up to the seal, and the seal is good for what is signed. -/
def compareFinished {B : Type} [SealedBlock B] [DecidableEq B] (slot : Slot P B) (signed : B → Except Err B)
    (members : List PeerEndpoint) (b : B) : NodeProc P Unit := do
  let mine ← slot.current
  .ensure (mine = withSeal b .none) (.consensus .verifyBlock)
  .lift (orError (.consensus .blsPubKeyVerify)
    (blsMultiPubkeyVerify P.toEnv (getSeal b).boolMap members (getSeal b).multiPubKey))
  let valid ← .lift (signed b >>= verifySeal P.toEnv)
  .ensure valid (.consensus .verifyMessage)
  .update (slot.set b)

/-- A finished block against the current one. -/
def checkFinished {B : Type} [SealedBlock B] [DecidableEq B] (slot : Slot P B) (members : List PeerEndpoint)
    (b : B) : NodeProc P Unit := do
  slot.modify (withSignature · [])
  compareFinished slot .ok members b

/-- The final block takes the coinbases from the message and the state root from its own execution. -/
def checkFinishedFinal (members : List PeerEndpoint) (b : TxBlock) : NodeProc P Unit := do
  (finalSlot P).modify (withSignature · [])
  let cache ← .read fun s => s.coinbaseByPubkey
  .lift (orError (.consensus .checkCoinBase) (checkCoinBase2 b members cache))
  (finalSlot P).modify (withDSCoinBase · b.header.dsCoinBase)
  let mine ← (finalSlot P).current
  let headState ← .read fun s => s.headState
  let (root, gasUsed) ← .lift (orError (.consensus .calStateRoot) (calStateRoot P.toMachine headState mine))
  (finalSlot P).modify fun mine => {mine with header := {mine.header with
    stateRoot := root.bytes, gasUsed := gasUsed}}
  compareFinished (finalSlot P) cutCoinBase members b

def verifyBlock (msg : Message) (type : ConsensusType) : NodeProc P Unit := do
  let payload ← .lift (P.payload.decode msg.payload)
  let committee ← inCommittee type
  let sorted ← if committee then committeeSort else pure []
  let s ← .read id
  let expected ← .lift (if committee then .ok (getToleranceSize sorted.length) else expectedOfShard s)
  let boolMap ← match type with
    | .dsBlock => do
      let finished ← .lift (P.dsBlockWithSig2.decode payload.msg)
      checkSig2 finished.sig2 sorted finished.block.header.signature expected
      checkFinished (dsSlot P) sorted finished.block
      pure finished.block.header.boolMap
    | .finalBlock => do
      let finished ← .lift (P.txBlockWithSig2.decode payload.msg)
      checkSig2 finished.sig2 sorted finished.block.header.signature expected
      checkFinishedFinal sorted finished.block
      pure finished.block.header.boolMap
    | .microBlock => do
      let b ← .lift (P.microBlock.decode payload.msg)
      checkFinished (microSlot P) s.shardingNodes b
      pure b.header.boolMap
    | .viewChange =>
      if committee then do
        let finished ← .lift (P.vcBlockWithSig2.decode payload.msg)
        checkSig2 finished.sig2 sorted finished.block.header.signature expected
        checkFinished (vcSlot P) (if ofShard finished.block.header.stage then s.shardingNodes else sorted)
          finished.block
        pure finished.block.header.boolMap
      else do
        let b ← .lift (P.vcBlock.decode payload.msg)
        checkFinished (vcSlot P) (if ofShard b.header.stage then s.shardingNodes else sorted) b
        pure b.header.boolMap
    | .unknown _ => pure []
  .ensure (expected ≤ voteTickets boolMap) (.consensus .verifyBlock)

/-! ### The handlers -/

def processMessageAnnounce (msg : Message) : NodeProc P Unit := do
  authenticate msg
  let type ← .read fun s => s.currentType
  orFail (.consensus .verifyBlock) (verifyAnnounced P msg type)
  let response ← orFail (.consensus .composeMessage) (composeResponse P type)
  send response

def processMessageFinalCollectiveSig (msg : Message) : NodeProc P Unit := do
  authenticate msg
  let type ← .read fun s => s.currentType
  orFail (.consensus .verifyMessage) (verifyBlockSig1 msg type)
  let finalResponse ← orFail (.consensus .composeMessage) (composeFinalResponse P type)
  send finalResponse

/-- `processMessageBroadCastBlock`, up to the notification of the role. -/
def processMessageBroadCastBlock (msg : Message) : NodeProc P Unit := do
  authenticate msg
  let type ← .read fun s => s.currentType
  orFail (.consensus .verifyMessage) (verifyBlock msg type)

def handler (msg : Message) : Option (NodeProc P Unit) :=
  match msg.type with
  | .consensusAnnounce => some (processMessageAnnounce msg)
  | .consensusFinalCollectiveSig => some (processMessageFinalCollectiveSig msg)
  | .consensusBroadCastBlock => some (processMessageBroadCastBlock msg)
  | _ => none

/-- `ProcessConsensusMsg`: the error of a handler is dropped. -/
def processConsensusMsg (msg : Message) (sender : PeerEndpoint) : NodeProc P Unit := do
  .ensureState (fun s => s.leader.pubkey = sender.pubkey) (.consensus .incorrectMessageSource)
  match handler msg with
  | some x => dropError x
  | none => .throw (.consensus .invalidMessage)

/-- The node handles the message to the end: nothing in it was found wrong. -/
def accepts (msg : Message) (sender : PeerEndpoint) (s : PeerServer P) : Bool :=
  s.leader.pubkey = sender.pubkey ∧ (handler msg).any fun x => (x s).1.isOk

end Okchain.Consensus
