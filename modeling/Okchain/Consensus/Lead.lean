import Okchain.Consensus.Backup

/-! The leader's half of a round, after `consensus_lead.go` and `role_ds_lead.go`.

The leader announces its block and counts the responses that verify. When the count reaches the tolerance it adds up
the signatures, puts the sum into its block as the seal, and sends it back to be signed in turn; the second count ends
with the block being broadcast. A shard leader does one round only. The two sums live in package variables that
`generateBoolMap` sets back to zero.
-/
namespace Okchain.Consensus
open Lib Protos Core State
open Chain (getToleranceSize)

inductive ConsensusState
  | initial
  | announceDone
  | finalCollectiveSigDone
  | broadCastBlockDone
  deriving DecidableEq, Repr

/-- `ConsensusLead` with the node it belongs to. -/
structure ConsensusLead (P : Platform) where
  peer : PeerServer P
  shardLead : Bool
  state : ConsensusState
  counter : Nat
  toleranceSize : Int
  consensusBackupNodes : List PeerEndpoint
  publicKey2MsgMap : P.bls.PubKey → Bool
  signMap : P.bls.PubKey → Option P.bls.Sig
  pubKeyMap : P.bls.PubKey → Option P.bls.PubKey
  boolMapSign2 : BoolMapSignature
  finalBLSSign : P.bls.Sig
  gPubkey : P.bls.PubKey

variable {P : Platform}

abbrev LeadProc (P : Platform) := Proc Err (ConsensusLead P)

def onPeer {α : Type} (x : NodeProc P α) : LeadProc P α := fun s =>
  ((x s.peer).1, {s with peer := (x s.peer).2})

/-- An error makes the handler return false; a panic goes through. -/
def orFalse (x : LeadProc P Bool) : LeadProc P Bool := fun s =>
  match x s with
  | (.error (.panic p), t) => (.error (.panic p), t)
  | (.error _, t) => (.ok false, t)
  | (.ok sent, t) => (.ok sent, t)

/-! ### Counting -/

/-- A signature that verified goes into the three maps. -/
def ConsensusLead.noting (s : ConsensusLead P) (pub : P.bls.PubKey) (sign : P.bls.Sig) : ConsensusLead P :=
  {s with
    signMap := Function.update s.signMap pub (some sign)
    pubKeyMap := Function.update s.pubKeyMap pub (some pub)
    publicKey2MsgMap := Function.update s.publicKey2MsgMap pub true}

def resetMaps : LeadProc P Unit := .update fun s => {s with
  counter := 0
  publicKey2MsgMap := fun _ => false
  pubKeyMap := fun _ => none
  signMap := fun _ => none}

/-- A response with a block that has nothing but a signature in its seal. -/
def verifyResponse {B : Type} [SealedBlock B] [DecidableEq B] (slot : Slot P B) (c : Codec B) (bytes : Bytes)
    (pub : P.bls.PubKey) : LeadProc P Unit := do
  let b ← .lift (c.decode bytes)
  .ensureState (fun s => slot.get s.peer = some (withSignature b [])) (.consensus .verifyBlock)
  let sign ← .lift (readSig P.toEnv (getSeal b).signature)
  let hash ← .lift (digest P.toEnv b)
  let ret ← .lift (blsVerify P.toEnv sign pub hash.bytes)
  .ensure ret (.consensus .verifyMessage)
  .update fun s => s.noting pub sign

/-- A response with a final block carries the coinbase of its signer; the leader collects them. -/
def verifyFinalResponse (bytes : Bytes) (pub : P.bls.PubKey) : LeadProc P Unit := do
  let b ← .lift (P.txBlock.decode bytes)
  let mine ← onPeer (finalSlot P).current
  let coinbase := mine.header.dsCoinBase
  let cache ← .read fun s => s.peer.coinbaseByPubkey
  let ptocoin ← .lift (match cache (P.bls.serializePub pub) with
    | some ptocoin => .ok ptocoin
    | none => .error (.consensus .getCoinBase))
  let first ← .lift (index coinbase 0)
  onPeer ((finalSlot P).modify (withDSCoinBase · [first, ptocoin]))
  .ensureState (fun s => (finalSlot P).get s.peer = some (withSignature b [])) (.consensus .verifyBlock)
  let sign ← .lift (readSig P.toEnv b.header.signature)
  let hash ← .lift ((withDSCoinBase b [first]).mHash P.toEnv)
  let ret ← .lift (blsVerify P.toEnv sign pub hash.bytes)
  onPeer ((finalSlot P).modify (withDSCoinBase · (coinbase ++ [ptocoin])))
  .ensure ret (.consensus .verifyMessage)
  .update fun s => s.noting pub sign

def verifyAndUpdate (msg : Message) (type : ConsensusType) : LeadProc P Unit := do
  let peer ← .lift (deref msg.peer)
  let pub ← .lift (readPub P.toEnv peer.pubkey)
  let payload ← .lift (P.payload.decode msg.payload)
  match type with
  | .dsBlock => verifyResponse (dsSlot P) P.dsBlock payload.msg pub
  | .finalBlock => verifyFinalResponse payload.msg pub
  | .microBlock => verifyResponse (microSlot P) P.microBlock payload.msg pub
  | .viewChange => verifyResponse (vcSlot P) P.vcBlock payload.msg pub
  | .unknown _ => .throw (.consensus .verifyMessage)

/-- The seal of the current block, in a round of the DS committee. -/
def currentSeal (type : ConsensusType) : NodeProc P Seal :=
  match type with
  | .dsBlock => do return getSeal (← (dsSlot P).current)
  | .finalBlock => do return getSeal (← (finalSlot P).current)
  | .viewChange => do return getSeal (← (vcSlot P).current)
  | _ => .throw (.consensus .cannotProcessType)

def verifySig2AndUpdate (msg : Message) (type : ConsensusType) : LeadProc P Unit := do
  let committee ← onPeer (inCommittee type)
  .ensure committee (.consensus .cannotProcessType)
  let peer ← .lift (deref msg.peer)
  let pub ← .lift (readPub P.toEnv peer.pubkey)
  let payload ← .lift (P.payload.decode msg.payload)
  let sign ← .lift (orError (.consensus .deserializeSign2) (deserializeSig P.toEnv payload.msg))
  let current ← onPeer (currentSeal type)
  let ret ← .lift (blsVerify P.toEnv sign pub current.signature)
  .ensure ret (.consensus .verifyMessage)
  .update fun s => s.noting pub sign

/-! ### Adding up -/

def pick {α : Type} (f : ConsensusLead P → Option α) : LeadProc P α := fun s => (deref (f s), s)

/-- Add the signature and the key of a member to the running sums. -/
def addVote (key : P.bls.PubKey) : LeadProc P Unit := do
  let sign ← pick fun s => s.signMap key
  .update fun s => {s with finalBLSSign := s.finalBLSSign + sign}
  let pub ← pick fun s => s.pubKeyMap key
  .update fun s => {s with gPubkey := s.gPubkey + pub}

/-- The loop of `generateBoolMap`. -/
def collect : List PeerEndpoint → LeadProc P (List Bool)
  | [] => pure []
  | p :: ps => do
    let key ← .lift (deserializePub P.toEnv p.pubkey)
    let voted ← .read fun s => s.publicKey2MsgMap key
    let bits ← if voted then addVote key >>= fun _ => collect ps else collect ps
    pure (voted :: bits)

def sealCurrent (type : ConsensusType) (blockSeal : Seal) : NodeProc P Unit :=
  match type with
  | .dsBlock => (dsSlot P).modify (withSeal · blockSeal)
  | .finalBlock => (finalSlot P).modify (withSeal · blockSeal)
  | .microBlock => (microSlot P).modify (withSeal · blockSeal)
  | .viewChange => (vcSlot P).modify (withSeal · blockSeal)
  | .unknown _ => pure ⟨⟩

def members (type : ConsensusType) : NodeProc P (List PeerEndpoint) := do
  let committee ← inCommittee type
  if committee then committeeSort
  else match type with
    | .unknown _ => pure []
    | _ => .read fun s => s.shardingNodes

def generateBoolMap (type : ConsensusType) : LeadProc P Unit := do
  let boolMap ← collect (← onPeer (members type))
  let blockSeal ← .read fun s => ⟨boolMap, P.bls.serializeSig s.finalBLSSign, P.bls.serializePub s.gPubkey⟩
  onPeer (sealCurrent type blockSeal)
  .update fun s => {s with finalBLSSign := 0, gPubkey := 0}

/-- The second round adds up signatures only, in a variable of its own. -/
def collectSig2 : List PeerEndpoint → LeadProc P (List Bool × P.bls.Sig)
  | [] => pure ([], 0)
  | p :: ps => do
    let key ← .lift (deserializePub P.toEnv p.pubkey)
    let voted ← .read fun s => s.publicKey2MsgMap key
    if voted then
      let sign ← pick fun s => s.signMap key
      let (bits, sum) ← collectSig2 ps
      pure (true :: bits, sign + sum)
    else
      let (bits, sum) ← collectSig2 ps
      pure (false :: bits, sum)

/-! ### Messages of the leader -/

def composeFinalCollectiveSig (type : ConsensusType) : NodeProc P Message := do
  let blockSig1 ← match type with
    | .dsBlock | .finalBlock | .viewChange => do
      let current ← currentSeal type
      pure (P.boolMapSignature.marshal ⟨current.boolMap, current.signature⟩)
    | _ => pure []
  signedMessage .consensusFinalCollectiveSig (consensusPayload P type blockSig1)

/-- `composeBroadCastBlock`. The state root and the gas used of a final block are computed only here. -/
def composeBroadCastBlock (boolMap : List Bool) (multipleSig2 : Option P.bls.Sig) (shardLead : Bool)
    (type : ConsensusType) : NodeProc P Message := do
  let sig2 : NodeProc P BoolMapSignature := do
    let sig ← .lift (deref multipleSig2)
    pure ⟨boolMap, P.bls.serializeSig sig⟩
  let block ← match type with
    | .dsBlock => do
      let b ← (dsSlot P).current
      pure (P.dsBlockWithSig2.marshal ⟨b, ← sig2⟩)
    | .finalBlock => do
      let b ← (finalSlot P).current
      let headState ← .read fun s => s.headState
      let (root, gasUsed) ← .lift (calStateRoot P.toMachine headState b)
      (finalSlot P).modify fun b => {b with header := {b.header with
        stateRoot := root.bytes, gasUsed := gasUsed}}
      let b ← (finalSlot P).current
      pure (P.txBlockWithSig2.marshal ⟨b, ← sig2⟩)
    | .microBlock => do
      let b ← (microSlot P).current
      pure (P.microBlock.marshal b)
    | .viewChange => do
      let b ← (vcSlot P).current
      if shardLead then pure (P.vcBlock.marshal b) else pure (P.vcBlockWithSig2.marshal ⟨b, ← sig2⟩)
    | .unknown _ => pure []
  signedMessage .consensusBroadCastBlock (consensusPayload P type block)

/-! ### The handlers -/

/-- What both handlers do with a response. One that meets another state is left alone; one that is found good is
counted, and `rest` follows when the count is complete. The result says whether a message went out. -/
def counting (curState : ConsensusState) (check : ConsensusType → LeadProc P Unit)
    (rest : ConsensusType → LeadProc P Bool) : LeadProc P Bool := orFalse do
  let state ← .read fun s => s.state
  if state ≠ curState then pure false
  else
    let type ← .read fun s => s.peer.currentType
    check type
    .update fun s => {s with counter := s.counter + 1}
    let enough ← .read fun s => decide ((s.counter : Int) = s.toleranceSize)
    if !enough then pure false else rest type

/-- The end of both: the leader moves on and the composed message goes out. -/
def sendOut (compose : NodeProc P Message) (move : ConsensusLead P → ConsensusLead P) : LeadProc P Bool := do
  let reply ← onPeer compose
  .update move
  onPeer (send reply)
  pure true

def handleResponse (next : ConsensusState) (msg : Message) : LeadProc P Bool :=
  counting .announceDone (verifyAndUpdate msg) fun type => do
    generateBoolMap type
    let shardLead ← .read fun s => s.shardLead
    sendOut (if shardLead then composeBroadCastBlock [] none shardLead type else composeFinalCollectiveSig type)
      fun s => {s with counter := 0, state := next}

def handleFinalResponse (msg : Message) : LeadProc P Bool :=
  counting .finalCollectiveSigDone (verifySig2AndUpdate msg) fun type => do
    let (boolMap, multipleSig2) ← collectSig2 (← onPeer committeeSort)
    let shardLead ← .read fun s => s.shardLead
    sendOut (composeBroadCastBlock boolMap (some multipleSig2) shardLead type) fun s => {s with
      counter := 0
      state := .broadCastBlockDone
      boolMapSign2 := ⟨boolMap, P.bls.serializeSig multipleSig2⟩}

/-- A response is authenticated and handled, up to the notification of the role. -/
def answering (msg : Message) (handle : LeadProc P Bool) : LeadProc P Unit := do
  onPeer (authenticate msg)
  let sent ← handle
  if sent then resetMaps else pure ⟨⟩

def processMessageResponse (msg : Message) : LeadProc P Unit := answering msg do
  let shardLead ← .read fun s => s.shardLead
  handleResponse (if shardLead then .broadCastBlockDone else .finalCollectiveSigDone) msg

def processMessageFinalResponse (msg : Message) : LeadProc P Unit := answering msg (handleFinalResponse msg)

/-- `ConsensusLead.ProcessConsensusMsg`: the error of a handler is dropped. -/
def ConsensusLead.processConsensusMsg (msg : Message) (sender : PeerEndpoint) : LeadProc P Unit := do
  .ensureState (fun s => s.consensusBackupNodes.any fun p => p.pubkey = sender.pubkey)
    (.consensus .incorrectMessageSource)
  match msg.type with
  | .consensusResponse => dropError (processMessageResponse msg)
  | .consensusFinalResponse => dropError (processMessageFinalResponse msg)
  | _ => .throw (.consensus .invalidMessage)

/-! ### Starting a round -/

def newConsensusLead (peer : PeerServer P) (shardLead : Bool) : ConsensusLead P where
  peer := peer
  shardLead := shardLead
  state := .initial
  counter := 0
  toleranceSize := 0
  consensusBackupNodes := []
  publicKey2MsgMap := fun _ => false
  signMap := fun _ => none
  pubKeyMap := fun _ => none
  boolMapSign2 := ⟨[], []⟩
  finalBLSSign := 0
  gPubkey := 0

def enqueueAndDequeueTail (nodes : List PeerEndpoint) (p : PeerEndpoint) : List PeerEndpoint :=
  if 1 < nodes.length then p :: nodes.dropLast else [p]

/-- The peers of the PoW submissions at the given places. -/
def submitters (pows : List PoWSubmission) : List Nat → Except Err (List PeerEndpoint)
  | [] => .ok []
  | i :: rest => do
    let pow ← deref pows[i]?
    let peer ← deref pow.peer
    return peer :: (← submitters pows rest)

/-- `composeDSBlock`. The committee's last member makes room for the winner and becomes the first
sharding node. -/
def composeDSBlock (s : PeerServer P) : Except Err DSBlock :=
  match s.poWSubList with
  | [] => .error (.consensus .emptyPoWList)
  | pow :: _ => do
    let previous ← s.dsHead.hash P.toEnv
    let winner ← deref pow.peer
    if s.shardingSize = 0 then .error (.panic .divisionByZero)
    else
      let pows := s.poWSubList.length
      let numOfSharding := pows / s.shardingSize
      let shardingNodesTotal := numOfSharding * s.shardingSize
      let last ← index s.committee.reverse 0
      let rest ← submitters s.poWSubList
        ((List.range (if shardingNodesTotal ≠ 0 then shardingNodesTotal else pows)).drop 1)
      let header : DSBlockHeader := {
        version := 1
        timestamp := some s.clock
        previousBlockHash := previous.bytes
        shardingSum := if numOfSharding = 0 then 1 else UInt32.ofNat numOfSharding
        winnerPubKey := pow.publicKey
        winnerNonce := pow.nonce
        blockNumber := s.dsHead.numberU64 + 1
        powDifficulty := s.powDifficulty
        powSubmissionNum := UInt64.ofNat pows
        newLeader := pow.peer
        miner := some s.selfNode
        boolMap := [], signature := [], multiPubKey := []}
      let hash ← header.hash P.toEnv
      return ⟨header, last :: rest, enqueueAndDequeueTail s.committee winner, hash.bytes⟩

/-- `produceAnnounce` for a DS block, which becomes the current one. -/
def announceDSBlock : NodeProc P Message := do
  let s ← .read id
  let b ← .lift (orError (.consensus .handleInCurrentState) (composeDSBlock s))
  .update ((dsSlot P).set b)
  signedMessage .consensusAnnounce (consensusPayload P .dsBlock (P.dsBlock.marshal b))

/-- `InitiateConsensus`. The response maps are left as they are. -/
def initiateConsensus (announce : Message) (nodes : List PeerEndpoint) : LeadProc P Unit := do
  .update fun s => {s with
    state := .announceDone
    counter := 0
    consensusBackupNodes := nodes
    toleranceSize := getToleranceSize nodes.length}
  onPeer (send announce)

/-- `onDsBlockConsensusStart`, without the wait. -/
def onDsBlockConsensusStart : LeadProc P Unit := do
  let announce ← onPeer announceDSBlock
  .update fun s => {s with peer := {s.peer with currentType := .dsBlock}}
  let committee ← .read fun s => s.peer.committee
  initiateConsensus announce committee

end Okchain.Consensus
