import Okchain.Consensus.Population
import Okchain.Consensus.Restart
import Okchain.Consensus.Returns
import Okchain.Chain.Linear
import Okchain.Chain.Seal

/-! A final block that reaches a shard node, after `RoleShardingBase.ProcessFinalBlock`.

The node checks who sent the block and that the committee signed it, makes it its current one and offers it to its
chain. Whether the chain takes it is not looked at: the number of the block alone decides what the node does next.
-/
variable {role : PeerRole}

namespace Okchain.Consensus
open Lib Proc Protos List
open Chain (TxBlockChain Validator txImpl getToleranceSize)
open Server (Roles messageVerify)

variable {P : Platform}

/-! ### Shard nodes -/

/-- What a shard node can start: mining for the block of a number, or a round with its leader. -/
inductive Activity
  | mining (blockNumber : UInt64)
  | microBlockRound (leader : PeerEndpoint)
  deriving DecidableEq

/-- A node of a shard with its chain and its roles. `started` is what it has started, the latest last. -/
structure ShardNode (P : Platform) where
  peer : PeerServer P
  chain : TxBlockChain
  roles : Roles
  started : List Activity

abbrev ShardProc (P : Platform) := Proc Err (ShardNode P)

/-- What a shard node takes as given. `mine` is the configured miner and `dsHeadAfter` the DS block at the end
of mining; `initiate` is the announcement of a new leader. -/
structure ShardRules (P : Platform) extends PowRules P where
  validator : Validator
  now : Int
  mine : (seed : Bytes) → (blockNumber difficulty : UInt64) → Except Err MiningResult
  dsHeadAfter : DSBlock → DSBlock
  initiate : NodeProc P Unit

def ShardNode.view (s : ShardNode P) : PeerServer P := {s.peer with txHead := s.chain.currentBlock}

variable (X : ShardRules P)

/-! ### Checking the block -/

def verifyFinalBlockMultiSign2 (s : PeerServer P) (txBlockSign2 : TxBlockWithSig2) : Except Err Unit := do
  let sortedCommittee ← sortByPubkey P.toEnv s.dsHead.body.committee
  sig2Check P.toEnv txBlockSign2.sig2 sortedCommittee txBlockSign2.block.header.signature
    (getToleranceSize sortedCommittee.length)

/-- `TxBlockChain.InsertBlock`. -/
def ShardNode.insertBlock (txblock : TxBlock) : ShardProc P Unit := fun s =>
  let (result, chain) := Chain.insertBlock (txImpl X.validator X.now) txblock s.chain
  (orError (.consensus .insertBlock) result, {s with chain := chain})

/-- `onFinalBlockReady`: the block is the current one before the chain is asked. -/
def ShardNode.onFinalBlockReady (txblock : TxBlock) : ShardProc P Unit := do
  .update fun s => {s with peer := {s.peer with currentFinalBlock := some txblock}}
  ShardNode.insertBlock X txblock

/-! ### Mining -/

/-- The seed of `mining`. -/
def miningSeed (s : ShardNode P) : Except Err Bytes := do
  let pk ← readPub P.toEnv s.peer.selfNode.pubkey
  let dsRand ← updateDSBlockRand s.view
  let txRand ← updateTXBlockRand s.view
  return dsRand ++ txRand ++ s.peer.selfNode.address ++ X.getHexString pk ++ hexEncode s.peer.coinBase

def composePoWSubmission (s : ShardNode P) (miningResult : MiningResult) (blockNumber : UInt64) :
    Except Err PoWMessage := do
  let rand1 ← updateDSBlockRand s.view
  let rand2 ← updateTXBlockRand s.view
  return {
    blockNum := blockNumber
    nonce := miningResult.nonce
    result := some miningResult
    peer := some s.peer.selfNode
    publicKey := s.peer.selfNode.pubkey
    coinbase := s.peer.coinBase
    difficulty := s.peer.powDifficulty
    rand1 := rand1
    rand2 := rand2 }

/-- `Message_DS_PoWSubmission` with the signature of the submission's hash. -/
def poWSubmissionMessage (s : ShardNode P) (pow : PoWMessage) : Except Err Message := do
  let hash ← pow.hash P.toEnv
  return ⟨.other 101, some s.peer.clock, X.codec.marshal pow,
    P.bls.serializeSig (P.bls.sign s.peer.privateKey hash.bytes), some s.peer.selfNode⟩

/-- Submit the work, unless a DS block has come meanwhile. -/
def submitWork (curDsBlock : DSBlock) (miningResult : MiningResult) (number : UInt64) : ShardProc P Unit := do
  let s ← .read id
  if curDsBlock.numberU64 ≠ s.peer.dsHead.numberU64 then pure ()
  else
    let pow ← .lift (composePoWSubmission s miningResult number)
    let res ← .lift (poWSubmissionMessage X s pow)
    .update fun s => {s with
      peer := {s.peer with outbox := s.peer.outbox ++ [res]}
      roles := s.roles.changeState s.roles.current .waitingDSBlock}

/-- The branch of `ProcessFinalBlock` that mines. -/
def startPow (number : UInt64) : ShardProc P Unit := do
  let s ← .read id
  let seed ← .lift (miningSeed X s)
  .update fun s => {s with started := s.started ++ [.mining (number + 1)]}
  let miningResult ← .lift (orError (.consensus .mine) (X.mine seed (number + 1) s.peer.powDifficulty))
  .update fun s => {s with peer := {s.peer with dsHead := X.dsHeadAfter s.peer.dsHead}}
  submitWork X s.peer.dsHead miningResult number

/-! ### The next round -/

/-- `PeerEndpointList.Index`, which compares names; -1 is `none`. -/
def indexByName (e : PeerEndpoint) : List PeerEndpoint → Except Err (Option Nat)
  | [] => .ok none
  | peer :: list => do
    let id ← deref peer.id
    let own ← deref e.id
    if id.name = own.name then return some 0
    else return (← indexByName e list).map (· + 1)

/-- The place in its shard of the leader of the next round. -/
def roundOf (s : PeerServer P) (number : UInt64) : Nat := number.toNat % epochLength s.shardingSize s.dsHead

def targetRole (s : PeerServer P) (number : UInt64) : Except Err PeerRole := do
  let index ← indexByName s.selfNode s.shardingNodes
  return if index = some (roundOf s number) then .shardingLead else .shardingBackup

/-- `OnMircoBlockConsensusStarted` of the two roles, without the timer for a change of view. -/
def onMicroBlockConsensusStarted (role : PeerRole) (peer : PeerEndpoint) : ShardProc P Unit := do
  .update fun s => {s with
    peer := {s.peer with currentType := .microBlock}
    started := s.started ++ [.microBlockRound peer]}
  match role with
  | .shardingLead => fun s =>
    let (result, peer) := X.initiate s.peer
    (result, {s with peer := peer})
  | _ => .update fun s => {s with peer := {s.peer with leader := peer}}

/-- The branch of `ProcessFinalBlock` that begins a round. -/
def startRound (number : UInt64) : ShardProc P Unit := do
  let s ← .read id
  let role ← .lift (targetRole s.peer number)
  .update fun s => {s with roles := s.roles.changeRole role .microBlockConsensus}
  let leader ← .lift (index s.peer.shardingNodes (roundOf s.peer number))
  onMicroBlockConsensusStarted X role leader

/-! ### Processing the message -/

/-- `ProcessFinalBlock` from a checked block on. -/
def followFinalBlock (txblock : TxBlock) : ShardProc P Unit := do
  dropError (ShardNode.onFinalBlockReady X txblock)
  let s ← .read id
  match ← .lift (nextPhase s.peer.shardingSize s.peer.dsHead txblock.numberU64) with
  | .pow => startPow X txblock.numberU64
  | .microBlock => startRound X txblock.numberU64

/-- `RoleShardingBase.ProcessFinalBlock`. A block the committee has not signed is dropped without an error. -/
def processFinalBlock (pbMsg : Message) : ShardProc P Unit := do
  .lift (orError (.consensus .verifyMessage) (messageVerify P.toEnv pbMsg))
  let txBlockSign2 ← .lift (P.txBlockWithSig2.decode pbMsg.payload)
  let s ← .read id
  match verifyFinalBlockMultiSign2 s.peer txBlockSign2 with
  | .error (.panic p) => .throw (.panic p)
  | .error _ => pure ()
  | .ok _ => followFinalBlock X txBlockSign2.block

/-! ### What may be said of it -/

def Rejects (s : ShardNode P) (b : TxBlock) : Prop :=
  ∃ e, (Chain.insertBlock (txImpl X.validator X.now) b s.chain).1 = .error e ∧ Returned e

/-- The node is where it was: it has the role, state, leader and current final block it had, and has started
nothing. -/
structure Unmoved (s t : ShardNode P) : Prop where
  role : t.roles.current = s.roles.current
  state : t.roles.state t.roles.current = s.roles.state s.roles.current
  leader : t.peer.leader = s.peer.leader
  finalBlock : t.peer.currentFinalBlock = s.peer.currentFinalBlock
  started : t.started = s.started

/-- The message passes the two checks of signatures. -/
def Vouched (s : ShardNode P) (pbMsg : Message) (txBlockSign2 : TxBlockWithSig2) : Prop :=
  messageVerify P.toEnv pbMsg = .ok () ∧ verifyFinalBlockMultiSign2 s.peer txBlockSign2 = .ok ()

/-- The node panics before it starts anything, and nothing it has set by then is new. -/
def Stalls (s : ShardNode P) (b : TxBlock) : Prop :=
  s.peer.currentFinalBlock = some b ∧
    match nextPhase s.peer.shardingSize s.peer.dsHead b.numberU64 with
    | .error _ => True
    | .ok .pow => ∃ e, miningSeed X s = .error e
    | .ok .microBlock =>
      match targetRole s.peer b.numberU64 with
      | .error _ => True
      | .ok role => s.peer.shardingNodes.length ≤ roundOf s.peer b.numberU64 ∧ s.roles.current = role ∧
        s.roles.state role = some .microBlockConsensus

section Run
variable {X} {s t : ShardNode P} {b : TxBlock} {number : UInt64}

theorem Unmoved.refl (s : ShardNode P) : Unmoved s s := ⟨rfl, rfl, rfl, rfl, rfl⟩

theorem not_unmoved_of_started {a : Activity} (h : t.started = s.started ++ [a]) : ¬Unmoved s t := by
  intro hsame
  have hlength := congrArg length (h.symm.trans hsame.started)
  simp at hlength

/-! ### Mining and rounds -/

theorem startPow_seedless {e : Err} (hseed : miningSeed X s = .error e) : (startPow X number s).2 = s := by
  unfold startPow
  simp only [bind_read, id, hseed]
  rfl

theorem submitWork_started (curDsBlock : DSBlock) (result : MiningResult) :
    (submitWork X curDsBlock result number s).2.started = s.started := by
  unfold submitWork
  rw [bind_read]
  split
  · rfl
  · let Same (t : ShardNode P) : Prop := t.started = s.started
    refine state_lift_bind (P := Same) rfl fun pow _ => ?_
    exact state_lift_bind rfl fun res _ => rfl

theorem startPow_started {seed : Bytes} (hseed : miningSeed X s = .ok seed) :
    (startPow X number s).2.started = s.started ++ [.mining (number + 1)] := by
  unfold startPow
  simp only [bind_read, id, bind_lift hseed]
  let Mines (t : ShardNode P) : Prop := t.started = s.started ++ [.mining (number + 1)]
  refine state_lift_bind (P := Mines) ?_ fun result _ => ?_
  · rfl
  · exact submitWork_started ..

theorem onMicroBlockConsensusStarted_started (role : PeerRole) (peer : PeerEndpoint) :
    (onMicroBlockConsensusStarted X role peer s).2.started = s.started ++ [.microBlockRound peer] := by
  cases role <;> rfl

theorem startRound_nameless {e : Err} (hrole : targetRole s.peer number = .error e) :
    (startRound X number s).2 = s := by
  unfold startRound
  simp only [bind_read, id, hrole]
  rfl

theorem startRound_run (hrole : targetRole s.peer number = .ok role) : startRound X number s =
      (Proc.lift (index s.peer.shardingNodes (roundOf s.peer number)) >>= onMicroBlockConsensusStarted X role)
        {s with roles := s.roles.changeRole role .microBlockConsensus} := by
  unfold startRound
  simp only [bind_read, id, bind_lift hrole, bind_update]

/-! ### The refused block -/

/-- `s'` is the node `s` that has been offered the block `b` and whose chain has refused it. -/
structure Offered (s : ShardNode P) (b : TxBlock) (s' : ShardNode P) : Prop where
  peer : s'.peer = {s.peer with currentFinalBlock := some b}
  head : s'.chain.currentBlock = s.chain.currentBlock
  roles : s'.roles = s.roles
  started : s'.started = s.started

theorem dropError_rejected (h : Rejects X s b) :
    ∃ s', Offered s b s' ∧ dropError (ShardNode.onFinalBlockReady X b) s = (.ok (), s') := by
  obtain ⟨e, herror, hreturned⟩ := h
  cases hrun : Chain.insertBlock (txImpl X.validator X.now) b s.chain with
  | mk result c =>
    rw [hrun] at herror
    cases herror
    have hready : ShardNode.onFinalBlockReady X b s = (.error (e.replacedBy (.consensus .insertBlock)),
        {s with peer := {s.peer with currentFinalBlock := some b}, chain := c}) := by
      unfold ShardNode.onFinalBlockReady
      rw [bind_update]
      simp only [ShardNode.insertBlock, hrun, orError_error]
    refine ⟨{s with peer := {s.peer with currentFinalBlock := some b}, chain := c},
      ⟨rfl, (Chain.insertBlock_error hrun).2.2, rfl, rfl⟩, ?_⟩
    unfold dropError
    rw [hready]
    cases e with
    | panic p => exact absurd rfl (hreturned p)
    | _ => rfl

section Offered
variable {s' : ShardNode P} (h : Offered s b s')
include h

theorem Offered.unmoved_iff : Unmoved s s' ↔ s.peer.currentFinalBlock = some b := by
  constructor
  · intro hsame
    rw [← hsame.finalBlock, h.peer]
  · intro hcur
    exact ⟨by rw [h.roles], by rw [h.roles], by rw [h.peer], by rw [h.peer, hcur], h.started⟩

theorem Offered.miningSeed : miningSeed X s' = Consensus.miningSeed X s := by
  unfold Consensus.miningSeed ShardNode.view
  rw [h.peer, h.head]
  rfl

theorem Offered.targetRole : targetRole s'.peer number = Consensus.targetRole s.peer number := by
  rw [h.peer]
  rfl

theorem Offered.unmoved_startPow_iff : Unmoved s (startPow X number s').2 ↔
    s.peer.currentFinalBlock = some b ∧ ∃ e, Consensus.miningSeed X s = .error e := by
  cases hseed : Consensus.miningSeed X s with
  | error e =>
    rw [startPow_seedless (h.miningSeed.trans hseed), h.unmoved_iff]
    exact ⟨fun hcur => ⟨hcur, e, rfl⟩, And.left⟩
  | ok seed =>
    have hmoved : (startPow X number s').2.started = s.started ++ [.mining (number + 1)] := by
      rw [startPow_started (h.miningSeed.trans hseed), h.started]
    simp [not_unmoved_of_started hmoved]

theorem Offered.unmoved_changeRole_iff : Unmoved s {s' with roles := s'.roles.changeRole role .microBlockConsensus} ↔
      s.peer.currentFinalBlock = some b ∧ s.roles.current = role ∧
        s.roles.state role = some .microBlockConsensus := by
  rw [h.roles]
  constructor
  · intro hsame
    have hcurrent : role = s.roles.current := hsame.role
    have hstate : Function.update s.roles.state role (some .microBlockConsensus) role =
      s.roles.state s.roles.current := hsame.state
    rw [Function.update_self, ← hcurrent] at hstate
    refine ⟨?_, hcurrent.symm, hstate.symm⟩
    rw [← hsame.finalBlock, h.peer]
  · rintro ⟨hcur, rfl, hstate⟩
    refine ⟨rfl, ?_, by rw [h.peer], by rw [h.peer, hcur], h.started⟩
    show Function.update s.roles.state s.roles.current (some .microBlockConsensus) s.roles.current = _
    rw [Function.update_self, hstate]

theorem Offered.unmoved_startRound_iff (hrole : Consensus.targetRole s.peer number = .ok role) :
    Unmoved s (startRound X number s').2 ↔ s.peer.currentFinalBlock = some b ∧
      s.peer.shardingNodes.length ≤ roundOf s.peer number ∧ s.roles.current = role ∧
      s.roles.state role = some .microBlockConsensus := by
  have hnodes : s'.peer.shardingNodes = s.peer.shardingNodes := by rw [h.peer]
  have hround : roundOf s'.peer number = roundOf s.peer number := by rw [h.peer]; rfl
  rw [startRound_run (h.targetRole.trans hrole), hround, hnodes]
  by_cases hplace : roundOf s.peer number < s.peer.shardingNodes.length
  · rw [bind_lift (index_ok.mpr (getElem?_eq_getElem hplace))]
    have hmoved : (onMicroBlockConsensusStarted X role s.peer.shardingNodes[roundOf s.peer number]
        {s' with roles := s'.roles.changeRole role .microBlockConsensus}).2.started =
          s.started ++ [.microBlockRound s.peer.shardingNodes[roundOf s.peer number]] := by
      rw [onMicroBlockConsensusStarted_started, h.started]
    exact iff_of_false (not_unmoved_of_started hmoved) fun hstalls => absurd hstalls.2.1 (Nat.not_le.mpr hplace)
  · have hout : index s.peer.shardingNodes (roundOf s.peer number) = .error (.panic .indexOutOfRange) := by
      unfold index
      rw [getElem?_eq_none (Nat.not_lt.mp hplace)]
    rw [hout]
    refine Iff.trans h.unmoved_changeRole_iff ?_
    rw [and_iff_right (Nat.not_lt.mp hplace)]

end Offered

/-- From a checked block on, a refusal keeps the node only where it panics at once. -/
theorem followFinalBlock_rejected (h : Rejects X s b) : Unmoved s (followFinalBlock X b s).2 ↔ Stalls X s b := by
  obtain ⟨s', hoffered, hready⟩ := dropError_rejected h
  have hphase : nextPhase s'.peer.shardingSize s'.peer.dsHead b.numberU64 =
      nextPhase s.peer.shardingSize s.peer.dsHead b.numberU64 := by rw [hoffered.peer]
  unfold followFinalBlock Stalls
  rw [bind_run hready, bind_read, id, hphase]
  cases nextPhase s.peer.shardingSize s.peer.dsHead b.numberU64 with
  | error e => exact hoffered.unmoved_iff.trans (and_true _).symm.to_iff
  | ok phase =>
    rw [bind_lift rfl]
    cases phase with
    | pow => exact hoffered.unmoved_startPow_iff
    | microBlock =>
      cases hrole : targetRole s.peer b.numberU64 with
      | error e => simp only [startRound_nameless (hoffered.targetRole.trans hrole), hoffered.unmoved_iff, and_true]
      | ok role => exact hoffered.unmoved_startRound_iff hrole

/-! ### The message -/

variable {pbMsg : Message} {txBlockSign2 : TxBlockWithSig2}

section
variable (hblock : P.txBlockWithSig2.decode pbMsg.payload = .ok txBlockSign2)
include hblock

theorem processFinalBlock_unvouched (h : ¬Vouched s pbMsg txBlockSign2) : (processFinalBlock X pbMsg s).2 = s := by
  unfold processFinalBlock
  cases hmessage : messageVerify P.toEnv pbMsg with
  | error e =>
    rw [orError_error]
    rfl
  | ok u =>
    rw [bind_lift (orError_ok.mpr rfl), bind_lift hblock, bind_read, id]
    cases hsign2 : verifyFinalBlockMultiSign2 s.peer txBlockSign2 with
    | error e => cases e <;> rfl
    | ok u' => exact absurd ⟨hmessage, hsign2⟩ h

theorem processFinalBlock_vouched
    (h : Vouched s pbMsg txBlockSign2) : processFinalBlock X pbMsg s = followFinalBlock X txBlockSign2.block s := by
  unfold processFinalBlock
  rw [bind_lift (orError_ok.mpr h.1), bind_lift hblock, bind_read, id, h.2]

end

/-- **The refused final block theorem.** A node whose chain refuses the block of a message stays where it is
exactly when the message has not passed the checks before, or the block is its current one already and the
node panics before it starts anything. -/
theorem rejected_unmoved_iff (X : ShardRules P) (s : ShardNode P) (pbMsg : Message) (txBlockSign2 : TxBlockWithSig2)
    (hblock : P.txBlockWithSig2.decode pbMsg.payload = .ok txBlockSign2) (hrejected : Rejects X s txBlockSign2.block) :
    Unmoved s (processFinalBlock X pbMsg s).2 ↔
      ¬Vouched s pbMsg txBlockSign2 ∨ Stalls X s txBlockSign2.block := by
  by_cases hvouched : Vouched s pbMsg txBlockSign2
  · rw [processFinalBlock_vouched hblock hvouched, followFinalBlock_rejected hrejected]
    exact (or_iff_right (not_not.mpr hvouched)).symm
  · rw [processFinalBlock_unvouched hblock hvouched]
    exact iff_of_true (.refl s) (.inl hvouched)

end Run

/-! ### A shard of three -/

/-- The rules of the sample platform, with a miner that finds nothing. -/
def sampleRules : ShardRules Platform.sample where
  toPowRules := PowRules.dummy
  validator := Chain.sampleValidator
  now := 100
  mine := fun _ _ _ => .error (.consensus .mine)
  dsHeadAfter := id
  initiate := pure ()

/-- The leader of a shard of three that waits for the first final block. -/
def waitingLead : ShardNode Platform.sample where
  peer := {sampleNode 7 [] with
    shardingSize := 3
    shardingNodes := [Chain.peerWithKey 7, Chain.peerWithKey 8, Chain.peerWithKey 9]
    dsHead := epochBlock 1 [7, 8, 9]}
  chain := Chain.txGenesisChain
  roles := ⟨.shardingLead, Function.update (fun _ => none) .shardingLead (some .waitingFinalBlock)⟩
  started := []

/-- The first final block with a parent nobody has. -/
def orphan : TxBlock := {Chain.txFirst with header := {Chain.txFirst.header with
  previousBlockHash := List.replicate 32 1
  signature := [1]}}

/-- The orphan with a signature of the first member of the committee, which is enough of two. -/
def signedOrphan : TxBlockWithSig2 where
  block := orphan
  sig2 := ⟨[true, false], MultiSig.natBytes (1 * MultiSig.messageNat [1])⟩

/-- `Node_ProcessFinalBlock` with the orphan, signed with the given key in the name of node 1. -/
def orphanMessage (key : Nat) : Message where
  type := .other 203
  timestamp := some ⟨1, 1⟩
  payload := Platform.sample.txBlockWithSig2.marshal signedOrphan
  signature := MultiSig.natBytes (key * MultiSig.messageNat (Env.sample.keccak []).bytes)
  peer := some (Chain.peerWithKey 1)

theorem orphanMessage_decodes (key : Nat) :
    Platform.sample.txBlockWithSig2.decode (orphanMessage key).payload = .ok signedOrphan :=
  (Codec.numbered_roundTrip _).decode signedOrphan

theorem orphan_rejected : Rejects sampleRules waitingLead orphan := by
  have herror : (Chain.insertBlock (txImpl Chain.sampleValidator 100) orphan Chain.txGenesisChain).1 =
    .error (.chain .unknownAncestor) := by decide +kernel
  exact ⟨_, herror, returned_chain⟩

theorem orphanMessage_vouched : Vouched waitingLead (orphanMessage 1) signedOrphan :=
  ⟨(Server.messageVerify_ok_iff rfl).mpr (by decide +kernel), by decide +kernel⟩

/-- Sent under another key, the orphan leaves the node alone. -/
theorem orphan_unmoved : ∃ pbMsg, Platform.sample.txBlockWithSig2.decode pbMsg.payload = .ok signedOrphan ∧
    Rejects sampleRules waitingLead orphan ∧ Unmoved waitingLead (processFinalBlock sampleRules pbMsg waitingLead).2 := by
  refine ⟨orphanMessage 2, orphanMessage_decodes 2, orphan_rejected, ?_⟩
  refine (rejected_unmoved_iff _ _ _ _ (orphanMessage_decodes 2) orphan_rejected).mpr (.inl fun hvouched => ?_)
  exact absurd ((Server.messageVerify_ok_iff rfl).mp hvouched.1) (by decide +kernel)

/-- With the signatures in order the leader becomes a backup of the next round, whose leader it follows, though
its chain still ends with the genesis block. -/
theorem orphan_moves_node : ∃ (s t : ShardNode Platform.sample) (pbMsg : Message) (txBlockSign2 : TxBlockWithSig2),
    Platform.sample.txBlockWithSig2.decode pbMsg.payload = .ok txBlockSign2 ∧
    Rejects sampleRules s txBlockSign2.block ∧ processFinalBlock sampleRules pbMsg s = (.ok (), t) ∧
    s.roles.current = .shardingLead ∧ t.roles.current = .shardingBackup ∧
    s.roles.state .shardingLead = some .waitingFinalBlock ∧
    t.roles.state .shardingBackup = some .microBlockConsensus ∧
    t.peer.leader = Chain.peerWithKey 8 ∧ t.peer.leader ≠ s.peer.leader ∧
    s.peer.currentFinalBlock = none ∧ t.peer.currentFinalBlock = some txBlockSign2.block ∧
    s.started = [] ∧ t.started = [.microBlockRound (Chain.peerWithKey 8)] ∧ ¬Unmoved s t := by
  have hrun := processFinalBlock_vouched (X := sampleRules) (orphanMessage_decodes 1) orphanMessage_vouched
  have hok : (followFinalBlock sampleRules orphan waitingLead).1 = .ok () := by decide +kernel
  have hstarted : (followFinalBlock sampleRules orphan waitingLead).2.started =
    [.microBlockRound (Chain.peerWithKey 8)] := by decide +kernel
  refine ⟨waitingLead, _, orphanMessage 1, signedOrphan, orphanMessage_decodes 1, orphan_rejected,
    hrun.trans (Prod.ext hok rfl), rfl, by decide +kernel, by decide +kernel, by decide +kernel, by decide +kernel,
    by decide +kernel, rfl, by decide +kernel, rfl, hstarted, not_unmoved_of_started hstarted⟩

end Okchain.Consensus
