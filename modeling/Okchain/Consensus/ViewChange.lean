import Okchain.Consensus.Lead

/-! View changes, after `consense_handler.go`, `role_base.go` and the roles.

A node whose timer runs out looks up the next leader. If it is that leader itself it announces a VC block, otherwise it
becomes a backup and composes a VC block of its own to check the announced one. In the DS committee both also move
the first member to the end. The next leader is looked up before the rotation, after it, and again when the announced
block is checked.
-/
namespace Okchain.Consensus
open Lib Protos

/-- `PeerRole_Type`. -/
inductive PeerRole
  | idle
  | dsLead
  | dsBackup
  | shardingBackup
  | shardingLead
  | lookup
  deriving DecidableEq, Repr

/-- A node with its two leaders, the last stage its `ConsensusHandler` keeps, and its role. The leaders work
on `peer`; the copies in them are set when they run. -/
structure Node (P : Platform) where
  peer : PeerServer P
  dsConsensusLeader : ConsensusLead P
  consensusLeader : ConsensusLead P
  lastStageType : ConsensusType
  role : PeerRole

variable {P : Platform}

abbrev RoleProc (P : Platform) := Proc Err (Node P)

def onNode {α : Type} (x : NodeProc P α) : RoleProc P α := fun n =>
  ((x n.peer).1, {n with peer := (x n.peer).2})

def onDsLead {α : Type} (x : LeadProc P α) : RoleProc P α := fun n =>
  let r := x {n.dsConsensusLeader with peer := n.peer}
  (r.1, {n with peer := r.2.peer, dsConsensusLeader := r.2})

def onShardLead {α : Type} (x : LeadProc P α) : RoleProc P α := fun n =>
  let r := x {n.consensusLeader with peer := n.peer}
  (r.1, {n with peer := r.2.peer, consensusLeader := r.2})

/-! ### VC blocks -/

/-- What both kinds of roles put into a VC block. -/
def newVCBlock (s : PeerServer P) : Except Err VCBlock := do
  let newLeader ← getNewLeader P s
  return ⟨{
    timestamp := some s.clock
    viewChangeDSNo := s.dsHead.numberU64
    viewChangeTXNo := s.txHead.numberU64
    newLeader := newLeader
    stage := consensusTypeName s.lastStage
    boolMap := [], signature := [], multiPubKey := []}⟩

/-- `RoleDsBase.composeVCBlock`. -/
def composeVCBlock (s : PeerServer P) : Except Err VCBlock :=
  if s.committee.length < 2 then .error (.consensus .notEnoughBackups) else newVCBlock s

/-- Compose a VC block that becomes the current one. -/
def holdVCBlock (compose : PeerServer P → Except Err VCBlock) (e : Err) : NodeProc P VCBlock := do
  let s ← .read id
  let b ← .lift (orError e (compose s))
  .update ((vcSlot P).set b)
  pure b

/-- `produceAnnounce` for a VC block. -/
def announceVCBlock (compose : PeerServer P → Except Err VCBlock) : NodeProc P Message := do
  let b ← holdVCBlock compose (.consensus .handleInCurrentState)
  signedMessage .consensusAnnounce (consensusPayload P .viewChange (P.vcBlock.marshal b))

/-! ### The roles -/

def setStage (type : ConsensusType) : NodeProc P Unit := .update fun s => {s with currentType := type}

/-- The first member of the committee goes to its end. -/
def rotateCommittee : NodeProc P Unit := do
  let committee ← .read fun s => s.committee
  match committee with
  | [] => .throw (.panic .indexOutOfRange)
  | first :: rest => .update fun s => {s with committee := rest ++ [first]}

/-- `UpdateLeader(GetNewLeader(..))`. There is a leader: the caller has read its key. -/
def followNewLeader : NodeProc P Unit := do
  let s ← .read id
  let leader ← .lift (do deref (← getNewLeader P s))
  .update fun s => {s with leader := leader}

/-- `RoleDsBackup.OnViewChangeConsensusStarted`. -/
def dsBackupStarted : NodeProc P Unit := do
  setStage .viewChange
  followNewLeader
  rotateCommittee
  let _ ← holdVCBlock composeVCBlock (.consensus .composeBlock)
  pure ()

/-- `RoleDsLead.OnViewChangeConsensusStarted`, without the wait. -/
def dsLeadStarted : LeadProc P Unit := do
  onPeer rotateCommittee
  onPeer (setStage .viewChange)
  let announce ← onPeer (announceVCBlock composeVCBlock)
  let committee ← .read fun s => s.peer.committee
  initiateConsensus announce committee

/-- `RoleShardingBackup.OnViewChangeConsensusStarted`. -/
def shardingBackupStarted : NodeProc P Unit := do
  setStage .viewChange
  followNewLeader
  let _ ← holdVCBlock newVCBlock (.consensus .composeBlock)
  pure ()

/-- `RoleShardingLead.OnViewChangeConsensusStarted`, without the wait. -/
def shardingLeadStarted : LeadProc P Unit := do
  onPeer (setStage .viewChange)
  let announce ← onPeer (announceVCBlock newVCBlock)
  let shardingNodes ← .read fun s => s.peer.shardingNodes
  initiateConsensus announce shardingNodes

/-! ### Starting a view change -/

def changeRole (role : PeerRole) : RoleProc P Unit := .update fun n => {n with role := role}

/-- Become the leader or a backup of the view change. -/
def takeRole (leading : Bool) : ConsensusType → RoleProc P Unit
  | .dsBlock | .finalBlock =>
    if leading then do
      changeRole .dsLead
      onDsLead dsLeadStarted
    else do
      changeRole .dsBackup
      onNode dsBackupStarted
  | .microBlock =>
    if leading then do
      changeRole .shardingLead
      onShardLead shardingLeadStarted
    else do
      changeRole .shardingBackup
      onNode shardingBackupStarted
  | _ => pure ()

def RoleBase.startViewChange (currentStage lastStage : ConsensusType) : RoleProc P Unit := do
  onNode (.update fun s => {s with currentStage := currentStage, lastStage := lastStage})
  let s ← .read fun n => n.peer
  let newLeader ← .lift (do deref (← getNewLeader P s))
  takeRole (newLeader.pubkey = s.selfNode.pubkey) lastStage

/-- `ConsensusHandler.StartViewChange`, run when the timer of a round runs out. -/
def startViewChange : RoleProc P Unit := do
  .update fun n => {n with
    lastStageType := if n.peer.currentType ≠ .viewChange then n.peer.currentType else n.lastStageType}
  let n ← .read id
  RoleBase.startViewChange n.peer.currentType n.lastStageType

def Node.currentLeader (n : Node P) : PeerEndpoint :=
  if n.role = .dsLead ∨ n.role = .shardingLead then n.peer.selfNode else n.peer.leader

end Okchain.Consensus
