import Okchain.Consensus.ViewChange

/-! How a message finds its handler, after `peer_handler.go`, the states and the roles.

A message goes from the connection to the current role, from there to the state of the role, and from the state to a
method of the role. The states of a consensus share one routine that sends finished blocks back to the role, which asks
its state again. A method a role does not declare is the one of the struct it embeds, and the outermost, `RoleBase`,
declares every method as a stub that panics. The sender is nil before the connection has heard a hello.
-/
namespace Okchain.Server
open Protos List
open Consensus (PeerRole)

/-! ### Messages -/

/-- The types of messages the dispatch tells apart. -/
inductive Kind
  | hello
  | register
  | setPrimary
  | poWSubmission
  | microblockSubmission
  | startPoW
  | dsBlock
  | finalBlock
  | revertState
  | newAdd
  | consensus
  | other
  deriving DecidableEq, Repr

/-- The numbers of the message types; 301 to 310 are those of the consensus. -/
def kindOfCode (code : Int) : Kind :=
  if code = 0 then .hello
  else if code = 2 then .register
  else if code = 100 then .setPrimary
  else if code = 101 then .poWSubmission
  else if code = 103 then .microblockSubmission
  else if code = 200 then .startPoW
  else if code = 201 then .dsBlock
  else if code = 203 then .finalBlock
  else if code = 207 then .revertState
  else if code = 208 then .newAdd
  else if 301 ≤ code ∧ code ≤ 310 then .consensus
  else .other

def kind (type : MessageType) : Kind := kindOfCode type.code

/-! ### Roles -/

inductive RoleType
  | roleBase
  | roleDsBase
  | roleShardingBase
  | roleIdle
  | roleDsLead
  | roleDsBackup
  | roleShardingBackup
  | roleShardingLead
  | roleLookup
  deriving DecidableEq, Repr

def RoleType.embeds : RoleType → Option RoleType
  | .roleBase => none
  | .roleDsBase | .roleShardingBase | .roleLookup => some .roleBase
  | .roleIdle | .roleShardingBackup | .roleShardingLead => some .roleShardingBase
  | .roleDsLead | .roleDsBackup => some .roleDsBase

def roleType : PeerRole → RoleType
  | .idle => .roleIdle
  | .dsLead => .roleDsLead
  | .dsBackup => .roleDsBackup
  | .shardingBackup => .roleShardingBackup
  | .shardingLead => .roleShardingLead
  | .lookup => .roleLookup

inductive Method
  | processConsensusMsg
  | processDSBlock
  | processFinalBlock
  | processPoWSubmission
  | processMicroBlockSubmission
  | processSetPrimary
  | processStartPoW
  | processNewAdd
  | processRegister
  deriving DecidableEq, Repr

def RoleType.declares : RoleType → Method → Bool
  | .roleBase, _ => true
  | .roleDsBase, .processPoWSubmission | .roleDsBase, .processMicroBlockSubmission => true
  | .roleShardingBase, .processDSBlock | .roleShardingBase, .processFinalBlock => true
  | .roleIdle, .processDSBlock | .roleIdle, .processFinalBlock | .roleIdle, .processSetPrimary
  | .roleIdle, .processStartPoW | .roleIdle, .processNewAdd => true
  | .roleDsLead, .processConsensusMsg | .roleDsBackup, .processConsensusMsg => true
  | .roleShardingBackup, .processConsensusMsg | .roleShardingLead, .processConsensusMsg => true
  | .roleLookup, .processDSBlock | .roleLookup, .processFinalBlock | .roleLookup, .processRegister => true
  | _, _ => false

/-- The struct whose method is run; no struct is more than two below `RoleBase`. -/
def RoleType.promoted (t : RoleType) (m : Method) : RoleType :=
  if t.declares m then t
  else match t.embeds with
    | none => t
    | some u => if u.declares m then u else u.embeds.getD u

/-! ### States -/

inductive StateType
  | dsIdle
  | wait4PoWSubmission
  | dsBlockConsensusPrep
  | dsBlockConsensus
  | wait4MicroBlockSubmission
  | finalBlockConsensusPrep
  | finalBlockConsensus
  | viewChangeConsensusPrep
  | viewChangeConsensus
  | shardingIdle
  | poWSubmission
  | waitingDSBlock
  | microBlockConsensusPrep
  | microBlockConsensus
  | waitingFinalBlock
  | fallbackConsensusPrep
  | fallbackConsensus
  | waitingFallbackBlock
  | idle
  | lookup
  deriving DecidableEq, Repr

/-! ### Senders -/

/-- A peer that has introduced itself; its hello is not accepted without a name. -/
abbrev NamedPeer := {p : PeerEndpoint // p.id.isSome}

inductive Crash
  | nilSender
  | nilPointer
  deriving DecidableEq, Repr

def sender : Option NamedPeer → Except Crash NamedPeer
  | some p => .ok p
  | none => .error .nilSender

def peerId (p : PeerEndpoint) : Except Crash PeerID :=
  match p.id with
  | some id => .ok id
  | none => .error .nilPointer

/-- `PeerEndpointList.Has`. -/
def has : List PeerEndpoint → Option NamedPeer → Except Crash Bool
  | [], _ => .ok false
  | p :: ps, e => do
    let peer ← sender e
    if p.pubkey = peer.val.pubkey then return true else has ps e

/-- `PeerEndpointList.Index`. -/
def indexOf : List (Option NamedPeer) → Option NamedPeer → Except Crash (Option Nat)
  | [], _ => .ok none
  | p :: ps, e => do
    let entry ← peerId (← sender p).val
    let peer ← peerId (← sender e).val
    if entry.name = peer.name then return some 0 else return (← indexOf ps e).map (· + 1)

/-- `ConsensusBackup.ProcessConsensusMsg` up to the handler of the type. -/
def backupOpening (leader : PeerEndpoint) (source : Option NamedPeer) : Except Crash Bool := do
  let peer ← sender source
  if leader.pubkey = peer.val.pubkey then return true
  else
    let _ ← peerId leader
    let _ ← peerId peer.val
    return false

/-- `ConsensusLead.ProcessConsensusMsg` up to the handler of the type. -/
def leadOpening (consensusBackupNodes : List PeerEndpoint) (source : Option NamedPeer) : Except Crash Bool := do
  if ← has consensusBackupNodes source then return true
  else
    let _ ← peerId (← sender source).val
    return false

/-- `informNewNode`, `informDsBackup` and `informSharding` send to the peer by its name. -/
def inform (source : Option NamedPeer) : Except Crash Unit := do
  let _ ← peerId (← sender source).val
  return ()

/-- `RoleLookup.ProcessRegister`, with the messages it sends left out. -/
def processRegister (rps : List NamedPeer) (shardingSize dsSize : Nat) (source : Option NamedPeer) :
    Except Crash Unit := do
  let known ← indexOf (rps.map some) source
  if known = none ∧ rps.length = shardingSize + dsSize then inform source
  else
    let place ← indexOf (if known = none then rps.map some ++ [source] else rps.map some) source
    match place with
    | some i => if i < shardingSize + dsSize then inform source else return ()
    | none => return ()

/-! ### Dispatch -/

/-- What of a node the dispatch reads: the current role and its state, the leader of a backup, the nodes a
leader listens to, and the peers a lookup node has registered. -/
structure Dispatcher where
  role : PeerRole
  state : StateType
  leader : PeerEndpoint
  consensusBackupNodes : List PeerEndpoint
  rps : List NamedPeer
  shardingSize : Nat
  dsSize : Nat

inductive Outcome
  | handled (t : RoleType) (m : Method)
  | greeted
  | reverted
  | dropped
  | stub
  | nilSender
  deriving DecidableEq, Repr

inductive Call
  | roleProcessMsg
  | stateProcessMsg
  | stateProcessConsensusMsg
  | invoke (m : Method)
  deriving DecidableEq, Repr

inductive Step
  | next (c : Call)
  | done (o : Outcome)
  deriving DecidableEq, Repr

/-- What a handler does with its sender before anything else. -/
def opening (d : Dispatcher) (source : Option NamedPeer) : RoleType → Method → Except Crash Unit
  | .roleDsLead, .processConsensusMsg | .roleShardingLead, .processConsensusMsg =>
    (leadOpening d.consensusBackupNodes source).map fun _ => ()
  | .roleDsBackup, .processConsensusMsg | .roleShardingBackup, .processConsensusMsg =>
    (backupOpening d.leader source).map fun _ => ()
  | .roleLookup, .processRegister => processRegister d.rps d.shardingSize d.dsSize source
  | _, _ => .ok ()

/-- The methods of the states. A state without one has that of `StateBase`, which panics. -/
def stateProcessMsg : StateType → Kind → Step
  | .dsBlockConsensus, _ | .finalBlockConsensus, _ => .next .stateProcessConsensusMsg
  | .viewChangeConsensus, .dsBlock | .microBlockConsensus, .dsBlock => .next (.invoke .processDSBlock)
  | .viewChangeConsensus, .finalBlock | .microBlockConsensus, .finalBlock => .next (.invoke .processFinalBlock)
  | .viewChangeConsensus, _ | .microBlockConsensus, _ => .next .stateProcessConsensusMsg
  | .dsIdle, .revertState | .shardingIdle, .revertState => .done .reverted
  | .dsIdle, _ | .shardingIdle, _ => .done .dropped
  | .wait4PoWSubmission, .poWSubmission => .next (.invoke .processPoWSubmission)
  | .wait4PoWSubmission, _ => .done .dropped
  | .wait4MicroBlockSubmission, .microblockSubmission => .next (.invoke .processMicroBlockSubmission)
  | .wait4MicroBlockSubmission, _ => .done .dropped
  | .waitingDSBlock, .dsBlock => .next (.invoke .processDSBlock)
  | .waitingDSBlock, _ => .done .dropped
  | .waitingFinalBlock, .finalBlock => .next (.invoke .processFinalBlock)
  | .waitingFinalBlock, _ => .done .dropped
  | .idle, .finalBlock | .lookup, .finalBlock => .next (.invoke .processFinalBlock)
  | .idle, .dsBlock | .lookup, .dsBlock => .next (.invoke .processDSBlock)
  | .idle, .setPrimary => .next (.invoke .processSetPrimary)
  | .idle, .startPoW => .next (.invoke .processStartPoW)
  | .idle, .newAdd => .next (.invoke .processNewAdd)
  | .lookup, .register => .next (.invoke .processRegister)
  | .idle, _ | .lookup, _ => .done .dropped
  | _, _ => .done .stub

/-- `StateBase.processConsensusMsg`. -/
def stateProcessConsensusMsg : Kind → Step
  | .consensus => .next (.invoke .processConsensusMsg)
  | .dsBlock | .finalBlock => .next .roleProcessMsg
  | _ => .done .dropped

def invoke (d : Dispatcher) (source : Option NamedPeer) (m : Method) : Outcome :=
  let t := (roleType d.role).promoted m
  if t = .roleBase then .stub
  else match opening d source t m with
    | .error .nilSender => .nilSender
    | _ => .handled t m

def dispatchStep (d : Dispatcher) (k : Kind) (source : Option NamedPeer) : Call → Step
  | .roleProcessMsg => .next .stateProcessMsg
  | .stateProcessMsg => stateProcessMsg d.state k
  | .stateProcessConsensusMsg => stateProcessConsensusMsg k
  | .invoke m => .done (invoke d source m)

/-- At most `fuel` calls. -/
def dispatch (d : Dispatcher) (k : Kind) (source : Option NamedPeer) : Nat → Call → Option Outcome
  | 0, _ => none
  | fuel + 1, c => match dispatchStep d k source c with
    | .next c' => dispatch d k source fuel c'
    | .done o => some o

/-- A connection: whether the peers have said hello, and who the other is. -/
structure Connection where
  established : Bool
  toPeerEndpoint : Option NamedPeer

/-- `HandleMessage`. A second hello is refused by the connection. -/
def handleMessage (d : Dispatcher) (conn : Connection) (type : MessageType) (fuel : Nat) : Option Outcome :=
  if kind type = .hello then some (if conn.established then .dropped else .greeted)
  else dispatch d (kind type) conn.toPeerEndpoint fuel .roleProcessMsg

/-! ### The states a role can be in -/

/-- The current role, and the state each role object has been put into. -/
structure Roles where
  current : PeerRole
  state : PeerRole → Option StateType

/-- `PeerServer.ChangeRole`; no role refuses a state. -/
def Roles.changeRole (r : Roles) (role : PeerRole) (state : StateType) : Roles :=
  ⟨role, Function.update r.state role (some state)⟩

/-- `RoleBase.ChangeState` of a role object, which need not be the current one. -/
def Roles.changeState (r : Roles) (role : PeerRole) (state : StateType) : Roles :=
  {r with state := Function.update r.state role (some state)}

/-- The arguments of all calls of `ChangeRole` after the start. -/
def changeRoleCalls : List (PeerRole × StateType) :=
  [(.dsLead, .wait4MicroBlockSubmission), (.dsLead, .wait4PoWSubmission), (.dsLead, .viewChangeConsensus),
   (.dsBackup, .wait4MicroBlockSubmission), (.dsBackup, .wait4PoWSubmission), (.dsBackup, .viewChangeConsensus),
   (.shardingLead, .microBlockConsensus), (.shardingLead, .waitingDSBlock),
   (.shardingLead, .viewChangeConsensus),
   (.shardingBackup, .microBlockConsensus), (.shardingBackup, .waitingDSBlock),
   (.shardingBackup, .viewChangeConsensus),
   (.idle, .idle)]

/-- The arguments of all calls of `ChangeState` in the methods of the roles. -/
def changeStateCalls : List (PeerRole × StateType) :=
  [(.dsLead, .dsBlockConsensus), (.dsLead, .finalBlockConsensus), (.dsLead, .wait4PoWSubmission),
   (.dsLead, .wait4MicroBlockSubmission),
   (.dsBackup, .dsBlockConsensus), (.dsBackup, .finalBlockConsensus), (.dsBackup, .wait4PoWSubmission),
   (.dsBackup, .wait4MicroBlockSubmission),
   (.shardingLead, .microBlockConsensus), (.shardingLead, .waitingFinalBlock), (.shardingLead, .waitingDSBlock),
   (.shardingBackup, .microBlockConsensus), (.shardingBackup, .waitingFinalBlock),
   (.shardingBackup, .waitingDSBlock)]

/-- What the roles of a node can come to: it starts idle or as a lookup node, and the calls come in any
order. -/
inductive Roles.Reachable : Roles → Prop
  | start : Reachable ⟨.idle, Function.update (fun _ => none) .idle (some .idle)⟩
  | lookup : Reachable (Roles.changeRole ⟨.idle, Function.update (fun _ => none) .idle (some .idle)⟩
      .lookup .lookup)
  | changeRole {r : Roles} {role : PeerRole} {state : StateType} (h : Reachable r)
    (hcall : (role, state) ∈ changeRoleCalls) : Reachable (r.changeRole role state)
  | changeState {r : Roles} {role : PeerRole} {state : StateType} (h : Reachable r)
    (hcall : (role, state) ∈ changeStateCalls) : Reachable (r.changeState role state)

def statesOf : PeerRole → List StateType
  | .idle => [.idle]
  | .dsLead | .dsBackup => [.wait4PoWSubmission, .dsBlockConsensus, .wait4MicroBlockSubmission,
      .finalBlockConsensus, .viewChangeConsensus]
  | .shardingBackup | .shardingLead =>
    [.waitingDSBlock, .microBlockConsensus, .waitingFinalBlock, .viewChangeConsensus]
  | .lookup => [.lookup]

variable {role : PeerRole} {d : Dispatcher} {k : Kind}

theorem update_mem_statesOf {state : PeerRole → Option StateType} {target : StateType}
    (h : ∀ r s, state r = some s → s ∈ statesOf r) (htarget : target ∈ statesOf role) (r : PeerRole)
    (s : StateType) (hs : Function.update state role (some target) r = some s) : s ∈ statesOf r := by
  by_cases hr : r = role
  · subst hr
    rw [Function.update_self] at hs
    exact Option.some.inj hs ▸ htarget
  · rw [Function.update_of_ne hr] at hs
    exact h r s hs

/-- A role object is only ever put into states of its role. -/
theorem Roles.Reachable.mem_statesOf {r : Roles} (h : r.Reachable) :
    ∀ role state, r.state role = some state → state ∈ statesOf role := by
  have hcalls : ∀ c ∈ changeRoleCalls ++ changeStateCalls, c.2 ∈ statesOf c.1 := by decide
  have hidle : ∀ role state, (Function.update (fun _ => none) PeerRole.idle (some StateType.idle)) role =
      some state → state ∈ statesOf role :=
    update_mem_statesOf (fun _ _ h => nomatch h) (by decide)
  induction h with
  | start => exact hidle
  | lookup => exact update_mem_statesOf hidle (by decide)
  | changeRole _ hcall ih => exact update_mem_statesOf ih (hcalls _ (mem_append_left _ hcall))
  | changeState _ hcall ih => exact update_mem_statesOf ih (hcalls _ (mem_append_right _ hcall))

theorem exists_reachable {state : StateType} (h : state ∈ statesOf role) :
    ∃ r : Roles, r.Reachable ∧ r.current = role ∧ r.state role = some state := by
  have hcover : ∀ state ∈ statesOf role, (role, state) = (.idle, .idle) ∨ (role, state) = (.lookup, .lookup) ∨
      (role, state) ∈ changeRoleCalls ∨
      (role, state) ∈ changeStateCalls ∧ ∃ c ∈ changeRoleCalls, c.1 = role := by
    cases role <;> decide
  rcases hcover state h with heq | heq | hcall | ⟨hcall, ⟨entry, first⟩, hfirst, hentry⟩
  · cases heq
    exact ⟨_, .start, rfl, rfl⟩
  · cases heq
    exact ⟨_, .lookup, rfl, rfl⟩
  · exact ⟨_, Roles.Reachable.start.changeRole hcall, rfl, Function.update_self ..⟩
  · cases hentry
    exact ⟨_, (Roles.Reachable.start.changeRole hfirst).changeState hcall, rfl, Function.update_self ..⟩

/-! ### Where the dispatch goes wrong -/

theorem leadOpening_none (nodes : List PeerEndpoint) : leadOpening nodes none = .error .nilSender := by
  cases nodes <;> rfl

theorem processRegister_none (rps : List NamedPeer) (shardingSize dsSize : Nat) :
    processRegister rps shardingSize dsSize none = .error .nilSender := by
  cases rps with
  | nil =>
    show (if _ then _ else _) = _
    split <;> rfl
  | cons p ps =>
    obtain ⟨id, hid⟩ := Option.isSome_iff_exists.mp p.property
    have hfirst : indexOf ((p :: ps).map some) none = .error .nilSender := by
      show (do let entry ← peerId p.val; _) = _
      unfold peerId
      rw [hid]
      rfl
    unfold processRegister
    rw [hfirst]
    rfl

theorem peerId_named (p : NamedPeer) : ∃ id, peerId p.val = .ok id := by
  obtain ⟨id, hid⟩ := Option.isSome_iff_exists.mp p.property
  unfold peerId
  rw [hid]
  exact ⟨id, rfl⟩

theorem has_some (nodes : List PeerEndpoint) (p : NamedPeer) : ∃ b, has nodes (some p) = .ok b := by
  induction nodes with
  | nil => exact ⟨false, rfl⟩
  | cons q qs ih =>
    show ∃ b, (if q.pubkey = p.val.pubkey then _ else has qs (some p)) = .ok b
    split
    · exact ⟨true, rfl⟩
    · exact ih

theorem leadOpening_some (nodes : List PeerEndpoint) (p : NamedPeer) : ∃ b, leadOpening nodes (some p) = .ok b := by
  obtain ⟨b, hb⟩ := has_some nodes p
  obtain ⟨id, hid⟩ := peerId_named p
  unfold leadOpening
  rw [hb]
  cases b with
  | true => exact ⟨true, rfl⟩
  | false =>
    refine ⟨false, ?_⟩
    show (do let _ ← peerId p.val; pure false : Except Crash Bool) = _
    rw [hid]
    rfl

theorem backupOpening_some (leader : PeerEndpoint) (p : NamedPeer) :
    backupOpening leader (some p) ≠ .error .nilSender := by
  obtain ⟨id, hid⟩ := peerId_named p
  show (if leader.pubkey = p.val.pubkey then _ else do let _ ← peerId leader; let _ ← peerId p.val; _) ≠ _
  split
  · exact fun h => nomatch h
  · rw [hid]
    unfold peerId
    cases leader.id <;> exact fun h => nomatch h

theorem indexOf_some (ps : List NamedPeer) (p : NamedPeer) : ∃ i, indexOf (ps.map some) (some p) = .ok i := by
  induction ps with
  | nil => exact ⟨none, rfl⟩
  | cons q qs ih =>
    obtain ⟨entry, hentry⟩ := peerId_named q
    obtain ⟨id, hid⟩ := peerId_named p
    obtain ⟨i, hi⟩ := ih
    refine ⟨if entry.name = id.name then some 0 else i.map (· + 1), ?_⟩
    show (do
      let entry ← peerId q.val
      let peer ← peerId p.val
      if entry.name = peer.name then return some 0
      else return (← indexOf (qs.map some) (some p)).map (· + 1) : Except Crash (Option Nat)) = _
    rw [hentry, hid, hi]
    show (if entry.name = id.name then _ else _) = _
    split <;> rfl

theorem processRegister_some (rps : List NamedPeer) (shardingSize dsSize : Nat) (p : NamedPeer) :
    processRegister rps shardingSize dsSize (some p) = .ok () := by
  obtain ⟨id, hid⟩ := peerId_named p
  have hinform : inform (some p) = .ok () := by
    show (do let _ ← peerId p.val; _) = _
    rw [hid]
    rfl
  obtain ⟨known, hknown⟩ := indexOf_some rps p
  obtain ⟨place, hplace⟩ := indexOf_some (if known = none then rps ++ [p] else rps) p
  have hlist : (if known = none then rps.map some ++ [some p] else rps.map some) =
      (if known = none then rps ++ [p] else rps).map some := by
    split
    · rw [map_append, map_singleton]
    · rfl
  unfold processRegister
  rw [hknown, hinform]
  show (if known = none ∧ rps.length = shardingSize + dsSize then _ else _) = _
  split
  · rfl
  · rw [hlist, hplace]
    cases place with
    | none => rfl
    | some i =>
      show (if i < shardingSize + dsSize then _ else _) = _
      split <;> rfl

def reads : RoleType → Method → Bool
  | .roleDsLead, .processConsensusMsg | .roleShardingLead, .processConsensusMsg => true
  | .roleDsBackup, .processConsensusMsg | .roleShardingBackup, .processConsensusMsg => true
  | .roleLookup, .processRegister => true
  | _, _ => false

theorem opening_nilSender (d : Dispatcher) (source : Option NamedPeer) (t : RoleType) (m : Method) :
    opening d source t m = .error .nilSender ↔ source.isNone ∧ reads t m := by
  cases source with
  | none =>
    have hlead : (leadOpening d.consensusBackupNodes none).map (fun _ => ()) = .error .nilSender := by
      rw [leadOpening_none]
      rfl
    have hbackup : (backupOpening d.leader none).map (fun _ => ()) = .error .nilSender := rfl
    have hregister := processRegister_none d.rps d.shardingSize d.dsSize
    cases t <;> cases m <;> simp [opening, reads, hlead, hbackup, hregister]
  | some p =>
    have hlead : (leadOpening d.consensusBackupNodes (some p)).map (fun _ => ()) = .ok () := by
      obtain ⟨b, hb⟩ := leadOpening_some d.consensusBackupNodes p
      rw [hb]
      rfl
    have hbackup : (backupOpening d.leader (some p)).map (fun _ => ()) ≠ .error .nilSender := by
      cases hb : backupOpening d.leader (some p) with
      | error e =>
        exact fun h => backupOpening_some d.leader p (hb.trans (congrArg Except.error (Except.error.inj h)))
      | ok b => exact fun h => nomatch h
    have hregister := processRegister_some d.rps d.shardingSize d.dsSize p
    cases t <;> cases m <;> simp [opening, hlead, hbackup, hregister]

def Outcome.Safe (o : Outcome) : Prop := o ≠ .stub ∧ o ≠ .nilSender

theorem invoke_safe (d : Dispatcher) (source : Option NamedPeer) (m : Method) :
    (invoke d source m).Safe ↔ (roleType d.role).promoted m ≠ .roleBase ∧
      ¬(source.isNone ∧ reads ((roleType d.role).promoted m) m) := by
  rw [← opening_nilSender d source]
  unfold invoke
  by_cases hbase : (roleType d.role).promoted m = .roleBase
  · rw [if_pos hbase]
    exact iff_of_false (fun h => h.1 rfl) (fun h => h.1 hbase)
  · rw [if_neg hbase]
    by_cases hnil : opening d source ((roleType d.role).promoted m) m = .error .nilSender
    · rw [hnil]
      exact iff_of_false (fun h => h.2 rfl) (fun h => h.2 rfl)
    · refine iff_of_true ?_ ⟨hbase, hnil⟩
      split
      · exact absurd (by assumption) hnil
      · exact ⟨(nomatch ·), (nomatch ·)⟩

/-! ### Dispatch ends -/

theorem dispatch_det {source : Option NamedPeer} {f g : Nat} {c : Call} {o o' : Outcome}
    (h : dispatch d k source f c = some o) (h' : dispatch d k source g c = some o') : o = o' := by
  induction f generalizing g c with
  | zero => exact nomatch h
  | succ f ih =>
    cases g with
    | zero => exact nomatch h'
    | succ g =>
      unfold dispatch at h h'
      cases hstep : dispatchStep d k source c with
      | next c' =>
        rw [hstep] at h h'
        exact ih h h'
      | done u =>
        rw [hstep] at h h'
        exact Option.some.inj (h.symm.trans h')

/-- A finished block that comes while a block is being agreed on. -/
def GoesRound (state : StateType) (k : Kind) : Prop :=
  (state = .dsBlockConsensus ∨ state = .finalBlockConsensus) ∧ (k = .dsBlock ∨ k = .finalBlock)
  deriving Decidable

theorem dispatch_goesRound (source : Option NamedPeer) (h : GoesRound d.state k) (fuel : Nat) :
    dispatch d k source fuel .roleProcessMsg = none ∧ dispatch d k source fuel .stateProcessMsg = none ∧
    dispatch d k source fuel .stateProcessConsensusMsg = none := by
  have hstate : stateProcessMsg d.state k = .next .stateProcessConsensusMsg := by
    rcases h.1 with hs | hs <;> rw [hs] <;> rfl
  have hconsensus : stateProcessConsensusMsg k = .next .roleProcessMsg := by
    rcases h.2 with rfl | rfl <;> rfl
  induction fuel with
  | zero => exact ⟨rfl, rfl, rfl⟩
  | succ fuel ih =>
    refine ⟨ih.2.1, ?_, ?_⟩
    · show (match stateProcessMsg d.state k with
        | .next c' => dispatch d k source fuel c'
        | .done o => some o) = none
      rw [hstate]
      exact ih.2.2
    · show (match stateProcessConsensusMsg k with
        | .next c' => dispatch d k source fuel c'
        | .done o => some o) = none
      rw [hconsensus]
      exact ih.1

/-- The method a message of the kind ends at; the others are dropped. -/
def route : StateType → Kind → Option Method
  | .dsBlockConsensus, .consensus | .finalBlockConsensus, .consensus => some .processConsensusMsg
  | .viewChangeConsensus, .consensus | .microBlockConsensus, .consensus => some .processConsensusMsg
  | .viewChangeConsensus, .dsBlock | .microBlockConsensus, .dsBlock => some .processDSBlock
  | .viewChangeConsensus, .finalBlock | .microBlockConsensus, .finalBlock => some .processFinalBlock
  | .wait4PoWSubmission, .poWSubmission => some .processPoWSubmission
  | .wait4MicroBlockSubmission, .microblockSubmission => some .processMicroBlockSubmission
  | .waitingDSBlock, .dsBlock => some .processDSBlock
  | .waitingFinalBlock, .finalBlock => some .processFinalBlock
  | .idle, .finalBlock | .lookup, .finalBlock => some .processFinalBlock
  | .idle, .dsBlock | .lookup, .dsBlock => some .processDSBlock
  | .idle, .setPrimary => some .processSetPrimary
  | .idle, .startPoW => some .processStartPoW
  | .idle, .newAdd => some .processNewAdd
  | .lookup, .register => some .processRegister
  | _, _ => none

/-- How the message gets there: from the state, or through the routine the consensus states share. -/
theorem route_spec (role : PeerRole) (k : Kind) : ∀ state ∈ statesOf role, ¬GoesRound state k →
    (stateProcessMsg state k = (route state k).elim (.done .dropped) (.next <| .invoke ·)) ∨
    stateProcessMsg state k = .next .stateProcessConsensusMsg ∧
      stateProcessConsensusMsg k = (route state k).elim (.done .dropped) (.next <| .invoke ·) := by
  cases role <;> cases k <;> decide

theorem dispatch_route (source : Option NamedPeer) (hmem : d.state ∈ statesOf d.role) (h : ¬GoesRound d.state k) :
    dispatch d k source 4 .roleProcessMsg = some ((route d.state k).elim .dropped (invoke d source)) := by
  have hlast : ∀ fuel c, dispatchStep d k source c = (route d.state k).elim (.done .dropped) (.next <| .invoke ·) →
      dispatch d k source (fuel + 2) c = some ((route d.state k).elim .dropped (invoke d source)) := by
    intro fuel c hc
    unfold dispatch
    rw [hc]
    cases route d.state k <;> rfl
  rcases route_spec d.role k d.state hmem h with hstate | ⟨hstate, hconsensus⟩
  · exact hlast 1 .stateProcessMsg hstate
  · show (match stateProcessMsg d.state k with
      | .next c' => dispatch d k source 2 c'
      | .done o => some o) = _
    rw [hstate]
    exact hlast 0 .stateProcessConsensusMsg hconsensus

/-! ### Dispatch safety -/

/-- Where a message brings a node down: a finished block at a DS node that is agreeing on something, and a
message that is read for its sender when there is none. -/
def Fatal (role : PeerRole) (state : StateType) (k : Kind) (silent : Bool) : Prop :=
  (k = .dsBlock ∨ k = .finalBlock) ∧ (state = .dsBlockConsensus ∨ state = .finalBlockConsensus ∨
    state = .viewChangeConsensus ∧ (role = .dsLead ∨ role = .dsBackup)) ∨
  silent ∧ (k = .consensus ∧ state ∈ [.dsBlockConsensus, .finalBlockConsensus, .viewChangeConsensus,
    .microBlockConsensus] ∨ k = .register ∧ state = .lookup)
  deriving Decidable

theorem route_safe_iff (role : PeerRole) (k : Kind) (silent : Bool) : ∀ state ∈ statesOf role, ¬GoesRound state k →
    ((∀ m ∈ route state k, (roleType role).promoted m ≠ .roleBase ∧
      ¬(silent ∧ reads ((roleType role).promoted m) m)) ↔ ¬Fatal role state k silent) := by
  cases role <;> cases k <;> cases silent <;> decide

theorem not_fatal_hello (role : PeerRole) (state : StateType) (silent : Bool) : ¬Fatal role state .hello silent := by
  simp [Fatal]

/-- **Dispatch safety.** Whatever the role, the state, the message and the connection are, the message is
handled or dropped after finitely many calls exactly if it is not one of those. -/
theorem handleMessage_safe_iff {r : Roles} (h : r.Reachable) {d : Dispatcher} (hrole : r.current = d.role)
    (hstate : r.state r.current = some d.state) (conn : Connection) (type : MessageType) :
    (∃ fuel o, handleMessage d conn type fuel = some o ∧ o.Safe) ↔
      ¬Fatal d.role d.state (kind type) conn.toPeerEndpoint.isNone := by
  have hmem : d.state ∈ statesOf d.role := hrole ▸ h.mem_statesOf _ _ hstate
  unfold handleMessage
  by_cases hhello : kind type = .hello
  · rw [hhello]
    refine iff_of_true ⟨0, _, rfl, ?_⟩ (not_fatal_hello _ _ _)
    cases conn.established <;> exact ⟨(nomatch ·), (nomatch ·)⟩
  simp only [if_neg hhello]
  by_cases hround : GoesRound d.state (kind type)
  · refine iff_of_false ?_ (not_not.mpr (.inl ⟨hround.2, hround.1.imp_right .inl⟩))
    rintro ⟨fuel, o, ho, _⟩
    rw [(dispatch_goesRound conn.toPeerEndpoint hround fuel).1] at ho
    exact nomatch ho
  rw [← route_safe_iff d.role (kind type) _ d.state hmem hround]
  have hroute := dispatch_route conn.toPeerEndpoint hmem hround
  constructor
  · rintro ⟨fuel, o, ho, hsafe⟩ m hm
    rw [hm] at hroute
    rw [dispatch_det ho hroute] at hsafe
    exact (invoke_safe d _ m).mp hsafe
  · intro hall
    refine ⟨4, _, hroute, ?_⟩
    cases hm : route d.state (kind type) with
    | none => exact ⟨(nomatch ·), (nomatch ·)⟩
    | some m => exact (invoke_safe d _ m).mpr (hall m hm)

def lonely (role : PeerRole) (state : StateType) : Dispatcher :=
  ⟨role, state, ⟨none, [], 0, [], [], []⟩, [], [], 0, 0⟩

/-- An idle node handles what a new connection sends. -/
theorem handleMessage_safe_newAdd :
    ∃ fuel o, handleMessage (lonely .idle .idle) ⟨false, none⟩ (.other 208) fuel = some o ∧ o.Safe :=
  (handleMessage_safe_iff .start rfl rfl ⟨false, none⟩ (.other 208)).mpr (by decide)

/-- A DS backup that agrees on a DS block never finishes with a DS block sent to it, a DS leader in a view
change runs a stub for it, and a lookup node reads the sender of a registration before a hello. All three can
be in these states. -/
theorem handleMessage_unsafe :
    (∀ conn fuel, handleMessage (lonely .dsBackup .dsBlockConsensus) conn (.other 201) fuel = none) ∧
    (∀ conn, handleMessage (lonely .dsLead .viewChangeConsensus) conn (.other 201) 3 = some .stub) ∧
    handleMessage (lonely .lookup .lookup) ⟨false, none⟩ (.other 2) 3 = some .nilSender ∧
    ∀ c ∈ [(PeerRole.dsBackup, StateType.dsBlockConsensus), (.dsLead, .viewChangeConsensus), (.lookup, .lookup)],
      ∃ r : Roles, r.Reachable ∧ r.current = c.1 ∧ r.state c.1 = some c.2 := by
  refine ⟨fun conn fuel => ?_, fun _ => rfl, rfl, fun c hc => exists_reachable ?_⟩
  · exact (dispatch_goesRound conn.toPeerEndpoint ⟨.inl rfl, .inl rfl⟩ fuel).1
  · have hstates : ∀ c ∈ [(PeerRole.dsBackup, StateType.dsBlockConsensus), (.dsLead, .viewChangeConsensus),
        (.lookup, .lookup)], c.2 ∈ statesOf c.1 := by decide
    exact hstates c hc

end Okchain.Server
