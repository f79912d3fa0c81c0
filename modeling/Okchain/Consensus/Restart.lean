import Okchain.Consensus.Shards
import Okchain.Server.Dispatch

/-! Restarting in the middle of an epoch, after `revert.go` and the roles.

The nodes of an epoch make final blocks until the number of one is a multiple of the length of the epoch, which is the
size of a shard or the number of sharding nodes if there are fewer. A restarted node has only its two chains:
`RevertRole` takes the number of the DS block times the length of its epoch for the number of the epoch's last final
block. That is right when the epochs before had the same length.
-/
namespace Okchain.Consensus
open Lib Proc Lib.Buckets Protos List
open Server (StateType Roles)
open Platform (sample)

/-! ### Live nodes -/

/-- What the nodes of an epoch do next: mine for a DS block, or make a microblock. -/
inductive EpochPhase
  | pow
  | microBlock
  deriving DecidableEq, Repr

/-- The state a member of the committee begins a phase in. -/
def EpochPhase.dsState : EpochPhase → StateType
  | .pow => .wait4PoWSubmission
  | .microBlock => .wait4MicroBlockSubmission

def EpochPhase.shardingState : EpochPhase → StateType
  | .pow => .waitingDSBlock
  | .microBlock => .microBlockConsensus

def phaseOf : StateType → Option EpochPhase
  | .wait4PoWSubmission | .dsBlockConsensus | .waitingDSBlock => some .pow
  | .wait4MicroBlockSubmission | .finalBlockConsensus | .microBlockConsensus | .waitingFinalBlock =>
    some .microBlock
  | _ => none

/-- The phase after final block `number`: `onFinalBlockConsensusCompleted` of the committee's roles and
`ProcessFinalBlock` of the sharding nodes' test the same. -/
def nextPhase (shardingSize : Nat) (curDsBlock : DSBlock) (number : UInt64) : Except Err EpochPhase :=
  if shardingSize = 0 then .error (.panic .divisionByZero)
  else
    let numOfSharding := curDsBlock.body.shardingNodes.length / shardingSize
    if numOfSharding ≠ 0 then
      .ok (if number.toNat % shardingSize = 0 then .pow else .microBlock)
    else if curDsBlock.body.shardingNodes.length = 0 then .error (.panic .divisionByZero)
    else .ok (if number.toNat % curDsBlock.body.shardingNodes.length = 0 then .pow else .microBlock)

/-- The heights of the live nodes and their phase. `begun` is the number of the final block that was the last
one when the DS block was made. -/
structure Live where
  dsBlock : DSBlock
  txNumber : UInt64
  begun : UInt64
  phase : EpochPhase

/-- The heights live nodes come to. The genesis block lists no node. Whoever takes over a DS block deals out
its nodes, and the nodes in it sort their shards. -/
inductive Live.Reachable (E : Env) (shardingSize : Nat) : Live → Prop
  | genesis {b : DSBlock} (hnumber : b.numberU64 = 0) (hnodes : b.body.shardingNodes = []) :
    Reachable E shardingSize ⟨b, 0, 0, .pow⟩
  | dsBlock {l : Live} {b : DSBlock} (h : Reachable E shardingSize l) (hphase : l.phase = .pow)
    (hnumber : b.numberU64.toNat = l.dsBlock.numberU64.toNat + 1)
    (hmap : ∃ m, resetShardingId2ShardingNodeListMap shardingSize b = .ok m)
    (hshards : ∀ p ∈ b.body.shardingNodes, ∃ shard, initShardingNodeInfo E shardingSize p.pubkey b = .ok shard) :
    Reachable E shardingSize ⟨b, l.txNumber, l.txNumber, .microBlock⟩
  | finalBlock {l : Live} {number : UInt64} {phase : EpochPhase} (h : Reachable E shardingSize l)
    (hphase : l.phase = .microBlock) (hnumber : number.toNat = l.txNumber.toNat + 1)
    (hnext : nextPhase shardingSize l.dsBlock number = .ok phase) :
    Reachable E shardingSize {l with txNumber := number, phase := phase}

/-! ### The restarted node -/

variable {P : Platform}

/-- A node with what `RevertRole` sets besides. `leader` is what its backup was last told to follow. -/
structure Restarting (P : Platform) where
  peer : PeerServer P
  shardingMap : ShardingMap
  shardingID : UInt32
  leader : Option PeerEndpoint
  roles : Roles

abbrev RestartProc (P : Platform) := Proc Err (Restarting P)

/-- `hashNode`, and `PeerEndpointList.Has`. -/
def hashNode (list : List PeerEndpoint) (e : PeerEndpoint) : Bool := list.any fun peer => peer.pubkey = e.pubkey

/-- `onDsBlockReady` of `revert.go`. -/
def Restarting.onDsBlockReady (dsblock : DSBlock) : RestartProc P Unit := do
  .update fun r => {r with peer := {r.peer with
    currentDSBlock := some dsblock
    committee := dsblock.body.committee
    shardingNodes := dsblock.body.shardingNodes}}
  let shardingSize ← .read fun r => r.peer.shardingSize
  let m ← .lift (resetShardingId2ShardingNodeListMap shardingSize dsblock)
  .update fun r => {r with shardingMap := m}

def Restarting.onFinalBlockReady (txblock : TxBlock) : RestartProc P Unit :=
  .update fun r => {r with peer := {r.peer with currentFinalBlock := some txblock}}

/-- The length of an epoch as `RevertRole` works it out. -/
def epochLength (shardingSize : Nat) (curDsBlock : DSBlock) : Nat :=
  if curDsBlock.body.shardingNodes.length < shardingSize then curDsBlock.body.shardingNodes.length else shardingSize

/-- Both branches of `RevertRole` that choose a role, without the timers, the mining and the start of the
consensus. The branches differ in the state the role is put into. -/
def takeUp (phase : EpochPhase) (shardingSize : Nat) (curDsBlock : DSBlock) (curTxBlock : TxBlock) :
    RestartProc P Unit := do
  let r ← .read id
  if r.peer.selfNode.pubkey = curDsBlock.header.winnerPubKey then
    .update fun r => {r with roles := r.roles.changeRole .dsLead phase.dsState}
  else if hashNode r.peer.committee r.peer.selfNode then
    .update fun r => {r with
      roles := r.roles.changeRole .dsBackup phase.dsState
      leader := curDsBlock.header.newLeader}
  else if hashNode curDsBlock.body.shardingNodes r.peer.selfNode then do
    let (shardingID, shardingNodes) ← .lift
      (initShardingNodeInfo P.toEnv r.peer.shardingSize r.peer.selfNode.pubkey curDsBlock)
    .update fun r => {r with peer := {r.peer with shardingNodes := shardingNodes}, shardingID := shardingID}
    .ensure (shardingSize ≠ 0) (.panic .divisionByZero)
    let leader ← .lift (index shardingNodes (curTxBlock.numberU64.toNat % shardingSize))
    if leader.pubkey = r.peer.selfNode.pubkey then
      .update fun r => {r with roles := r.roles.changeRole .shardingLead phase.shardingState}
    else
      .update fun r => {r with
        roles := r.roles.changeRole .shardingBackup phase.shardingState
        leader := some leader}
  else
    .update fun r => {r with roles := r.roles.changeRole .idle .idle}

/-- `RevertRole`. The product of the numbers is one of `uint64`. -/
def revertRole : RestartProc P Unit := do
  let curDsBlock ← .read fun r => r.peer.dsHead
  let curTxBlock ← .read fun r => r.peer.txHead
  Restarting.onDsBlockReady curDsBlock
  Restarting.onFinalBlockReady curTxBlock
  let r ← .read id
  if r.roles.current = .lookup then pure ()
  else
    let shardingSize := epochLength r.peer.shardingSize curDsBlock
    let last := curDsBlock.numberU64 * UInt64.ofNat shardingSize
    if curTxBlock.numberU64 < last then takeUp .microBlock shardingSize curDsBlock curTxBlock
    else if curTxBlock.numberU64 = last then takeUp .pow shardingSize curDsBlock curTxBlock
    else pure ()

/-- The phase of the state of the node's current role. -/
def Restarting.phase (r : Restarting P) : Option EpochPhase := (r.roles.state r.roles.current).bind phaseOf

/-- The node is in the committee or in a shard of the DS block. -/
def Restarting.Member (r : Restarting P) (b : DSBlock) : Prop :=
  r.peer.selfNode.pubkey = b.header.winnerPubKey ∨ hashNode b.body.committee r.peer.selfNode ∨
    hashNode b.body.shardingNodes r.peer.selfNode

/-- A node that comes up with the chains of the live nodes. -/
structure RestartsAt (shardingSize : Nat) (l : Live) (r : Restarting P) : Prop where
  size : r.peer.shardingSize = shardingSize
  dsHead : r.peer.dsHead = l.dsBlock
  txHead : r.peer.txHead.numberU64 = l.txNumber
  role : r.roles.current = .idle
  state : r.roles.state .idle = some .idle
  member : r.Member l.dsBlock

/-- `RevertRole` returns and leaves the node in the phase of the live nodes. -/
def Rejoins (l : Live) (r : Restarting P) : Prop :=
  ∃ t, revertRole r = (.ok (), t) ∧ t.phase = some l.phase

/-! ### The length of an epoch -/

section Length
variable {shardingSize : Nat} {b : DSBlock}

theorem epochLength_eq_min : epochLength shardingSize b = min shardingSize b.body.shardingNodes.length := by
  unfold epochLength
  split <;> omega

theorem epochLength_le : epochLength shardingSize b ≤ b.body.shardingNodes.length := by
  rw [epochLength_eq_min]
  exact Nat.min_le_right _ _

theorem epochLength_pos_iff : 0 < epochLength shardingSize b ↔ 0 < shardingSize ∧ b.body.shardingNodes ≠ [] := by
  rw [epochLength_eq_min, Nat.lt_min, length_pos_iff]

/-- Live nodes go on to mine when the number is a multiple of the same length. -/
theorem nextPhase_ok {number : UInt64} {phase : EpochPhase} :
    nextPhase shardingSize b number = .ok phase ↔ 0 < epochLength shardingSize b ∧
      phase = if number.toNat % epochLength shardingSize b = 0 then .pow else .microBlock := by
  rw [epochLength_pos_iff]
  unfold nextPhase epochLength
  by_cases hsize : shardingSize = 0
  · simp [hsize]
  have hpos := Nat.pos_of_ne_zero hsize
  by_cases hshort : b.body.shardingNodes.length < shardingSize
  · by_cases hnone : b.body.shardingNodes = []
    · simp [hnone]
    · simp [hsize, hshort, hpos, hnone, eq_comm]
  · have hsome : b.body.shardingNodes ≠ [] := by
      rintro hnone
      rw [hnone] at hshort
      exact hshort hpos
    simp [hsize, hshort, hpos, hsome, eq_comm]

/-- A shard has a node for every final block of the epoch. -/
theorem epochLength_le_shard {E : Env} {p : PeerEndpoint} {shardingID : UInt32} {shard : List PeerEndpoint}
    (hp : hashNode b.body.shardingNodes p)
    (h : initShardingNodeInfo E shardingSize p.pubkey b = .ok (shardingID, shard)) :
    epochLength shardingSize b ≤ shard.length := by
  unfold initShardingNodeInfo at h
  split at h
  case isTrue => exact nomatch h
  case isFalse hsize =>
    obtain ⟨sorted, hsorted, h⟩ := except_bind_ok.mp h
    cases h
    rw [(sortByPubkey_perm hsorted).length_eq]
    by_cases hnum : b.body.shardingNodes.length / shardingSize = 0
    · simpa [hnum] using epochLength_le
    · have hplace : ∃ i, b.body.shardingNodes.findIdx? (fun q => q.pubkey = p.pubkey) = some i := by
        rw [← Option.isSome_iff_exists, findIdx?_isSome]
        exact hp
      obtain ⟨i, hi⟩ := hplace
      have hpos := Nat.pos_of_ne_zero hnum
      have hlane : shardingSize ≤ (lane b.body.shardingNodes _ (i % _)).length :=
        le_length_lane (Nat.div_mul_le_self _ shardingSize) (Nat.mod_lt i hpos)
      -- equal remainders are equal ids
      have hsub : (lane b.body.shardingNodes (b.body.shardingNodes.length / shardingSize)
          (i % (b.body.shardingNodes.length / shardingSize))).Sublist
          (dealt b.body.shardingNodes (b.body.shardingNodes.length / shardingSize)
            (UInt32.ofNat (i % (b.body.shardingNodes.length / shardingSize)))) := by
        refine (monotone_filter_right _ fun x hx => ?_).map _
        simp_all
      have hdealt := hlane.trans hsub.length_le
      have htotal : b.body.shardingNodes.length / shardingSize * shardingSize ≠ 0 := Nat.mul_ne_zero hnum hsize
      have hmin : epochLength shardingSize b ≤ shardingSize := by
        rw [epochLength_eq_min]
        exact Nat.min_le_left _ _
      refine hmin.trans ?_
      simp only [hi, if_pos htotal]
      exact hdealt

end Length

/-! ### What a restart does -/

section Restart
variable {r : Restarting P} {b : DSBlock} {txb : TxBlock}

theorem phase_changeRole (r : Restarting P) (role : PeerRole) (state : StateType) (leader : Option PeerEndpoint) :
    ({r with roles := r.roles.changeRole role state, leader := leader} : Restarting P).phase = phaseOf state := by
  simp [Restarting.phase, Roles.changeRole]

theorem phaseOf_dsState (phase : EpochPhase) : phaseOf phase.dsState = some phase := by
  cases phase <;> rfl

theorem phaseOf_shardingState (phase : EpochPhase) : phaseOf phase.shardingState = some phase := by
  cases phase <;> rfl

theorem takeUp_phase {phase : EpochPhase} (hmember : r.Member b) (hcommittee : r.peer.committee = b.body.committee)
    (hsize : 0 < r.peer.shardingSize)
    (hshards : ∀ p ∈ b.body.shardingNodes,
      ∃ shard, initShardingNodeInfo P.toEnv r.peer.shardingSize p.pubkey b = .ok shard) :
    ∃ t, takeUp phase (epochLength r.peer.shardingSize b) b txb r = (.ok (), t) ∧ t.phase = some phase := by
  unfold takeUp
  simp only [bind_read, id]
  split
  case isTrue =>
    exact ⟨_, rfl, (phase_changeRole ..).trans (phaseOf_dsState phase)⟩
  case isFalse hlead =>
    split
    case isTrue =>
      exact ⟨_, rfl, (phase_changeRole ..).trans (phaseOf_dsState phase)⟩
    case isFalse hbackup =>
      have hshard : hashNode b.body.shardingNodes r.peer.selfNode = true := by
        rw [hcommittee] at hbackup
        exact (hmember.resolve_left hlead).resolve_left hbackup
      rw [if_pos hshard]
      obtain ⟨q, hq, hkey⟩ := any_eq_true.mp hshard
      obtain ⟨⟨shardingID, shard⟩, hinfo⟩ := hshards q hq
      rw [of_decide_eq_true hkey] at hinfo
      have hpos : 0 < epochLength r.peer.shardingSize b :=
        epochLength_pos_iff.mpr ⟨hsize, ne_nil_of_mem hq⟩
      have hplace := (Nat.mod_lt txb.numberU64.toNat hpos).trans_le (epochLength_le_shard hshard hinfo)
      have hleader := index_ok.mpr (getElem?_eq_getElem hplace)
      rw [bind_lift hinfo]
      rw [bind_update, bind_ensure hpos.ne', bind_lift hleader]
      split
      · exact ⟨_, rfl, (phase_changeRole ..).trans (phaseOf_shardingState phase)⟩
      · exact ⟨_, rfl, (phase_changeRole ..).trans (phaseOf_shardingState phase)⟩

/-- The node after it has taken over its two heads. -/
def Restarting.caughtUp (r : Restarting P) (m : ShardingMap) : Restarting P :=
  {r with
    peer := {r.peer with
      currentDSBlock := some r.peer.dsHead
      committee := r.peer.dsHead.body.committee
      shardingNodes := r.peer.dsHead.body.shardingNodes
      currentFinalBlock := some r.peer.txHead}
    shardingMap := m}

/-- The number `RevertRole` takes for that of the epoch's last final block. -/
def revertNumber (shardingSize : Nat) (b : DSBlock) : UInt64 :=
  b.numberU64 * UInt64.ofNat (epochLength shardingSize b)

theorem revertRole_run {m : ShardingMap} (hrole : r.roles.current ≠ .lookup)
    (hm : resetShardingId2ShardingNodeListMap r.peer.shardingSize r.peer.dsHead = .ok m) :
    revertRole r =
      if r.peer.txHead.numberU64 < revertNumber r.peer.shardingSize r.peer.dsHead then
        takeUp .microBlock (epochLength r.peer.shardingSize r.peer.dsHead) r.peer.dsHead r.peer.txHead (r.caughtUp m)
      else if r.peer.txHead.numberU64 = revertNumber r.peer.shardingSize r.peer.dsHead then
        takeUp .pow (epochLength r.peer.shardingSize r.peer.dsHead) r.peer.dsHead r.peer.txHead (r.caughtUp m)
      else (.ok (), r.caughtUp m) := by
  have hready : Restarting.onDsBlockReady r.peer.dsHead r = (.ok (), {r with
      peer := {r.peer with
        currentDSBlock := some r.peer.dsHead
        committee := r.peer.dsHead.body.committee
        shardingNodes := r.peer.dsHead.body.shardingNodes}
      shardingMap := m}) := by
    exact bind_lift hm
  refine (bind_run hready).trans ?_
  show (if r.roles.current = .lookup then pure () else _ : RestartProc P Unit) (r.caughtUp m) = _
  rw [if_neg hrole]
  show (if r.peer.txHead.numberU64 < revertNumber r.peer.shardingSize r.peer.dsHead then _ else
    if r.peer.txHead.numberU64 = revertNumber r.peer.shardingSize r.peer.dsHead then _ else _ :
      RestartProc P Unit) (r.caughtUp m) = _
  split
  · rfl
  · split <;> rfl

end Restart

/-! ### How an epoch goes -/

section Epoch
variable {E : Env} {shardingSize : Nat} {l : Live}

theorem resetShardingMap_isOk {b : DSBlock} :
    (∃ m, resetShardingId2ShardingNodeListMap shardingSize b = .ok m) ↔ 0 < shardingSize := by
  unfold resetShardingId2ShardingNodeListMap
  by_cases hsize : shardingSize = 0
  · simp [hsize]
  rw [if_neg hsize]
  refine iff_of_true ?_ (Nat.pos_of_ne_zero hsize)
  by_cases htotal : b.body.shardingNodes.length / shardingSize * shardingSize = 0
  · exact ⟨_, if_neg (not_not.mpr htotal)⟩
  · have hsome : 0 < b.body.shardingNodes.length :=
      (Nat.pos_of_ne_zero htotal).trans_le (Nat.div_mul_le_self _ _)
    have hfirst := index_ok.mpr (getElem?_eq_getElem hsome)
    exact ⟨_, (if_pos htotal).trans (except_bind_ok.mpr ⟨_, hfirst, rfl⟩)⟩

/-- The first multiple of the length of the epoch after the number it begins with. -/
def Live.lastNumber (shardingSize : Nat) (l : Live) : Nat :=
  (l.begun.toNat / epochLength shardingSize l.dsBlock + 1) * epochLength shardingSize l.dsBlock

/-- Live nodes mine at the first multiple of the epoch's length, or before the first epoch. -/
inductive Live.Timely (shardingSize : Nat) (l : Live) : Prop
  | first (hnumber : l.dsBlock.numberU64 = 0) (htx : l.txNumber = 0) (hphase : l.phase = .pow)
  | empty (hsize : 0 < shardingSize) (hnumber : l.dsBlock.numberU64 ≠ 0)
    (hlength : epochLength shardingSize l.dsBlock = 0) (hphase : l.phase = .microBlock)
  | later (hsize : 0 < shardingSize) (hnumber : l.dsBlock.numberU64 ≠ 0)
    (hlength : 0 < epochLength shardingSize l.dsBlock) (hbegun : l.begun.toNat ≤ l.txNumber.toNat)
    (hlast : l.txNumber.toNat ≤ l.lastNumber shardingSize)
    (hphase : l.phase = .pow ↔ l.txNumber.toNat = l.lastNumber shardingSize)

theorem succ_mod_eq_zero_iff {m a t : Nat} (hm : 0 < m) (ha : a ≤ t) (ht : t < (a / m + 1) * m) :
    (t + 1) % m = 0 ↔ t + 1 = (a / m + 1) * m := by
  constructor
  · intro hmod
    obtain ⟨q, hq⟩ := Nat.dvd_of_mod_eq_zero hmod
    have hbelow : a / m < q := (Nat.div_lt_iff_lt_mul hm).mpr (by rw [Nat.mul_comm]; omega)
    have habove : q ≤ a / m + 1 := Nat.le_of_mul_le_mul_left (by rw [← hq, Nat.mul_comm m]; omega) hm
    rw [hq, Nat.mul_comm, Nat.le_antisymm habove hbelow]
  · intro heq
    rw [heq, Nat.mul_mod_left]

theorem Live.Reachable.timely (h : l.Reachable E shardingSize) : l.Timely shardingSize := by
  induction h with
  | genesis hnumber _ => exact .first hnumber rfl rfl
  | @dsBlock l b _ _ hnumber hmap _ _ =>
    have hsize := resetShardingMap_isOk.mp hmap
    have hlater : b.numberU64 ≠ 0 := by
      intro hzero
      rw [hzero] at hnumber
      exact absurd hnumber (by simp)
    rcases Nat.eq_zero_or_pos (epochLength shardingSize b) with hzero | hpos
    · exact .empty hsize hlater hzero rfl
    · have hbefore : l.txNumber.toNat <
          (l.txNumber.toNat / epochLength shardingSize b + 1) * epochLength shardingSize b :=
        (Nat.div_lt_iff_lt_mul hpos).mp (Nat.lt_succ_self _)
      exact .later hsize hlater hpos le_rfl hbefore.le ⟨fun h => (nomatch h), fun h => absurd h hbefore.ne⟩
  | @finalBlock l number phase _ hphase hnumber hnext ih =>
    obtain ⟨hpos, rfl⟩ := nextPhase_ok.mp hnext
    cases ih with
    | first _ _ hpow => exact nomatch hphase.symm.trans hpow
    | empty _ _ hzero _ => exact absurd hzero hpos.ne'
    | later hsize hlater _ hbegun hlast hpow =>
      have hbefore : l.txNumber.toNat < l.lastNumber shardingSize := by
        refine lt_of_le_of_ne hlast fun heq => ?_
        exact nomatch hphase.symm.trans (hpow.mpr heq)
      have hmod := succ_mod_eq_zero_iff hpos hbegun hbefore
      refine .later hsize hlater hpos ?_ ?_ ?_
      · show l.begun.toNat ≤ number.toNat
        omega
      · show number.toNat ≤ l.lastNumber shardingSize
        omega
      · rw [hnumber]
        refine Iff.trans ?_ hmod
        by_cases hzero : (l.txNumber.toNat + 1) % epochLength shardingSize l.dsBlock = 0 <;> simp

theorem Live.Reachable.shards (h : l.Reachable E shardingSize) : ∀ p ∈ l.dsBlock.body.shardingNodes,
    ∃ shard, initShardingNodeInfo E shardingSize p.pubkey l.dsBlock = .ok shard := by
  induction h with
  | genesis _ hnodes =>
    intro p hp
    rw [hnodes] at hp
    exact nomatch hp
  | dsBlock _ _ _ _ hshards _ => exact hshards
  | finalBlock _ _ _ _ ih => exact ih

end Epoch

/-- The heights have the same relation to the number `RevertRole` computes as to the epoch's last one: both
are ahead, or all three are equal. Before the first epoch nothing is to be compared. -/
def Live.InStep (shardingSize : Nat) (l : Live) : Prop :=
  0 < shardingSize ∧ (l.dsBlock.numberU64 = 0 ∨
    l.txNumber < revertNumber shardingSize l.dsBlock ∧ l.txNumber.toNat < l.lastNumber shardingSize ∨
    0 < epochLength shardingSize l.dsBlock ∧ l.txNumber = revertNumber shardingSize l.dsBlock ∧
      l.txNumber.toNat = l.lastNumber shardingSize)

section Rejoin
variable {shardingSize : Nat} {l : Live} {r : Restarting P}

/-- The phase a restarted member takes up at its heights, if it takes up any. -/
def revertPhase (shardingSize : Nat) (l : Live) : Option EpochPhase :=
  if l.txNumber < revertNumber shardingSize l.dsBlock then some .microBlock
  else if l.txNumber = revertNumber shardingSize l.dsBlock then some .pow
  else none

theorem revertRole_phase (hreach : l.Reachable P.toEnv shardingSize) (hr : RestartsAt shardingSize l r)
    (hsize : 0 < shardingSize) :
    ∃ t, revertRole r = (.ok (), t) ∧ t.phase = revertPhase shardingSize l := by
  obtain ⟨rfl, hds, htx, hrole, hstate, hmember⟩ := hr
  have hshards := hreach.shards
  rw [← hds] at hmember hshards
  obtain ⟨m, hm⟩ := resetShardingMap_isOk.mpr hsize
  have hidle : r.roles.current ≠ .lookup := by
    rw [hrole]
    decide
  rw [revertRole_run hidle hm]
  unfold revertPhase
  rw [← hds, ← htx]
  split
  · exact takeUp_phase hmember rfl hsize hshards
  · split
    · exact takeUp_phase hmember rfl hsize hshards
    · refine ⟨_, rfl, ?_⟩
      show (r.roles.state r.roles.current).bind phaseOf = none
      rw [hrole, hstate]
      rfl

theorem revertRole_size_pos {t : Restarting P} (h : revertRole r = (.ok (), t)) : 0 < r.peer.shardingSize := by
  obtain ⟨_, _, hread, h⟩ := bind_ok.mp h
  cases hread
  obtain ⟨_, _, hread, h⟩ := bind_ok.mp h
  cases hread
  obtain ⟨_, _, hready, _⟩ := bind_ok.mp h
  obtain ⟨_, _, hset, hready⟩ := bind_ok.mp hready
  cases hset
  obtain ⟨_, _, hread, hready⟩ := bind_ok.mp hready
  cases hread
  obtain ⟨m, hm, _⟩ := lift_bind_ok.mp hready
  exact resetShardingMap_isOk.mp ⟨m, hm⟩

theorem revertPhase_eq_iff (h : l.Timely shardingSize) (hsize : 0 < shardingSize) :
    revertPhase shardingSize l = some l.phase ↔ l.InStep shardingSize := by
  unfold Live.InStep revertPhase
  rw [and_iff_right hsize]
  cases h with
  | first hnumber htx hphase =>
    refine iff_of_true ?_ (.inl hnumber)
    have hzero : revertNumber shardingSize l.dsBlock = 0 := by
      unfold revertNumber
      rw [hnumber, UInt64.zero_mul]
    rw [hzero, htx, hphase]
    rfl
  | empty _ hnumber hlength hphase =>
    -- the product is zero, so the node mines or does nothing
    have hzero : revertNumber shardingSize l.dsBlock = 0 := by
      unfold revertNumber
      rw [hlength]
      exact UInt64.mul_zero
    rw [hzero, hlength, hphase, if_neg UInt64.not_lt_zero]
    refine iff_of_false ?_ ?_
    · split <;> simp
    · rintro (hfirst | ⟨hlt, _⟩ | ⟨hlt, _⟩)
      · exact hnumber hfirst
      · exact UInt64.not_lt_zero hlt
      · exact Nat.lt_irrefl 0 hlt
  | later _ hnumber hlength _ hlast hphase =>
    have hmicro : l.phase = .microBlock ↔ l.txNumber.toNat < l.lastNumber shardingSize := by
      rw [lt_iff_le_and_ne, and_iff_right hlast, Ne, ← hphase]
      cases l.phase <;> simp
    by_cases hless : l.txNumber < revertNumber shardingSize l.dsBlock
    · have hne : l.txNumber ≠ revertNumber shardingSize l.dsBlock := UInt64.ne_of_lt hless
      simp [hnumber, ← hmicro, hne, eq_comm]
    · by_cases hequal : l.txNumber = revertNumber shardingSize l.dsBlock
      · rw [if_neg hless, if_pos hequal, Option.some_inj, eq_comm, hphase]
        simp [hnumber, hlength, hequal]
      · simp [hless, hequal, hnumber]

end Rejoin

/-- A restarted member of the committee or of a shard is in the phase of the live nodes exactly when the
heights are in step. -/
theorem rejoins_iff {shardingSize : Nat} {l : Live} {r : Restarting P} (hreach : l.Reachable P.toEnv shardingSize)
    (hr : RestartsAt shardingSize l r) : Rejoins l r ↔ l.InStep shardingSize := by
  rcases Nat.eq_zero_or_pos shardingSize with hzero | hsize
  · refine iff_of_false ?_ fun hstep => absurd hstep.1 (by omega)
    rintro ⟨t, hrun, _⟩
    have hpos := revertRole_size_pos hrun
    rw [hr.size] at hpos
    omega
  · rw [← revertPhase_eq_iff hreach.timely hsize]
    obtain ⟨t, hrun, hphase⟩ := revertRole_phase hreach hr hsize
    unfold Rejoins
    rw [hrun, ← hphase]
    constructor
    · rintro ⟨u, heq, hu⟩
      cases heq
      exact hu
    · intro ht
      exact ⟨t, rfl, ht⟩

/-- A DS block of a committee of two, with a sharding node for each key. -/
def epochBlock (number : UInt64) (keys : List Nat) : DSBlock where
  header := {Chain.dsFirst.header with
    blockNumber := number
    winnerPubKey := (Chain.peerWithKey 1).pubkey}
  body := {Chain.dsFirst.body with
    shardingNodes := keys.map Chain.peerWithKey
    committee := [Chain.peerWithKey 1, Chain.peerWithKey 2]}

/-- The restarted node of a key, with shards of three. -/
def restartedNode (key : Nat) (b : DSBlock) (number : UInt64) : Restarting Platform.sample where
  peer := {sampleNode key [] with
    shardingSize := 3
    dsHead := b
    txHead := Core.sampleBlock number []}
  shardingMap := fun _ => []
  shardingID := 0
  leader := none
  roles := ⟨.idle, Function.update (fun _ => none) .idle (some .idle)⟩

theorem firstEpoch_reachable : Live.Reachable sample.toEnv 3 ⟨epochBlock 1 [7, 8], 1, 0, .microBlock⟩ ∧
    Live.Reachable sample.toEnv 3 ⟨epochBlock 1 [7, 8], 2, 0, .pow⟩ := by
  have hgenesis : Live.Reachable sample.toEnv 3 ⟨epochBlock 0 [], 0, 0, .pow⟩ := .genesis rfl rfl
  have hbegun := hgenesis.dsBlock (b := epochBlock 1 [7, 8]) rfl rfl (resetShardingMap_isOk.mpr (by decide))
    fun p hp => Core.exists_of_isOk (by revert p; decide +kernel)
  have hone : Live.Reachable sample.toEnv 3 ⟨epochBlock 1 [7, 8], 1, 0, .microBlock⟩ :=
    hbegun.finalBlock rfl rfl (nextPhase_ok.mpr ⟨by decide, rfl⟩)
  exact ⟨hone, hone.finalBlock rfl rfl (nextPhase_ok.mpr ⟨by decide, rfl⟩)⟩

theorem restartedNode_restartsAt {number begun : UInt64} {keys : List Nat} {phase : EpochPhase} {n : UInt64} :
    RestartsAt 3 ⟨epochBlock n keys, number, begun, phase⟩ (restartedNode 1 (epochBlock n keys) number) :=
  ⟨rfl, rfl, rfl, rfl, rfl, .inl rfl⟩

/-- Between the two final blocks of the first epoch a restarted node makes microblocks with the others. -/
theorem rejoins_first_epoch : ∃ (l : Live) (r : Restarting Platform.sample),
    l.Reachable Platform.sample.toEnv 3 ∧ RestartsAt 3 l r ∧ l.phase = .microBlock ∧ Rejoins l r := by
  refine ⟨_, _, firstEpoch_reachable.1, restartedNode_restartsAt, rfl, ?_⟩
  exact (rejoins_iff firstEpoch_reachable.1 restartedNode_restartsAt).mpr
    ⟨by decide, .inr (.inl ⟨by decide +kernel, by decide +kernel⟩)⟩

/-- After an epoch of two final blocks an epoch of three begins with the third. All mine for the next DS block
after that, and the restarted node waits for microblocks. -/
theorem restart_misses_pow : ∃ (l : Live) (r t : Restarting Platform.sample),
    l.Reachable Platform.sample.toEnv 3 ∧ RestartsAt 3 l r ∧ l.phase = .pow ∧ revertRole r = (.ok (), t) ∧ t.phase = some .microBlock := by
  have hbegun := firstEpoch_reachable.2.dsBlock (b := epochBlock 2 [7, 8, 9]) rfl rfl
    (resetShardingMap_isOk.mpr (by decide)) fun p hp => Core.exists_of_isOk (by revert p; decide +kernel)
  have hthree : Live.Reachable Platform.sample.toEnv 3 ⟨epochBlock 2 [7, 8, 9], 3, 2, .pow⟩ :=
    hbegun.finalBlock rfl rfl (nextPhase_ok.mpr ⟨by decide, rfl⟩)
  obtain ⟨t, hrun, hphase⟩ := revertRole_phase hthree restartedNode_restartsAt (by decide)
  exact ⟨_, _, t, hthree, restartedNode_restartsAt, rfl, hrun, hphase⟩

end Okchain.Consensus
