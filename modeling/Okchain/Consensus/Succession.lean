import Okchain.Consensus.HonestLead
import Okchain.Consensus.ViewChange
import Okchain.Consensus.Wire

/-! Who leads after time-outs in a row.

The members of a DS committee run out of time together again and again. At the first time-out the leader is read off
the committee before it is rotated, and the VC block is composed after that, so that it names the member after the one
who announces it. From the second on the leader is looked up from the block of the change before.
-/
namespace Okchain.Consensus
open Lib Proc Protos List Option Except

variable {P : Platform} {c : List PeerEndpoint}
variable {i : Nat} {l p q v : PeerEndpoint} {s : PeerServer P} {b : VCBlock}

/-! ### Places of a committee -/

def seat (members : List PeerEndpoint) (i : Nat) : Option PeerEndpoint := members[i % members.length]?

theorem seat_congr {j : Nat} (h : i ≡ j [MOD c.length]) : seat c i = seat c j := by
  unfold seat
  rw [h]

theorem exists_seat (h : 0 < c.length) (i : Nat) : ∃ p, seat c i = some p :=
  ⟨_, getElem?_eq_getElem (Nat.mod_lt i h)⟩

theorem mem_of_seat (h : seat c i = some p) : p ∈ c :=
  mem_of_getElem? h

theorem seat_rotate (j : Nat) (hi : i < c.length) : (c.rotate j)[i]? = seat c (i + j) :=
  getElem?_rotate hi

section
variable (hdistinct : (c.map (·.pubkey)).Nodup)
include hdistinct

theorem eq_of_pubkey (hp : p ∈ c) (hq : q ∈ c) (h : p.pubkey = q.pubkey) :
    p = q := inj_on_of_nodup_map hdistinct hp hq h

/-- Neighbours are different members. -/
theorem seat_succ_ne (htwo : 2 ≤ c.length) (i : Nat) (hp : seat c i = some p)
    (hq : seat c (i + 1) = some q) : p.pubkey ≠ q.pubkey := by
  intro hkey
  have hpq := eq_of_pubkey hdistinct (mem_of_seat hp) (mem_of_seat hq) hkey
  have hnodup : c.Nodup := hdistinct.of_map _
  have hi : i % c.length < c.length := Nat.mod_lt _ (by omega)
  have hmod : i ≡ i + 1 [MOD c.length] :=
    (getElem?_inj hi hnodup).mp (hp.trans ((congrArg some hpq).trans hq.symm))
  have hone : 0 % c.length = 1 % c.length := Nat.ModEq.add_left_cancel' i hmod
  rw [Nat.mod_eq_of_lt htwo] at hone
  exact absurd hone Nat.zero_ne_one

/-- The rotation does not change who comes after whom. -/
theorem nextOf_seat (j m : Nat) (hp : seat c m = some p) : nextOf (c.rotate j) p = seat c (m + 1) := by
  have hpos : 0 < c.length := length_pos_of_mem (mem_of_seat hp)
  have hj : j % c.length < c.length := Nat.mod_lt j hpos
  obtain ⟨i, hi, hmod⟩ : ∃ i < c.length, i + j ≡ m [MOD c.length] := by
    refine ⟨(m + (c.length - j % c.length)) % c.length, Nat.mod_lt _ hpos, ?_⟩
    calc (m + (c.length - j % c.length)) % c.length + j
        ≡ m + (c.length - j % c.length) + j % c.length [MOD c.length] :=
          (Nat.mod_modEq _ _).add (Nat.mod_modEq j _).symm
      _ = m + c.length := by omega
      _ ≡ m [MOD c.length] := Nat.add_modEq_right
  have hrotated : ((c.rotate j).map (·.pubkey)).Nodup := by
    rw [map_rotate]
    exact nodup_rotate.mpr hdistinct
  have hlength : (c.rotate j).length = c.length := length_rotate c j
  have hi' : i < (c.rotate j).length := hi.trans_eq hlength.symm
  have hat : (c.rotate j)[i]? = some p := by
    rw [seat_rotate j hi, ← hp]
    exact seat_congr hmod
  have hget : (c.rotate j)[i] = p := (getElem_eq_iff hi').mpr hat
  have hfind : (c.rotate j).findIdx? (fun q => q.pubkey = p.pubkey) = some i := by
    refine findIdx?_eq_some_iff_getElem.mpr ⟨hi', by simp [hget], fun k hk => ?_⟩
    simp only [decide_eq_true_eq]
    intro hkey
    have hkp := eq_of_pubkey hrotated (getElem_mem (hk.trans hi')) (mem_of_getElem? hat) hkey
    have := (hrotated.of_map _).getElem_inj_iff.mp (hkp.trans hget.symm)
    omega
  unfold nextOf
  rw [hfind]
  show (c.rotate j)[(i + 1) % (c.rotate j).length]? = _
  rw [hlength, seat_rotate j (Nat.mod_lt _ hpos)]
  apply seat_congr
  calc (i + 1) % c.length + j ≡ i + 1 + j [MOD c.length] := (Nat.mod_modEq _ _).add_right j
    _ = i + j + 1 := by omega
    _ ≡ m + 1 [MOD c.length] := hmod.add_right 1

end

/-! ### The next leader -/

/-- A stage of the DS committee other than a view change. -/
def IsDsStage (stage : ConsensusType) : Prop := stage = .dsBlock ∨ stage = .finalBlock

theorem IsDsStage.ne_viewChange {stage : ConsensusType} (h : IsDsStage stage) : stage ≠ .viewChange := by
  rcases h with rfl | rfl <;> decide

theorem getNewLeader_block (h : IsDsStage s.currentStage) : getNewLeader P s = .ok s.committee[1]? := by
  unfold getNewLeader
  rcases h with h | h <;> rw [h] <;> rfl

theorem getNewLeader_viewChange (hstage : s.currentStage = .viewChange) (hlast : IsDsStage s.lastStage)
    (hb : s.currentVCBlock = some b) (hp : b.header.newLeader = some p) (hq : nextOf s.committee p = some q) :
    getNewLeader P s = .ok (some q) := by
  unfold getNewLeader
  rw [hstage, hb, bind_some, hp]
  rcases hlast with h | h <;> rw [h]
  · show ok ((nextOf s.committee p).or (some emptyEndpoint)) = _
    rw [hq]
    rfl
  · show ok ((nextOf s.committee p).or (some emptyEndpoint)) = _
    rw [hq]
    rfl

/-- The VC block a node composes that expects `v` to lead. -/
def vcBlockNaming (s : PeerServer P) (v : PeerEndpoint) : VCBlock :=
  ⟨{timestamp := some s.clock
    viewChangeDSNo := s.dsHead.numberU64
    viewChangeTXNo := s.txHead.numberU64
    newLeader := some v
    stage := consensusTypeName s.lastStage
    boolMap := [], signature := [], multiPubKey := []}⟩

theorem composeVCBlock_eq (htwo : 2 ≤ s.committee.length) (hv : getNewLeader P s = .ok (some v)) :
    composeVCBlock s = .ok (vcBlockNaming s v) := by
  unfold composeVCBlock newVCBlock
  rw [if_neg (by omega), hv]
  rfl

theorem holdVCBlock_run {compose : PeerServer P → Except Err VCBlock} (e : Err) (h : compose s = .ok b) :
    holdVCBlock compose e s = (.ok b, {s with currentVCBlock := some b}) := by
  unfold holdVCBlock
  rw [bind_read, id_eq, bind_lift (orError_ok.mpr h)]
  rfl

/-! ### One time-out -/

def PeerServer.staged (s : PeerServer P) (last : ConsensusType) : PeerServer P :=
  {s with currentStage := s.currentType, lastStage := last}

def PeerServer.rotated (s : PeerServer P) : PeerServer P :=
  {s with
    currentType := .viewChange
    committee := s.committee.rotate 1}

/-- The node when it has composed a VC block as well. -/
def PeerServer.turned (s : PeerServer P) (v : PeerEndpoint) : PeerServer P :=
  {s.rotated with currentVCBlock := some (vcBlockNaming s v)}

theorem rotateCommittee_run (h : s.committee ≠ []) :
    rotateCommittee s = (.ok (), {s with committee := s.committee.rotate 1}) := by
  unfold rotateCommittee
  rw [bind_read]
  cases hc : s.committee with
  | nil => exact absurd hc h
  | cons first rest =>
    rw [rotate_cons_succ, rotate_zero]
    rfl

/-- A node that expects `l` to lead and, with the committee rotated, `v`. -/
structure Expecting (s : PeerServer P) (l v : PeerEndpoint) : Prop where
  two_le : 2 ≤ s.committee.length
  before : getNewLeader P s = .ok (some l)
  after : getNewLeader P s.rotated = .ok (some v)

theorem Expecting.compose (h : Expecting s l v) : composeVCBlock s.rotated = .ok (vcBlockNaming s v) :=
  composeVCBlock_eq (h.two_le.trans_eq (length_rotate _ _).symm) h.after

theorem Expecting.ne_nil (h : Expecting s l v) : s.committee ≠ [] :=
  ne_nil_of_length_pos (Nat.lt_of_lt_of_le Nat.zero_lt_two h.two_le)

theorem dsBackupStarted_run (h : Expecting s l v) : dsBackupStarted s = (.ok (), {s.turned v with leader := l}) := by
  have hfollow : followNewLeader {s with currentType := .viewChange} =
      (.ok (), {s with currentType := .viewChange, leader := l}) := by
    have hl : getNewLeader P {s with currentType := .viewChange} = .ok (some l) := h.before
    unfold followNewLeader
    rw [bind_read, id_eq, hl]
    rfl
  have hcompose : composeVCBlock {s.rotated with leader := l} = .ok (vcBlockNaming s v) := h.compose
  refine (bind_update).trans ?_
  rw [bind_run hfollow]
  refine (bind_run (rotateCommittee_run (s := {s with currentType := .viewChange, leader := l})
    h.ne_nil)).trans ?_
  exact (bind_run (holdVCBlock_run _ hcompose)).trans rfl

def vcAnnouncement (s : PeerServer P) (v : PeerEndpoint) : Message :=
  messageFrom s .consensusAnnounce (consensusPayload P .viewChange (P.vcBlock.marshal (vcBlockNaming s v)))

/-- The node of a leader that has announced its VC block. -/
def PeerServer.announcing (s : PeerServer P) (v : PeerEndpoint) (issued : List Signable) : PeerServer P :=
  {s.turned v with
    issued := issued
    outbox := s.outbox ++ [vcAnnouncement s v]}

theorem dsLeadStarted_run (lead : ConsensusLead P) (h : Expecting lead.peer l v) :
    ∃ issued lead', dsLeadStarted lead = (.ok (), lead') ∧ lead'.peer = lead.peer.announcing v issued := by
  obtain ⟨issued, hsigned⟩ := signedMessage_run (lead.peer.turned v) .consensusAnnounce
    (consensusPayload P .viewChange (P.vcBlock.marshal (vcBlockNaming lead.peer v)))
  have hannounce : announceVCBlock composeVCBlock lead.peer.rotated =
      (.ok (vcAnnouncement lead.peer v), {lead.peer.turned v with issued := issued}) := by
    unfold announceVCBlock
    rw [bind_run (holdVCBlock_run _ h.compose)]
    exact hsigned
  obtain ⟨lead', hlead, hpeer⟩ : ∃ lead',
      initiateConsensus (vcAnnouncement lead.peer v) lead.peer.rotated.committee
        {lead with peer := {lead.peer.turned v with issued := issued}} = (.ok (), lead') ∧
      lead'.peer = lead.peer.announcing v issued := ⟨_, rfl, rfl⟩
  refine ⟨issued, lead', ?_, hpeer⟩
  rw [← hlead]
  unfold dsLeadStarted
  rw [bind_run (onPeer_run (rotateCommittee_run h.ne_nil))]
  refine (bind_run (onPeer_run (t := lead.peer.rotated) rfl)).trans ?_
  exact (bind_run (onPeer_run hannounce)).trans rfl

/-- The stage a view change is for: the current one, or the one the last change was for. -/
def Node.stage (n : Node P) : ConsensusType :=
  if n.peer.currentType ≠ .viewChange then n.peer.currentType else n.lastStageType

/-- The node with its stages set, before it takes a role. -/
def Node.begun (n : Node P) (role : PeerRole) : Node P :=
  {n with
    peer := n.peer.staged n.stage
    lastStageType := n.stage
    role := role}

variable {n : Node P}

theorem startViewChange_eq (h : Expecting (n.peer.staged n.stage) l v) :
    startViewChange n = takeRole (l.pubkey = n.peer.selfNode.pubkey) n.stage (n.begun n.role) := by
  show (Proc.lift (do deref (← getNewLeader P (n.peer.staged n.stage))) >>= fun newLeader =>
    takeRole (newLeader.pubkey = n.peer.selfNode.pubkey) n.stage) (n.begun n.role) = _
  rw [h.before]
  rfl

theorem startViewChange_lead (hstage : IsDsStage n.stage) (h : Expecting (n.peer.staged n.stage) l v)
    (hself : l.pubkey = n.peer.selfNode.pubkey) :
    ∃ issued n', startViewChange n = (.ok (), n') ∧ n'.peer = (n.peer.staged n.stage).announcing v issued ∧
      n'.role = .dsLead ∧ n'.lastStageType = n.stage := by
  obtain ⟨issued, lead', hlead, hpeer⟩ :=
    dsLeadStarted_run {n.dsConsensusLeader with peer := n.peer.staged n.stage} h
  have hrun : onDsLead dsLeadStarted (n.begun .dsLead) =
      (.ok (), {n.begun .dsLead with peer := lead'.peer, dsConsensusLeader := lead'}) := by
    exact congrArg (fun r => (r.1, {n.begun .dsLead with peer := r.2.peer, dsConsensusLeader := r.2})) hlead
  refine ⟨issued, {n.begun .dsLead with peer := lead'.peer, dsConsensusLeader := lead'}, ?_, hpeer, rfl, rfl⟩
  rw [startViewChange_eq h, decide_eq_true hself, ← hrun]
  rcases hstage with hs | hs <;> rw [hs] <;> rfl

theorem startViewChange_backup (hstage : IsDsStage n.stage) (h : Expecting (n.peer.staged n.stage) l v)
    (hself : l.pubkey ≠ n.peer.selfNode.pubkey) :
    startViewChange n =
      (.ok (), {n.begun .dsBackup with peer := {(n.peer.staged n.stage).turned v with leader := l}}) := by
  have hrun : onNode dsBackupStarted (n.begun .dsBackup) =
      (.ok (), {n.begun .dsBackup with peer := {(n.peer.staged n.stage).turned v with leader := l}}) := by
    exact congrArg (fun r => (r.1, {n.begun .dsBackup with peer := r.2})) (dsBackupStarted_run h)
  rw [startViewChange_eq h, decide_eq_false hself, ← hrun]
  rcases hstage with hs | hs <;> rw [hs] <;> rfl

/-! ### A member in a view change -/

/-- The place of the leader of the `j`-th view change in a row. -/
def turn : Nat → Nat
  | 0 => 0
  | 1 => 1
  | j + 2 => j + 3

/-- An announcement of the `j`-th view change. -/
def Announces (c : List PeerEndpoint) (stage : ConsensusType) (base : PeerServer P) (j : Nat) (msg : Message) :
    Prop :=
  ∃ b, announced P P.vcBlock msg = .ok b ∧ b.header.newLeader = seat c (j + 1) ∧
    b.header.stage = consensusTypeName stage ∧ b.header.viewChangeTXNo = base.txHead.numberU64 ∧
    b.header.viewChangeDSNo = base.dsHead.numberU64

/-- A member of the committee `c` in the `j`-th view change in a row; `base` is its node at the start. -/
structure Changing (c : List PeerEndpoint) (stage : ConsensusType) (base : PeerServer P) (j : Nat) (n : Node P) :
    Prop where
  committee : n.peer.committee = c.rotate j
  selfNode : n.peer.selfNode = base.selfNode
  txHead : n.peer.txHead = base.txHead
  dsHead : n.peer.dsHead = base.dsHead
  currentType : n.peer.currentType = .viewChange
  lastStageType : n.lastStageType = stage
  lastStage : n.peer.lastStage = stage
  currentStage : n.peer.currentStage = if j = 1 then stage else .viewChange
  vcBlock : ∃ b, n.peer.currentVCBlock = some b ∧ b.header.newLeader = seat c (j + 1)
  leader : some n.currentLeader = seat c (turn j)
  role : n.role = if some base.selfNode = seat c (turn j) then .dsLead else .dsBackup
  announces : n.role = .dsLead → ∃ msg, n.peer.outbox.getLast? = some msg ∧ Announces c stage base j msg

section

variable {stage : ConsensusType} {base : PeerServer P} {j : Nat} {n : Node P}

theorem announces_vcAnnouncement (hpayload : P.payload.RoundTrip) (hvc : P.vcBlock.RoundTrip)
    (hv : seat c (j + 1) = some v) (hlast : s.lastStage = stage) (htx : s.txHead = base.txHead)
    (hds : s.dsHead = base.dsHead) :
    Announces c stage base j (vcAnnouncement s v) := by
  refine ⟨vcBlockNaming s v, ?_, hv.symm, congrArg consensusTypeName hlast, congrArg TxBlock.numberU64 htx,
    congrArg DSBlock.numberU64 hds⟩
  refine except_bind_ok.mpr ⟨_, Codec.decode_ok.mpr (hpayload _), ?_⟩
  exact Codec.decode_ok.mpr (hvc _)

/-- A time-out of a member that expects the right ones puts it into the next view change. -/
theorem changing_of_expecting (hpayload : P.payload.RoundTrip) (hvc : P.vcBlock.RoundTrip)
    (hdistinct : (c.map (·.pubkey)).Nodup) (hmem : base.selfNode ∈ c) (hcommittee : n.peer.committee = c.rotate j)
    (hself : n.peer.selfNode = base.selfNode) (htx : n.peer.txHead = base.txHead) (hds : n.peer.dsHead = base.dsHead)
    (hstage : n.stage = stage) (hds' : IsDsStage stage)
    (hcurrent : n.peer.currentType = if j + 1 = 1 then stage else .viewChange) (hl : seat c (turn (j + 1)) = some l)
    (hv : seat c (j + 2) = some v) (h : Expecting (n.peer.staged n.stage) l v) :
    (startViewChange n).1 = .ok () ∧ Changing c stage base (j + 1) (startViewChange n).2 := by
  have hrotated : n.peer.committee.rotate 1 = c.rotate (j + 1) := by rw [hcommittee, rotate_rotate]
  by_cases hkey : l.pubkey = n.peer.selfNode.pubkey
  · have hlself : l = base.selfNode := by
      rw [hself] at hkey
      exact eq_of_pubkey hdistinct (mem_of_seat hl) hmem hkey
    obtain ⟨issued, n', hrun, hpeer, hrole, hlast⟩ := startViewChange_lead (hstage ▸ hds') h hkey
    rw [hrun]
    refine ⟨rfl, ?_⟩
    constructor <;> try rw [hpeer]
    · exact hrotated
    · exact hself
    · exact htx
    · exact hds
    · rfl
    · rw [hlast, hstage]
    · exact hstage
    · exact hcurrent
    · exact ⟨_, rfl, hv.symm⟩
    · unfold Node.currentLeader
      rw [if_pos (.inl hrole), hpeer, hl, hlself]
      exact congrArg some hself
    · rw [if_pos (by rw [hl, hlself]), hrole]
    · intro _
      refine ⟨_, getLast?_concat, announces_vcAnnouncement hpayload hvc hv hstage htx hds⟩
  · have hlself : some base.selfNode ≠ seat c (turn (j + 1)) := by
      rw [hl, ← hself]
      exact fun heq => hkey (congrArg PeerEndpoint.pubkey (some.inj heq).symm)
    rw [startViewChange_backup (hstage ▸ hds') h hkey]
    refine ⟨rfl, ?_⟩
    constructor
    · exact hrotated
    · exact hself
    · exact htx
    · exact hds
    · rfl
    · exact hstage
    · exact hstage
    · exact hcurrent
    · exact ⟨_, rfl, hv.symm⟩
    · exact hl.symm
    · rw [if_neg hlself]
      rfl
    · exact fun hrole => nomatch hrole

/-- In a round, the second member is expected, and after the rotation the third. -/
theorem expecting_block (htwo : 2 ≤ c.length) (hcommittee : s.committee = c) (hstage : IsDsStage s.currentStage) :
    ∃ l v, seat c 1 = some l ∧ seat c 2 = some v ∧ Expecting s l v := by
  obtain ⟨l, hl⟩ := exists_seat (c := c) (by omega) 1
  obtain ⟨v, hv⟩ := exists_seat (c := c) (by omega) 2
  refine ⟨l, v, hl, hv, htwo.trans_eq (congrArg length hcommittee.symm), ?_, ?_⟩
  · rw [getNewLeader_block hstage, hcommittee, ← hl, seat, Nat.mod_eq_of_lt htwo]
  · rw [getNewLeader_block (s := s.rotated) hstage]
    show ok (s.committee.rotate 1)[1]? = _
    rw [hcommittee, seat_rotate 1 htwo, hv]

/-- In a view change, the member after the one the last VC block names, before and after the rotation. -/
theorem Changing.expecting (hdistinct : (c.map (·.pubkey)).Nodup) (htwo : 2 ≤ c.length) (hds : IsDsStage stage)
    (h : Changing c stage base j n) :
    ∃ v, seat c (j + 2) = some v ∧ Expecting (n.peer.staged n.stage) v v := by
  obtain ⟨b, hb, hnamed⟩ := h.vcBlock
  obtain ⟨p, hp⟩ := exists_seat (c := c) (by omega) (j + 1)
  obtain ⟨v, hv⟩ := exists_seat (c := c) (by omega) (j + 2)
  have hstage : n.stage = stage := by
    unfold Node.stage
    rw [if_neg (not_not.mpr h.currentType), h.lastStageType]
  refine ⟨v, hv, ?_, ?_, ?_⟩
  · exact htwo.trans_eq ((congrArg length h.committee).trans (length_rotate c j)).symm
  · refine getNewLeader_viewChange h.currentType (hstage ▸ hds) hb (hnamed.trans hp) ?_
    exact (congrArg (nextOf · p) h.committee).trans ((nextOf_seat hdistinct j (j + 1) hp).trans hv)
  · refine getNewLeader_viewChange h.currentType (hstage ▸ hds) hb
      (hnamed.trans hp) ?_
    show nextOf (n.peer.committee.rotate 1) p = _
    rw [h.committee, rotate_rotate, nextOf_seat hdistinct (j + 1) (j + 1) hp, hv]

end

/-! ### Time-outs in a row -/

/-- Honest members at the start of a round of the DS committee. -/
structure CommonStart (c : List PeerEndpoint) (stage : ConsensusType) (honest : List PeerEndpoint)
    (start : PeerEndpoint → Node P) : Prop where
  ofDs : IsDsStage stage
  distinct : (c.map (·.pubkey)).Nodup
  member : ∀ p ∈ honest, p ∈ c
  selfNode : ∀ p ∈ honest, (start p).peer.selfNode = p
  committee : ∀ p ∈ honest, (start p).peer.committee = c
  currentType : ∀ p ∈ honest, (start p).peer.currentType = stage

/-- What the honest nodes can be after `k` time-outs of all of them, with any of the announcements of honest
leaders heard by honest backups in between. -/
inductive TimeOuts (honest : List PeerEndpoint) (start : PeerEndpoint → Node P) :
    Nat → (PeerEndpoint → Node P) → Prop
  | start : TimeOuts honest start 0 start
  | timeOut {k : Nat} {ns : PeerEndpoint → Node P} (h : TimeOuts honest start k ns) :
    TimeOuts honest start (k + 1) fun p => if p ∈ honest then (startViewChange (ns p)).2 else ns p
  | hear {k : Nat} {ns : PeerEndpoint → Node P} {p q : PeerEndpoint} {msg : Message}
    (h : TimeOuts honest start (k + 1) ns) (hp : p ∈ honest) (hq : q ∈ honest) (hlead : (ns p).role = .dsLead)
    (hbackup : (ns q).role = .dsBackup) (hmsg : (ns p).peer.outbox.getLast? = some msg) :
    TimeOuts honest start (k + 1) (Function.update ns q
      {ns q with peer := (verifyAnnounced P msg .viewChange (ns q).peer).2})

section

variable {stage : ConsensusType} {honest : List PeerEndpoint} {start ns : PeerEndpoint → Node P} {k : Nat}

/-- What `VerifyVCBlock` compares. -/
def Matches (s : PeerServer P) (b : VCBlock) (named expected : PeerEndpoint) : Prop :=
  b.header.viewChangeTXNo = s.txHead.numberU64 ∧ b.header.viewChangeDSNo = s.dsHead.numberU64 ∧
    b.header.stage = consensusTypeName s.lastStage ∧ named.pubkey = expected.pubkey

variable {msg : Message} {base : PeerServer P} {n : Node P}

/-- A block that does not match leaves the node as it is. -/
theorem verifyVCBlock_run {named expected : PeerEndpoint} (hb : announced P P.vcBlock msg = .ok b)
    (hsome : s.currentVCBlock.isSome) (hnamed : b.header.newLeader = some named)
    (hexpected : getNewLeader P s = .ok (some expected)) :
    (Matches s b named expected → verifyVCBlock P msg s = (.ok (), {s with currentVCBlock := some b})) ∧
    (¬Matches s b named expected → verifyVCBlock P msg s = (.error (.consensus .verifyBlock), s)) := by
  have hread : (do deref (← getNewLeader P s) : Except Err PeerEndpoint) = .ok expected := by
    rw [hexpected]
    rfl
  unfold verifyVCBlock
  rw [bind_lift hb, bind_read, id_eq, bind_ensure hsome]
  by_cases htx : b.header.viewChangeTXNo = s.txHead.numberU64
  swap
  · exact ⟨fun h => absurd h.1 htx, fun _ => bind_ensure_not htx⟩
  rw [bind_ensure htx]
  by_cases hds : b.header.viewChangeDSNo = s.dsHead.numberU64
  swap
  · exact ⟨fun h => absurd h.2.1 hds, fun _ => bind_ensure_not hds⟩
  rw [bind_ensure hds]
  by_cases hstage : b.header.stage = consensusTypeName s.lastStage
  swap
  · exact ⟨fun h => absurd h.2.2.1 hstage, fun _ => bind_ensure_not hstage⟩
  rw [bind_ensure hstage, bind_lift (deref_ok.mpr hnamed), bind_lift hread]
  by_cases hkey : named.pubkey = expected.pubkey
  swap
  · exact ⟨fun h => absurd h.2.2.2 hkey, fun _ => bind_ensure_not hkey⟩
  rw [bind_ensure hkey]
  exact ⟨fun _ => rfl, fun h => absurd ⟨htx, hds, hstage, hkey⟩ h⟩

/-- Whom a member expects while it checks: in the first view change the one the announced block names, later
the one after. -/
theorem Changing.getNewLeader (hdistinct : (c.map (·.pubkey)).Nodup) (htwo : 2 ≤ c.length) (hds : IsDsStage stage)
    (h : Changing c stage base k n) :
    ∃ expected, getNewLeader P n.peer = .ok (some expected) ∧
      seat c (if k = 1 then k + 1 else k + 2) = some expected := by
  by_cases hk : k = 1
  · obtain ⟨v, hv⟩ := exists_seat (c := c) (by omega) (k + 1)
    refine ⟨v, ?_, by rw [if_pos hk, hv]⟩
    have hstage : IsDsStage n.peer.currentStage := by
      rw [h.currentStage, if_pos hk]
      exact hds
    rw [getNewLeader_block hstage, h.committee, seat_rotate k htwo, Nat.add_comm, hv]
  · obtain ⟨b, hb, hnamed⟩ := h.vcBlock
    obtain ⟨p, hp⟩ := exists_seat (c := c) (by omega) (k + 1)
    obtain ⟨v, hv⟩ := exists_seat (c := c) (by omega) (k + 2)
    refine ⟨v, ?_, by rw [if_neg hk, hv]⟩
    refine getNewLeader_viewChange (h.currentStage.trans (if_neg hk)) (h.lastStage ▸ hds) hb (hnamed.trans hp) ?_
    rw [h.committee, nextOf_seat hdistinct k (k + 1) hp, hv]

/-- A backup takes an announcement of its view change exactly if it is the first, and the heads agree. -/
theorem Changing.verifyVCBlock (hdistinct : (c.map (·.pubkey)).Nodup) (htwo : 2 ≤ c.length) (hds : IsDsStage stage)
    {other : PeerServer P} (h : Changing c stage base k n)
    (hmsg : Announces c stage other k msg) :
    ((verifyVCBlock P msg n.peer).1 = .ok () ↔ k = 1 ∧
      other.txHead.numberU64 = base.txHead.numberU64 ∧ other.dsHead.numberU64 = base.dsHead.numberU64) ∧
    Changing c stage base k {n with peer := (verifyVCBlock P msg n.peer).2} := by
  obtain ⟨b, hb, hnamed, hstage, htx, hdsNo⟩ := hmsg
  obtain ⟨held, hheld, _⟩ := h.vcBlock
  obtain ⟨named, hseat⟩ := exists_seat (c := c) (by omega) (k + 1)
  obtain ⟨expected, hexpected, hexpseat⟩ := h.getNewLeader hdistinct htwo hds
  have hkey : named.pubkey = expected.pubkey ↔ k = 1 := by
    by_cases hk : k = 1
    · rw [if_pos hk, hseat] at hexpseat
      exact iff_of_true (congrArg _ (some.inj hexpseat)) hk
    · rw [if_neg hk] at hexpseat
      exact iff_of_false (seat_succ_ne hdistinct htwo (k + 1) hseat hexpseat) hk
  have hmatches : Matches n.peer b named expected ↔ k = 1 ∧
      other.txHead.numberU64 = base.txHead.numberU64 ∧ other.dsHead.numberU64 = base.dsHead.numberU64 := by
    unfold Matches
    rw [htx, hdsNo, h.txHead, h.dsHead, h.lastStage]
    tauto
  obtain ⟨hyes, hno⟩ := verifyVCBlock_run hb (by rw [hheld]; rfl) (hnamed.trans hseat) hexpected
  by_cases hm : Matches n.peer b named expected
  · rw [hyes hm]
    exact ⟨iff_of_true rfl (hmatches.mp hm), {h with vcBlock := ⟨b, rfl, hnamed⟩}⟩
  · rw [hno hm]
    exact ⟨iff_of_false (fun hok => nomatch hok) (fun hok => hm (hmatches.mpr hok)), h⟩

/-- **The run lemma.** After `k` time-outs every honest member is in the `k`-th view change. -/
theorem TimeOuts.changing (hpayload : P.payload.RoundTrip) (hvc : P.vcBlock.RoundTrip)
    (hstart : CommonStart c stage honest start) (htwo : 2 ≤ c.length) (h : TimeOuts honest start k ns) :
    ∀ p ∈ honest, (k = 0 → ns p = start p) ∧ (1 ≤ k → Changing c stage (start p).peer k (ns p)) := by
  induction h with
  | start => exact fun p _ => ⟨fun _ => rfl, fun hk => absurd hk (by omega)⟩
  | @timeOut k ns _ ih =>
    intro p hp
    refine ⟨fun hk => absurd hk (by omega), fun _ => ?_⟩
    show Changing c stage _ (k + 1) (if p ∈ honest then _ else _)
    rw [if_pos hp]
    have hmem : (start p).peer.selfNode ∈ c := by
      rw [hstart.selfNode p hp]
      exact hstart.member p hp
    cases k with
    | zero =>
      rw [(ih p hp).1 rfl]
      have hcurrent := hstart.currentType p hp
      have hst : (start p).stage = stage := by
        unfold Node.stage
        rw [hcurrent, if_pos hstart.ofDs.ne_viewChange]
      obtain ⟨l, v, hl, hv, hexp⟩ := expecting_block (s := (start p).peer.staged (start p).stage) htwo
        (hstart.committee p hp) (show IsDsStage (start p).peer.currentType from hcurrent ▸ hstart.ofDs)
      exact (changing_of_expecting hpayload hvc hstart.distinct hmem
        ((hstart.committee p hp).trans (rotate_zero c).symm) rfl rfl rfl hst hstart.ofDs hcurrent hl hv hexp).2
    | succ j =>
      have hch := (ih p hp).2 (by omega)
      have hst : (ns p).stage = stage := by
        unfold Node.stage
        rw [if_neg (not_not.mpr hch.currentType), hch.lastStageType]
      obtain ⟨v, hv, hexp⟩ := hch.expecting hstart.distinct htwo hstart.ofDs
      exact (changing_of_expecting hpayload hvc hstart.distinct hmem hch.committee hch.selfNode hch.txHead
        hch.dsHead hst hstart.ofDs (by rw [hch.currentType, if_neg (by omega)]) hv hv hexp).2
  | @hear k ns p q msg _ hp hq hlead hbackup hmsg ih =>
    intro r hr
    refine ⟨fun hk => absurd hk (by omega), fun _ => ?_⟩
    by_cases hrq : r = q
    · subst hrq
      rw [Function.update_self]
      obtain ⟨sent, hsent, hann⟩ := ((ih p hp).2 (by omega)).announces hlead
      obtain rfl : sent = msg := some.inj (hsent.symm.trans hmsg)
      exact (((ih r hr).2 (by omega)).verifyVCBlock hstart.distinct htwo hstart.ofDs hann).2
    · rw [Function.update_of_ne hrq]
      exact (ih r hr).2 (by omega)

theorem exists_timeOuts (honest : List PeerEndpoint) (start : PeerEndpoint → Node P) (k : Nat) :
    ∃ ns, TimeOuts honest start k ns := by
  induction k with
  | zero => exact ⟨start, .start⟩
  | succ k ih =>
    obtain ⟨ns, h⟩ := ih
    exact ⟨_, .timeOut h⟩

theorem two_le_of_ne (hp : p ∈ c) (hq : q ∈ c) (hne : p ≠ q) : 2 ≤ c.length := by
  match c, hp, hq with
  | [_], hp, hq => exact absurd ((mem_singleton.mp hp).trans (mem_singleton.mp hq).symm) hne
  | _ :: _ :: _, _, _ => exact Nat.le_add_left 2 _

/-- The role tells who leads the view change. -/
theorem Changing.role_dsLead (hself : (start p).peer.selfNode = p)
    (h : Changing c stage (start p).peer k n) : n.role = .dsLead ↔ seat c (turn k) = some p := by
  rw [h.role, hself]
  constructor
  · intro hrole
    by_contra hne
    rw [if_neg (fun heq => hne heq.symm)] at hrole
    exact nomatch hrole
  · intro hseat
    rw [if_pos hseat.symm]

/-- The last message of `p` is a VC block announcement that `q` finds right. -/
def VCBlockAccepted (ns : PeerEndpoint → Node P) (p q : PeerEndpoint) : Prop :=
  ∃ msg, (ns p).peer.outbox.getLast? = some msg ∧ (verifyVCBlock P msg (ns q).peer).1 = .ok ()

theorem TimeOuts.accepted_iff (hpayload : P.payload.RoundTrip) (hvc : P.vcBlock.RoundTrip)
    (hstart : CommonStart c stage honest start) (h : TimeOuts honest start k ns) (hk : 1 ≤ k) (hp : p ∈ honest)
    (hq : q ∈ honest) (hne : p ≠ q) (hlead : (ns p).role = .dsLead) :
    VCBlockAccepted ns p q ↔ k = 1 ∧
      (start p).peer.txHead.numberU64 = (start q).peer.txHead.numberU64 ∧
      (start p).peer.dsHead.numberU64 = (start q).peer.dsHead.numberU64 := by
  have htwo := two_le_of_ne (hstart.member p hp) (hstart.member q hq) hne
  have hchanging := h.changing hpayload hvc hstart htwo
  obtain ⟨msg, hmsg, hann⟩ := ((hchanging p hp).2 hk).announces hlead
  rw [← (((hchanging q hq).2 hk).verifyVCBlock hstart.distinct htwo hstart.ofDs hann).1]
  constructor
  · rintro ⟨sent, hsent, hok⟩
    rwa [some.inj (hsent.symm.trans hmsg)] at hok
  · exact fun hok => ⟨msg, hmsg, hok⟩

/-- In each of `k` view changes in a row every announcement of an honest leader passes at every honest
backup. -/
def VCBlocksAccepted (honest : List PeerEndpoint) (start : PeerEndpoint → Node P) (k : Nat) : Prop :=
  ∀ j, 1 ≤ j → j ≤ k → ∀ ns, TimeOuts honest start j ns → ∀ p ∈ honest, ∀ q ∈ honest,
    (ns p).role = .dsLead → (ns q).role = .dsBackup → VCBlockAccepted ns p q

/-- **The acceptance theorem.** The announcements of honest leaders are accepted by all honest backups in all
of `k` view changes in a row exactly if no change after the first is led by an honest member with another
honest member listening, and at the first the heads of the chains have the same numbers. -/
theorem vcBlock_accepted_iff (hpayload : P.payload.RoundTrip) (hvc : P.vcBlock.RoundTrip)
    (hstart : CommonStart c stage honest start) (k : Nat) :
    VCBlocksAccepted honest start k ↔
    ∀ j, 1 ≤ j → j ≤ k → ∀ p ∈ honest, ∀ q ∈ honest, p ≠ q → seat c (turn j) = some p → j = 1 ∧
      (start p).peer.txHead.numberU64 = (start q).peer.txHead.numberU64 ∧
      (start p).peer.dsHead.numberU64 = (start q).peer.dsHead.numberU64 := by
  constructor
  · intro h j hj hjk p hp q hq hne hseat
    have htwo := two_le_of_ne (hstart.member p hp) (hstart.member q hq) hne
    obtain ⟨ns, hrun⟩ := exists_timeOuts honest start j
    have hchanging := hrun.changing hpayload hvc hstart htwo
    have hlead : (ns p).role = .dsLead :=
      (((hchanging p hp).2 hj).role_dsLead (hstart.selfNode p hp)).mpr hseat
    have hbackup : (ns q).role = .dsBackup := by
      rw [((hchanging q hq).2 hj).role, hstart.selfNode q hq, hseat, if_neg fun heq => hne (Option.some.inj heq).symm]
    exact (hrun.accepted_iff hpayload hvc hstart hj hp hq hne hlead).mp
      (h j hj hjk ns hrun p hp q hq hlead hbackup)
  · intro h j hj hjk ns hrun p hp q hq hlead hbackup
    have hne : p ≠ q := by
      rintro rfl
      rw [hlead] at hbackup
      exact nomatch hbackup
    have htwo := two_le_of_ne (hstart.member p hp) (hstart.member q hq) hne
    have hseat := (((hrun.changing hpayload hvc hstart htwo p hp).2 hj).role_dsLead (hstart.selfNode p hp)).mp hlead
    exact (hrun.accepted_iff hpayload hvc hstart hj hp hq hne hlead).mpr (h j hj hjk p hp q hq hne hseat)

/-- The member whose turn it is after `k` time-outs leads for the node, is first in its committee and is named
by its VC block. -/
structure Succeeded (c : List PeerEndpoint) (k : Nat) (n : Node P) : Prop where
  leader : some n.currentLeader = seat c k
  first : n.peer.committee[0]? = seat c k
  vcBlock : 1 ≤ k → ∃ b, n.peer.currentVCBlock = some b ∧ b.header.newLeader = seat c k

/-- **The succession theorem.** No time-out leaves the three agreed: the first of the committee is the member
whose turn it is, but the VC block names the next one. -/
theorem succeeded_iff (hpayload : P.payload.RoundTrip) (hvc : P.vcBlock.RoundTrip)
    (hstart : CommonStart c stage honest start) (htwo : 2 ≤ c.length)
    (hled : ∀ p ∈ honest, some (start p).currentLeader = seat c 0) (h : TimeOuts honest start k ns)
    {p : PeerEndpoint} (hp : p ∈ honest) : Succeeded c k (ns p) ↔ k = 0 := by
  have hchanging := h.changing hpayload hvc hstart htwo p hp
  constructor
  · intro hs
    by_contra hk
    obtain ⟨b, hb, hnamed⟩ := ((hchanging.2 (by omega))).vcBlock
    obtain ⟨b', hb', hnamed'⟩ := hs.vcBlock (by omega)
    obtain rfl : b = b' := Option.some.inj (hb.symm.trans hb')
    obtain ⟨u, hu⟩ := exists_seat (c := c) (by omega) k
    exact seat_succ_ne hstart.distinct htwo k hu (hnamed.symm.trans (hnamed'.trans hu)) rfl
  · rintro rfl
    rw [hchanging.1 rfl]
    refine ⟨hled p hp, ?_, fun hk => absurd hk (by omega)⟩
    rw [hstart.committee p hp, seat, Nat.zero_mod]

end

/-! ### A committee of three -/

def tripleCommittee : List PeerEndpoint := [Chain.peerWithKey 5, Chain.peerWithKey 6, Chain.peerWithKey 7]

/-- A member of the committee in a DS block round led by the first. -/
def tripleMember (key : Nat) : Node Platform.sample where
  peer := sampleNode key tripleCommittee
  dsConsensusLeader := newConsensusLead (sampleNode key tripleCommittee) false
  consensusLeader := newConsensusLead (sampleNode key tripleCommittee) true
  lastStageType := .dsBlock
  role := if key = 5 then .dsLead else .dsBackup

def tripleStart (p : PeerEndpoint) : Node Platform.sample :=
  if p = Chain.peerWithKey 5 then tripleMember 5
  else if p = Chain.peerWithKey 6 then tripleMember 6 else tripleMember 7

theorem triple_commonStart : CommonStart tripleCommittee .dsBlock tripleCommittee tripleStart where
  ofDs := .inl rfl
  distinct := by decide +kernel
  member := fun _ hp => hp
  selfNode := by decide +kernel
  committee := by decide +kernel
  currentType := by decide +kernel

theorem triple_heads (p q : PeerEndpoint) :
    (tripleStart p).peer.txHead.numberU64 = (tripleStart q).peer.txHead.numberU64 ∧
    (tripleStart p).peer.dsHead.numberU64 = (tripleStart q).peer.dsHead.numberU64 := by
  have h : ∀ r, (tripleStart r).peer.txHead = Core.sampleBlock 0 [] ∧ (tripleStart r).peer.dsHead = Chain.dsFirst := by
    intro r
    unfold tripleStart
    split
    · exact ⟨rfl, rfl⟩
    · split <;> exact ⟨rfl, rfl⟩
  rw [(h p).1, (h p).2, (h q).1, (h q).2]
  exact ⟨rfl, rfl⟩

theorem triple_changing {k : Nat} {ns : PeerEndpoint → Node Platform.sample}
    (h : TimeOuts tripleCommittee tripleStart k ns) (hk : 1 ≤ k) (hp : p ∈ tripleCommittee) :
    Changing tripleCommittee .dsBlock (tripleStart p).peer k (ns p) :=
  (h.changing (Codec.numbered_roundTrip _) (Codec.numbered_roundTrip _) triple_commonStart (by decide) p hp).2 hk

/-- The first view change of the three is accepted. -/
theorem vcBlock_accepted_triple : VCBlocksAccepted tripleCommittee tripleStart 1 :=
  (vcBlock_accepted_iff (Codec.numbered_roundTrip _) (Codec.numbered_roundTrip _) triple_commonStart 1).mpr
    fun j hj hj' p _ q _ _ _ => ⟨by omega, triple_heads p q⟩

/-- The second one is led by the first member again, whose announcement the second member rejects. -/
theorem vcBlock_rejected_triple : CommonStart tripleCommittee .dsBlock tripleCommittee tripleStart ∧
    ∃ ns, TimeOuts tripleCommittee tripleStart 2 ns ∧ (ns (Chain.peerWithKey 5)).role = .dsLead ∧
      (ns (Chain.peerWithKey 6)).role = .dsBackup ∧
      ¬VCBlockAccepted ns (Chain.peerWithKey 5) (Chain.peerWithKey 6) := by
  obtain ⟨ns, hrun⟩ := exists_timeOuts tripleCommittee tripleStart 2
  have h5 : Chain.peerWithKey 5 ∈ tripleCommittee := List.mem_cons_self
  have h6 : Chain.peerWithKey 6 ∈ tripleCommittee := List.mem_cons_of_mem _ List.mem_cons_self
  have hlead : (ns (Chain.peerWithKey 5)).role = .dsLead :=
    (triple_changing hrun (by omega) h5).role.trans (by decide +kernel)
  refine ⟨triple_commonStart, ns, hrun, hlead, (triple_changing hrun (by omega) h6).role.trans (by decide +kernel),
    fun haccepted => ?_⟩
  have hiff := hrun.accepted_iff (Codec.numbered_roundTrip _) (Codec.numbered_roundTrip _) triple_commonStart
    (by omega) h5 h6 (by decide +kernel) hlead
  exact absurd (hiff.mp haccepted).1 (by decide)

/-- Before the first time-out the first member leads. -/
theorem succeeded_triple : Succeeded tripleCommittee 0 (tripleStart (Chain.peerWithKey 6)) :=
  (succeeded_iff (Codec.numbered_roundTrip _) (Codec.numbered_roundTrip _) triple_commonStart (by decide)
    (by decide +kernel) .start (List.mem_cons_of_mem _ List.mem_cons_self)).mpr rfl

/-- After one time-out the second member leads and is first, but the VC block names the third; after two the
third is first, but the first member leads and is named. -/
theorem triple_not_succeeded : ∃ ns ms, TimeOuts tripleCommittee tripleStart 1 ns ∧
    TimeOuts tripleCommittee tripleStart 2 ms ∧
    (some (ns (Chain.peerWithKey 5)).currentLeader = tripleCommittee[1]? ∧
      (ns (Chain.peerWithKey 5)).peer.committee[0]? = tripleCommittee[1]? ∧
      ∃ b, (ns (Chain.peerWithKey 5)).peer.currentVCBlock = some b ∧
        b.header.newLeader = tripleCommittee[2]?) ∧
    (some (ms (Chain.peerWithKey 5)).currentLeader = tripleCommittee[0]? ∧
      (ms (Chain.peerWithKey 5)).peer.committee[0]? = tripleCommittee[2]? ∧
      ∃ b, (ms (Chain.peerWithKey 5)).peer.currentVCBlock = some b ∧
        b.header.newLeader = tripleCommittee[0]?) := by
  obtain ⟨ns, hns⟩ := exists_timeOuts tripleCommittee tripleStart 1
  obtain ⟨ms, hms⟩ := exists_timeOuts tripleCommittee tripleStart 2
  have hone := triple_changing hns le_rfl List.mem_cons_self
  have htwo := triple_changing hms (by omega) List.mem_cons_self
  have hseats : seat tripleCommittee 1 = tripleCommittee[1]? ∧ seat tripleCommittee 2 = tripleCommittee[2]? ∧
      seat tripleCommittee 3 = tripleCommittee[0]? := by decide +kernel
  obtain ⟨b, hb, hnamed⟩ := hone.vcBlock
  obtain ⟨b', hb', hnamed'⟩ := htwo.vcBlock
  refine ⟨ns, ms, hns, hms, ⟨hone.leader.trans hseats.1, ?_, b, hb, hnamed.trans hseats.2.1⟩,
    htwo.leader.trans hseats.2.2, ?_, b', hb', hnamed'.trans hseats.2.2⟩
  · rw [hone.committee]
    exact hseats.1
  · rw [htwo.committee]
    exact hseats.2.1

end Okchain.Consensus
