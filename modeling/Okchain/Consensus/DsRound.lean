import Okchain.Consensus.HonestLead
import Okchain.Consensus.Wire
import Okchain.Lib.Run

/-! A DS block round among honest nodes.

The leader and the backups exchange messages over links that deliver in order. A step delivers one message, and which
link delivers next is left open, so a run is an arrival order.
-/
namespace Okchain.Consensus
open Lib Protos
open Proc hiding step
open Chain (getToleranceSize)

/-- The nodes and the links. `sent` and `accepted` keep what the leader has sent to all backups and the
types of the messages each backup has accepted. -/
structure DsRound (P : Platform) where
  lead : ConsensusLead P
  backup : PeerEndpoint → PeerServer P
  toBackup : PeerEndpoint → List Message
  toLead : PeerEndpoint → List Message
  sent : List Message
  accepted : PeerEndpoint → List MessageType

inductive Delivery
  | toBackup (p : PeerEndpoint)
  | toLead (p : PeerEndpoint)

variable {P : Platform}

/-- Those a multicast of the leader reaches: it skips its own key. -/
def ConsensusLead.backups (lead : ConsensusLead P) : List PeerEndpoint :=
  lead.consensusBackupNodes.filter fun p => p.pubkey ≠ lead.peer.selfNode.pubkey

namespace DsRound

/-- The leader has run, and what it sends goes out on every link. -/
def multicast (r : DsRound P) (lead : ConsensusLead P) : DsRound P :=
  {r with
    lead := {lead with peer := {lead.peer with outbox := []}}
    toBackup := fun p => if p ∈ lead.backups then r.toBackup p ++ lead.peer.outbox else r.toBackup p
    sent := r.sent ++ lead.peer.outbox}

def leadHandles (r : DsRound P) (p : PeerEndpoint) (msg : Message) (rest : List Message) : DsRound P :=
  multicast {r with toLead := Function.update r.toLead p rest}
    (ConsensusLead.processConsensusMsg msg p r.lead).2

def backupHandles (r : DsRound P) (p : PeerEndpoint) (msg : Message) (rest : List Message) : DsRound P :=
  let s := (processConsensusMsg msg r.lead.peer.selfNode (r.backup p)).2
  {r with
    backup := Function.update r.backup p {s with outbox := []}
    toBackup := Function.update r.toBackup p rest
    toLead := Function.update r.toLead p (r.toLead p ++ s.outbox)
    accepted := if accepts msg r.lead.peer.selfNode (r.backup p)
      then Function.update r.accepted p (r.accepted p ++ [msg.type]) else r.accepted}

/-- The first message of a link, if there is one, is handled. -/
def deliver (link : List Message) (handle : Message → List Message → DsRound P) : Option (DsRound P) :=
  match link with
  | [] => none
  | msg :: rest => some (handle msg rest)

def step (r : DsRound P) : Delivery → Option (DsRound P)
  | .toBackup p => deliver (r.toBackup p) (r.backupHandles p)
  | .toLead p => deliver (r.toLead p) (r.leadHandles p)

variable {r t : DsRound P} {p : PeerEndpoint} {link : List Message} {handle : Message → List Message → DsRound P}

theorem deliver_some (h : deliver link handle = some t) : ∃ m rest, link = m :: rest ∧ t = handle m rest := by
  cases link with
  | nil => exact nomatch h
  | cons m rest => exact ⟨m, rest, rfl, (Option.some.inj h).symm⟩

theorem deliver_none (h : deliver link handle = none) : link = [] := by
  cases link with
  | nil => rfl
  | cons m rest => exact nomatch h

def start (lead : ConsensusLead P) (backup : PeerEndpoint → PeerServer P) : DsRound P :=
  multicast ⟨lead, backup, fun _ => [], fun _ => [], [], fun _ => []⟩ (onDsBlockConsensusStart lead).2

def Quiescent (r : DsRound P) : Prop := ∀ e, r.step e = none

theorem Quiescent.toBackup (h : r.Quiescent) (p : PeerEndpoint) : r.toBackup p = [] := deliver_none (h (.toBackup p))

theorem Quiescent.toLead (h : r.Quiescent) (p : PeerEndpoint) : r.toLead p = [] := deliver_none (h (.toLead p))

structure Completed (r : DsRound P) : Prop where
  sent : r.sent.map (·.type) = [.consensusAnnounce, .consensusFinalCollectiveSig, .consensusBroadCastBlock]
  accepted : ∀ p ∈ r.lead.backups, r.accepted p =
    [.consensusAnnounce, .consensusFinalCollectiveSig, .consensusBroadCastBlock]
  agreed : ∃ b, ∀ p ∈ r.lead.backups, (r.backup p).currentDSBlock = some b

end DsRound

/-! ### An honest start -/

/-- A backup that is ready for the round and accepts what the leader announces. -/
structure ReadyBackup (lead : ConsensusLead P) (key : PeerEndpoint → P.bls.PriKey) (p : PeerEndpoint)
    (s : PeerServer P) : Prop where
  selfNode : s.selfNode = p
  privateKey : s.privateKey = key p
  leader : s.leader.pubkey = lead.peer.selfNode.pubkey
  currentType : s.currentType = .dsBlock
  committee : s.committee.Perm lead.peer.committee
  outbox : s.outbox = []
  accepts : ∀ m ∈ (onDsBlockConsensusStart lead).2.peer.outbox,
    (verifyAnnounced P m .dsBlock s).1 = .ok ()

/-- Everybody is honest and ready. The last fields are what is assumed of the signature library and of the
wire format. -/
structure HonestStart (lead : ConsensusLead P) (backup : PeerEndpoint → PeerServer P)
    (key : PeerEndpoint → P.bls.PriKey) : Prop where
  two_le : 2 ≤ lead.peer.committee.length
  self_mem : lead.peer.selfNode ∈ lead.peer.committee
  keyed : ∀ p ∈ lead.peer.committee, Keyed key p
  long : ∀ p ∈ lead.peer.committee, 8 ≤ p.pubkey.length
  distinct : (lead.peer.committee.map fun p => p.pubkey.take 8).Nodup
  privateKey : lead.peer.privateKey = key lead.peer.selfNode
  dsLead : lead.shardLead = false
  noVotes : lead.publicKey2MsgMap = fun _ => false
  noSum : lead.finalBLSSign = 0 ∧ lead.gPubkey = 0
  outbox : lead.peer.outbox = []
  starts : (onDsBlockConsensusStart lead).1 = .ok ()
  backups : ∀ p ∈ lead.peer.committee, p ≠ lead.peer.selfNode → ReadyBackup lead key p (backup p)
  bls : P.bls.Complete
  wire : DsRoundTrip P

variable {b : DSBlock} {lead : ConsensusLead P}

theorem mHash_of_hash {E : Env} {hash : Hash} (h : b.header.hash E = .ok hash) :
    b.mHash E = .ok (E.hashList [Rlp.ofBytes hash.bytes, Rlp.ofBytes (b.body.hash E).bytes]) := by
  unfold DSBlock.mHash
  rw [h]
  rfl

theorem composeDSBlock_ok {s : PeerServer P} (h : composeDSBlock s = .ok b) :
    getSeal b = Seal.none ∧ ∃ d, b.mHash P.toEnv = .ok d := by
  unfold composeDSBlock at h
  split at h
  · exact nomatch h
  · obtain ⟨previous, _, h⟩ := except_bind_ok.mp h
    obtain ⟨winner, _, h⟩ := except_bind_ok.mp h
    split at h
    · exact nomatch h
    · obtain ⟨last, _, h⟩ := except_bind_ok.mp h
      obtain ⟨rest, _, h⟩ := except_bind_ok.mp h
      obtain ⟨hash, hhash, h⟩ := except_bind_ok.mp h
      cases h
      exact ⟨rfl, _, mHash_of_hash hhash⟩

def leadPeer (lead : ConsensusLead P) (b : DSBlock) (issued : List Signable) : PeerServer P :=
  {lead.peer with currentType := .dsBlock, currentDSBlock := some b, issued := issued}

def ConsensusLead.started (lead : ConsensusLead P) (b : DSBlock) (issued : List Signable) : ConsensusLead P :=
  {lead with
    peer := {leadPeer lead b issued with outbox := lead.peer.outbox ++ [announcement lead.peer b]}
    state := .announceDone
    counter := 0
    consensusBackupNodes := lead.peer.committee
    toleranceSize := getToleranceSize lead.peer.committee.length}

theorem onDsBlockConsensusStart_run (hb : composeDSBlock lead.peer = .ok b) :
    ∃ l, onDsBlockConsensusStart lead = (.ok (), lead.started b l) := by
  obtain ⟨l, hl⟩ := signedMessage_run (lead.peer.holding b) .consensusAnnounce
    (consensusPayload P .dsBlock (P.dsBlock.marshal b))
  have hrun : announceDSBlock lead.peer =
      (.ok (announcement lead.peer b), {lead.peer.holding b with issued := l}) := by
    unfold announceDSBlock
    rw [bind_read, id_eq, bind_lift (orError_ok.mpr hb)]
    exact hl
  refine ⟨l, ?_⟩
  unfold onDsBlockConsensusStart
  rw [bind_run (onPeer_run hrun)]
  rfl

theorem onDsBlockConsensusStart_ok (h : (onDsBlockConsensusStart lead).1 = .ok ()) :
    ∃ b d l, b.mHash P.toEnv = .ok d ∧ getSeal b = Seal.none ∧
      (onDsBlockConsensusStart lead).2 = lead.started b l := by
  obtain ⟨t, ht⟩ := fst_ok.mp h
  obtain ⟨m, u, hannounce, _⟩ := bind_ok.mp ht
  have hfst : (announceDSBlock lead.peer).1 = .ok m := congrArg Prod.fst hannounce
  obtain ⟨v, hpeer⟩ := fst_ok.mp hfst
  unfold announceDSBlock at hpeer
  rw [bind_read] at hpeer
  obtain ⟨b, _, hcompose, _⟩ := bind_ok.mp hpeer
  have hb := orError_ok.mp (lift_ok.mp hcompose).1
  obtain ⟨hfresh, d, hd⟩ := composeDSBlock_ok hb
  obtain ⟨l, hrun⟩ := onDsBlockConsensusStart_run hb
  exact ⟨b, d, l, hd, hfresh, congrArg Prod.snd hrun⟩

/-! ### A committee of two, whose tolerance is one -/

open Platform (sample)

theorem sample_dsRoundTrip : DsRoundTrip sample :=
  ⟨Codec.numbered_roundTrip _, Codec.numbered_roundTrip _, Codec.numbered_roundTrip _, Codec.numbered_roundTrip _⟩

/-- The key an endpoint of the computable platform is made of. -/
def sampleKey (p : PeerEndpoint) : sample.bls.PriKey := (MultiSig.ofNatBytes p.pubkey).getD (0 : Nat)

theorem sampleKey_peer (k : Nat) : sampleKey (Chain.peerWithKey k) = k := by
  show (MultiSig.ofNatBytes (MultiSig.natBytes k)).getD (0 : Nat) = k
  rw [MultiSig.ofNatBytes_natBytes]
  rfl

theorem sample_keyed (k : Nat) : Keyed sampleKey (Chain.peerWithKey k) := by
  unfold Keyed
  rw [sampleKey_peer]
  rfl

theorem sample_honest (k : Nat) (committee : List PeerEndpoint) :
    Honest sampleKey (Chain.peerWithKey k) (sampleNode k committee) :=
  ⟨rfl, (sampleKey_peer k).symm, sample_keyed k⟩

def twoMembers : List PeerEndpoint := [Chain.peerWithKey 5, Chain.peerWithKey 6]

theorem twoMembers_sorted : sortByPubkey sample.toEnv twoMembers = .ok (sample.sortPeers twoMembers) :=
  sortByPubkey_eq (List.Perm.refl _) (by decide +kernel) (by decide +kernel)

theorem mem_twoMembers {p : PeerEndpoint} (hp : p ∈ twoMembers) : p = Chain.peerWithKey 5 ∨ p = Chain.peerWithKey 6 :=
  (List.mem_cons.mp hp).imp_right List.mem_singleton.mp

theorem twoMembers_keyed {p : PeerEndpoint} (hp : p ∈ twoMembers) : Keyed sampleKey p :=
  (mem_twoMembers hp).elim (· ▸ sample_keyed 5) (· ▸ sample_keyed 6)

theorem mem_sortedTwo {p : PeerEndpoint} (hp : p ∈ sample.sortPeers twoMembers) : p ∈ twoMembers :=
  (sample.sortPeers_perm twoMembers).mem_iff.mp hp

theorem twoMembers_known : twoMembers.any (fun q => q.pubkey = (Chain.peerWithKey 6).pubkey) = true := by
  decide +kernel

theorem exists_sample_block : ∃ (b : DSBlock) (d : Hash), getSeal b = Seal.none ∧ b.mHash sample.toEnv = .ok d := by
  have hcomposed : (composeDSBlock (sampleNode 5 twoMembers)).isOk = true := by decide +kernel
  obtain ⟨b, hb⟩ := Core.exists_of_isOk hcomposed
  obtain ⟨hfresh, d, hd⟩ := composeDSBlock_ok hb
  exact ⟨b, d, hfresh, hd⟩

/-- The member with key 5 has announced the block. -/
def twoMembersLead (b : DSBlock) : ConsensusLead sample :=
  (initiateConsensus (announcement (sampleNode 5 twoMembers) b) twoMembers
    (newConsensusLead ((sampleNode 5 twoMembers).holding b) false)).2

/-- Whoever signs a response, if the member with key 6 passes it on, it completes the count. -/
theorem twoMembers_completes (k : Nat) {d : Hash} (hfresh : getSeal b = Seal.none) (hd : b.mHash sample.toEnv = .ok d) :
    ∃ l, ConsensusLead.processConsensusMsg (response (sampleNode k twoMembers) b d) (Chain.peerWithKey 6)
        (twoMembersLead b) = (.ok ⟨⟩, (twoMembersLead b).advanced ((twoMembersLead b).peer.after
          (sealedBy sampleKey (sample.sortPeers twoMembers) (fun p => decide (p = Chain.peerWithKey k)) b d) l
          [finalCollectiveSig (twoMembersLead b).peer
            (sealedBy sampleKey (sample.sortPeers twoMembers) (fun p => decide (p = Chain.peerWithKey k)) b d)])
          .finalCollectiveSigDone) := by
  have hinj : ∀ q ∈ sample.sortPeers twoMembers, sample.bls.pubOf (sampleKey q) =
      sample.bls.pubOf (sampleKey (Chain.peerWithKey k)) → q = Chain.peerWithKey k := by
    intro q hq heq
    have heq : sampleKey q = sampleKey (Chain.peerWithKey k) := heq
    rcases mem_twoMembers (mem_sortedTwo hq) with rfl | rfl
    all_goals
      rw [sampleKey_peer, sampleKey_peer] at heq
      rw [show k = _ from heq.symm]
  have hlast : ((0 + 1 : Nat) : Int) = getToleranceSize 2 := by decide
  have hempty : Tally sampleKey (sample.sortPeers twoMembers) (fun _ => false) d.bytes (twoMembersLead b) :=
    .of_empty rfl
  have htally := hempty.noting hinj
  simp only [Bool.or_false] at htally
  obtain ⟨l, hrun⟩ := processMessageResponse_completes MultiSig.linear_complete sample_dsRoundTrip
    (sample_honest k twoMembers) hd hfresh rfl rfl rfl hlast rfl (fun p hp => twoMembers_keyed (mem_sortedTwo hp))
    twoMembers_sorted rfl rfl htally
  exact ⟨l, ConsensusLead.processConsensusMsg_run twoMembers_known (.inl ⟨rfl, rfl⟩) hrun⟩

end Okchain.Consensus
