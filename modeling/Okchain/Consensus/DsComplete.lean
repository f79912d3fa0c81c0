import Okchain.Consensus.DsRound

/-! An honest DS block round completes.

After `n` counts of the leader, each backup has handled some of its `n + 1` multicasts and the leader some of the
backup's answers. These numbers say what is on every link and what every node holds. A step raises one of them, and a
round in which none can be raised has gone through all three multicasts.
-/
namespace Okchain.Consensus
open Lib Protos Function List
open Chain (getToleranceSize)

variable {P : Platform}
variable {k : Nat} {m : Message}

section

variable (lead : ConsensusLead P)

def sortedCommittee : List PeerEndpoint := P.sortPeers lead.peer.committee

def others : List PeerEndpoint := lead.peer.committee.filter fun p => p.pubkey ≠ lead.peer.selfNode.pubkey

def tolerance : Int := getToleranceSize lead.peer.committee.length

end

/-- Who takes part, and the block that is announced with its digest. -/
structure Cast (P : Platform) where
  lead : ConsensusLead P
  backup : PeerEndpoint → PeerServer P
  key : PeerEndpoint → P.bls.PriKey
  block : DSBlock
  hash : Hash

structure Scene (c : Cast P) : Prop where
  honest : HonestStart c.lead c.backup c.key
  digest : c.block.mHash P.toEnv = .ok c.hash
  fresh : getSeal c.block = Seal.none
  accepts : ∀ p ∈ c.lead.peer.committee, p ≠ c.lead.peer.selfNode →
    (verifyAnnounced P (announcement c.lead.peer c.block) .dsBlock (c.backup p)).1 = .ok ()

variable {c : Cast P}

namespace Scene

variable {p q : PeerEndpoint}

theorem mem_sorted : p ∈ sortedCommittee c.lead ↔ p ∈ c.lead.peer.committee :=
  (P.sortPeers_perm _).mem_iff

theorem length_sorted : (sortedCommittee c.lead).length = c.lead.peer.committee.length :=
  (P.sortPeers_perm _).length_eq

/-! ### The members -/

variable (h : Scene c)

include h

theorem sort_eq {l : List PeerEndpoint} (hperm : l.Perm c.lead.peer.committee) :
    sortByPubkey P.toEnv l = .ok (sortedCommittee c.lead) :=
  sortByPubkey_eq hperm h.honest.long h.honest.distinct

theorem keyed : ∀ p ∈ sortedCommittee c.lead, Keyed c.key p :=
  fun p hp => h.honest.keyed p (mem_sorted.mp hp)

section
variable (hp : p ∈ c.lead.peer.committee)
include hp

theorem eq_of_pubkey (hq : q ∈ c.lead.peer.committee) (hpq : p.pubkey = q.pubkey) : p = q :=
  inj_on_of_nodup_map h.honest.distinct hp hq (congrArg (take 8) hpq)

theorem eq_of_pubOf (hq : q ∈ c.lead.peer.committee) (hpq : P.bls.pubOf (c.key p) = P.bls.pubOf (c.key q)) : p = q :=
  h.eq_of_pubkey hp hq (by rw [h.honest.keyed p hp, h.honest.keyed q hq, hpq])

theorem pubkey_eq_self : p.pubkey = c.lead.peer.selfNode.pubkey ↔ p = c.lead.peer.selfNode :=
  ⟨h.eq_of_pubkey hp h.honest.self_mem, fun heq => heq ▸ rfl⟩

end

theorem mem_others : p ∈ others c.lead ↔ p ∈ c.lead.peer.committee ∧ p ≠ c.lead.peer.selfNode := by
  unfold others
  rw [mem_filter, decide_eq_true_eq]
  exact and_congr_right fun hp => not_congr (h.pubkey_eq_self hp)

theorem nodup_committee : c.lead.peer.committee.Nodup := h.honest.distinct.of_map _

theorem nodup_others : (others c.lead).Nodup := h.nodup_committee.filter _

theorem length_others : (others c.lead).length + 1 = c.lead.peer.committee.length := by
  have herase : others c.lead = c.lead.peer.committee.erase c.lead.peer.selfNode := by
    rw [h.nodup_committee.erase_eq_filter]
    refine filter_congr fun p hp => ?_
    rw [Bool.eq_iff_iff, decide_eq_true_eq, bne_iff_ne]
    exact not_congr (h.pubkey_eq_self hp)
  rw [herase, length_erase_of_mem h.honest.self_mem]
  have := h.honest.two_le
  omega

theorem tolerance_le : tolerance c.lead ≤ (others c.lead).length := by
  have := h.length_others
  have := h.honest.two_le
  unfold tolerance getToleranceSize
  omega

theorem tolerance_pos : 1 ≤ tolerance c.lead := by
  have := h.honest.two_le
  unfold tolerance getToleranceSize
  omega

theorem leadHonest : Honest c.key c.lead.peer.selfNode c.lead.peer :=
  ⟨rfl, h.honest.privateKey, h.honest.keyed _ h.honest.self_mem⟩

theorem ready (hp : p ∈ others c.lead) : ReadyBackup c.lead c.key p (c.backup p) :=
  h.honest.backups p (h.mem_others.mp hp).1 (h.mem_others.mp hp).2

theorem backupHonest (hp : p ∈ others c.lead) : Honest c.key p (c.backup p) :=
  ⟨(h.ready hp).selfNode, (h.ready hp).privateKey, h.honest.keyed p (h.mem_others.mp hp).1⟩

end Scene

/-! ### Voters -/

def votedBy (voters : List PeerEndpoint) (p : PeerEndpoint) : Bool := decide (p ∈ voters)

theorem votedBy_cons (voters : List PeerEndpoint) (p : PeerEndpoint) :
    votedBy (p :: voters) = fun q => decide (q = p) || votedBy voters q := by
  funext q
  unfold votedBy
  rw [← Bool.decide_or]
  exact decide_eq_decide.mpr mem_cons

structure Voters (lead : ConsensusLead P) (voters : List PeerEndpoint) : Prop where
  nodup : voters.Nodup
  subset : ∀ p ∈ voters, p ∈ others lead

theorem Voters.nil : Voters c.lead [] := ⟨nodup_nil, fun _ hp => nomatch hp⟩

variable {voters : List PeerEndpoint} {p : PeerEndpoint}

theorem Voters.cons (hv : Voters c.lead voters)
    (hp : p ∈ others c.lead) (hnew : p ∉ voters) : Voters c.lead (p :: voters) :=
  ⟨nodup_cons.mpr ⟨hnew, hv.nodup⟩, fun q hq => (mem_cons.mp hq).elim (· ▸ hp) (hv.subset q)⟩

theorem Voters.quorum (hv : Voters c.lead voters) (h : Scene c)
    (hcount : (voters.length : Int) = tolerance c.lead) : Quorum (sortedCommittee c.lead) (votedBy voters) := by
  have hperm : ((sortedCommittee c.lead).filter (votedBy voters)).Perm voters := by
    refine (perm_ext_iff_of_nodup ?_ hv.nodup).mpr fun p => ?_
    · exact ((P.sortPeers_perm _).nodup_iff.mpr h.nodup_committee).filter _
    · unfold votedBy
      rw [mem_filter, decide_eq_true_eq, Scene.mem_sorted]
      exact ⟨And.right, fun hp => ⟨(h.mem_others.mp (hv.subset p hp)).1, hp⟩⟩
  have hlength := hperm.length_eq
  have hpos := h.tolerance_pos
  refine ⟨?_, fun hnil => ?_⟩
  · rw [hlength, hcount, Scene.length_sorted]
    exact le_rfl
  · rw [hnil, length_nil] at hlength
    omega

/-! ### What is sent and held -/

namespace Cast

variable (c : Cast P) (V : List PeerEndpoint) (votes : Nat → List PeerEndpoint) (p : PeerEndpoint)

/-- The signature on the block by the voters of the first count. -/
def signature : Bytes :=
  signedBy c.key (sortedCommittee c.lead) (votedBy V) c.hash.bytes

def sealedBlock : DSBlock := sealedBy c.key (sortedCommittee c.lead) (votedBy V) c.block c.hash

/-- What the voters of each count sign: the block, and then the signature on it. -/
def text : Nat → Bytes
  | 0 => c.hash.bytes
  | _ => c.signature (votes 0)

/-- The voters of the second count and their signature on the signature. -/
def sig2 : BoolMapSignature where
  boolMap := (sortedCommittee c.lead).map (votedBy (votes 1))
  signature := signedBy c.key (sortedCommittee c.lead) (votedBy (votes 1)) (c.text votes 1)

/-- The three multicasts of the leader. -/
def script : List Message :=
  [announcement c.lead.peer c.block, finalCollectiveSig c.lead.peer (c.sealedBlock (votes 0)),
    broadCastBlock c.lead.peer (c.sealedBlock (votes 0)) (c.sig2 votes)]

/-- The answers of a backup to the first two. -/
def replies : List Message :=
  [response (c.backup p) c.block c.hash, finalResponse (c.backup p) (c.signature (votes 0))]

/-- The leader's block after some counts. -/
def leadBlock : Nat → DSBlock
  | 0 => c.block
  | _ => c.sealedBlock (votes 0)

/-- A backup after some messages. -/
def nodeAt (k : Nat) (issued : List Signable) : PeerServer P :=
  match k with
  | 0 => c.backup p
  | 1 => {(c.backup p).holding (withSignature c.block (signatureOn (c.backup p) c.hash.bytes)) with
    issued := issued}
  | 2 => {(c.backup p).holding (withSignature c.block (c.signature (votes 0))) with issued := issued}
  | _ => {(c.backup p).holding (c.sealedBlock (votes 0)) with issued := issued}

end Cast

/-! ### A backup handles the next message -/

theorem processConsensusMsg_of_handler {msg : Message} {sender : PeerEndpoint} {s t : PeerServer P}
    {x : NodeProc P Unit} (hleader : s.leader.pubkey = sender.pubkey) (hx : handler msg = some x)
    (hrun : x s = (.ok (), t)) :
    processConsensusMsg msg sender s = (.ok (), t) ∧ accepts msg sender s = true := by
  refine ⟨?_, ?_⟩
  · unfold processConsensusMsg
    rw [Proc.bind_ensureState (s := s) hleader, hx]
    exact dropError_run hrun
  · unfold accepts
    rw [hx, Option.any_some, hrun]
    simp [hleader, Except.toBool]

variable {votes votes' : Nat → List PeerEndpoint}

/-- A backup accepts every message of the leader, and its answer is the one at the same place. -/
theorem backup_step (h : Scene c) (hp : p ∈ others c.lead) (hm : (c.script votes)[k]? = some m)
    (hvotes : ∀ i < k, Quorum (sortedCommittee c.lead) (votedBy (votes i))) (l : List Signable) :
    ∃ l', processConsensusMsg m c.lead.peer.selfNode (c.nodeAt votes p k l) =
        (.ok (), {c.nodeAt votes p (k + 1) l' with outbox := (c.replies votes p)[k]?.toList}) ∧
      accepts m c.lead.peer.selfNode (c.nodeAt votes p k l) = true := by
  have hready := h.ready hp
  have hbls := h.honest.bls
  have hwire := h.honest.wire
  have hsort := h.sort_eq hready.committee
  match k, hm with
  | 0, hm =>
    cases hm
    have hacc := h.accepts p (h.mem_others.mp hp).1 (h.mem_others.mp hp).2
    obtain ⟨l', hrun⟩ := processMessageAnnounce_run hbls hwire h.leadHonest hready.currentType h.digest hacc
    refine ⟨l', processConsensusMsg_of_handler hready.leader rfl (hrun.trans ?_)⟩
    unfold PeerServer.after
    rw [hready.outbox]
    rfl
  | 1, hm =>
    cases hm
    obtain ⟨l', hrun⟩ := processMessageFinalCollectiveSig_run (s := c.nodeAt votes p 1 l) hbls hwire h.leadHonest
      hready.currentType h.digest hsort h.keyed (hvotes 0 (by omega)) rfl
    refine ⟨l', processConsensusMsg_of_handler hready.leader rfl (hrun.trans ?_)⟩
    unfold PeerServer.after
    rw [show (c.nodeAt votes p 1 l).outbox = [] from hready.outbox]
    rfl
  | 2, hm =>
    cases hm
    have hrun := processMessageBroadCastBlock_run (s := c.nodeAt votes p 2 l) hbls hwire h.leadHonest
      hready.currentType h.digest hsort h.keyed (hvotes 0 (by omega)) rfl (hvotes 1 (by omega)) h.fresh
    refine ⟨l, processConsensusMsg_of_handler hready.leader rfl (hrun.trans ?_)⟩
    have hout : (c.nodeAt votes p 2 l).outbox = [] := hready.outbox
    have hlast : (c.replies votes p)[2]?.toList = [] := rfl
    rw [hlast, ← hout]
    rfl

/-! ### The leader handles the next answer -/

def stateAt : Nat → ConsensusState
  | 0 => .announceDone
  | 1 => .finalCollectiveSigDone
  | _ => .broadCastBlockDone

/-- The leader after `n` counts; `votes i` are the backups counted in count `i`. -/
structure LeadAt (c : Cast P) (n : Nat) (votes : Nat → List PeerEndpoint) (s : ConsensusLead P) : Prop where
  peer : ∃ l, s.peer = leadPeer c.lead (c.leadBlock votes n) l
  role : s.shardLead = false
  nodes : s.consensusBackupNodes = c.lead.peer.committee
  tolerance : s.toleranceSize = tolerance c.lead
  noSum : s.finalBLSSign = 0 ∧ s.gPubkey = 0
  range : n ≤ 2
  state : s.state = stateAt n
  voters : ∀ i, Voters c.lead (votes i)
  closed : ∀ i < n, ((votes i).length : Int) = Consensus.tolerance c.lead
  ahead : ∀ i, n < i → votes i = []
  counting : n < 2 → s.counter = (votes n).length ∧ ((votes n).length : Int) < Consensus.tolerance c.lead ∧
    Tally c.key (sortedCommittee c.lead) (votedBy (votes n)) (c.text votes n) s

def ConsensusLead.drained (s : ConsensusLead P) : ConsensusLead P := {s with peer := {s.peer with outbox := []}}

/-- One more voter in count `i`. -/
def voting (votes : Nat → List PeerEndpoint) (i : Nat) (p : PeerEndpoint) : Nat → List PeerEndpoint :=
  update votes i (p :: votes i)

section

variable {n : Nat} {s : ConsensusLead P} {p : PeerEndpoint}

theorem voting_self : voting votes n p n = p :: votes n := update_self _ _ _

theorem voting_of_ne {i : Nat} (h : i ≠ n) : voting votes n p i = votes i := update_of_ne h _ _

theorem text_voting : c.text (voting votes n p) n = c.text votes n := by
  match n with
  | 0 => rfl
  | n + 1 => exact congrArg c.signature (voting_of_ne (Nat.succ_ne_zero n).symm)

theorem leadBlock_voting : c.leadBlock (voting votes n p) n = c.leadBlock votes n := by
  match n with
  | 0 => rfl
  | n + 1 => exact congrArg c.sealedBlock (voting_of_ne (Nat.succ_ne_zero n).symm)

section
variable (h : Scene c)
include h

section
variable (hs : LeadAt c n votes s)
include hs

theorem LeadAt.outbox : s.peer.outbox = [] := by
  obtain ⟨l, hl⟩ := hs.peer
  rw [hl]
  exact h.honest.outbox

theorem LeadAt.drained_eq : s.drained = s := by
  unfold ConsensusLead.drained
  rw [← hs.outbox h]

omit h in
theorem LeadAt.voters_voting (hp : p ∈ others c.lead) (hnew : p ∉ votes n) (i : Nat) :
    Voters c.lead (voting votes n p i) := by
  by_cases hi : i = n
  · rw [hi, voting_self]
    exact (hs.voters n).cons hp hnew
  · rw [voting_of_ne hi]
    exact hs.voters i

/-- The leader lets every backup through to its handler. -/
theorem LeadAt.dispatch (hp : p ∈ others c.lead) {x : LeadProc P Unit} {t : ConsensusLead P}
    (hx : leadHandler m x) (hrun : x s = (.ok (), t)) : ConsensusLead.processConsensusMsg m p s = (.ok (), t) := by
  refine ConsensusLead.processConsensusMsg_run ?_ hx hrun
  rw [hs.nodes]
  exact any_eq_true.mpr ⟨p, (h.mem_others.mp hp).1, decide_eq_true rfl⟩

theorem LeadAt.tally (hn : n < 2) (hp : p ∈ others c.lead) :
    Tally c.key (sortedCommittee c.lead) (votedBy (voting votes n p n)) (c.text votes n)
      (s.noting (P.bls.pubOf (c.key p)) (P.bls.sign (c.key p) (c.text votes n))) := by
  rw [voting_self, votedBy_cons]
  exact (hs.counting hn).2.2.noting fun q hq heq =>
    h.eq_of_pubOf (Scene.mem_sorted.mp hq) (h.mem_others.mp hp).1 heq

/-- An answer to a count that is closed changes nothing. -/
theorem LeadAt.late (hp : p ∈ others c.lead) (hm : (c.replies votes p)[k]? = some m) (hlate : k < n) :
    ConsensusLead.processConsensusMsg m p s = (.ok (), s) := by
  have hbls := h.honest.bls
  have hbackup := h.backupHonest hp
  have hstate := hs.state
  match k, n, hs.range, hm with
  | 0, 1, _, hm | 0, 2, _, hm =>
    cases hm
    exact hs.dispatch h hp (.inl ⟨rfl, rfl⟩) (processMessageResponse_late hbls hbackup (by rw [hstate]; decide))
  | 1, 2, _, hm =>
    cases hm
    exact hs.dispatch h hp (.inr ⟨rfl, rfl⟩) (processMessageFinalResponse_late _ hbls hbackup (by rw [hstate]; decide))

section
variable (hp : p ∈ others c.lead) (hm : (c.replies votes p)[n]? = some m)
include hp hm

/-- An answer to the open count is counted. -/
theorem LeadAt.counts (hmore : ((s.counter + 1 : Nat) : Int) ≠ s.toleranceSize) :
    ConsensusLead.processConsensusMsg m p s = (.ok (),
      {s.noting (P.bls.pubOf (c.key p)) (P.bls.sign (c.key p) (c.text votes n)) with counter := s.counter + 1}) := by
  have hbls := h.honest.bls
  have hwire := h.honest.wire
  have hbackup := h.backupHonest hp
  obtain ⟨l, hpeer⟩ := hs.peer
  have htype : s.peer.currentType = .dsBlock := by rw [hpeer]; rfl
  match n, hm with
  | 0, hm =>
    cases hm
    exact hs.dispatch h hp (.inl ⟨rfl, rfl⟩) (processMessageResponse_counts hbls hwire hbackup h.digest h.fresh
      (by rw [hpeer]; rfl) htype hs.state hmore)
  | 1, hm =>
    cases hm
    exact hs.dispatch h hp (.inr ⟨rfl, rfl⟩) (processMessageFinalResponse_counts hbls hwire hbackup
      (c := c.sealedBlock (votes 0)) (by rw [hpeer]; rfl) (congrArg Seal.signature (getSeal_withSeal _ _)) htype
      hs.state hmore)

/-- The answer that completes the count makes the leader send its next message. -/
theorem LeadAt.completes (hlast : ((s.counter + 1 : Nat) : Int) = s.toleranceSize) :
    ∃ l next sig2, ConsensusLead.processConsensusMsg m p s = (.ok (),
        {s.advanced (s.peer.after (c.sealedBlock (voting votes n p 0)) l [next]) (stateAt (n + 1)) with
          boolMapSign2 := sig2}) ∧
      (c.script (voting votes n p))[n + 1]? = some next := by
  have hbls := h.honest.bls
  have hwire := h.honest.wire
  have hbackup := h.backupHonest hp
  obtain ⟨l, hpeer⟩ := hs.peer
  have htype : s.peer.currentType = .dsBlock := by rw [hpeer]; rfl
  have hsort : sortByPubkey P.toEnv s.peer.committee = .ok (sortedCommittee c.lead) := by
    rw [hpeer]
    exact h.sort_eq (List.Perm.refl _)
  match n, hm with
  | 0, hm =>
    cases hm
    obtain ⟨l', hrun⟩ := processMessageResponse_completes hbls hwire hbackup h.digest h.fresh
      (by rw [hpeer]; rfl) htype hs.state hlast hs.role h.keyed hsort hs.noSum.1 hs.noSum.2
      (hs.tally h (by omega) hp)
    refine ⟨l', _, _, hs.dispatch h hp (.inl ⟨rfl, rfl⟩) hrun, ?_⟩
    rw [hpeer]
    rfl
  | 1, hm =>
    cases hm
    obtain ⟨l', sig2, hsig2, hrun⟩ := processMessageFinalResponse_completes hbls hwire hbackup
      (c := c.sealedBlock (votes 0)) (by rw [hpeer]; rfl) (congrArg Seal.signature (getSeal_withSeal _ _)) htype
      hs.state hlast h.keyed hsort (hs.tally h (by omega) hp)
    refine ⟨l', _, _, hs.dispatch h hp (.inr ⟨rfl, rfl⟩) hrun, ?_⟩
    rw [hpeer, hsig2]
    rfl

end

section
variable (hn : n < 2) (hp : p ∈ others c.lead) (hnew : p ∉ votes n)
include hn hp hnew

theorem LeadAt.counted (hmore : ((s.counter + 1 : Nat) : Int) ≠ s.toleranceSize) :
    LeadAt c n (voting votes n p) {s.noting (P.bls.pubOf (c.key p)) (P.bls.sign (c.key p) (c.text votes n)) with
      counter := s.counter + 1} := by
  obtain ⟨hcount, hless, _⟩ := hs.counting hn
  have htolerance := hs.tolerance
  have hvotes := hs.tally h hn hp
  refine {hs with
    peer := by rw [leadBlock_voting]; exact hs.peer
    voters := hs.voters_voting hp hnew
    closed := fun i hi => by rw [voting_of_ne (by omega)]; exact hs.closed i hi
    ahead := fun i hi => by rw [voting_of_ne (by omega)]; exact hs.ahead i hi
    counting := fun _ => ⟨?_, ?_, ?_⟩}
  · rw [voting_self, hcount, length_cons]
  · rw [voting_self, length_cons]
    omega
  · rw [text_voting]
    exact ⟨hvotes.votes, hvotes.signs, hvotes.pubs⟩

theorem LeadAt.completed (hlast : ((s.counter + 1 : Nat) : Int) = s.toleranceSize) (l : List Signable)
    (out : List Message) (sig2 : BoolMapSignature) :
    LeadAt c (n + 1) (voting votes n p) (ConsensusLead.drained
      {s.advanced (s.peer.after (c.sealedBlock (voting votes n p 0)) l out) (stateAt (n + 1)) with
        boolMapSign2 := sig2}) := by
  obtain ⟨hcount, _, _⟩ := hs.counting hn
  obtain ⟨_, hpeer⟩ := hs.peer
  have htolerance := hs.tolerance
  have hpos := h.tolerance_pos
  have hnone : voting votes n p (n + 1) = [] := by
    rw [voting_of_ne (by omega)]
    exact hs.ahead _ (by omega)
  refine {
    peer := ⟨l, ?_⟩
    role := hs.role
    nodes := hs.nodes
    tolerance := hs.tolerance
    noSum := hs.noSum
    range := hn
    state := rfl
    voters := hs.voters_voting hp hnew
    closed := fun i hi => ?_
    ahead := fun i hi => by rw [voting_of_ne (by omega)]; exact hs.ahead i (by omega)
    counting := fun _ => ?_}
  · show ({s.peer.after (c.sealedBlock (voting votes n p 0)) l out with outbox := []} : PeerServer P) = _
    rw [hpeer, ← h.honest.outbox]
    rfl
  · by_cases hi' : i = n
    · rw [hi', voting_self, length_cons]
      omega
    · rw [voting_of_ne hi']
      exact hs.closed i (by omega)
  · rw [hnone]
    exact ⟨rfl, by exact_mod_cast hpos, Tally.of_empty rfl⟩

end

end

/-- An answer to the open count is counted, and the one that completes the count makes the leader send its next
message. An answer to an earlier count changes nothing. -/
theorem lead_step (hs : LeadAt c n votes s) (hp : p ∈ others c.lead) (hm : (c.replies votes p)[k]? = some m)
    (hk : k ≤ n) (hnew : k = n → p ∉ votes n) :
    ∃ n' t, ConsensusLead.processConsensusMsg m p s = (.ok (), t) ∧ (n' = n ∨ n' = n + 1 ∧ k = n) ∧
      LeadAt c n' (if k = n then voting votes n p else votes) t.drained ∧
      t.peer.outbox = ((c.script (if k = n then voting votes n p else votes)).take (n' + 1)).drop (n + 1) := by
  by_cases hopen : k = n
  · subst hopen
    have hshort : k < 2 := (List.getElem?_eq_some_iff.mp hm).1
    rw [if_pos rfl]
    by_cases hlast : ((s.counter + 1 : Nat) : Int) = s.toleranceSize
    · obtain ⟨l, next, sig2, hrun, hnext⟩ := hs.completes h hp hm hlast
      refine ⟨k + 1, _, hrun, .inr ⟨rfl, rfl⟩, hs.completed h hshort hp (hnew rfl) hlast _ _ _, ?_⟩
      have hlen : ((c.script (voting votes k p)).take (k + 1)).length = k + 1 := by
        rw [length_take]
        exact min_eq_left (by change k + 1 ≤ 3; omega)
      show s.peer.outbox ++ _ = _
      rw [hs.outbox h, take_add_one, hnext, drop_append_of_le_length hlen.ge, drop_eq_nil_of_le hlen.le]
      rfl
    · have hnext := hs.counted h hshort hp (hnew rfl) hlast
      refine ⟨k, _, hs.counts h hp hm hlast, .inl rfl, (hnext.drained_eq h).symm ▸ hnext, ?_⟩
      rw [drop_eq_nil_of_le (length_take_le _ _)]
      exact hnext.outbox h
  · rw [if_neg hopen]
    refine ⟨n, s, hs.late h hp hm (by omega), .inl rfl, (hs.drained_eq h).symm ▸ hs, ?_⟩
    rw [hs.outbox h, drop_eq_nil_of_le (length_take_le _ _)]

end

/-! ### The round -/

/-- What depends on the voters only once they are complete. -/
theorem script_take (hn : n ≤ 2) (hvotes : ∀ i < n, votes' i = votes i) :
    (c.script votes').take (n + 1) = (c.script votes).take (n + 1) := by
  match n, hn with
  | 0, _ => rfl
  | 1, _ =>
    unfold Cast.script
    rw [hvotes 0 (by omega)]
    rfl
  | 2, _ =>
    unfold Cast.script Cast.sig2 Cast.text
    rw [hvotes 0 (by omega), hvotes 1 (by omega)]

theorem replies_take (hvotes : 2 ≤ k → votes' 0 = votes 0) :
    (c.replies votes' p).take k = (c.replies votes p).take k := by
  match k with
  | 0 => rfl
  | 1 => rfl
  | k + 2 =>
    unfold Cast.replies
    rw [hvotes (by omega)]

theorem nodeAt_congr (hvotes : 2 ≤ k → votes' 0 = votes 0) (l : List Signable) :
    c.nodeAt votes' p k l = c.nodeAt votes p k l := by
  unfold Cast.nodeAt
  match k with
  | 0 => rfl
  | 1 => rfl
  | k + 2 => rw [hvotes (by omega)]

theorem nodeAt_outbox (h : Scene c) (hp : p ∈ others c.lead) {l : List Signable} :
    (c.nodeAt votes p k l).outbox = [] := by
  have hready := h.ready hp
  match k with
  | 0 => exact hready.outbox
  | 1 => exact hready.outbox
  | 2 => exact hready.outbox
  | k + 3 => exact hready.outbox

def scriptTypes : List MessageType :=
  [.consensusAnnounce, .consensusFinalCollectiveSig, .consensusBroadCastBlock]

theorem script_types : (c.script votes).map (·.type) = scriptTypes := rfl

/-- The round after `n` counts. Backup `p` has handled `recv p` multicasts, and the leader `cons p` of its
answers. -/
structure RoundAt (c : Cast P) (r : DsRound P) (n : Nat) (votes : Nat → List PeerEndpoint)
    (recv cons : PeerEndpoint → Nat) : Prop where
  lead : LeadAt c n votes r.lead
  sent : r.sent = (c.script votes).take (n + 1)
  recv_le : ∀ p ∈ others c.lead, recv p ≤ n + 1
  cons_le : ∀ p ∈ others c.lead, cons p ≤ recv p ∧ cons p ≤ 2
  counted : n < 2 → ∀ p ∈ others c.lead, p ∈ votes n ↔ cons p = n + 1
  toBackup : ∀ p ∈ others c.lead, r.toBackup p = r.sent.drop (recv p)
  toLead : ∀ p ∈ others c.lead, r.toLead p = ((c.replies votes p).take (recv p)).drop (cons p)
  backup : ∀ p ∈ others c.lead, ∃ l, r.backup p = c.nodeAt votes p (recv p) l
  accepted : ∀ p ∈ others c.lead, r.accepted p = scriptTypes.take (recv p)
  outside : ∀ p ∉ others c.lead, r.toBackup p = [] ∧ r.toLead p = []

variable {r : DsRound P} {recv cons : PeerEndpoint → Nat}

theorem LeadAt.selfNode (hs : LeadAt c n votes s) : s.peer.selfNode = c.lead.peer.selfNode := by
  obtain ⟨l, hl⟩ := hs.peer
  rw [hl]
  rfl

theorem LeadAt.backups (hs : LeadAt c n votes s.drained) : s.backups = others c.lead := by
  have hself : s.peer.selfNode = c.lead.peer.selfNode := hs.selfNode
  have hnodes : s.consensusBackupNodes = c.lead.peer.committee := hs.nodes
  unfold ConsensusLead.backups others
  rw [hself, hnodes]

variable {rest : List Message}

/-- The next of the messages in transit, read off the whole sequence. -/
theorem next_in_transit {l : List Message} {i j : Nat} (h : (l.take i).drop j = m :: rest) :
    j < i ∧ l[j]? = some m ∧ rest = (l.take i).drop (j + 1) := by
  obtain ⟨hm, hrest⟩ := of_drop_eq_cons h
  rw [List.getElem?_take] at hm
  split at hm
  · exact ⟨‹_›, hm, hrest⟩
  · exact nomatch hm

section
variable (h : Scene c) (hr : RoundAt c r n votes recv cons) (hp : p ∈ others c.lead)
include h hr hp

theorem RoundAt.backupHandles (hq : r.toBackup p = m :: rest) :
    RoundAt c (r.backupHandles p m rest) n votes (update recv p (recv p + 1)) cons := by
  rw [hr.toBackup p hp, hr.sent] at hq
  obtain ⟨hlt, hm, hrest⟩ := next_in_transit hq
  obtain ⟨l, hl⟩ := hr.backup p hp
  obtain ⟨l', hrun, hacc⟩ := backup_step h hp hm
    (fun i hi => (hr.lead.voters i).quorum h (hr.lead.closed i (by omega))) l
  rw [← hl, ← hr.lead.selfNode] at hrun hacc
  have hcons := hr.cons_le p hp
  have hback : (r.backupHandles p m rest).backup p = c.nodeAt votes p (recv p + 1) l' := by
    show update r.backup p _ p = _
    rw [update_self, hrun]
    rw [← nodeAt_outbox h hp]
  have hlead : (r.backupHandles p m rest).toLead p = ((c.replies votes p).take (recv p + 1)).drop (cons p) := by
    show update r.toLead p _ p = _
    rw [update_self, hrun, hr.toLead p hp, take_add_one, drop_append_of_le_length]
    rw [length_take]
    exact le_min hcons.1 hcons.2
  have haccepted : (r.backupHandles p m rest).accepted p = scriptTypes.take (recv p + 1) := by
    show (if accepts m r.lead.peer.selfNode (r.backup p) then update r.accepted p _ else _) p = _
    rw [if_pos hacc, update_self, hr.accepted p hp, take_add_one, ← script_types, List.getElem?_map, hm]
    rfl
  have hother : ∀ q, q ≠ p → (r.backupHandles p m rest).accepted q = r.accepted q := by
    intro q hne
    show (if accepts m r.lead.peer.selfNode (r.backup p) then update r.accepted p _ else _) q = _
    rw [if_pos hacc, update_of_ne hne]
  have houtside : ∀ q ∉ others c.lead, (r.backupHandles p m rest).toBackup q = [] ∧
      (r.backupHandles p m rest).toLead q = [] := by
    intro q hq
    have hne : q ≠ p := fun heq => hq (heq ▸ hp)
    show update r.toBackup p _ q = _ ∧ update r.toLead p _ q = _
    rw [update_of_ne hne, update_of_ne hne]
    exact hr.outside q hq
  refine {
    lead := hr.lead
    sent := hr.sent
    counted := hr.counted
    outside := houtside
    recv_le := fun q hq => ?_
    cons_le := fun q hq => ?_
    toBackup := fun q hq => ?_
    toLead := fun q hq => ?_
    backup := fun q hq => ?_
    accepted := fun q hq => ?_}
  all_goals by_cases hqp : q = p
  · rw [hqp, update_self]
    omega
  · rw [update_of_ne hqp]
    exact hr.recv_le q hq
  · rw [hqp, update_self]
    omega
  · rw [update_of_ne hqp]
    exact hr.cons_le q hq
  · rw [hqp, update_self]
    exact (update_self p rest r.toBackup).trans (hrest.trans (congrArg (drop _) hr.sent.symm))
  · rw [update_of_ne hqp]
    exact (update_of_ne hqp rest r.toBackup).trans (hr.toBackup q hq)
  · rw [hqp, update_self]
    exact hlead
  · rw [update_of_ne hqp]
    exact (update_of_ne hqp _ r.toLead).trans (hr.toLead q hq)
  · rw [hqp, update_self]
    exact ⟨l', hback⟩
  · rw [update_of_ne hqp]
    obtain ⟨l₁, hl₁⟩ := hr.backup q hq
    exact ⟨l₁, (update_of_ne hqp _ r.backup).trans hl₁⟩
  · rw [hqp, update_self]
    exact haccepted
  · rw [update_of_ne hqp, hother q hqp]
    exact hr.accepted q hq

omit h in
theorem RoundAt.counted_next (hlt : cons p < recv p) {n' : Nat} (hn' : n' = n ∨ n' = n + 1 ∧ cons p = n)
    (hopen : n' < 2) :
    ∀ q ∈ others c.lead, q ∈ (if cons p = n then voting votes n p else votes) n' ↔
      update cons p (cons p + 1) q = n' + 1 := by
  intro q hq
  have hcq := hr.cons_le q hq
  have hrq := hr.recv_le q hq
  have hother : q ≠ p → update cons p (cons p + 1) q = cons q := fun hne => update_of_ne hne _ _
  have hself : update cons p (cons p + 1) p = cons p + 1 := update_self _ _ _
  generalize update cons p (cons p + 1) = cons' at hother hself ⊢
  rcases hn' with rfl | ⟨rfl, hk⟩
  · have hcount := hr.counted hopen q hq
    by_cases hqp : q = p
    · subst hqp
      split
      · rw [voting_self, hself]
        simp [*]
      · rw [hself, hcount]
        omega
    · rw [hother hqp]
      split
      · rwa [voting_self, mem_cons, or_iff_right hqp]
      · exact hcount
  · -- the next count starts without voters
    rw [if_pos hk, voting_of_ne (by omega), hr.lead.ahead _ (by omega)]
    refine ⟨fun h => absurd h not_mem_nil, fun h => absurd h ?_⟩
    by_cases hqp : q = p
    · rw [hqp, hself]
      omega
    · rw [hother hqp]
      omega

theorem RoundAt.leadHandles (hq : r.toLead p = m :: rest) :
    ∃ n' votes', RoundAt c (r.leadHandles p m rest) n' votes' recv (update cons p (cons p + 1)) := by
  rw [hr.toLead p hp] at hq
  obtain ⟨hlt, hm, hrest⟩ := next_in_transit hq
  have hshort : cons p < 2 := (List.getElem?_eq_some_iff.mp hm).1
  have hrecv := hr.recv_le p hp
  obtain ⟨n', t, hrun, hn', hs, hout⟩ := lead_step h hr.lead hp hm (by omega) fun hk hvoted => by
    have := (hr.counted (by omega) p hp).mp hvoted
    omega
  have hcount := hr.counted_next hp hlt hn'
  have hvotes : ∀ i < n, (if cons p = n then voting votes n p else votes) i = votes i := by
    intro i hi
    split
    · exact voting_of_ne (by omega)
    · rfl
  generalize (if cons p = n then voting votes n p else votes) = votes' at hs hout hcount hvotes
  have hrange := hr.lead.range
  have hbackups : t.backups = others c.lead := hs.backups
  have hround : r.leadHandles p m rest =
      DsRound.multicast {r with toLead := update r.toLead p rest} t := by
    unfold DsRound.leadHandles
    rw [hrun]
  have hsent : (r.leadHandles p m rest).sent = (c.script votes').take (n' + 1) := by
    rw [hround]
    show r.sent ++ t.peer.outbox = _
    have hold : (c.script votes).take (n + 1) = ((c.script votes').take (n' + 1)).take (n + 1) := by
      rw [take_take, min_eq_left (by omega)]
      exact (script_take hrange hvotes).symm
    rw [hr.sent, hout, hold, take_append_drop]
  have hfirst : ∀ q ∈ others c.lead, 2 ≤ recv q → votes' 0 = votes 0 := by
    intro q hq h2
    have := hr.recv_le q hq
    exact hvotes 0 (by omega)
  refine ⟨n', votes', {
    lead := hround ▸ hs
    sent := hsent
    counted := hcount
    recv_le := fun q hq => (hr.recv_le q hq).trans (by omega)
    cons_le := fun q hq => ?_
    toBackup := fun q hq => ?_
    toLead := fun q hq => ?_
    backup := fun q hq => ?_
    accepted := fun q hq => ?_
    outside := fun q hq => ?_}⟩
  · by_cases hqp : q = p
    · rw [hqp, update_self]
      omega
    · rw [update_of_ne hqp]
      exact hr.cons_le q hq
  · have hlen : recv q ≤ r.sent.length := by
      have hthree : (c.script votes).length = 3 := rfl
      have := hr.recv_le q hq
      rw [hr.sent, length_take]
      omega
    rw [hround]
    show (if q ∈ t.backups then r.toBackup q ++ t.peer.outbox else r.toBackup q) =
      (r.sent ++ t.peer.outbox).drop (recv q)
    rw [hbackups, if_pos hq, hr.toBackup q hq, drop_append_of_le_length hlen]
  · rw [replies_take (hfirst q hq)]
    show update r.toLead p rest q = _
    by_cases hqp : q = p
    · rw [hqp, update_self, update_self]
      exact hrest
    · rw [update_of_ne hqp, update_of_ne hqp]
      exact hr.toLead q hq
  · obtain ⟨l, hl⟩ := hr.backup q hq
    exact ⟨l, hround ▸ hl.trans (nodeAt_congr (hfirst q hq) l).symm⟩
  · exact hround ▸ hr.accepted q hq
  · have hne : q ≠ p := fun heq => hq (heq ▸ hp)
    rw [hround]
    show (if q ∈ t.backups then r.toBackup q ++ t.peer.outbox else r.toBackup q) = [] ∧
      update r.toLead p rest q = []
    rw [hbackups, if_neg hq, update_of_ne hne]
    exact hr.outside q hq

end

/-- The invariant of a run that has taken `k` steps. -/
def RoundInv (c : Cast P) (k : Nat) (r : DsRound P) : Prop := ∃ n votes recv cons,
  RoundAt c r n votes recv cons ∧ ((others c.lead).map recv).sum + ((others c.lead).map cons).sum = k

/-- A step raises one of the counts. -/
theorem RoundInv.step (h : Scene c) {t : DsRound P} {e : Delivery} (hr : RoundInv c k r) (hstep : r.step e = some t) :
    RoundInv c (k + 1) t := by
  obtain ⟨n, votes, recv, cons, hr, hk⟩ := hr
  cases e with
  | toBackup p =>
    obtain ⟨m, rest, hq, rfl⟩ := DsRound.deliver_some hstep
    have hp : p ∈ others c.lead := by
      by_contra hp
      rw [(hr.outside p hp).1] at hq
      exact nomatch hq
    refine ⟨n, votes, _, cons, hr.backupHandles h hp hq, ?_⟩
    rw [sum_map_update h.nodup_others hp]
    omega
  | toLead p =>
    obtain ⟨m, rest, hq, rfl⟩ := DsRound.deliver_some hstep
    have hp : p ∈ others c.lead := by
      by_contra hp
      rw [(hr.outside p hp).2] at hq
      exact nomatch hq
    obtain ⟨n', votes', hr'⟩ := hr.leadHandles h hp hq
    refine ⟨n', votes', recv, _, hr', ?_⟩
    rw [sum_map_update h.nodup_others hp]
    omega

/-- The counts are bounded, so a run is. -/
theorem RoundInv.bounded (hr : RoundInv c k r) : k ≤ 5 * (others c.lead).length := by
  obtain ⟨n, votes, recv, cons, hr, rfl⟩ := hr
  have hrange := hr.lead.range
  have hrecv := sum_map_le (b := 3) fun p hp => (hr.recv_le p hp).trans (by omega)
  have hcons := sum_map_le fun p hp => (hr.cons_le p hp).2
  omega

/-- When nothing is on its way, everything has happened. -/
theorem RoundAt.completed (h : Scene c) (hr : RoundAt c r n votes recv cons) (hquiet : r.Quiescent) :
    r.Completed := by
  have hrange := hr.lead.range
  have hthree : (c.script votes).length = 3 := rfl
  have hrecv : ∀ p ∈ others c.lead, recv p = n + 1 := by
    intro p hp
    have hq := hquiet.toBackup p
    rw [hr.toBackup p hp, drop_eq_nil_iff, hr.sent, length_take] at hq
    have := hr.recv_le p hp
    omega
  -- an open count would have been completed by the last backup
  have hdone : n = 2 := by
    by_contra hopen
    have hn : n < 2 := by omega
    have hall : ∀ p ∈ others c.lead, p ∈ votes n := by
      intro p hp
      have hq := hquiet.toLead p
      have htwo : (c.replies votes p).length = 2 := rfl
      rw [hr.toLead p hp, drop_eq_nil_iff, length_take, hrecv p hp] at hq
      have := hr.cons_le p hp
      have := hr.recv_le p hp
      exact (hr.counted hn p hp).mpr (by omega)
    have hlen := (subperm_of_subset h.nodup_others hall).length_le
    have := h.tolerance_le
    have := (hr.lead.counting hn).2.1
    omega
  have hbackups : r.lead.backups = others c.lead := LeadAt.backups ((hr.lead.drained_eq h).symm ▸ hr.lead)
  rw [hdone] at hrecv
  refine ⟨?_, fun p hp => ?_, c.sealedBlock (votes 0), fun p hp => ?_⟩
  · rw [hr.sent, hdone]
    exact script_types
  · rw [hbackups] at hp
    rw [hr.accepted p hp, hrecv p hp]
    rfl
  · rw [hbackups] at hp
    obtain ⟨l, hl⟩ := hr.backup p hp
    rw [hl, hrecv p hp]
    rfl

theorem roundInv_start {lead : ConsensusLead P} {backup : PeerEndpoint → PeerServer P}
    {key : PeerEndpoint → P.bls.PriKey} (h : HonestStart lead backup key) :
    ∃ b d, Scene ⟨lead, backup, key, b, d⟩ ∧
      RoundInv ⟨lead, backup, key, b, d⟩ 0 (DsRound.start lead backup) := by
  obtain ⟨b, d, l, hd, hfresh, hstart⟩ := onDsBlockConsensusStart_ok h.starts
  let c : Cast P := ⟨lead, backup, key, b, d⟩
  have hscene : Scene c := by
    refine ⟨h, hd, hfresh, fun p hp hne => (h.backups p hp hne).accepts _ ?_⟩
    rw [hstart]
    exact mem_append_right _ (mem_singleton_self _)
  have hpos := hscene.tolerance_pos
  have hlead : LeadAt c 0 (fun _ => []) (onDsBlockConsensusStart lead).2.drained := by
    rw [hstart]
    refine {
      peer := ⟨l, ?_⟩
      role := h.dsLead
      nodes := rfl
      tolerance := rfl
      noSum := h.noSum
      range := by omega
      state := rfl
      voters := fun _ => Voters.nil
      closed := fun _ hi => absurd hi (by omega)
      ahead := fun _ _ => rfl
      counting := fun _ => ⟨rfl, by exact_mod_cast hpos, Tally.of_empty h.noVotes⟩}
    show ({leadPeer lead b l with outbox := []} : PeerServer P) = leadPeer lead b l
    rw [← h.outbox]
    rfl
  have hbackups : (onDsBlockConsensusStart lead).2.backups = others c.lead := hlead.backups
  have hout : (onDsBlockConsensusStart lead).2.peer.outbox = (c.script fun _ => []).take 1 := by
    rw [hstart]
    show lead.peer.outbox ++ _ = _
    rw [h.outbox]
    rfl
  refine ⟨b, d, hscene, 0, fun _ => [], fun _ => 0, fun _ => 0, {
    lead := hlead
    sent := hout
    recv_le := fun _ _ => Nat.zero_le _
    cons_le := fun _ _ => ⟨le_rfl, Nat.zero_le _⟩
    counted := fun _ _ _ => by simp
    toBackup := fun p hp => ?_
    toLead := fun _ _ => rfl
    backup := fun _ _ => ⟨[], rfl⟩
    accepted := fun _ _ => rfl
    outside := fun p hp => ⟨?_, rfl⟩}, by simp⟩
  · show (if p ∈ (onDsBlockConsensusStart lead).2.backups then [] ++ _ else []) = [] ++ _
    rw [hbackups, if_pos hp]
  · show (if p ∈ (onDsBlockConsensusStart lead).2.backups then [] ++ _ else []) = []
    rw [hbackups, if_neg hp]

/-- **The honest round theorem.** Whatever the order in which messages arrive, a run has at most five steps
for each backup, and when it cannot go on the leader has sent one announcement, one collective signature and
one block, every backup has accepted all three, and all backups hold the same block. -/
theorem dsRound_completes {lead : ConsensusLead P} {backup : PeerEndpoint → PeerServer P}
    {key : PeerEndpoint → P.bls.PriKey} (h : HonestStart lead backup key) (es : List Delivery) (r : DsRound P)
    (hrun : es.foldlM DsRound.step (DsRound.start lead backup) = some r) :
    es.length ≤ 5 * (lead.peer.committee.length - 1) ∧ (r.Quiescent → r.Completed) := by
  obtain ⟨b, d, hscene, hstart⟩ := roundInv_start h
  have hinv := foldlM_invariant (fun k s e t hs => RoundInv.step hscene hs) hstart hrun
  rw [Nat.zero_add] at hinv
  have hlength := hscene.length_others
  have hbound := hinv.bounded
  obtain ⟨n, votes, recv, cons, hr, _⟩ := hinv
  refine ⟨?_, hr.completed hscene⟩
  change es.length ≤ 5 * (others lead).length at hbound
  change (others lead).length + 1 = lead.peer.committee.length at hlength
  omega

end

/-! ### The committee of two -/

open Platform (sample)

theorem twoMembers_honestStart : HonestStart (newConsensusLead (sampleNode 5 twoMembers) false)
    (fun _ => sampleNode 6 twoMembers) sampleKey := by
  have hcomposed : (composeDSBlock (sampleNode 5 twoMembers) >>= checkDSBlock sample
      (sampleNode 6 twoMembers)).isOk = true := by decide +kernel
  obtain ⟨_, hboth⟩ := Core.exists_of_isOk hcomposed
  obtain ⟨b, hb, hcheck⟩ := except_bind_ok.mp hboth
  have hlead : composeDSBlock (newConsensusLead (sampleNode 5 twoMembers) false).peer = .ok b := hb
  obtain ⟨l, hstart⟩ := onDsBlockConsensusStart_run hlead
  refine {
    two_le := le_rfl
    self_mem := mem_cons_self
    keyed := fun p hp => twoMembers_keyed hp
    long := by decide +kernel
    distinct := by decide +kernel
    privateKey := (sampleKey_peer 5).symm
    dsLead := rfl
    noVotes := rfl
    noSum := ⟨rfl, rfl⟩
    outbox := rfl
    starts := by rw [hstart]
    backups := fun p hp hne => ?_
    bls := MultiSig.linear_complete
    wire := sample_dsRoundTrip}
  obtain rfl : p = Chain.peerWithKey 6 := (mem_twoMembers hp).resolve_left hne
  refine ⟨rfl, (sampleKey_peer 6).symm, rfl, rfl, List.Perm.refl _, rfl, fun m hm => ?_⟩
  rw [hstart] at hm
  obtain rfl := mem_singleton.mp hm
  exact verifyAnnounced_of_check sample_dsRoundTrip hcheck

/-- The round of the committee of two: some run goes to its end, and there it is completed. -/
theorem dsRound_completes_pair : ∃ (es : List Delivery) (r : DsRound sample),
    es.foldlM DsRound.step (DsRound.start (newConsensusLead (sampleNode 5 twoMembers) false)
      fun _ => sampleNode 6 twoMembers) = some r ∧ r.Quiescent ∧ r.Completed := by
  obtain ⟨es, r, hrun, hend⟩ := exists_maximal_run fun es r hrun =>
    (dsRound_completes twoMembers_honestStart es r hrun).1
  exact ⟨es, r, hrun, hend, (dsRound_completes twoMembers_honestStart es r hrun).2 hend⟩

end Okchain.Consensus
