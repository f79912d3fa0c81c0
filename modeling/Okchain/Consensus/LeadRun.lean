import Okchain.Consensus.DsRound
import Okchain.Consensus.LeadStep

/-! The order of a DS leader's messages.

Whatever arrives between two calls of `InitiateConsensus`, what can be seen of a DS leader is a prefix of one sequence:
as many verified responses as the tolerance asks for, the collective signature, as many verified final responses, the
block, and the report that the round is complete.
-/
namespace Okchain.Consensus
open Lib Protos List
open Chain (getToleranceSize)
open Platform (sample)

variable {P : Platform}

/-! ### What happens during a round -/

/-- A message is handled, or the rest of the node moves on. -/
inductive RoundEvent (P : Platform)
  | message (msg : Message) (sender : PeerEndpoint)
  | node (peer : PeerServer P)

/-- The rest of the node changes anything but what the leader has sent. -/
def RoundEvent.run (s : ConsensusLead P) : RoundEvent P → ConsensusLead P
  | .message msg sender => (ConsensusLead.processConsensusMsg msg sender s).2
  | .node peer => {s with peer := {peer with outbox := s.peer.outbox}}

/-- What the leader sends while it handles a message. -/
def sentOn (msg : Message) (sender : PeerEndpoint) (s : ConsensusLead P) : List Message :=
  (ConsensusLead.processConsensusMsg msg sender s).2.peer.outbox.drop s.peer.outbox.length

inductive Report
  | verified (type : MessageType)
  | sends (type : MessageType)
  | completes
  deriving DecidableEq, Repr

def reportsOn (msg : Message) (sender : PeerEndpoint) (s : ConsensusLead P) : List Report :=
  (if verified msg sender s then [.verified msg.type] else []) ++
    (sentOn msg sender s).map (fun m => .sends m.type) ++
    (if reportsCompletion msg sender s then [.completes] else [])

def RoundEvent.reports (s : ConsensusLead P) : RoundEvent P → List Report
  | .message msg sender => reportsOn msg sender s
  | .node _ => []

def reportsOf (s : ConsensusLead P) : List (RoundEvent P) → List Report
  | [] => []
  | e :: es => e.reports s ++ reportsOf (e.run s) es

/-! ### The one sequence -/

/-- `n` verified messages of a kind. -/
def counts (n : Nat) (type : MessageType) : List Report := List.replicate n (.verified type)

theorem counts_succ (n : Nat) (type : MessageType) : counts (n + 1) type = counts n type ++ [.verified type] :=
  replicate_succ'

/-- The reports of a round with the given tolerance, as far as it has come. -/
inductive InOrder (tolerance : Int) : List Report → Prop
  | counting (k : Nat) : InOrder tolerance (counts k .consensusResponse)
  | collected {n : Nat} (hn : (n : Int) = tolerance) (k : Nat) :
      InOrder tolerance (counts n .consensusResponse ++ [.sends .consensusFinalCollectiveSig] ++
        counts k .consensusFinalResponse)
  | finished {n : Nat} (hn : (n : Int) = tolerance) :
      InOrder tolerance (counts n .consensusResponse ++ [.sends .consensusFinalCollectiveSig] ++
        counts n .consensusFinalResponse ++ [.sends .consensusBroadCastBlock, .completes])

/-- The state and the counter say how far the round has come. -/
inductive Follows (s : ConsensusLead P) : List Report → Prop
  | counting (hstate : s.state = .announceDone) : Follows s (counts s.counter .consensusResponse)
  | collected {n : Nat} (hn : (n : Int) = s.toleranceSize) (hstate : s.state = .finalCollectiveSigDone) :
      Follows s (counts n .consensusResponse ++ [.sends .consensusFinalCollectiveSig] ++
        counts s.counter .consensusFinalResponse)
  | finished {n : Nat} (hn : (n : Int) = s.toleranceSize) (hstate : s.state = .broadCastBlockDone) :
      Follows s (counts n .consensusResponse ++ [.sends .consensusFinalCollectiveSig] ++
        counts n .consensusFinalResponse ++ [.sends .consensusBroadCastBlock, .completes])

section

variable {s t : ConsensusLead P} {seen : List Report}

theorem Follows.inOrder (h : Follows s seen) : InOrder s.toleranceSize seen := by
  cases h with
  | counting => exact .counting _
  | collected hn => exact .collected hn _
  | finished hn => exact .finished hn

theorem Follows.congr (h : Follows s seen) (hstate : t.state = s.state) (hcounter : t.counter = s.counter)
    (htolerance : t.toleranceSize = s.toleranceSize) : Follows t seen := by
  cases h with
  | counting h =>
    rw [← hcounter]
    exact .counting (hstate.trans h)
  | collected hn h =>
    rw [← hcounter]
    exact .collected (hn.trans htolerance.symm) (hstate.trans h)
  | finished hn h => exact .finished (hn.trans htolerance.symm) (hstate.trans h)

theorem Follows.count {msg : Message} {pub : P.bls.PubKey} {sign : P.bls.Sig} (h : Follows s seen)
    (hvote : Voted s msg pub sign) (hstate : t.state = s.state) (hcounter : t.counter = s.counter + 1)
    (htolerance : t.toleranceSize = s.toleranceSize) : Follows t (seen ++ [.verified msg.type]) := by
  cases hvote with
  | first hs htype =>
    cases h with
    | counting =>
      rw [htype, ← counts_succ, ← hcounter]
      exact .counting (hstate.trans hs)
    | collected _ h => exact nomatch hs.symm.trans h
    | finished _ h => exact nomatch hs.symm.trans h
  | second hs htype =>
    cases h with
    | counting h => exact nomatch hs.symm.trans h
    | collected hn =>
      rw [htype, append_assoc, ← counts_succ, ← hcounter]
      exact .collected (hn.trans htolerance.symm) (hstate.trans hs)
    | finished _ h => exact nomatch hs.symm.trans h

/-! ### A step -/

theorem sentOn_nil (msg : Message) (sender : PeerEndpoint)
    (h : (ConsensusLead.processConsensusMsg msg sender s).2.peer.outbox = s.peer.outbox) :
    sentOn msg sender s = [] := by
  unfold sentOn
  rw [h, drop_length]

theorem sentOn_append (msg : Message) (sender : PeerEndpoint) {m : Message}
    (h : (ConsensusLead.processConsensusMsg msg sender s).2.peer.outbox = s.peer.outbox ++ [m]) :
    sentOn msg sender s = [m] := by
  unfold sentOn
  rw [h, drop_left]

variable {v : ConsensusLead P}

theorem SendsFirst.reached {next : ConsensusState} (h : SendsFirst next v t) (hlead : v.shardLead = false) :
    ∃ m, t.peer.outbox = v.peer.outbox ++ [m] ∧ m.type = .consensusFinalCollectiveSig ∧ t.state = next ∧
      t.toleranceSize = v.toleranceSize := by
  obtain ⟨ms, q, reply, -, -, -, hout, -, hreply, rfl⟩ := h.sealed
  refine ⟨reply, hout, ?_, rfl, rfl⟩
  cases hreply with
  | collective _ htype => exact htype
  | block hshard => exact nomatch hlead.symm.trans hshard

theorem SendsSecond.reached (h : SendsSecond v t) :
    ∃ m, t.peer.outbox = v.peer.outbox ++ [m] ∧ m.type = .consensusBroadCastBlock ∧
      t.state = .broadCastBlockDone ∧ t.toleranceSize = v.toleranceSize := by
  obtain ⟨ms, q, reply, -, -, -, hout, -, hblock, rfl⟩ := h.sealed
  exact ⟨reply, hout, hblock.isBlock, rfl, rfl⟩

theorem Follows.message (h : Follows s seen) (hlead : s.shardLead = false) (msg : Message) (sender : PeerEndpoint) :
    Follows (ConsensusLead.processConsensusMsg msg sender s).2 (seen ++ reportsOn msg sender s) := by
  have hhandled := processConsensusMsg_handled msg sender s
  have hnil := sentOn_nil (s := s) msg sender
  have happend := fun m => sentOn_append (s := s) msg sender (m := m)
  unfold reportsOn
  generalize (ConsensusLead.processConsensusMsg msg sender s).2 = t at hhandled hnil happend ⊢
  cases hhandled with
  | unsent hreport hunsent =>
    rw [hreport, hnil hunsent.peer.2]
    cases hunsent with
    | refused hpass =>
      rw [hpass]
      exact (append_nil seen).symm ▸ h.congr rfl rfl rfl
    | counted hpass _ _ hvote =>
      rw [hpass]
      exact h.count hvote rfl rfl rfl
  | @first t _ _ hpass hreport hstate htype hvote hcount hsends =>
    obtain ⟨m, hout, hm, hnext, htolerance⟩ := hsends.reached hlead
    rw [hpass, hreport, hlead, happend m hout, htype]
    show Follows t.cleared (seen ++ ([.verified .consensusResponse] ++ [.sends m.type] ++ []))
    rw [hm, append_nil, ← append_assoc]
    cases h with
    | counting =>
      have hopen := Follows.collected (s := t.cleared) (hcount.trans htolerance.symm)
        (hnext.trans (if_neg (by simp [hlead])))
      rw [← counts_succ]
      rwa [show counts t.cleared.counter .consensusFinalResponse = [] from rfl, append_nil] at hopen
    | collected _ h => exact nomatch hstate.symm.trans h
    | finished _ h => exact nomatch hstate.symm.trans h
  | @second t _ _ hpass hreport hstate htype hvote hcount hsends =>
    obtain ⟨m, hout, hm, hnext, htolerance⟩ := hsends.reached
    rw [hpass, hreport, happend m hout, htype]
    show Follows t.cleared (seen ++ ([.verified .consensusFinalResponse] ++ [.sends m.type] ++ [.completes]))
    rw [hm, append_assoc, ← append_assoc]
    cases h with
    | counting h => exact nomatch hstate.symm.trans h
    | @collected n hn =>
      have hsame : s.counter + 1 = n := by
        exact_mod_cast hcount.trans hn.symm
      rw [append_assoc _ (counts _ _), ← counts_succ, hsame]
      exact .finished (hn.trans htolerance.symm) hnext
    | finished _ h => exact nomatch hstate.symm.trans h

theorem Follows.event (h : Follows s seen) (hlead : s.shardLead = false) (e : RoundEvent P) :
    Follows (e.run s) (seen ++ e.reports s) := by
  cases e with
  | message msg sender => exact h.message hlead msg sender
  | node peer => exact (append_nil seen).symm ▸ h.congr rfl rfl rfl

theorem Handled.same {msg : Message} {sender : PeerEndpoint} (h : Handled s msg sender t) :
    t.shardLead = s.shardLead ∧ t.toleranceSize = s.toleranceSize ∧ SameRound s.peer t.peer := by
  cases h with
  | unsent _ h => exact ⟨h.same.2.1, h.same.2.2, h.peer.1⟩
  | first _ _ _ _ _ _ hsends =>
    obtain ⟨_, _, _, _, _, hround, _, _, _, rfl⟩ := hsends.sealed
    exact ⟨rfl, rfl, hround⟩
  | second _ _ _ _ _ _ hsends =>
    obtain ⟨_, _, _, _, _, hround, _, _, _, rfl⟩ := hsends.sealed
    exact ⟨rfl, rfl, hround⟩

theorem RoundEvent.run_same (e : RoundEvent P) (s : ConsensusLead P) :
    (e.run s).shardLead = s.shardLead ∧ (e.run s).toleranceSize = s.toleranceSize := by
  cases e with
  | message msg sender =>
    obtain ⟨hrole, htolerance, -⟩ := (processConsensusMsg_handled msg sender s).same
    exact ⟨hrole, htolerance⟩
  | node peer => exact ⟨rfl, rfl⟩

theorem Follows.run (h : Follows s seen) (hlead : s.shardLead = false) (es : List (RoundEvent P)) :
    InOrder s.toleranceSize (seen ++ reportsOf s es) := by
  induction es generalizing s seen with
  | nil => exact (append_nil seen).symm ▸ h.inOrder
  | cons e es ih =>
    obtain ⟨hrole, htolerance⟩ := e.run_same s
    have hrest := ih (h.event hlead e) (hrole.trans hlead)
    rw [htolerance, append_assoc] at hrest
    exact hrest

end

/-! ### A round of a DS leader -/

/-- **Phase order.** From any state of a DS leader, after `InitiateConsensus` and any events of the round, the
leader has counted responses; or it has counted exactly the tolerance of them, sent one collective signature
and counted final responses; or it has counted the tolerance of both, sent one collective signature and then
one block, and reported the round complete after that. -/
theorem phase_order (s : ConsensusLead P) (hlead : s.shardLead = false) (announce : Message)
    (nodes : List PeerEndpoint) (es : List (RoundEvent P)) :
    InOrder (getToleranceSize nodes.length) (reportsOf (initiateConsensus announce nodes s).2 es) := by
  have hstart : Follows (initiateConsensus announce nodes s).2 [] :=
    .counting rfl
  exact hstart.run hlead es

/-- The leader of two gets the response of the other member, sends the collective signature, and its node goes on
to a committee of three. -/
theorem phase_order_pair : ∃ (announce : Message) (s : ConsensusLead sample) (es : List (RoundEvent sample)),
    s.shardLead = false ∧
    reportsOf (initiateConsensus announce twoMembers s).2 es =
      [.verified .consensusResponse, .sends .consensusFinalCollectiveSig] ∧
    InOrder 1 (reportsOf (initiateConsensus announce twoMembers s).2 es) := by
  obtain ⟨b, d, hfresh, hd⟩ := exists_sample_block
  obtain ⟨l, hprocess⟩ := twoMembers_completes 6 hfresh hd
  have hsent := sentOn_append _ _ (congrArg (fun r => r.2.peer.outbox) hprocess)
  have hauth : authenticate (response (sampleNode 6 twoMembers) b d) (twoMembersLead b).peer =
      (.ok ⟨⟩, (twoMembersLead b).peer) := authenticate_run MultiSig.linear_complete (sample_honest 6 twoMembers) _ _
  have hadmits : admits (response (sampleNode 6 twoMembers) b d) (Chain.peerWithKey 6) (twoMembersLead b) = true := by
    unfold admits
    rw [hauth, Bool.and_eq_true_iff]
    exact ⟨twoMembers_known, rfl⟩
  have hcheck := verifyAndUpdate_run (s := twoMembersLead b) MultiSig.linear_complete sample_dsRoundTrip
    (sample_honest 6 twoMembers) hd hfresh rfl
  have hpass : verified (response (sampleNode 6 twoMembers) b d) (Chain.peerWithKey 6) (twoMembersLead b) = true := by
    rw [verified_response hadmits rfl, show (twoMembersLead b).peer.currentType = .dsBlock from rfl, hcheck]
    rfl
  have hreports : reportsOn (response (sampleNode 6 twoMembers) b d) (Chain.peerWithKey 6) (twoMembersLead b) =
      [.verified .consensusResponse, .sends .consensusFinalCollectiveSig] := by
    unfold reportsOn
    rw [hpass, hsent, reportsCompletion_response hadmits rfl]
    rfl
  refine ⟨_, newConsensusLead ((sampleNode 5 twoMembers).holding b) false,
    [.message (response (sampleNode 6 twoMembers) b d) (Chain.peerWithKey 6),
      .node (sampleNode 5 [Chain.peerWithKey 5, Chain.peerWithKey 6, Chain.peerWithKey 7])], rfl, ?_,
    phase_order _ rfl (announcement (sampleNode 5 twoMembers) b) twoMembers _⟩
  exact congrArg (· ++ []) hreports

end Okchain.Consensus
