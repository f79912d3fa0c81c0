import Okchain.Consensus.HonestBackup

/-! What a DS leader does with the honest answers of a DS block round.

An answer that arrives while its count is open is recorded. The answer that completes the count makes
the leader send the next message, clear its maps and go on to the next state. An answer that arrives
later changes nothing.
-/
namespace Okchain.Consensus
open Lib Proc Protos

variable {P : Platform} {key : PeerEndpoint → P.bls.PriKey}

theorem onPeer_run {α : Type} {x : NodeProc P α} {s : ConsensusLead P} {t : PeerServer P} {a : α}
    (h : x s.peer = (.ok a, t)) : onPeer x s = (.ok a, {s with peer := t}) := by
  unfold onPeer
  rw [h]

theorem orFalse_run {x : LeadProc P Bool} {s t : ConsensusLead P} {a : Bool} (h : x s = (.ok a, t)) :
    orFalse x s = (.ok a, t) := by
  unfold orFalse
  rw [h]

theorem dropError_run {σ : Type} {x : Proc Err σ Unit} {s t : σ} (h : x s = (.ok ⟨⟩, t)) :
    dropError x s = (.ok ⟨⟩, t) := by
  unfold dropError
  rw [h]

/-! ### Counting -/

section
variable {curState : ConsensusState} {check : ConsensusType → LeadProc P Unit} {s t : ConsensusLead P}

theorem counting_closed {rest : ConsensusType → LeadProc P Bool} (hstate : s.state ≠ curState) :
    counting curState check rest s = (.ok false, s) := by
  refine orFalse_run ?_
  rw [bind_read, if_pos hstate]
  rfl

section
variable {rest : ConsensusType → LeadProc P Bool} {type : ConsensusType} (hstate : s.state = curState)
  (htype : s.peer.currentType = type) (hcheck : check type s = (.ok ⟨⟩, t))
include hstate htype hcheck

theorem counting_more (hmore : ((t.counter + 1 : Nat) : Int) ≠ t.toleranceSize) :
    counting curState check rest s = (.ok false, {t with counter := t.counter + 1}) := by
  refine orFalse_run ?_
  rw [bind_read_of hstate, if_neg (not_not.mpr rfl), bind_read_of (s := s) htype, bind_run hcheck, bind_update]
  refine (bind_read_of (a := false) ?_).trans rfl
  exact decide_eq_false hmore

theorem counting_last {u : ConsensusLead P} (hlast : ((t.counter + 1 : Nat) : Int) = t.toleranceSize)
    (hrest : rest type {t with counter := t.counter + 1} = (.ok true, u)) :
    counting curState check rest s = (.ok true, u) := by
  refine orFalse_run ?_
  rw [bind_read_of hstate, if_neg (not_not.mpr rfl), bind_read_of (s := s) htype, bind_run hcheck, bind_update]
  refine (bind_read_of (a := true) ?_).trans hrest
  exact decide_eq_true hlast

end

theorem answering_run {msg : Message} {handle : LeadProc P Bool} {a : Bool}
    (hauth : authenticate msg s.peer = (.ok ⟨⟩, s.peer)) (h : handle s = (.ok a, t)) :
    answering msg handle s = (if a then resetMaps else pure ⟨⟩) t := by
  unfold answering
  rw [bind_run (onPeer_run hauth), bind_run h]

end

/-- The leader when a count is complete: nothing is left of it. -/
def ConsensusLead.advanced (s : ConsensusLead P) (peer : PeerServer P) (state : ConsensusState) :
    ConsensusLead P where
  peer := peer
  shardLead := s.shardLead
  state := state
  counter := 0
  toleranceSize := s.toleranceSize
  consensusBackupNodes := s.consensusBackupNodes
  publicKey2MsgMap := fun _ => false
  signMap := fun _ => none
  pubKeyMap := fun _ => none
  boolMapSign2 := s.boolMapSign2
  finalBLSSign := s.finalBLSSign
  gPubkey := s.gPubkey

section

variable {b : DSBlock} {d : Hash} {s : ConsensusLead P} {p : PeerEndpoint} {backup : PeerServer P}
  {sorted : List PeerEndpoint} {voted : PeerEndpoint → Bool}

/-! ### The first round -/

theorem generateBoolMap_run (hbls : P.bls.Complete) (hms : ∀ p ∈ sorted, Keyed key p)
    (hsort : sortByPubkey P.toEnv s.peer.committee = .ok sorted) (hcur : s.peer.currentDSBlock = some b)
    (htally : Tally key sorted voted d.bytes s) (hsig : s.finalBLSSign = 0) (hpub : s.gPubkey = 0) :
    generateBoolMap .dsBlock s =
      (.ok ⟨⟩, {s with peer := s.peer.holding (sealedBy key sorted voted b d)}) := by
  have hmembers : members .dsBlock s.peer = (.ok sorted, s.peer) := committeeSort_run hsort
  let s₁ : ConsensusLead P :=
    {s with finalBLSSign := voteSig key sorted voted d.bytes, gPubkey := votePub key sorted voted}
  have hzero : s.added (voteSig key sorted voted d.bytes) (votePub key sorted voted) = s₁ := by
    unfold ConsensusLead.added
    rw [hsig, hpub, zero_add, zero_add]
  unfold generateBoolMap
  rw [bind_run (onPeer_run hmembers)]
  refine (bind_run (collect_run hbls hms htally)).trans ?_
  rw [hzero]
  have hseal : sealCurrent .dsBlock ⟨sorted.map voted, P.bls.serializeSig (voteSig key sorted voted d.bytes),
      P.bls.serializePub (votePub key sorted voted)⟩ s.peer =
      (.ok ⟨⟩, s.peer.holding (sealedBy key sorted voted b d)) := (dsSlot P).modify_run hcur
  refine (bind_run (onPeer_run (s := s₁) hseal)).trans ?_
  refine update_ok.mpr ?_
  rw [← hsig, ← hpub]

theorem composeFinalCollectiveSig_run (peer : PeerServer P) (hcur : peer.currentDSBlock = some b) :
    ∃ l, composeFinalCollectiveSig .dsBlock peer =
      (.ok (finalCollectiveSig peer b), {peer with issued := l}) := by
  obtain ⟨l, hl⟩ := signedMessage_run peer .consensusFinalCollectiveSig
    (consensusPayload P .dsBlock (P.boolMapSignature.marshal ⟨(getSeal b).boolMap, (getSeal b).signature⟩))
  have hseal : currentSeal .dsBlock peer = (.ok (getSeal b), peer) := by
    show ((dsSlot P).current >>= fun c => pure (getSeal c)) peer = _
    rw [bind_run ((dsSlot P).current_run hcur)]
    rfl
  refine ⟨l, ?_⟩
  exact (bind_run hseal).trans hl

theorem processMessageResponse_late (hbls : P.bls.Complete) (hp : Honest key p backup)
    (hstate : s.state ≠ .announceDone) : processMessageResponse (response backup b d) s = (.ok ⟨⟩, s) :=
  answering_run (authenticate_run hbls hp _ _) (bind_read.trans (counting_closed hstate))

/-- The handler of a response or of a final response. -/
def leadHandler (msg : Message) (x : LeadProc P Unit) : Prop :=
  msg.type = .consensusResponse ∧ x = processMessageResponse msg ∨
    msg.type = .consensusFinalResponse ∧ x = processMessageFinalResponse msg

theorem ConsensusLead.processConsensusMsg_run {msg : Message} {sender : PeerEndpoint} {x : LeadProc P Unit}
    {t : ConsensusLead P} (hnode : s.consensusBackupNodes.any (fun q => q.pubkey = sender.pubkey) = true)
    (hx : leadHandler msg x) (hrun : x s = (.ok ⟨⟩, t)) :
    ConsensusLead.processConsensusMsg msg sender s = (.ok ⟨⟩, t) := by
  unfold ConsensusLead.processConsensusMsg
  rw [bind_ensureState (s := s) hnode]
  rcases hx with ⟨htype, rfl⟩ | ⟨htype, rfl⟩ <;> rw [htype] <;> exact dropError_run hrun

section First
variable (hbls : P.bls.Complete) (hwire : DsRoundTrip P) (hp : Honest key p backup) (hd : b.mHash P.toEnv = .ok d)
  (hfresh : getSeal b = Seal.none) (hcur : s.peer.currentDSBlock = some b)
include hbls hwire hp hd hfresh hcur

theorem verifyAndUpdate_run : verifyAndUpdate (response backup b d) .dsBlock s =
      (.ok ⟨⟩, s.noting (P.bls.pubOf (key p)) (P.bls.sign (key p) d.bytes)) := by
  have hpeer : deref (response backup b d).peer = .ok p := by
    rw [← hp.selfNode]
    rfl
  have hmine : (dsSlot P).get s.peer =
      some (withSignature (withSignature b (signatureOn backup d.bytes)) []) := by
    rw [withSignature_withSignature, withSignature_nil hfresh]
    exact hcur
  have hsign : readSig P.toEnv (getSeal (withSignature b (signatureOn backup d.bytes))).signature =
      .ok (P.bls.sign (key p) d.bytes) := by
    rw [← hp.privateKey]
    exact readSig_serialize hbls _
  have hdigest : digest P.toEnv (withSignature b (signatureOn backup d.bytes)) = .ok d := by
    exact hd
  have hverify := blsVerify_of (hash_ne_nil d) (verify_one hbls (key p) d.bytes)
  unfold verifyAndUpdate
  rw [bind_lift hpeer, bind_lift (readPub_keyed hbls hp.keyed)]
  refine (bind_lift (decode_payload hwire backup _ _)).trans ?_
  refine (bind_lift (hwire.dsBlock.decode _)).trans ?_
  refine (bind_ensureState (s := s) hmine).trans ?_
  rw [bind_lift hsign, bind_lift hdigest, bind_lift hverify]
  rfl

variable (htype : s.peer.currentType = .dsBlock) (hstate : s.state = .announceDone)
include htype hstate

theorem processMessageResponse_counts (hmore : ((s.counter + 1 : Nat) : Int) ≠ s.toleranceSize) :
    processMessageResponse (response backup b d) s = (.ok ⟨⟩,
      {s.noting (P.bls.pubOf (key p)) (P.bls.sign (key p) d.bytes) with counter := s.counter + 1}) := by
  have hcheck := verifyAndUpdate_run hbls hwire hp hd hfresh hcur
  exact answering_run (authenticate_run hbls hp _ _) (bind_read.trans (counting_more hstate htype hcheck hmore))

section
variable (hlast : ((s.counter + 1 : Nat) : Int) = s.toleranceSize) (hrole : s.shardLead = false)
include hlast hrole

/-- The response that completes the count, when the block can be sealed as `c`. -/
theorem processMessageResponse_sends {c : DSBlock}
    (hmap : generateBoolMap .dsBlock {s.noting (P.bls.pubOf (key p)) (P.bls.sign (key p) d.bytes) with
        counter := s.counter + 1} = (.ok ⟨⟩, {s.noting (P.bls.pubOf (key p)) (P.bls.sign (key p) d.bytes) with
      counter := s.counter + 1, peer := s.peer.holding c, finalBLSSign := 0, gPubkey := 0})) :
    ∃ l, processMessageResponse (response backup b d) s = (.ok ⟨⟩,
      {s.advanced (s.peer.after c l [finalCollectiveSig s.peer c]) .finalCollectiveSigDone with
        finalBLSSign := 0, gPubkey := 0}) := by
  have hcheck := verifyAndUpdate_run hbls hwire hp hd hfresh hcur
  obtain ⟨l, hl⟩ := composeFinalCollectiveSig_run (s.peer.holding c) rfl
  refine ⟨l, ?_⟩
  let t : ConsensusLead P := {s.noting (P.bls.pubOf (key p)) (P.bls.sign (key p) d.bytes) with
    peer := s.peer.after c l [finalCollectiveSig s.peer c]
    counter := 0
    state := .finalCollectiveSigDone
    finalBLSSign := 0
    gPubkey := 0}
  have hhandle : handleResponse .finalCollectiveSigDone (response backup b d) s = (.ok true, t) := by
    refine counting_last hstate htype hcheck hlast ((bind_run hmap).trans ?_)
    refine (bind_read_of (a := false) ?_).trans ?_
    · exact hrole
    · exact (bind_run (onPeer_run hl)).trans rfl
  refine answering_run (a := true) (t := t) (authenticate_run hbls hp _ _) ?_
  exact (bind_read_of hrole).trans hhandle

theorem processMessageResponse_completes (hms : ∀ p ∈ sorted, Keyed key p)
    (hsort : sortByPubkey P.toEnv s.peer.committee = .ok sorted) (hsig : s.finalBLSSign = 0)
    (hpub : s.gPubkey = 0)
    (htally : Tally key sorted voted d.bytes (s.noting (P.bls.pubOf (key p)) (P.bls.sign (key p) d.bytes))) :
    ∃ l, processMessageResponse (response backup b d) s = (.ok ⟨⟩,
      s.advanced (s.peer.after (sealedBy key sorted voted b d) l
        [finalCollectiveSig s.peer (sealedBy key sorted voted b d)]) .finalCollectiveSigDone) := by
  let s₁ : ConsensusLead P :=
    {s.noting (P.bls.pubOf (key p)) (P.bls.sign (key p) d.bytes) with counter := s.counter + 1}
  have hmap : generateBoolMap .dsBlock s₁ = _ :=
    generateBoolMap_run hbls hms hsort hcur ⟨htally.votes, htally.signs, htally.pubs⟩ hsig hpub
  have hsend := processMessageResponse_sends (c := sealedBy key sorted voted b d) hbls hwire hp hd hfresh hcur htype
    hstate hlast hrole
  rw [← hsig, ← hpub] at hsend
  exact hsend hmap

end

end First

/-! ### The second round -/

variable {c : DSBlock} {sig : P.bls.Sig}

theorem composeBroadCastBlock_run {peer : PeerServer P} (hcur : peer.currentDSBlock = some c)
    (boolMap : List Bool) (sig2 : P.bls.Sig) (shardLead : Bool) :
    ∃ l, composeBroadCastBlock boolMap (some sig2) shardLead .dsBlock peer =
      (.ok (broadCastBlock peer c ⟨boolMap, P.bls.serializeSig sig2⟩), {peer with issued := l}) := by
  obtain ⟨l, hl⟩ := signedMessage_run peer .consensusBroadCastBlock
    (consensusPayload P .dsBlock (P.dsBlockWithSig2.marshal ⟨c, boolMap, P.bls.serializeSig sig2⟩))
  refine ⟨l, ?_⟩
  exact (bind_run ((dsSlot P).current_run hcur)).trans hl

section Second
variable (hbls : P.bls.Complete) (hwire : DsRoundTrip P) (hp : Honest key p backup)
  (hcur : s.peer.currentDSBlock = some c) (hsig : (getSeal c).signature = P.bls.serializeSig sig)
include hbls hwire hp hcur hsig

theorem verifySig2AndUpdate_run : verifySig2AndUpdate (finalResponse backup (P.bls.serializeSig sig)) .dsBlock s =
      (.ok ⟨⟩, s.noting (P.bls.pubOf (key p)) (P.bls.sign (key p) (P.bls.serializeSig sig))) := by
  have hpeer : deref (finalResponse backup (P.bls.serializeSig sig)).peer = .ok p := by
    rw [← hp.selfNode]
    rfl
  have hsign : orError (.consensus .deserializeSign2)
      (deserializeSig P.toEnv (signatureOn backup (P.bls.serializeSig sig))) =
      .ok (P.bls.sign (key p) (P.bls.serializeSig sig)) := by
    rw [← hp.privateKey]
    exact orError_ok.mpr (deserializeSig_serialize hbls _)
  have hseal : currentSeal .dsBlock s.peer = (.ok (getSeal c), s.peer) := by
    show ((dsSlot P).current >>= fun c => pure (getSeal c)) s.peer = _
    rw [bind_run ((dsSlot P).current_run hcur)]
    rfl
  have hverify : blsVerify P.toEnv (P.bls.sign (key p) (P.bls.serializeSig sig)) (P.bls.pubOf (key p))
      (getSeal c).signature = .ok true := by
    rw [hsig]
    exact blsVerify_of (hbls.sig_nonempty sig) (verify_one hbls _ _)
  refine (bind_run (onPeer_run rfl)).trans ?_
  rw [bind_ensure rfl, bind_lift hpeer, bind_lift (readPub_keyed hbls hp.keyed)]
  refine (bind_lift (decode_payload hwire backup _ _)).trans ?_
  refine (bind_lift hsign).trans ?_
  refine (bind_run (onPeer_run hseal)).trans ?_
  rw [bind_lift hverify]
  rfl

variable (htype : s.peer.currentType = .dsBlock) (hstate : s.state = .finalCollectiveSigDone)
include htype hstate

theorem processMessageFinalResponse_counts (hmore : ((s.counter + 1 : Nat) : Int) ≠ s.toleranceSize) :
    processMessageFinalResponse (finalResponse backup (P.bls.serializeSig sig)) s = (.ok ⟨⟩,
      {s.noting (P.bls.pubOf (key p)) (P.bls.sign (key p) (P.bls.serializeSig sig)) with
        counter := s.counter + 1}) := by
  have hcheck := verifySig2AndUpdate_run hbls hwire hp hcur hsig
  exact answering_run (authenticate_run hbls hp _ _) (counting_more hstate htype hcheck hmore)

theorem processMessageFinalResponse_completes (hlast : ((s.counter + 1 : Nat) : Int) = s.toleranceSize)
    (hms : ∀ p ∈ sorted, Keyed key p)
    (hsort : sortByPubkey P.toEnv s.peer.committee = .ok sorted)
    (htally : Tally key sorted voted (P.bls.serializeSig sig)
      (s.noting (P.bls.pubOf (key p)) (P.bls.sign (key p) (P.bls.serializeSig sig)))) :
    ∃ l sig2, sig2 = ⟨sorted.map voted,
        P.bls.serializeSig (voteSig key sorted voted (P.bls.serializeSig sig))⟩ ∧
      processMessageFinalResponse (finalResponse backup (P.bls.serializeSig sig)) s = (.ok ⟨⟩,
        {s.advanced (s.peer.after c l [broadCastBlock s.peer c sig2]) .broadCastBlockDone with
          boolMapSign2 := sig2}) := by
  have hcheck := verifySig2AndUpdate_run hbls hwire hp hcur hsig
  let s₁ : ConsensusLead P :=
    {s.noting (P.bls.pubOf (key p)) (P.bls.sign (key p) (P.bls.serializeSig sig)) with
      counter := s.counter + 1}
  have hcollect : collectSig2 sorted s₁ = _ :=
    collectSig2_run hbls hms ⟨htally.votes, htally.signs, htally.pubs⟩
  obtain ⟨l, hl⟩ := composeBroadCastBlock_run hcur (sorted.map voted)
    (voteSig key sorted voted (P.bls.serializeSig sig)) s.shardLead
  refine ⟨l, _, rfl, ?_⟩
  generalize hsig2 : (⟨sorted.map voted, P.bls.serializeSig (voteSig key sorted voted (P.bls.serializeSig sig))⟩ :
    BoolMapSignature) = sig2 at hl ⊢
  have hpeer : s.peer.after c l [broadCastBlock s.peer c sig2] =
      {s.peer with issued := l, outbox := s.peer.outbox ++ [broadCastBlock s.peer c sig2]} := by
    unfold PeerServer.after
    rw [← hcur]
  have hhandle : handleFinalResponse (finalResponse backup (P.bls.serializeSig sig)) s = (.ok true, {s₁ with
      peer := s.peer.after c l [broadCastBlock s.peer c sig2]
      counter := 0
      state := .broadCastBlockDone
      boolMapSign2 := sig2}) := by
    rw [hpeer, ← hsig2]
    rw [← hsig2] at hl
    refine counting_last hstate htype hcheck hlast ?_
    refine (bind_run (onPeer_run (s := s₁) (committeeSort_run hsort))).trans ?_
    exact (bind_run hcollect).trans ((bind_run (onPeer_run (s := s₁) hl)).trans rfl)
  exact answering_run (authenticate_run hbls hp _ _) hhandle

end Second

theorem processMessageFinalResponse_late (text : Bytes) (hbls : P.bls.Complete) (hp : Honest key p backup)
    (hstate : s.state ≠ .finalCollectiveSigDone) :
    processMessageFinalResponse (finalResponse backup text) s = (.ok ⟨⟩, s) :=
  answering_run (authenticate_run hbls hp _ _) (counting_closed hstate)

end
end Okchain.Consensus
