import Okchain.Consensus.Finished
import Okchain.Consensus.Votes

/-! What a backup does with the honest messages of a DS block round.

Each theorem follows one handler on a message an honest node has made and gives the state it ends in.
The signatures recorded in `issued` are left open.
-/
namespace Okchain.Consensus
open Lib Proc Protos List
open Chain (getToleranceSize)

variable {P : Platform} {key : PeerEndpoint → P.bls.PriKey}

/-! ### Signed messages -/

/-- The message `signedMessage` makes. -/
def messageFrom (s : PeerServer P) (type : MessageType) (payload : Bytes) : Message :=
  let unsigned : Message := ⟨type, some s.clock, payload, [], some s.selfNode⟩
  {unsigned with signature :=
    P.bls.serializeSig (P.bls.sign s.privateKey (Server.messageHash P.toEnv unsigned).bytes)}

variable {s : PeerServer P} {p : PeerEndpoint} {B : Type} {b : B}

theorem blsSign_run {what : Signable} {bytes : Bytes} (hbytes : what.bytes P.toEnv = .ok bytes) (hne : bytes ≠ []) :
    blsSign what s = (.ok (P.bls.sign s.privateKey bytes), {s with issued := what :: s.issued}) := by
  unfold blsSign
  rw [bind_lift hbytes, bind_ensure hne]
  rfl

theorem signedMessage_run (s : PeerServer P) (type : MessageType) (payload : Bytes) :
    ∃ l, signedMessage type payload s = (.ok (messageFrom s type payload), {s with issued := l}) := by
  refine ⟨.message ⟨type, some s.clock, payload, [], some s.selfNode⟩ :: s.issued, ?_⟩
  unfold signedMessage
  rw [bind_read, bind_run (blsSign_run rfl (hash_ne_nil _))]
  rfl

theorem verify_one (hbls : P.bls.Complete) (k : P.bls.PriKey) (m : Bytes) :
    P.bls.verify (P.bls.sign k m) (P.bls.pubOf k) m = true := by
  have h := hbls.verify_sum [k] m (cons_ne_nil _ _)
  rwa [map_singleton, map_singleton, sum_singleton, sum_singleton] at h

structure Honest (key : PeerEndpoint → P.bls.PriKey) (p : PeerEndpoint) (s : PeerServer P) : Prop where
  selfNode : s.selfNode = p
  privateKey : s.privateKey = key p
  keyed : Keyed key p

theorem messageVerify_messageFrom (hbls : P.bls.Complete) (h : Honest key p s) (type : MessageType) (payload : Bytes) :
    Server.messageVerify P.toEnv (messageFrom s type payload) = .ok () := by
  rw [Server.messageVerify_ok_iff (show (messageFrom s type payload).peer = some p by rw [← h.selfNode]; rfl)]
  have hsig : (messageFrom s type payload).signature =
      P.bls.serializeSig (P.bls.sign (key p) (P.keccak []).bytes) := by
    rw [← h.privateKey]
    rfl
  unfold verifyHash
  rw [hsig, deserializeSig_serialize hbls, deserializePub_keyed hbls h.keyed]
  show (blsVerify P.toEnv _ _ _ >>= _) = _
  rw [blsVerify_of (hash_ne_nil _) (verify_one hbls _ _)]
  rfl

theorem orFail_run {α : Type} {x : NodeProc P α} {t : PeerServer P} {a : α} {e : Err}
    (h : x s = (.ok a, t)) : orFail e x s = (.ok a, t) := by
  unfold orFail
  rw [h]
  rfl

theorem authenticate_run (hbls : P.bls.Complete) {sender : PeerServer P}
    (h : Honest key p sender) (type : MessageType) (payload : Bytes) :
    authenticate (messageFrom sender type payload) s = (.ok ⟨⟩, s) := by
  refine lift_ok.mpr ⟨orError_ok.mpr ?_, rfl⟩
  exact messageVerify_messageFrom hbls h type payload

theorem committeeSort_run {sorted : List PeerEndpoint}
    (h : sortByPubkey P.toEnv s.committee = .ok sorted) : committeeSort s = (.ok sorted, s) := by
  exact lift_ok.mpr ⟨h, rfl⟩

theorem Codec.RoundTrip.decode {T : Type} {c : Codec T} (h : c.RoundTrip) (x : T) :
    c.decode (c.marshal x) = .ok x := Codec.decode_ok.mpr (h x)

/-- The messages of a DS block round survive the wire. -/
structure DsRoundTrip (P : Platform) : Prop where
  payload : P.payload.RoundTrip
  dsBlock : P.dsBlock.RoundTrip
  boolMapSignature : P.boolMapSignature.RoundTrip
  dsBlockWithSig2 : P.dsBlockWithSig2.RoundTrip

theorem decode_payload (hwire : DsRoundTrip P) (s : PeerServer P) (type : MessageType) (msg : Bytes) :
    P.payload.decode (messageFrom s type (consensusPayload P .dsBlock msg)).payload = .ok ⟨.dsBlock, msg⟩ :=
  hwire.payload.decode _

/-! ### The messages of a round -/

section

variable (s : PeerServer P) (b : DSBlock)

def announcement : Message :=
  messageFrom s .consensusAnnounce (consensusPayload P .dsBlock (P.dsBlock.marshal b))

/-- A backup's signature on a text, as it goes into a block. -/
def signatureOn (text : Bytes) : Bytes := P.bls.serializeSig (P.bls.sign s.privateKey text)

/-- The response of a backup to a block with the given digest. -/
def response (d : Hash) : Message := messageFrom s .consensusResponse
  (consensusPayload P .dsBlock (P.dsBlock.marshal (withSignature b (signatureOn s d.bytes))))

/-- The final response of a backup to a collective signature. -/
def finalResponse (signature : Bytes) : Message :=
  messageFrom s .consensusFinalResponse (consensusPayload P .dsBlock (signatureOn s signature))

def finalCollectiveSig : Message := messageFrom s .consensusFinalCollectiveSig
  (consensusPayload P .dsBlock (P.boolMapSignature.marshal ⟨(getSeal b).boolMap, (getSeal b).signature⟩))

/-- The sealed block with the signatures of the second round. -/
def broadCastBlock (sig2 : BoolMapSignature) : Message := messageFrom s .consensusBroadCastBlock
  (consensusPayload P .dsBlock (P.dsBlockWithSig2.marshal ⟨b, sig2⟩))

end

def PeerServer.holding (s : PeerServer P) (b : DSBlock) : PeerServer P := {s with currentDSBlock := some b}

/-- The node after a handler: its current block, what it has signed, and what it sends. -/
def PeerServer.after (s : PeerServer P) (b : DSBlock) (issued : List Signable) (out : List Message) :
    PeerServer P := {s with currentDSBlock := some b, issued := issued, outbox := s.outbox ++ out}

/-! ### The backup's handlers -/

section

variable {b : DSBlock} {d : Hash} {s lead : PeerServer P} {self : PeerEndpoint}

theorem verifyDSBlock_run (hwire : DsRoundTrip P)
    (hacc : (verifyAnnounced P (announcement lead b) .dsBlock s).1 = .ok ⟨⟩) :
    verifyAnnounced P (announcement lead b) .dsBlock s = (.ok ⟨⟩, s.holding b) := by
  obtain ⟨t, ht⟩ := fst_ok.mp hacc
  have hrun := ht
  obtain ⟨x, u, hlift, hrest⟩ := bind_ok.mp ht
  obtain ⟨hx, rfl⟩ := lift_ok.mp hlift
  rw [bind_read] at hrest
  obtain ⟨_, _, hcheck, hset⟩ := bind_ok.mp hrest
  obtain ⟨_, rfl⟩ := lift_ok.mp hcheck
  have hb : x = b := by
    obtain ⟨announce, ha, hx⟩ := except_bind_ok.mp hx
    have hpayload := (decode_payload hwire lead _ _).symm.trans ha
    rw [← Except.ok.inj hpayload] at hx
    exact (Except.ok.inj ((hwire.dsBlock.decode b).symm.trans hx)).symm
  rw [hrun, update_ok.mp hset, hb]
  rfl

theorem verifyAnnounced_of_check (hwire : DsRoundTrip P) (hcheck : checkDSBlock P s b = .ok ()) :
    (verifyAnnounced P (announcement lead b) .dsBlock s).1 = .ok ⟨⟩ := by
  have hb : announced P P.dsBlock (announcement lead b) = .ok b := by
    unfold announced
    rw [except_bind_ok]
    exact ⟨_, decode_payload hwire lead _ _, hwire.dsBlock.decode b⟩
  show (verifyDSBlock P (announcement lead b) s).1 = _
  unfold verifyDSBlock
  rw [bind_lift hb, bind_read, id_eq, bind_lift hcheck]
  rfl

theorem respondWith_run (hd : b.mHash P.toEnv = .ok d) (hcur : s.currentDSBlock = some b) :
    ∃ l, composeResponse P .dsBlock s = (.ok (response s b d),
      {s.holding (withSignature b (signatureOn s d.bytes)) with issued := l}) := by
  have hbytes : (Signable.dsBlock b).bytes P.toEnv = .ok d.bytes := by
    show (b.mHash P.toEnv >>= _) = _
    rw [hd]
    rfl
  let s₁ : PeerServer P := {s with issued := .dsBlock b :: s.issued}
  let s₂ : PeerServer P := (dsSlot P).set (withSignature b (signatureOn s d.bytes)) s₁
  obtain ⟨l, hl⟩ := signedMessage_run s₂ .consensusResponse
    (consensusPayload P .dsBlock (P.dsBlock.marshal (withSignature b (signatureOn s d.bytes))))
  have hsign := blsSign_run (s := s) hbytes (hash_ne_nil d)
  have hmodify : (dsSlot P).modify (withSignature · (signatureOn s d.bytes)) s₁ = (.ok ⟨⟩, s₂) :=
    (dsSlot P).modify_run hcur
  refine ⟨l, ?_⟩
  show respondWith P (dsSlot P) P.dsBlock .dsBlock .dsBlock s = _
  unfold respondWith
  rw [bind_run ((dsSlot P).current_run hcur), bind_run hsign]
  refine (bind_run hmodify).trans ?_
  exact hl

variable (hbls : P.bls.Complete) (hwire : DsRoundTrip P) (hlead : Honest key self lead)
  (htype : s.currentType = .dsBlock) (hd : b.mHash P.toEnv = .ok d)

include hbls hwire hlead htype hd in
theorem processMessageAnnounce_run
    (hacc : (verifyAnnounced P (announcement lead b) .dsBlock s).1 = .ok ⟨⟩) :
    ∃ l, processMessageAnnounce (announcement lead b) s = (.ok ⟨⟩,
      s.after (withSignature b (signatureOn s d.bytes)) l [response s b d]) := by
  obtain ⟨l, hl⟩ := respondWith_run (s := s.holding b) hd rfl
  refine ⟨l, ?_⟩
  unfold processMessageAnnounce
  have hauth : authenticate (announcement lead b) s = (.ok ⟨⟩, s) := authenticate_run hbls hlead _ _
  rw [bind_run hauth, bind_read_of htype,
    bind_run (orFail_run (verifyDSBlock_run hwire hacc)), bind_run (orFail_run hl)]
  rfl

/-! A quorum of `sorted` has voted for `b`. -/

variable {sorted : List PeerEndpoint} {voted : PeerEndpoint → Bool}

/-- Their signature on a text, as it goes into a block. -/
def signedBy (key : PeerEndpoint → P.bls.PriKey) (sorted : List PeerEndpoint) (voted : PeerEndpoint → Bool)
    (text : Bytes) : Bytes := P.bls.serializeSig (voteSig key sorted voted text)

def sealedBy (key : PeerEndpoint → P.bls.PriKey) (sorted : List PeerEndpoint) (voted : PeerEndpoint → Bool)
    (b : DSBlock) (d : Hash) : DSBlock :=
  withSeal b ⟨sorted.map voted, signedBy key sorted voted d.bytes,
    P.bls.serializePub (votePub key sorted voted)⟩

/-- The votes of the members are enough, and there is one at all. -/
structure Quorum (sorted : List PeerEndpoint) (voted : PeerEndpoint → Bool) : Prop where
  enough : getToleranceSize sorted.length ≤ (sorted.filter voted).length
  some_vote : sorted.filter voted ≠ []

variable {x : Bytes} (hsort : sortByPubkey P.toEnv s.committee = .ok sorted) (hms : ∀ p ∈ sorted, Keyed key p)
  (hquorum : Quorum sorted voted) (hcur : s.currentDSBlock = some (withSignature b x))

include hbls hwire hd hsort hms hquorum hcur in
theorem verifyBlockSig1_run (leader : PeerServer P) :
    verifyBlockSig1 (finalCollectiveSig leader (sealedBy key sorted voted b d)) .dsBlock s = (.ok ⟨⟩,
      s.holding (withSignature b (signedBy key sorted voted d.bytes))) := by
  have hsum : sumByBoolMap P.toEnv (sorted.map voted) sorted = _ := sumByBoolMap_votes hbls hms
  have hsig : orError (.consensus .signatureRoundOne) (deserializeSig P.toEnv
      (signedBy key sorted voted d.bytes)) = .ok (voteSig key sorted voted d.bytes) :=
    orError_ok.mpr (deserializeSig_serialize hbls _)
  have hverify : blsVerify P.toEnv (voteSig key sorted voted d.bytes) (votePub key sorted voted) d.bytes =
      .ok true := blsVerify_of (hash_ne_nil d) (verify_votes hbls hquorum.some_vote)
  have hdigest : digest P.toEnv (withSignature b x) = .ok d := by
    exact hd
  refine (bind_pure_run).trans ?_
  rw [bind_ensure rfl, bind_run (committeeSort_run hsort)]
  refine (bind_lift (decode_payload hwire leader _ _)).trans ?_
  refine (bind_lift (hwire.boolMapSignature.decode _)).trans ?_
  refine (bind_lift hsum).trans ?_
  refine (bind_ensure hquorum.enough).trans ?_
  refine (bind_lift hsig).trans ?_
  show checkSig1 (dsSlot P) (digest P.toEnv) _ _ _ s = _
  unfold checkSig1
  rw [bind_run ((dsSlot P).current_run hcur), bind_lift hdigest,
    bind_lift hverify, bind_ensure rfl, (dsSlot P).modify_run hcur]
  rfl

include hbls

omit hcur in
theorem counterSign_run {c : DSBlock} {sig : P.bls.Sig}
    (hsig : (getSeal c).signature = P.bls.serializeSig sig) (hcur : s.currentDSBlock = some c) :
    ∃ l, composeFinalResponse P .dsBlock s =
      (.ok (finalResponse s (P.bls.serializeSig sig)), {s with issued := l}) := by
  let s₁ : PeerServer P := {s with issued := .signature (P.bls.serializeSig sig) :: s.issued}
  obtain ⟨l, hl⟩ := signedMessage_run s₁ .consensusFinalResponse
    (consensusPayload P .dsBlock (signatureOn s (P.bls.serializeSig sig)))
  have hsign : blsSign (.signature (P.bls.serializeSig sig)) s =
      (.ok (P.bls.sign s.privateKey (P.bls.serializeSig sig)), s₁) :=
    blsSign_run rfl (hbls.sig_nonempty sig)
  refine ⟨l, ?_⟩
  show counterSign P (dsSlot P) .dsBlock s = _
  unfold counterSign
  rw [bind_run ((dsSlot P).current_run hcur), hsig]
  exact (bind_run hsign).trans hl

include hwire hlead htype hd hsort hms hquorum hcur in
theorem processMessageFinalCollectiveSig_run :
    ∃ l, processMessageFinalCollectiveSig (finalCollectiveSig lead (sealedBy key sorted voted b d)) s =
      (.ok ⟨⟩, s.after (withSignature b (signedBy key sorted voted d.bytes)) l
        [finalResponse s (signedBy key sorted voted d.bytes)]) := by
  have hsig1 := verifyBlockSig1_run hbls hwire hd hsort hms hquorum hcur lead
  obtain ⟨l, hl⟩ := counterSign_run (s := s.holding
    (withSignature b (signedBy key sorted voted d.bytes))) hbls
    (congrArg Seal.signature (getSeal_withSignature b _)) rfl
  refine ⟨l, ?_⟩
  unfold processMessageFinalCollectiveSig
  have hauth : authenticate (finalCollectiveSig lead (sealedBy key sorted voted b d)) s = (.ok ⟨⟩, s) :=
    authenticate_run hbls hlead _ _
  rw [bind_run hauth, bind_read_of htype, bind_run (orFail_run hsig1), bind_run (orFail_run hl)]
  rfl

include hms hquorum in
theorem verifyMultiSignByBoolMap_votes {text : Bytes} (htext : text ≠ []) :
    verifyMultiSignByBoolMap P.toEnv (sorted.map voted) sorted (voteSig key sorted voted text) text
      (getToleranceSize sorted.length) = .ok ⟨⟩ := by
  unfold verifyMultiSignByBoolMap
  rw [if_neg (not_not.mpr (length_map voted)), sumByBoolMap_votes hbls hms]
  show (if ((sorted.filter voted).length : Int) < _ then _ else _) = _
  rw [if_neg (not_lt.mpr hquorum.enough), blsVerify_of htext (verify_votes hbls hquorum.some_vote)]
  rfl

include hd hquorum in
theorem verifySeal_sealedBy : verifySeal P.toEnv (sealedBy key sorted voted b d) = .ok true := by
  have hdigest : digest P.toEnv (sealedBy key sorted voted b d) = .ok d := by
    exact hd
  unfold verifySeal
  rw [hdigest]
  unfold sealedBy signedBy
  rw [getSeal_withSeal, readPub_serialize hbls, readSig_serialize hbls]
  exact blsVerify_of (hash_ne_nil d) (verify_votes hbls hquorum.some_vote)

include hd hms hquorum hcur in
theorem checkFinished_run (hfresh : getSeal b = Seal.none) :
    checkFinished (dsSlot P) sorted (sealedBy key sorted voted b d) s =
      (.ok ⟨⟩, s.holding (sealedBy key sorted voted b d)) := by
  refine checkFinished_accepts dsSlot_lawful hcur ⟨?_, blsMultiPubkeyVerify_votes hbls hms, ?_⟩
  · rw [withSignature_withSignature, withSignature_nil hfresh]
    exact (withSeal_none hfresh _).symm
  · exact verifySeal_sealedBy hbls hd hquorum

include hwire hlead htype hd hsort hms hquorum hcur in
theorem processMessageBroadCastBlock_run {voted₂ : PeerEndpoint → Bool} (hquorum₂ : Quorum sorted voted₂)
    (hfresh : getSeal b = Seal.none) :
    processMessageBroadCastBlock (broadCastBlock lead (sealedBy key sorted voted b d)
      ⟨sorted.map voted₂, signedBy key sorted voted₂ (signedBy key sorted voted d.bytes)⟩) s =
      (.ok ⟨⟩, s.holding (sealedBy key sorted voted b d)) := by
  have hsig2 : checkSig2 ⟨sorted.map voted₂, signedBy key sorted voted₂ (signedBy key sorted voted d.bytes)⟩ sorted
      (signedBy key sorted voted d.bytes) (getToleranceSize sorted.length) s = (.ok ⟨⟩, s) := by
    unfold checkSig2 signedBy
    rw [bind_lift (deserializeSig_serialize hbls _)]
    exact lift_ok.mpr ⟨verifyMultiSignByBoolMap_votes hbls hms hquorum₂ (hbls.sig_nonempty _), rfl⟩
  have hfinished := checkFinished_run hbls hd hms hquorum hcur hfresh
  have henough : getToleranceSize sorted.length ≤ (voteTickets (sorted.map voted) : Int) := by
    rw [voteTickets_votes]
    exact hquorum.enough
  have hauth := authenticate_run (s := s) hbls hlead .consensusBroadCastBlock
    (consensusPayload P .dsBlock (P.dsBlockWithSig2.marshal ⟨sealedBy key sorted voted b d,
      sorted.map voted₂, signedBy key sorted voted₂ (signedBy key sorted voted d.bytes)⟩))
  refine (bind_run hauth).trans ?_
  rw [bind_read_of htype]
  refine orFail_run ?_
  refine (bind_lift (decode_payload hwire lead _ _)).trans ?_
  refine (bind_run (committeeSort_run hsort)).trans ?_
  refine (bind_lift (hwire.dsBlockWithSig2.decode _)).trans ?_
  refine (bind_run hsig2).trans ?_
  refine (bind_run hfinished).trans ?_
  exact ensure_ok.mpr ⟨henough, rfl⟩

end

end Okchain.Consensus
