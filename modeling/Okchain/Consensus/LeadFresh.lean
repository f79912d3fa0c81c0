import Okchain.Consensus.LeadSeal

/-! What the certificates of a leader are made of.

The maps and the running sums of a leader outlive the round: they are emptied when a message goes out, and left
as they are when the round is given up. In a run whose rounds all start with nothing left over, the sums in the
leader's messages are the sums of this round's signatures and of the keys of their signers.
-/
variable {handled' : List Message}

namespace Okchain.Consensus
open Lib Proc Protos List
open Chain (getToleranceSize)
open Function (update_of_ne update_self)
open Platform (sample)

variable {P : Platform}

/-! ### Signatures of this round -/

/-- The certificate has a bit for every member, and its signature is the sum of signatures, one for each member
with a bit, that came in one of the messages with the member's key and were good. -/
def Fresh (V : Message → P.bls.PubKey → P.bls.Sig → Prop) (handled : List Message) (ms : List PeerEndpoint)
    (c : BoolMapSignature) : Prop :=
  c.boolMap.length = ms.length ∧ ∃ sign : PeerEndpoint → P.bls.Sig,
    (∀ p ∈ selected c.boolMap ms, ∃ msg ∈ handled, V msg (keyOf P p) (sign p)) ∧
    c.signature = P.bls.serializeSig ((selected c.boolMap ms).map sign).sum

/-- The sum of the keys of the members with a bit. -/
def keySum (P : Platform) (boolMap : List Bool) (ms : List PeerEndpoint) : Bytes :=
  P.bls.serializePub ((selected boolMap ms).map (keyOf P)).sum

/-- Every mark in the maps comes with its key and with a signature from one of the messages. -/
def Noted (V : Message → P.bls.PubKey → P.bls.Sig → Prop) (s : ConsensusLead P) (handled : List Message) : Prop :=
  ∀ k, s.publicKey2MsgMap k = true →
    s.pubKeyMap k = some k ∧ ∃ sign, s.signMap k = some sign ∧ ∃ msg ∈ handled, V msg k sign

section

variable {V W : Message → P.bls.PubKey → P.bls.Sig → Prop} {s : ConsensusLead P} {handled : List Message}
  {msg : Message} {pub : P.bls.PubKey} {sign : P.bls.Sig}

theorem Noted.mono (h : Noted V s handled) (hV : ∀ {msg k sign}, V msg k sign → W msg k sign)
    (hsub : handled ⊆ handled') : Noted W s handled' := by
  intro k hk
  obtain ⟨hpub, sign, hsign, m, hm, hvote⟩ := h k hk
  exact ⟨hpub, sign, hsign, m, hsub hm, hV hvote⟩

theorem Noted.noting (h : Noted V s handled) (hvote : V msg pub sign) :
    Noted V (s.noting pub sign) (handled ++ [msg]) := by
  intro k hk
  by_cases hkey : k = pub
  · subst hkey
    refine ⟨update_self _ _ _, sign, update_self _ _ _, msg, ?_, hvote⟩
    exact mem_append_right _ (mem_singleton_self msg)
  · have hold : s.publicKey2MsgMap k = true := (update_of_ne hkey _ _).symm.trans hk
    obtain ⟨hpub, sign', hsign, m, hm, hvote'⟩ := h k hold
    exact ⟨(update_of_ne hkey _ _).trans hpub, sign', (update_of_ne hkey _ _).trans hsign, m,
      mem_append_left _ hm, hvote'⟩

theorem selected_madeSig2 (s : ConsensusLead P) (ms : List PeerEndpoint) :
    selected (madeSig2 s ms).boolMap ms = noted s ms := selected_map _ ms

theorem Noted.signs (h : Noted V s handled) (ms : List PeerEndpoint) : Fresh V handled ms (madeSig2 s ms) := by
  refine ⟨length_map _, fun p => (s.signMap (keyOf P p)).getD 0, ?_, ?_⟩
  · intro p hp
    rw [selected_madeSig2] at hp
    have hmarked : s.publicKey2MsgMap (keyOf P p) = true := (mem_filter.mp hp).2
    obtain ⟨_, sign, hsign, m, hm, hvote⟩ := h _ hmarked
    refine ⟨m, hm, ?_⟩
    show V m (keyOf P p) ((s.signMap (keyOf P p)).getD 0)
    rw [hsign]
    exact hvote
  · rw [selected_madeSig2]
    rfl

theorem Noted.keys (h : Noted V s handled) (ms : List PeerEndpoint) :
    P.bls.serializePub (sumOf s.pubKeyMap (noted s ms)) = keySum P (madeSig2 s ms).boolMap ms := by
  unfold keySum
  rw [selected_madeSig2]
  refine congrArg (fun keys : List P.bls.PubKey => P.bls.serializePub keys.sum) (map_congr_left fun p hp => ?_)
  rw [(h _ (mem_filter.mp hp).2).1]
  rfl

variable {p q : PeerServer P}

theorem Votes.sameRound (h : Votes p msg pub sign) (hq : SameRound p q) : Votes q msg pub sign := by
  refine ⟨h.key, ?_, ?_⟩
  · rw [hq.currentType]
    exact h.carries
  · rw [hq.currentType, hq.roundHash]
    exact h.verifies

theorem Votes2.still (h : Votes2 p msg pub sign) (hq : Still p q) : Votes2 q msg pub sign := by
  refine ⟨?_, h.key, h.carries, ?_⟩
  · rw [hq.currentType, hq.toSameRound.decidedByCommittee]
    exact h.committee
  · rw [hq.currentType, hq.seals]
    exact h.verifies

end

/-- A seal made of signatures on the block of the round and of the keys of its signers. -/
structure FreshSeal (p : PeerServer P) (handled : List Message) (ms : List PeerEndpoint) (blockSeal : Seal) : Prop where
  signs : Fresh (Votes p) handled ms ⟨blockSeal.boolMap, blockSeal.signature⟩
  keys : blockSeal.multiPubKey = keySum P blockSeal.boolMap ms

variable {ms : List PeerEndpoint} {s : ConsensusLead P} {b : DSBlock} {handled : List Message}

theorem Fresh.mono {V W : Message → P.bls.PubKey → P.bls.Sig → Prop}
    {c : BoolMapSignature} (h : Fresh V handled ms c) (hV : ∀ {msg k sign}, V msg k sign → W msg k sign)
    (hsub : handled ⊆ handled') : Fresh W handled' ms c := by
  obtain ⟨hlength, sign, hsigned, hsum⟩ := h
  refine ⟨hlength, sign, fun p hp => ?_, hsum⟩
  obtain ⟨msg, hmsg, hvote⟩ := hsigned p hp
  exact ⟨msg, hsub hmsg, hV hvote⟩

theorem FreshSeal.mono {blockSeal : Seal} (h : FreshSeal p handled ms blockSeal) (hq : SameRound p q)
    (hsub : handled ⊆ handled') : FreshSeal q handled' ms blockSeal :=
  ⟨h.signs.mono (fun hvote => hvote.sameRound hq) hsub, h.keys⟩

/-- A round starts with no marks and with both sums at zero, and the rest of the node leaves it alone. -/
def StartsClean (l : LeadLog P) : LeadEvent P → Prop
  | .initiate _ => (∀ k, l.lead.publicKey2MsgMap k = false) ∧ l.lead.finalBLSSign = 0 ∧ l.lead.gPubkey = 0
  | .within (.message _ _) => True
  | .within (.node q) => Still l.lead.peer {q with outbox := l.lead.peer.outbox}

/-- What the maps and the sums hold is of this round. After the first round so is the seal. A count that was
completed in vain leaves the sums behind, but no message follows it in this round. -/
structure Recorded (l : LeadLog P) : Prop where
  placed : Placed l.lead
  first : l.lead.state = .announceDone → Noted (Votes l.lead.peer) l.lead l.handled
  sums : l.lead.state = .announceDone → (l.lead.counter : Int) < l.lead.toleranceSize →
    l.lead.finalBLSSign = 0 ∧ l.lead.gPubkey = 0
  second : l.lead.state = .finalCollectiveSigDone → (l.lead.counter : Int) < l.lead.toleranceSize →
    Noted (Votes2 l.lead.peer) l.lead l.handled
  sealed : l.lead.state = .finalCollectiveSigDone → (l.lead.counter : Int) < l.lead.toleranceSize →
    SealedWith l.lead.peer (FreshSeal l.lead.peer l.handled)

section

variable {l : LeadLog P} {msg m : Message} {sender : PeerEndpoint} {pub : P.bls.PubKey} {sign : P.bls.Sig}

section
variable (h : Recorded l)
include h

theorem Recorded.freshSeal (hstate : l.lead.state = .announceDone)
    (hcount : ((l.lead.counter + 1 : Nat) : Int) = l.lead.toleranceSize) (hvote : Votes l.lead.peer msg pub sign)
    (ms : List PeerEndpoint) :
    FreshSeal l.lead.peer (l.handled ++ [msg]) ms (madeSeal (l.lead.noting pub sign) ms) := by
  obtain ⟨hsig, hpub⟩ := h.sums hstate (by omega)
  have hnoted := (h.first hstate).noting hvote
  refine ⟨?_, ?_⟩
  · have hsigns := hnoted.signs ms
    unfold madeSeal
    rwa [show (l.lead.noting pub sign).finalBLSSign = 0 from hsig, zero_add]
  · refine Eq.trans ?_ (hnoted.keys ms)
    unfold madeSeal
    rw [show (l.lead.noting pub sign).gPubkey = 0 from hpub, zero_add]

theorem Recorded.handle (msg : Message) (sender : PeerEndpoint) :
    Recorded (l.next (.within (.message msg sender))) := by
  have hhandled := processConsensusMsg_handled msg sender l.lead
  show Recorded (l.after msg sender _)
  generalize (ConsensusLead.processConsensusMsg msg sender l.lead).2 = t at hhandled ⊢
  have hplaced := h.placed.handled hhandled
  have hsub : l.handled ⊆ l.handled ++ [msg] := subset_append_left _ _
  cases hhandled with
  | unsent _ hunsent =>
    cases hunsent with
    | refused _ hq =>
      refine ⟨hplaced, fun hstate => ?_, h.sums, fun hstate hless => ?_, fun hstate hless => ?_⟩
      · exact (h.first hstate).mono (fun hvote => hvote.sameRound hq.toSameRound) hsub
      · exact (h.second hstate hless).mono (fun hvote => hvote.still hq) hsub
      · exact (h.sealed hstate hless).still hq fun hfresh => hfresh.mono hq.toSameRound hsub
    | @counted q pub sign x y _ hq _ hvote hopen =>
      -- a count that was completed in vain is past the tolerance for the rest of the round
      have hstill : ((l.lead.counter + 1 : Nat) : Int) < l.lead.toleranceSize →
          (l.lead.counter : Int) < l.lead.toleranceSize ∧ Still l.lead.peer q ∧ x = l.lead.finalBLSSign ∧
            y = l.lead.gPubkey := fun hless => ⟨by omega, hopen hless.ne⟩
      refine ⟨hplaced, fun hstate => ?_, fun hstate hless => ?_, fun hstate hless => ?_, fun hstate hless => ?_⟩
      · cases hvote with
        | first _ _ hvote =>
          exact ((h.first hstate).noting hvote).mono (fun hvote => hvote.sameRound hq) (List.Subset.refl _)
        | second hs => exact nomatch hs.symm.trans hstate
      · obtain ⟨hless, -, hx, hy⟩ := hstill hless
        obtain ⟨hsig, hpub⟩ := h.sums hstate hless
        exact ⟨hx.trans hsig, hy.trans hpub⟩
      · obtain ⟨hless, hq, -⟩ := hstill hless
        cases hvote with
        | first hs => exact nomatch hs.symm.trans hstate
        | second _ _ hvote =>
          exact ((h.second hstate hless).noting hvote).mono (fun hvote => hvote.still hq) (List.Subset.refl _)
      · obtain ⟨hless, hq, -⟩ := hstill hless
        exact (h.sealed hstate hless).still hq fun hfresh => hfresh.mono hq.toSameRound hsub
  | @first t pub sign _ _ hstate _ hvote hcount hsends =>
    obtain ⟨ms, q, reply, hms, _, hround, _, hseal, _, rfl⟩ := hsends.sealed
    have hopen : afterFirst l.lead ≠ .announceDone := by
      unfold afterFirst
      split <;> exact (nomatch ·)
    have hfresh := (h.freshSeal hstate hcount hvote ms).mono hround (List.Subset.refl _)
    exact ⟨hplaced, fun hs => absurd hs hopen, fun hs => absurd hs hopen, fun _ _ k hk => (nomatch hk),
      fun _ _ => hround.sealedWith hms hseal hfresh⟩
  | second _ _ hstate _ hvote hcount hsends =>
    obtain ⟨ms, q, reply, _, _, _, _, _, _, rfl⟩ := hsends.sealed
    exact ⟨hplaced, fun hs => (nomatch hs), fun hs => (nomatch hs), fun hs => (nomatch hs), fun hs => nomatch hs⟩

theorem Recorded.next (e : LeadEvent P) (hok : StartsClean l e) : Recorded (l.next e) := by
  match e, hok with
  | .initiate r, ⟨hmarks, hsig, hpub⟩ =>
    refine ⟨.initiate l r, fun _ k hk => ?_, fun _ _ => ⟨hsig, hpub⟩, fun hs => (nomatch hs), fun hs => nomatch hs⟩
    exact nomatch (hmarks k).symm.trans hk
  | .within (.message msg sender), _ => exact h.handle msg sender
  | .within (.node q), hok =>
    have hstill : Still l.lead.peer {q with outbox := l.lead.peer.outbox} := hok
    refine ⟨h.placed.node hstill.currentType, fun hstate => ?_, h.sums, fun hstate hless => ?_, fun hstate hless => ?_⟩
    · exact (h.first hstate).mono (fun hvote => hvote.sameRound hstill.toSameRound) (List.Subset.refl _)
    · exact (h.second hstate hless).mono (fun hvote => hvote.still hstill) (List.Subset.refl _)
    · exact (h.sealed hstate hless).still hstill fun hfresh => hfresh.mono hstill.toSameRound (List.Subset.refl _)

end

theorem Recorded.new (peer : PeerServer P) (shardLead : Bool) (x : P.bls.Sig) (y : P.bls.PubKey) :
    Recorded ⟨{newConsensusLead peer shardLead with finalBLSSign := x, gPubkey := y}, [], []⟩ :=
  ⟨⟨fun h => absurd rfl h, fun h => nomatch h⟩, fun h => (nomatch h), fun h => (nomatch h), fun h => (nomatch h),
    fun h => nomatch h⟩

end

/-- **Certificates are of this round.** In a run whose rounds all start clean, the signature in every message is
the sum of good signatures on the block of the round, one for each member with a bit, all of them from messages
handled since `InitiateConsensus`, and the key is the sum of these members' keys. The signature of the second
round is made in the same way of signatures on the first. -/
theorem certificates_fresh (hwire : LeadRoundTrip P) {l : LeadLog P} (hrun : LeadRun StartsClean l)
    {msg m : Message} {sender : PeerEndpoint} (hm : m ∈ sentOn msg sender l.lead) :
    ∃ cert ms, certificateIn P l.lead.shardLead m = .ok cert ∧
      membersOf l.lead.peer l.lead.peer.currentType = .ok ms ∧
      Fresh (Votes l.lead.peer) (l.handled ++ [msg]) ms cert.first ∧
      (∀ key ∈ cert.multiPubKey, key = keySum P cert.first.boolMap ms) ∧
      ∀ second ∈ cert.second, Fresh (Votes2 l.lead.peer) (l.handled ++ [msg]) ms second := by
  have h : Recorded l := hrun.invariant Recorded.new fun l e hl => hl.next e
  cases (sent_of_mem hm).2 with
  | @first _ _ ms _ hstate _ hvote hcount hms hseal hreply =>
    obtain ⟨key, hcert, hkey⟩ := hreply.certificate hwire (h.placed.fits (by rw [hstate]; exact (nomatch ·))) hseal
    have hfresh := h.freshSeal hstate hcount hvote ms
    exact ⟨_, _, hcert, hms, hfresh.signs, fun k hk => (hkey k hk).trans hfresh.keys, fun _ hs => nomatch hs⟩
  | second hstate htype hvote hcount hms hseals hblock =>
    obtain ⟨_, hfresh, hcert⟩ := (h.sealed hstate (by omega)).certificate hwire h.placed hstate hvote.not_micro hms
      hseals hblock
    refine ⟨_, _, hcert, hms, hfresh.signs.mono id (List.subset_append_left _ _), fun k hk => ?_, fun second hs => ?_⟩
    · exact (Option.some.inj hk).symm.trans hfresh.keys
    · cases hs
      exact ((h.second hstate (by omega)).noting hvote).signs _

/-- The round of two with the response of the other member. -/
theorem certificates_fresh_pair : ∃ (l : LeadLog Platform.sample) (msg m : Message),
    LeadRun StartsClean l ∧ m ∈ sentOn msg (Chain.peerWithKey 6) l.lead ∧
      ∃ cert ms, certificateIn Platform.sample l.lead.shardLead m = .ok cert ∧
        membersOf l.lead.peer l.lead.peer.currentType = .ok ms ∧
        Fresh (Votes l.lead.peer) (l.handled ++ [msg]) ms cert.first ∧
        (∀ key ∈ cert.multiPubKey, key = keySum Platform.sample cert.first.boolMap ms) ∧
        ∀ second ∈ cert.second, Fresh (Votes2 l.lead.peer) (l.handled ++ [msg]) ms second := by
  obtain ⟨b, d, hfresh, hd⟩ := exists_sample_block
  obtain ⟨m, sig, hsent, hcert⟩ := twoMembers_sends 6 hfresh hd
  have hrun : LeadRun StartsClean (sampleStart twoMembers b) := sampleStart_run ⟨fun _ => rfl, rfl, rfl⟩
  have hm := List.mem_singleton_self m
  rw [← hsent] at hm
  exact ⟨_, _, m, hrun, hm, certificates_fresh sample_leadRoundTrip hrun hm⟩

/-! ### A round that is given up -/

/-- Every mark in the maps comes with its entries. -/
def Kept (s : ConsensusLead P) : Prop :=
  ∀ k, s.publicKey2MsgMap k = true → (∃ sign, s.signMap k = some sign) ∧ ∃ pub, s.pubKeyMap k = some pub

theorem Kept.noting (h : Kept s) (pub : P.bls.PubKey) (sign : P.bls.Sig) : Kept (s.noting pub sign) := by
  intro k hk
  by_cases hkey : k = pub
  · subst hkey
    exact ⟨⟨sign, update_self _ _ _⟩, k, update_self _ _ _⟩
  · obtain ⟨⟨sign', hsign⟩, pub', hpub⟩ := h k ((update_of_ne hkey _ _).symm.trans hk)
    exact ⟨⟨sign', (update_of_ne hkey _ _).trans hsign⟩, pub', (update_of_ne hkey _ _).trans hpub⟩

section
variable (hkept : Kept s) (hkeys : ∀ p ∈ ms, deserializePub P.toEnv p.pubkey = .ok (keyOf P p))
include hkept hkeys

theorem collect_isOk : (collect ms s).1.isOk = true := by
  induction ms generalizing s with
  | nil => rfl
  | cons p ms ih =>
    have hrest : ∀ {s}, Kept s → (collect ms s).1.isOk = true :=
      fun h => ih h fun q hq => hkeys q (mem_cons_of_mem p hq)
    refine isOk_iff.mpr ?_
    unfold collect
    rw [bind_lift (hkeys p mem_cons_self), bind_read]
    cases hvoted : s.publicKey2MsgMap (keyOf P p) with
    | false =>
      obtain ⟨bits, t, hbits⟩ := isOk_iff.mp (hrest hkept)
      exact ⟨_, t, bind_run hbits⟩
    | true =>
      obtain ⟨⟨sign, hsign⟩, pub, hpub⟩ := hkept _ hvoted
      obtain ⟨bits, t, hbits⟩ := isOk_iff.mp (hrest (s := s.added sign pub) hkept)
      exact ⟨_, t, bind_run ((bind_run (addVote_run hsign hpub)).trans hbits)⟩

/-- With well kept maps a DS block can always be sealed. -/
theorem generateBoolMap_kept
    (hsort : sortByPubkey P.toEnv s.peer.committee = .ok ms) (hcur : s.peer.currentDSBlock = some b) :
    generateBoolMap .dsBlock s = (.ok ⟨⟩,
      {s with peer := s.peer.holding (withSeal b (madeSeal s ms)), finalBLSSign := 0, gPubkey := 0}) := by
  have hmembers : members .dsBlock s.peer = (.ok ms, s.peer) := committeeSort_run hsort
  obtain ⟨bits, t, hcollect⟩ := isOk_iff.mp (collect_isOk hkept hkeys)
  have htotal := hcollect ▸ collect_cases ms s
  cases htotal with
  | done =>
    unfold generateBoolMap
    rw [bind_run (onPeer_run hmembers)]
    refine (bind_run hcollect).trans ?_
    have hseal : sealCurrent .dsBlock (madeSeal s ms) s.peer =
        (.ok ⟨⟩, s.peer.holding (withSeal b (madeSeal s ms))) := (dsSlot P).modify_run hcur
    exact (bind_run (onPeer_run (s := s.added _ _) hseal)).trans rfl

end

/-- The leader has counted one more response of a member. -/
def ConsensusLead.heard (s : ConsensusLead Platform.sample) (k : Nat) (d : Hash) : ConsensusLead Platform.sample :=
  {s.noting k (Platform.sample.bls.sign (k : Nat) d.bytes) with counter := s.counter + 1}

def fiveMembers : List PeerEndpoint :=
  [Chain.peerWithKey 5, Chain.peerWithKey 6, Chain.peerWithKey 7, Chain.peerWithKey 8, Chain.peerWithKey 9]

theorem fiveMembers_sorted : sortByPubkey sample.toEnv fiveMembers = .ok (sample.sortPeers fiveMembers) :=
  sortByPubkey_eq (List.Perm.refl _) (by decide +kernel) (by decide +kernel)

theorem fiveMembers_keys : ∀ p ∈ sample.sortPeers fiveMembers,
    deserializePub sample.toEnv p.pubkey = .ok (keyOf sample p) := by
  intro p hp
  revert p
  decide +kernel

theorem fiveMembers_hears {s : ConsensusLead sample} {d : Hash} (k : Nat)
    (hmember : Chain.peerWithKey k ∈ fiveMembers) (hfresh : getSeal b = Seal.none)
    (hd : b.mHash sample.toEnv = .ok d) (hcur : s.peer.currentDSBlock = some b)
    (htype : s.peer.currentType = .dsBlock) (hstate : s.state = .announceDone)
    (hnodes : s.consensusBackupNodes = fiveMembers) (hmore : ((s.counter + 1 : Nat) : Int) ≠ s.toleranceSize) :
    ConsensusLead.processConsensusMsg (response (sampleNode k fiveMembers) b d) (Chain.peerWithKey k) s =
      (.ok ⟨⟩, s.heard k d) := by
  have hrun := processMessageResponse_counts MultiSig.linear_complete sample_dsRoundTrip
    (sample_honest k fiveMembers) hd hfresh hcur htype hstate hmore
  rw [sampleKey_peer] at hrun
  refine ConsensusLead.processConsensusMsg_run ?_ (.inl ⟨rfl, rfl⟩) hrun
  rw [hnodes]
  exact any_eq_true.mpr ⟨_, hmember, decide_eq_true rfl⟩

theorem exists_sample_blocks : ∃ (b b' : DSBlock) (d d' : Hash), b ≠ b' ∧
    (getSeal b = Seal.none ∧ b.mHash sample.toEnv = .ok d) ∧
    getSeal b' = Seal.none ∧ b'.mHash sample.toEnv = .ok d' := by
  have hcomposed : (composeDSBlock (sampleNode 5 fiveMembers) >>= fun b => .ok b.header.timestamp) =
      .ok (some ⟨1, 1⟩) := by decide +kernel
  have hcomposed' : (composeDSBlock {sampleNode 5 fiveMembers with clock := ⟨2, 1⟩} >>= fun b =>
      .ok b.header.timestamp) = .ok (some ⟨2, 1⟩) := by decide +kernel
  obtain ⟨b, hb, htime⟩ := except_bind_ok.mp hcomposed
  obtain ⟨b', hb', htime'⟩ := except_bind_ok.mp hcomposed'
  obtain ⟨hfresh, d, hd⟩ := composeDSBlock_ok hb
  obtain ⟨hfresh', d', hd'⟩ := composeDSBlock_ok hb'
  refine ⟨b, b', d, d', fun heq => ?_, ⟨hfresh, hd⟩, hfresh', hd'⟩
  rw [heq, htime'] at htime
  exact absurd htime (by decide)

theorem LeadRun.hears {l : LeadLog P} {msg : Message} {sender : PeerEndpoint} {t : ConsensusLead P}
    (h : LeadRun (fun _ _ => True) l) (hrun : ConsensusLead.processConsensusMsg msg sender l.lead = (.ok ⟨⟩, t)) :
    ∃ l', LeadRun (fun _ _ => True) l' ∧ l'.lead = t ∧ l'.handled = l.handled ++ [msg] :=
  ⟨l.next (.within (.message msg sender)), h.next trivial, congrArg Prod.snd hrun, rfl⟩

/-- The first round, on the block `b`, is given up after one response. The second, on another block, is completed
by three other members. Its collective signature has the bit of the first member too, and what the leader adds up
for it is the signature on `b`. -/
theorem stale_signature : ∃ (l : LeadLog Platform.sample) (msg m : Message) (cert : Certificate)
    (ms : List PeerEndpoint) (b : DSBlock) (d : Hash),
      LeadRun (fun _ _ => True) l ∧ sentOn msg (Chain.peerWithKey 9) l.lead = [m] ∧
      certificateIn Platform.sample l.lead.shardLead m = .ok cert ∧
      membersOf l.lead.peer l.lead.peer.currentType = .ok ms ∧
      Chain.peerWithKey 6 ∈ selected cert.first.boolMap ms ∧
      b.mHash Platform.sample.toEnv = .ok d ∧ l.lead.peer.currentDSBlock ≠ some b ∧
      l.lead.signMap (keyOf Platform.sample (Chain.peerWithKey 6)) =
        some (Platform.sample.bls.sign (sampleKey (Chain.peerWithKey 6)) d.bytes) ∧
      ¬Fresh (Votes l.lead.peer) (l.handled ++ [msg]) ms cert.first := by
  obtain ⟨b, b', d, d', hne, ⟨hfresh, hd⟩, hfresh', hd'⟩ := exists_sample_blocks
  have hmore : ∀ n : Nat, n < 2 → ((n + 1 : Nat) : Int) ≠ getToleranceSize 5 := by decide
  have hlast : ((2 + 1 : Nat) : Int) = getToleranceSize 5 := by decide
  -- the first round
  have hstart : LeadRun (fun _ _ => True) (sampleStart fiveMembers b) := sampleStart_run trivial
  obtain ⟨l₁, hrun₁, hlead₁, -⟩ := hstart.hears
    (fiveMembers_hears 6 (by decide +kernel) hfresh hd rfl rfl rfl rfl (hmore 0 (by decide)))
  -- the second round
  have hrun₂ : LeadRun (fun _ _ => True) (l₁.initiate (sampleRound fiveMembers b')) :=
    .next (e := .initiate (sampleRound fiveMembers b')) hrun₁ trivial
  obtain ⟨l₃, hrun₃, hlead₃, hlog₃⟩ := hrun₂.hears
    (fiveMembers_hears 7 (by decide +kernel) hfresh' hd' rfl rfl rfl rfl (hmore 0 (by decide)))
  obtain ⟨l₄, hrun₄, hlead₄, hlog₄⟩ := hrun₃.hears (by
    rw [hlead₃]
    exact fiveMembers_hears 8 (by decide +kernel) hfresh' hd' rfl rfl rfl rfl (hmore 1 (by decide)))
  have hlead : l₄.lead = ((LeadLog.initiate ⟨l₁.lead, [], []⟩ (sampleRound fiveMembers b')).lead.heard 7 d').heard 8 d' :=
    hlead₄
  rw [hlead₁] at hlead
  have hkept : Kept (l₄.lead.heard 9 d') := by
    rw [hlead]
    exact (((Kept.noting (s := newConsensusLead (sampleNode 5 fiveMembers) false) (fun _ hk => nomatch hk) _ _).noting
      _ _).noting _ _).noting _ _
  have hmap := generateBoolMap_kept hkept fiveMembers_keys (by rw [hlead]; exact fiveMembers_sorted)
    (by rw [hlead]; rfl)
  -- the last response
  obtain ⟨issued, hrun⟩ := processMessageResponse_sends (s := l₄.lead) MultiSig.linear_complete sample_dsRoundTrip
    (sample_honest 9 fiveMembers) hd' hfresh' (by rw [hlead]; rfl) (by rw [hlead]; rfl) (by rw [hlead]; rfl)
    (by rw [hlead]; exact hlast) (by rw [hlead]; rfl) (by rw [sampleKey_peer]; exact hmap)
  have hknown : l₄.lead.consensusBackupNodes.any (fun q => q.pubkey = (Chain.peerWithKey 9).pubkey) = true := by
    have hnine : Chain.peerWithKey 9 ∈ fiveMembers := by decide +kernel
    rw [hlead]
    exact List.any_eq_true.mpr ⟨Chain.peerWithKey 9, hnine, decide_eq_true rfl⟩
  have hprocess := ConsensusLead.processConsensusMsg_run hknown (.inl ⟨rfl, rfl⟩) hrun
  have hkey : ∀ k : Nat, keyOf Platform.sample (Chain.peerWithKey k) = k := fun k =>
    congrArg (Option.getD · (0 : Nat)) (MultiSig.ofNatBytes_natBytes k)
  have hsix : Chain.peerWithKey 6 ∈ selected (madeSeal (l₄.lead.heard 9 d')
      (Platform.sample.sortPeers fiveMembers)).boolMap (Platform.sample.sortPeers fiveMembers) := by
    unfold madeSeal
    rw [selected_map, List.mem_filter, hlead]
    exact ⟨(Platform.sample.sortPeers_perm fiveMembers).mem_iff.mpr (by decide +kernel), rfl⟩
  refine ⟨l₄, _, _, _, _, b, d, hrun₄, sentOn_append _ _ (congrArg (fun r => r.2.peer.outbox) hprocess),
    certificateIn_finalCollectiveSig sample_leadRoundTrip _ _ _, ?_, hsix, hd, ?_, ?_, ?_⟩
  · rw [hlead]
    exact fiveMembers_sorted
  · rw [hlead]
    exact fun heq => hne (Option.some.inj heq).symm
  · rw [hlead]
    rfl
  · rintro ⟨-, sign, hsigned, -⟩
    obtain ⟨msg, hmsg, hvote⟩ := hsigned _ hsix
    have hnamed := hvote.key
    rw [hlog₄, hlog₃] at hmsg
    have hother : ∀ k : Nat, k ≠ 6 → ∀ d, namedKey Platform.sample (response (sampleNode k fiveMembers) b' d) ≠
        .ok (keyOf Platform.sample (Chain.peerWithKey 6)) := by
      intro k hk d heq
      have heq : keyOf Platform.sample (Chain.peerWithKey k) = keyOf Platform.sample (Chain.peerWithKey 6) :=
        Except.ok.inj heq
      rw [hkey] at heq
      exact hk heq
    simp only [LeadLog.initiate, List.nil_append, List.cons_append, List.mem_cons, List.not_mem_nil, or_false] at hmsg
    rcases hmsg with rfl | rfl | rfl
    · exact hother 7 (by decide) d' hnamed
    · exact hother 8 (by decide) d' hnamed
    · exact hother 9 (by decide) d' hnamed

end Okchain.Consensus
