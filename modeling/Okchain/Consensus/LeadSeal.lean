import Okchain.Consensus.DsRound
import Okchain.Consensus.LeadRun

/-! Who stands behind the certificates of a leader.

The count goes up with every response that verifies; the signature goes into a map under the key the response names,
which need not be the key of a member, nor a new one. When every response names a member that has not been counted
yet, the bool maps name as many members as the tolerance asks for.
-/
namespace Okchain.Consensus
open Lib Protos List
open Chain (getToleranceSize)
open Platform (sample)
open Codec (numbered_roundTrip)

variable {P : Platform}
variable {p : PeerServer P} {ms : List PeerEndpoint}

/-! ### Certificates -/

/-- The outcome of the first round, with the sum of the keys where it is sent, and the outcome of the second. -/
structure Certificate where
  first : BoolMapSignature
  multiPubKey : Option Bytes
  second : Option BoolMapSignature

def Certificate.ofSeal (s : Seal) (second : Option BoolMapSignature) : Certificate :=
  ⟨⟨s.boolMap, s.signature⟩, some s.multiPubKey, second⟩

/-- The certificate in a message of a leader, as its receivers read it. -/
def certificateIn (P : Platform) (shardLead : Bool) (m : Message) : Except Err Certificate := do
  let payload ← P.payload.decode m.payload
  match m.type with
  | .consensusFinalCollectiveSig => return ⟨← P.boolMapSignature.decode payload.msg, none, none⟩
  | .consensusBroadCastBlock =>
    match payload.type with
    | .dsBlock => do
      let b ← P.dsBlockWithSig2.decode payload.msg
      return .ofSeal (getSeal b.block) (some b.sig2)
    | .finalBlock => do
      let b ← P.txBlockWithSig2.decode payload.msg
      return .ofSeal (getSeal b.block) (some b.sig2)
    | .microBlock => return .ofSeal (getSeal (← P.microBlock.decode payload.msg)) none
    | .viewChange =>
      if shardLead then return .ofSeal (getSeal (← P.vcBlock.decode payload.msg)) none
      else do
        let b ← P.vcBlockWithSig2.decode payload.msg
        return .ofSeal (getSeal b.block) (some b.sig2)
    | .unknown _ => .error (.consensus .cannotProcessType)
  | _ => .error (.consensus .invalidMessage)

structure LeadRoundTrip (P : Platform) : Prop where
  payload : P.payload.RoundTrip
  boolMapSignature : P.boolMapSignature.RoundTrip
  dsBlockWithSig2 : P.dsBlockWithSig2.RoundTrip
  txBlockWithSig2 : P.txBlockWithSig2.RoundTrip
  vcBlockWithSig2 : P.vcBlockWithSig2.RoundTrip
  microBlock : P.microBlock.RoundTrip
  vcBlock : P.vcBlock.RoundTrip

section

variable {q : PeerServer P} {shardLead : Bool} {type : ConsensusType} {blockSeal : Seal} {m : Message} {block : Bytes}

section
variable (hwire : LeadRoundTrip P)
include hwire

theorem certificateIn_payload (hpayload : m.payload = consensusPayload P type block) :
    P.payload.decode m.payload = .ok ⟨type, block⟩ := by
  rw [hpayload]
  exact hwire.payload.decode _

theorem certificateIn_finalCollectiveSig (shardLead : Bool) (s : PeerServer P) (b : DSBlock) :
    certificateIn P shardLead (finalCollectiveSig s b) =
      .ok ⟨⟨(getSeal b).boolMap, (getSeal b).signature⟩, none, none⟩ := by
  unfold certificateIn
  rw [certificateIn_payload hwire rfl]
  show (P.boolMapSignature.decode _ >>= _) = _
  rw [hwire.boolMapSignature.decode]
  rfl

/-- What a broadcast block certifies is the seal on it and the outcome of the second round. -/
theorem Delivers.certificate {sig2 : Option BoolMapSignature}
    (h : Delivers q shardLead sig2 type m) (hmicro : type = .microBlock → sig2 = none)
    (hshard : shardLead = true → sig2 = none) (hseal : sealOf q type = some blockSeal) :
    certificateIn P shardLead m = .ok (.ofSeal blockSeal sig2) := by
  obtain ⟨htype, block, hpayload, hblock⟩ := h
  have hsealed : ∀ {B : Type} [SealedBlock B] {o : Option B} {b : B}, o = some b → o.map getSeal = some blockSeal →
      getSeal b = blockSeal := fun hb h => Option.some.inj ((congrArg (Option.map getSeal) hb).symm.trans h)
  unfold certificateIn
  rw [certificateIn_payload hwire hpayload, htype]
  cases hblock with
  | dsBlock hb hsig =>
    show (P.dsBlockWithSig2.decode _ >>= _) = _
    rw [hwire.dsBlockWithSig2.decode, hsig, ← hsealed hb hseal]
    rfl
  | finalBlock hb hsig =>
    show (P.txBlockWithSig2.decode _ >>= _) = _
    rw [hwire.txBlockWithSig2.decode, hsig, ← hsealed hb hseal]
    rfl
  | microBlock hb =>
    show (P.microBlock.decode _ >>= _) = _
    rw [hwire.microBlock.decode, hmicro rfl, ← hsealed hb hseal]
    rfl
  | viewChange hb hlead hsig =>
    rw [hlead]
    show (P.vcBlockWithSig2.decode _ >>= _) = _
    rw [hwire.vcBlockWithSig2.decode, hsig, ← hsealed hb hseal]
    rfl
  | shardViewChange hb hlead =>
    rw [hshard hlead, hlead]
    show (P.vcBlock.decode _ >>= _) = _
    rw [hwire.vcBlock.decode, ← hsealed hb hseal]
    rfl

theorem Reply.certificate (h : Reply q shardLead type blockSeal m)
    (hfits : shardLead = false → type ≠ .microBlock) (hseal : sealOf q type = some blockSeal) :
    ∃ key, certificateIn P shardLead m = .ok ⟨⟨blockSeal.boolMap, blockSeal.signature⟩, key, none⟩ ∧
      ∀ k ∈ key, k = blockSeal.multiPubKey := by
  cases h with
  | collective hlead htype hpayload hcarries =>
    refine ⟨none, ?_, fun k hk => nomatch hk⟩
    unfold certificateIn
    rw [certificateIn_payload hwire hpayload, htype, hcarries (hfits hlead)]
    show (P.boolMapSignature.decode _ >>= _) = _
    rw [hwire.boolMapSignature.decode]
    rfl
  | block hlead hblock =>
    refine ⟨some blockSeal.multiPubKey, ?_, fun k hk => (Option.some.inj hk).symm⟩
    exact hblock.certificate hwire (fun _ => rfl) (fun _ => rfl) hseal

end

end

/-! ### Rounds of one leader -/

/-- How `InitiateConsensus` is called. Between two rounds anything on the node can change. A DS leader calls it
for DS blocks, final blocks and view changes. -/
structure Round (P : Platform) where
  peer : PeerServer P
  shardLead : Bool
  announce : Message
  nodes : List PeerEndpoint
  fits : shardLead = false → peer.currentType ≠ .microBlock

/-- A leader with the messages it has handled since the last `InitiateConsensus`, and the keys that were named
by the responses it has counted since the last change of phase. -/
structure LeadLog (P : Platform) where
  lead : ConsensusLead P
  handled : List Message
  counted : List P.bls.PubKey

inductive LeadEvent (P : Platform)
  | initiate (r : Round P)
  | within (e : RoundEvent P)

namespace LeadLog

def initiate (l : LeadLog P) (r : Round P) : LeadLog P where
  lead := (initiateConsensus r.announce r.nodes {l.lead with peer := r.peer, shardLead := r.shardLead}).2
  handled := []
  counted := []

/-- A message has been handled and the leader is `t` now. -/
def after (l : LeadLog P) (msg : Message) (sender : PeerEndpoint) (t : ConsensusLead P) : LeadLog P where
  lead := t
  handled := l.handled ++ [msg]
  counted := if t.state = l.lead.state
    then l.counted ++ (if verified msg sender l.lead then (namedKey P msg).toOption.toList else []) else []

def next (l : LeadLog P) : LeadEvent P → LeadLog P
  | .initiate r => l.initiate r
  | .within (.message msg sender) => l.after msg sender (ConsensusLead.processConsensusMsg msg sender l.lead).2
  | .within (.node peer) => {l with lead := RoundEvent.run l.lead (.node peer)}

end LeadLog

/-- The runs of a leader whose events all satisfy `ok`. -/
inductive LeadRun (ok : LeadLog P → LeadEvent P → Prop) : LeadLog P → Prop
  | new (peer : PeerServer P) (shardLead : Bool) (finalBLSSign : P.bls.Sig) (gPubkey : P.bls.PubKey) :
      LeadRun ok ⟨{newConsensusLead peer shardLead with finalBLSSign := finalBLSSign, gPubkey := gPubkey}, [], []⟩
  | next {l : LeadLog P} {e : LeadEvent P} (h : LeadRun ok l) (hok : ok l e) : LeadRun ok (l.next e)

theorem LeadRun.invariant {ok : LeadLog P → LeadEvent P → Prop} {I : LeadLog P → Prop}
    (hnew : ∀ peer shardLead x y, I ⟨{newConsensusLead peer shardLead with finalBLSSign := x, gPubkey := y}, [], []⟩)
    (hnext : ∀ l e, I l → ok l e → I (l.next e)) {l : LeadLog P} (h : LeadRun ok l) : I l := by
  induction h with
  | new peer shardLead x y => exact hnew peer shardLead x y
  | next _ hok ih => exact hnext _ _ ih hok

/-! ### What a step can do -/

variable {s : ConsensusLead P} {msg : Message} {q : PeerServer P} {k : P.bls.PubKey}

theorem Voted.key {pub : P.bls.PubKey} {sign : P.bls.Sig} (h : Voted s msg pub sign) : namedKey P msg = .ok pub := by
  cases h with
  | first _ _ hvote => exact hvote.key
  | second _ _ hvote => exact hvote.key

section

variable {l : LeadLog P} {msg m : Message} {sender : PeerEndpoint} {s t : ConsensusLead P} {pub : P.bls.PubKey}
  {sign : P.bls.Sig}

theorem admits_of_verified (h : verified msg sender s = true) : admits msg sender s = true :=
  (Bool.and_eq_true_iff.mp h).1

theorem LeadLog.after_refused (hstate : t.state = l.lead.state) (hpass : verified msg sender l.lead = false) :
    (l.after msg sender t).counted = l.counted := by
  unfold LeadLog.after
  rw [if_pos hstate, hpass]
  exact append_nil _

theorem LeadLog.after_counted (hstate : t.state = l.lead.state) (hpass : verified msg sender l.lead = true)
    (hvote : Voted l.lead msg pub sign) : (l.after msg sender t).counted = l.counted ++ [pub] := by
  unfold LeadLog.after
  rw [if_pos hstate, hpass, hvote.key]
  rfl

theorem LeadLog.after_moved (msg : Message) (sender : PeerEndpoint) (hstate : t.state ≠ l.lead.state) :
    (l.after msg sender t).counted = [] := if_neg hstate

/-- The message a leader sends, by the phase it ends. -/
inductive Sent (s : ConsensusLead P) (msg : Message) (m : Message) : Prop
  | first {pub : P.bls.PubKey} {sign : P.bls.Sig} {ms : List PeerEndpoint} {q : PeerServer P}
      (hstate : s.state = .announceDone) (htype : msg.type = .consensusResponse) (hvote : Votes s.peer msg pub sign)
      (hcount : ((s.counter + 1 : Nat) : Int) = s.toleranceSize)
      (hms : membersOf s.peer s.peer.currentType = .ok ms)
      (hseal : sealOf q s.peer.currentType = some (madeSeal (s.noting pub sign) ms))
      (hreply : Reply q s.shardLead s.peer.currentType (madeSeal (s.noting pub sign) ms) m)
  | second {pub : P.bls.PubKey} {sign : P.bls.Sig} {ms : List PeerEndpoint} {q : PeerServer P}
      (hstate : s.state = .finalCollectiveSigDone) (htype : msg.type = .consensusFinalResponse)
      (hvote : Votes2 s.peer msg pub sign) (hcount : ((s.counter + 1 : Nat) : Int) = s.toleranceSize)
      (hms : membersOf s.peer s.peer.currentType = .ok ms) (hseals : sealOf q = sealOf s.peer)
      (hblock : Delivers q s.shardLead (some (madeSig2 (s.noting pub sign) ms)) s.peer.currentType m)

theorem Votes2.not_micro (h : Votes2 p msg pub sign) : p.currentType ≠ .microBlock := by
  intro htype
  have hcommittee := h.committee
  rw [htype] at hcommittee
  exact nomatch hcommittee

theorem sent_of_mem (hm : m ∈ sentOn msg sender s) : admits msg sender s = true ∧ Sent s msg m := by
  have hhandled := processConsensusMsg_handled msg sender s
  have hnil := sentOn_nil (s := s) msg sender
  have happend := fun m => sentOn_append (s := s) msg sender (m := m)
  generalize (ConsensusLead.processConsensusMsg msg sender s).2 = t at hhandled hnil happend
  cases hhandled with
  | unsent _ h => exact absurd (hnil h.peer.2 ▸ hm) not_mem_nil
  | first hpass _ hstate htype hvote hcount hsends =>
    obtain ⟨ms, q, reply, hms, _, _, hout, hseal, hreply, rfl⟩ := hsends.sealed
    obtain rfl := List.mem_singleton.mp (happend reply hout ▸ hm)
    exact ⟨admits_of_verified hpass, .first hstate htype hvote hcount hms hseal hreply⟩
  | second hpass _ hstate htype hvote hcount hsends =>
    obtain ⟨ms, q, reply, hms, _, _, hout, hseals, hblock, rfl⟩ := hsends.sealed
    obtain rfl := List.mem_singleton.mp (happend reply hout ▸ hm)
    exact ⟨admits_of_verified hpass, .second hstate htype hvote hcount (membersOf_committee hvote.committee hms) hseals hblock⟩

end

/-- A DS leader does not work on micro blocks, and only a DS leader has a second round. -/
structure Placed (s : ConsensusLead P) : Prop where
  fits : s.state ≠ .initial → s.shardLead = false → s.peer.currentType ≠ .microBlock
  role : s.state = .finalCollectiveSigDone → s.shardLead = false

theorem Placed.initiate (l : LeadLog P) (r : Round P) : Placed (l.initiate r).lead :=
  ⟨fun _ => r.fits, fun h => nomatch h⟩

theorem Placed.handled {t : ConsensusLead P} {sender : PeerEndpoint} (h : Placed s)
    (hhandled : Handled s msg sender t) : Placed t := by
  obtain ⟨hrole, -, hround⟩ := hhandled.same
  refine ⟨fun hstate hlead => ?_, fun hstate => ?_⟩
  · rw [hround.currentType]
    refine h.fits (fun hinitial => hstate ?_) (hrole.symm.trans hlead)
    cases hhandled with
    | unsent _ h => exact h.same.1.trans hinitial
    | first _ _ hs => exact nomatch hinitial.symm.trans hs
    | second _ _ hs => exact nomatch hinitial.symm.trans hs
  · rw [hrole]
    cases hhandled with
    | unsent _ hunsent => exact h.role (hunsent.same.1.symm.trans hstate)
    | second _ _ _ _ _ _ hsends =>
      obtain ⟨_, _, _, _, _, _, _, _, _, rfl⟩ := hsends.sealed
      exact nomatch hstate
    | first _ _ _ _ _ _ hsends =>
      obtain ⟨_, _, _, _, _, _, _, _, _, rfl⟩ := hsends.sealed
      cases hlead : s.shardLead with
      | false => rfl
      | true =>
        have hnext : afterFirst s = .finalCollectiveSigDone := hstate
        unfold afterFirst at hnext
        rw [hlead] at hnext
        exact nomatch hnext

theorem Placed.node (h : Placed s) (hq : q.currentType = s.peer.currentType) : Placed (RoundEvent.run s (.node q)) :=
  ⟨fun hstate hlead => hq ▸ h.fits hstate hlead, h.role⟩

/-! ### Enough members -/

/-- The bool map has a bit for every member, and at least `n` different members have theirs set. -/
def NamesQuorum (ms : List PeerEndpoint) (n : Int) (boolMap : List Bool) : Prop :=
  boolMap.length = ms.length ∧ n ≤ ((selected boolMap ms).map (·.pubkey)).dedup.length

theorem selected_map (f : PeerEndpoint → Bool) (ms : List PeerEndpoint) : selected (ms.map f) ms = ms.filter f := by
  induction ms with
  | nil => rfl
  | cons p ms ih =>
    show (if f p then p :: selected (ms.map f) ms else selected (ms.map f) ms) = _
    rw [ih, filter_cons]

theorem namesQuorum_of {v : ConsensusLead P} {keys : List P.bls.PubKey} {n : Int} (hnodup : keys.Nodup)
    (hmarked : ∀ k ∈ keys, v.publicKey2MsgMap k = true) (hmember : ∀ k ∈ keys, ∃ p ∈ ms, keyOf P p = k)
    (hn : n ≤ keys.length) :
    NamesQuorum ms n (ms.map fun p => v.publicKey2MsgMap (keyOf P p)) := by
  refine ⟨length_map _, hn.trans (Int.ofNat_le.mpr ?_)⟩
  rw [selected_map]
  generalize hbytes : ((ms.filter fun p => v.publicKey2MsgMap (keyOf P p)).map (·.pubkey)).dedup = bytes
  -- every key is read from one of the different endpoints
  have hsubset : keys ⊆ bytes.map fun b => (P.bls.deserializePub b).getD 0 := by
    intro k hk
    obtain ⟨p, hp, rfl⟩ := hmember k hk
    refine List.mem_map.mpr ⟨p.pubkey, ?_, rfl⟩
    rw [← hbytes, mem_dedup]
    exact mem_map_of_mem (List.mem_filter.mpr ⟨hp, hmarked _ hk⟩)
  have hle := (hnodup.subperm hsubset).length_le
  rwa [length_map] at hle

/-- A key of one of those whose signatures the round collects. -/
def MemberKey (p : PeerServer P) (k : P.bls.PubKey) : Prop :=
  ∃ ms, membersOf p p.currentType = .ok ms ∧ ∃ member ∈ ms, keyOf P member = k

theorem SameRound.memberKey (h : SameRound p q) (hk : MemberKey p k) : MemberKey q k := by
  obtain ⟨ms, hms, hmember⟩ := hk
  refine ⟨ms, ?_, hmember⟩
  rw [h.currentType, h.members]
  exact hms

theorem MemberKey.of_members (h : MemberKey p k) (hms : membersOf p p.currentType = .ok ms) : ∃ member ∈ ms, keyOf P member = k := by
  obtain ⟨ms', hms', hmember⟩ := h
  rw [Except.ok.inj (hms.symm.trans hms')]
  exact hmember

/-- The block of the round has a seal with the property `G`. -/
def SealedWith (p : PeerServer P) (G : List PeerEndpoint → Seal → Prop) : Prop :=
  ∃ ms blockSeal, membersOf p p.currentType = .ok ms ∧ sealOf p p.currentType = some blockSeal ∧ G ms blockSeal

theorem SameRound.sealedWith {G : List PeerEndpoint → Seal → Prop} {blockSeal : Seal} (h : SameRound p q)
    (hms : membersOf p p.currentType = .ok ms) (hseal : sealOf q p.currentType = some blockSeal)
    (hG : G ms blockSeal) : SealedWith q G := by
  refine ⟨ms, blockSeal, ?_, ?_, hG⟩
  · rw [h.currentType, h.members, hms]
  · rw [h.currentType, hseal]

section

variable {G G' : List PeerEndpoint → Seal → Prop}

theorem SealedWith.still (h : SealedWith p G) (hq : Still p q) (hG : ∀ {ms c}, G ms c → G' ms c) : SealedWith q G' := by
  obtain ⟨ms, blockSeal, hms, hseal, hgood⟩ := h
  exact hq.toSameRound.sealedWith hms ((congrFun hq.seals _).trans hseal) (hG hgood)

/-- A block that is sent after the second round has the seal of the first. -/
theorem SealedWith.certificate {sig2 : BoolMapSignature} (h : SealedWith s.peer G) (hwire : LeadRoundTrip P)
    (hplaced : Placed s) (hstate : s.state = .finalCollectiveSigDone) (hmicro : s.peer.currentType ≠ .microBlock)
    (hms : membersOf s.peer s.peer.currentType = .ok ms) (hseals : sealOf q = sealOf s.peer)
    (hblock : Delivers q s.shardLead (some sig2) s.peer.currentType m) :
    ∃ blockSeal, G ms blockSeal ∧ certificateIn P s.shardLead m = .ok (.ofSeal blockSeal (some sig2)) := by
  obtain ⟨ms', blockSeal, hms', hseal, hgood⟩ := h
  obtain rfl := Except.ok.inj (hms.symm.trans hms')
  have hlead := hplaced.role hstate
  exact ⟨blockSeal, hgood, hblock.certificate hwire (fun h => absurd h hmicro)
    (fun hshard => nomatch hlead.symm.trans hshard) ((congrFun hseals _).trans hseal)⟩

end

/-- Every good response names a member that has not been counted since the last change of phase, and the rest of
the node leaves the round alone. -/
def NamesNewMember (l : LeadLog P) : LeadEvent P → Prop
  | .initiate _ => True
  | .within (.message msg sender) => admits msg sender l.lead = true → ∀ pub sign, Voted l.lead msg pub sign →
      pub ∉ l.counted ∧ MemberKey l.lead.peer pub
  | .within (.node q) => Still l.lead.peer {q with outbox := l.lead.peer.outbox}

/-- The keys that were counted are as many as the counter says, all different, and all of members whose
signatures are in the maps. After the first round, enough members stand behind the seal. -/
structure Counted (l : LeadLog P) : Prop where
  placed : Placed l.lead
  count : l.lead.counter = l.counted.length
  nodup : l.counted.Nodup
  marked : ∀ k ∈ l.counted, l.lead.publicKey2MsgMap k = true
  member : ∀ k ∈ l.counted, MemberKey l.lead.peer k
  sealed : l.lead.state = .finalCollectiveSigDone → (l.lead.counter : Int) < l.lead.toleranceSize →
    SealedWith l.lead.peer fun ms blockSeal => NamesQuorum ms l.lead.toleranceSize blockSeal.boolMap

section

variable {l : LeadLog P} {msg m : Message} {sender : PeerEndpoint} {pub : P.bls.PubKey} {sign : P.bls.Sig}

section
variable (h : Counted l)
include h

theorem Counted.marked_noting (pub : P.bls.PubKey) (sign : P.bls.Sig) :
    ∀ k ∈ l.counted ++ [pub], (l.lead.noting pub sign).publicKey2MsgMap k = true := by
  intro k hk
  show Function.update l.lead.publicKey2MsgMap pub true k = true
  by_cases hkey : k = pub
  · rw [hkey, Function.update_self]
  · rw [Function.update_of_ne hkey]
    exact h.marked k ((List.mem_append.mp hk).resolve_right fun h => hkey (List.mem_singleton.mp h))

theorem Counted.nodup_append (hnew : pub ∉ l.counted) : (l.counted ++ [pub]).Nodup :=
  List.nodup_append.mpr ⟨h.nodup, nodup_singleton pub, fun _ hk _ hpub heq =>
    hnew (List.mem_singleton.mp hpub ▸ heq ▸ hk)⟩

theorem Counted.member_append (hmember : MemberKey l.lead.peer pub) :
    ∀ k ∈ l.counted ++ [pub], MemberKey l.lead.peer k := by
  intro k hk
  rcases List.mem_append.mp hk with hold | hnew
  · exact h.member k hold
  · exact List.mem_singleton.mp hnew ▸ hmember

theorem Counted.namesQuorum (hnew : pub ∉ l.counted) (hmember : MemberKey l.lead.peer pub)
    (hcount : ((l.lead.counter + 1 : Nat) : Int) = l.lead.toleranceSize)
    (hms : membersOf l.lead.peer l.lead.peer.currentType = .ok ms) :
    NamesQuorum ms l.lead.toleranceSize (ms.map fun p => (l.lead.noting pub sign).publicKey2MsgMap (keyOf P p)) := by
  refine namesQuorum_of (h.nodup_append hnew) (h.marked_noting pub sign)
    (fun k hk => (h.member_append hmember k hk).of_members hms) ?_
  rw [length_append, ← h.count, ← hcount]
  exact le_rfl

end

variable {t : ConsensusLead P}

theorem Counted.of_moved (hplaced : Placed t) (hmoved : t.state ≠ l.lead.state) (hcounter : t.counter = 0)
    (hsealed : t.state = .finalCollectiveSigDone →
      SealedWith t.peer fun ms blockSeal => NamesQuorum ms t.toleranceSize blockSeal.boolMap) :
    Counted (l.after msg sender t) := by
  have hcounted := l.after_moved msg sender hmoved
  refine ⟨hplaced, ?_, ?_, ?_, ?_, fun hstate _ => hsealed hstate⟩
  · rw [hcounted]
    exact hcounter
  · rw [hcounted]
    exact nodup_nil
  · rw [hcounted]
    exact fun _ hk => nomatch hk
  · rw [hcounted]
    exact fun _ hk => nomatch hk

theorem Counted.handle (h : Counted l) (hok : NamesNewMember l (.within (.message msg sender))) :
    Counted (l.next (.within (.message msg sender))) := by
  have hhandled := processConsensusMsg_handled msg sender l.lead
  show Counted (l.after msg sender _)
  generalize (ConsensusLead.processConsensusMsg msg sender l.lead).2 = t at hhandled ⊢
  have hplaced := h.placed.handled hhandled
  cases hhandled with
  | unsent _ hunsent =>
    cases hunsent with
    | @refused q hpass hq =>
      have hcounted : (l.after msg sender {l.lead with peer := q}).counted = l.counted :=
        LeadLog.after_refused rfl hpass
      refine ⟨hplaced, ?_, ?_, ?_, ?_, fun hstate hless => (h.sealed hstate hless).still hq id⟩
      · exact hcounted ▸ h.count
      · exact hcounted ▸ h.nodup
      · exact hcounted ▸ h.marked
      · exact hcounted ▸ fun k hk => hq.toSameRound.memberKey (h.member k hk)
    | @counted q pub sign x y hpass hq _ hvote hopen =>
      obtain ⟨hnew, hmember⟩ := hok (admits_of_verified hpass) _ _ hvote
      have hcounted : (l.after msg sender {l.lead.noting pub sign with
          peer := q, counter := l.lead.counter + 1, finalBLSSign := x, gPubkey := y}).counted = l.counted ++ [pub] :=
        LeadLog.after_counted rfl hpass hvote
      refine ⟨hplaced, ?_, ?_, ?_, ?_, fun hstate hless => ?_⟩
      · rw [hcounted, length_append, ← h.count]
        rfl
      · exact hcounted ▸ h.nodup_append hnew
      · exact hcounted ▸ h.marked_noting pub sign
      · exact hcounted ▸ fun k hk => hq.memberKey (h.member_append hmember k hk)
      · have hless : ((l.lead.counter + 1 : Nat) : Int) < l.lead.toleranceSize := hless
        exact (h.sealed hstate (by omega)).still (hopen (by omega)).1 id
  | @first t pub sign hpass _ hstate htype hvote hcount hsends =>
    obtain ⟨hnew, hmember⟩ := hok (admits_of_verified hpass) _ _ (.first hstate htype hvote)
    obtain ⟨ms, q, reply, hms, _, hround, _, hseal, _, rfl⟩ := hsends.sealed
    have hmoved : afterFirst l.lead ≠ l.lead.state := by
      rw [hstate]
      unfold afterFirst
      split <;> exact (nomatch ·)
    exact .of_moved hplaced hmoved rfl fun _ =>
      hround.sealedWith hms hseal (h.namesQuorum hnew hmember hcount hms)
  | second hpass _ hstate _ hvote hcount hsends =>
    obtain ⟨ms, q, reply, _, _, _, _, _, _, rfl⟩ := hsends.sealed
    have hmoved : ConsensusState.broadCastBlockDone ≠ l.lead.state := by
      rw [hstate]
      exact (nomatch ·)
    exact .of_moved hplaced hmoved rfl fun hs => nomatch hs

theorem Counted.next (h : Counted l) (e : LeadEvent P) (hok : NamesNewMember l e) : Counted (l.next e) := by
  match e, hok with
  | .initiate r, _ =>
    exact ⟨.initiate l r, rfl, nodup_nil, fun _ hk => (nomatch hk), fun _ hk => (nomatch hk), fun hs => nomatch hs⟩
  | .within (.message msg sender), hok => exact h.handle hok
  | .within (.node q), hok =>
    have hstill : Still l.lead.peer {q with outbox := l.lead.peer.outbox} := hok
    exact ⟨h.placed.node hstill.currentType, h.count, h.nodup, h.marked,
      fun k hk => hstill.toSameRound.memberKey (h.member k hk), fun hstate hless => (h.sealed hstate hless).still hstill id⟩

theorem Counted.new (peer : PeerServer P) (shardLead : Bool) (x : P.bls.Sig) (y : P.bls.PubKey) :
    Counted ⟨{newConsensusLead peer shardLead with finalBLSSign := x, gPubkey := y}, [], []⟩ :=
  ⟨⟨fun h => absurd rfl h, fun h => nomatch h⟩, rfl, nodup_nil, fun _ hk => (nomatch hk), fun _ hk => (nomatch hk),
    fun h => nomatch h⟩

end

/-- **Certificates name a quorum.** In a run in which every good response names a member not counted yet, every
collective signature and every block the leader sends names at least as many different members as the tolerance
asks for, in each of its bool maps. -/
theorem certificates_name_quorum (hwire : LeadRoundTrip P) {l : LeadLog P} (hrun : LeadRun NamesNewMember l)
    {msg m : Message} {sender : PeerEndpoint} (hok : NamesNewMember l (.within (.message msg sender)))
    (hm : m ∈ sentOn msg sender l.lead) :
    ∃ cert ms, certificateIn P l.lead.shardLead m = .ok cert ∧
      membersOf l.lead.peer l.lead.peer.currentType = .ok ms ∧
      NamesQuorum ms l.lead.toleranceSize cert.first.boolMap ∧
      ∀ second ∈ cert.second, NamesQuorum ms l.lead.toleranceSize second.boolMap := by
  have h : Counted l := hrun.invariant Counted.new fun l e hl => hl.next e
  obtain ⟨hadmits, hsent⟩ := sent_of_mem hm
  cases hsent with
  | first hstate htype hvote hcount hms hseal hreply =>
    obtain ⟨hnew, hmember⟩ := hok hadmits _ _ (.first hstate htype hvote)
    obtain ⟨key, hcert, _⟩ := hreply.certificate hwire (h.placed.fits (by rw [hstate]; exact (nomatch ·))) hseal
    exact ⟨_, _, hcert, hms, h.namesQuorum hnew hmember hcount hms, fun _ hs => nomatch hs⟩
  | second hstate htype hvote hcount hms hseals hblock =>
    obtain ⟨hnew, hmember⟩ := hok hadmits _ _ (.second hstate htype hvote)
    obtain ⟨_, hquorum, hcert⟩ := (h.sealed hstate (by omega)).certificate hwire h.placed hstate hvote.not_micro hms
      hseals hblock
    refine ⟨_, _, hcert, hms, hquorum, fun second hs => ?_⟩
    cases hs
    exact h.namesQuorum hnew hmember hcount hms

/-! ### The committee of two -/

theorem sample_leadRoundTrip : LeadRoundTrip sample :=
  ⟨numbered_roundTrip _, numbered_roundTrip _, numbered_roundTrip _, numbered_roundTrip _,
    numbered_roundTrip _, numbered_roundTrip _, numbered_roundTrip _⟩

/-- A round on the block `b` led by the member with key 5. -/
def sampleRound (committee : List PeerEndpoint) (b : DSBlock) : Round Platform.sample where
  peer := (sampleNode 5 committee).holding b
  shardLead := false
  announce := announcement (sampleNode 5 committee) b
  nodes := committee
  fits := fun _ htype => nomatch htype

/-- The first round of that member. -/
def sampleStart (committee : List PeerEndpoint) (b : DSBlock) : LeadLog Platform.sample :=
  LeadLog.initiate ⟨newConsensusLead (sampleNode 5 committee) false, [], []⟩ (sampleRound committee b)

theorem sampleStart_run {ok : LeadLog sample → LeadEvent sample → Prop} {committee : List PeerEndpoint} {b : DSBlock}
    (h : ok ⟨newConsensusLead (sampleNode 5 committee) false, [], []⟩ (.initiate (sampleRound committee b))) :
    LeadRun ok (sampleStart committee b) :=
  .next (e := .initiate (sampleRound committee b)) (.new (sampleNode 5 committee) false 0 0) h

/-- Whoever signs a response, if the member with key 6 passes it on, the leader takes the round to be over. -/
theorem twoMembers_sends (k : Nat) {b : DSBlock} {d : Hash} (hfresh : getSeal b = Seal.none)
    (hd : b.mHash sample.toEnv = .ok d) :
    ∃ m sig, sentOn (response (sampleNode k twoMembers) b d) (Chain.peerWithKey 6) (sampleStart twoMembers b).lead = [m] ∧
      certificateIn sample false m = .ok
        ⟨⟨(sample.sortPeers twoMembers).map fun p => decide (p = Chain.peerWithKey k), sig⟩, none, none⟩ := by
  obtain ⟨l, hprocess⟩ := twoMembers_completes k hfresh hd
  exact ⟨_, _, sentOn_append _ _ (congrArg (fun r => r.2.peer.outbox) hprocess),
    certificateIn_finalCollectiveSig sample_leadRoundTrip false _ _⟩

/-- A run that breaks the condition: the member with key 6 passes on the response of a node that is not a
member. The bool map of the collective signature has no bit set, where one is asked for. -/
theorem certificate_without_members : ∃ (l : LeadLog Platform.sample) (msg m : Message) (cert : Certificate)
    (ms : List PeerEndpoint), LeadRun (fun _ _ => True) l ∧
      Chain.peerWithKey 6 ∈ l.lead.peer.committee ∧ sentOn msg (Chain.peerWithKey 6) l.lead = [m] ∧
      certificateIn Platform.sample l.lead.shardLead m = .ok cert ∧
      membersOf l.lead.peer l.lead.peer.currentType = .ok ms ∧ l.lead.toleranceSize = 1 ∧
      voteTickets cert.first.boolMap = 0 ∧ ¬NamesQuorum ms l.lead.toleranceSize cert.first.boolMap := by
  obtain ⟨b, d, hfresh, hd⟩ := exists_sample_block
  obtain ⟨m, sig, hsent, hcert⟩ := twoMembers_sends 7 hfresh hd
  have hnone : ∀ p ∈ Platform.sample.sortPeers twoMembers, decide (p = Chain.peerWithKey 7) = false := by
    intro p hp
    rcases mem_twoMembers (mem_sortedTwo hp) with rfl | rfl <;> decide +kernel
  refine ⟨_, _, m, _, Platform.sample.sortPeers twoMembers, sampleStart_run trivial,
    List.mem_cons_of_mem _ (List.mem_singleton_self _), hsent, hcert,
    twoMembers_sorted, show getToleranceSize 2 = 1 by decide, ?_, ?_⟩
  · show List.countP id (List.map _ _) = 0
    rw [List.countP_map]
    exact List.countP_eq_zero.mpr fun p hp => by simp [hnone p hp]
  · rintro ⟨-, hquorum⟩
    have hquorum : getToleranceSize 2 ≤ 0 := hquorum
    exact absurd hquorum (by decide)

/-- The same round with the response of the member itself. -/
theorem certificates_name_quorum_pair : ∃ (l : LeadLog Platform.sample) (msg m : Message),
    LeadRun NamesNewMember l ∧ NamesNewMember l (.within (.message msg (Chain.peerWithKey 6))) ∧
      m ∈ sentOn msg (Chain.peerWithKey 6) l.lead ∧
      ∃ cert ms, certificateIn Platform.sample l.lead.shardLead m = .ok cert ∧
        membersOf l.lead.peer l.lead.peer.currentType = .ok ms ∧
        NamesQuorum ms l.lead.toleranceSize cert.first.boolMap ∧
        ∀ second ∈ cert.second, NamesQuorum ms l.lead.toleranceSize second.boolMap := by
  obtain ⟨b, d, hfresh, hd⟩ := exists_sample_block
  obtain ⟨m, sig, hsent, hcert⟩ := twoMembers_sends 6 hfresh hd
  have hrun : LeadRun NamesNewMember (sampleStart twoMembers b) := sampleStart_run trivial
  have hok : NamesNewMember (sampleStart twoMembers b)
      (.within (.message (response (sampleNode 6 twoMembers) b d) (Chain.peerWithKey 6))) := by
    intro _ pub sign hvote
    refine ⟨List.not_mem_nil, Platform.sample.sortPeers twoMembers, twoMembers_sorted, Chain.peerWithKey 6, ?_, ?_⟩
    · exact (Platform.sample.sortPeers_perm twoMembers).mem_iff.mpr (by decide +kernel)
    · exact Except.ok.inj hvote.key
  have hm := List.mem_singleton_self m
  rw [← hsent] at hm
  exact ⟨_, _, m, hrun, hok, hm, certificates_name_quorum sample_leadRoundTrip hrun hok hm⟩

end Okchain.Consensus
