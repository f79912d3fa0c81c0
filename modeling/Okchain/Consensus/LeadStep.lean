import Okchain.Consensus.HonestLead

/-! What a leader can do with a message.

A message is refused and changes nothing that matters; or it is counted; or it completes the count but the next message
cannot be composed; or it completes the count and the next message goes out. This is said once here, and what is proved
about runs is derived from it.
-/
namespace Okchain.Consensus
open Lib Proc Protos Core List
open Prod (fst snd)

variable {P : Platform}
variable {p q : PeerServer P} {r : Except Err Bool} {Q : Except Err Message × PeerServer P → Prop}
  {type : ConsensusType} {V : P.bls.PubKey → P.bls.Sig → Prop} {pub : P.bls.PubKey} {sign : P.bls.Sig}
  {ms : List PeerEndpoint} {Sends : ConsensusLead P → ConsensusLead P → Prop}

/-! ### What a round leaves alone -/

/-- A final block without what its round fills in: the seal, the coinbases of the backups, the state root and
the gas. -/
def bareFinal (b : TxBlock) : TxBlock :=
  {bare b with header := {(bare b).header with
    dsCoinBase := b.header.dsCoinBase.take 1, stateRoot := [], gasUsed := 0}}

/-- The node is in the same round: on the same blocks, but for what the round fills in, with the same members. -/
structure SameRound (p q : PeerServer P) : Prop where
  committee : q.committee = p.committee
  shardingNodes : q.shardingNodes = p.shardingNodes
  currentType : q.currentType = p.currentType
  dsBlock : q.currentDSBlock.map bare = p.currentDSBlock.map bare
  finalBlock : q.currentFinalBlock.map bareFinal = p.currentFinalBlock.map bareFinal
  microBlock : q.currentMicroBlock.map bare = p.currentMicroBlock.map bare
  vcBlock : q.currentVCBlock.map bare = p.currentVCBlock.map bare

theorem SameRound.refl (p : PeerServer P) : SameRound p p := ⟨rfl, rfl, rfl, rfl, rfl, rfl, rfl⟩

theorem SameRound.trans {r : PeerServer P} (h : SameRound p q) (h' : SameRound q r) : SameRound p r where
  committee := h'.committee.trans h.committee
  shardingNodes := h'.shardingNodes.trans h.shardingNodes
  currentType := h'.currentType.trans h.currentType
  dsBlock := h'.dsBlock.trans h.dsBlock
  finalBlock := h'.finalBlock.trans h.finalBlock
  microBlock := h'.microBlock.trans h.microBlock
  vcBlock := h'.vcBlock.trans h.vcBlock

def sealOf (p : PeerServer P) : ConsensusType → Option Seal
  | .dsBlock => p.currentDSBlock.map getSeal
  | .finalBlock => p.currentFinalBlock.map getSeal
  | .microBlock => p.currentMicroBlock.map getSeal
  | .viewChange => p.currentVCBlock.map getSeal
  | .unknown _ => none

structure Still (p q : PeerServer P) : Prop extends SameRound p q where
  seals : sealOf q = sealOf p
  outbox : q.outbox = p.outbox

theorem Still.refl (p : PeerServer P) : Still p p := ⟨.refl p, rfl, rfl⟩

theorem Still.trans {r : PeerServer P} (h : Still p q) (h' : Still q r) : Still p r :=
  ⟨h.toSameRound.trans h'.toSameRound, h'.seals.trans h.seals, h'.outbox.trans h.outbox⟩

def roundHash (p : PeerServer P) : ConsensusType → Except Err Hash
  | .dsBlock => deref p.currentDSBlock >>= digest P.toEnv
  | .finalBlock => deref p.currentFinalBlock >>= cutHash P.toEnv
  | .microBlock => deref p.currentMicroBlock >>= digest P.toEnv
  | .viewChange => deref p.currentVCBlock >>= digest P.toEnv
  | .unknown _ => .error (.consensus .cannotProcessType)

variable {B A : Type} {slot : Slot P B} {s w : ConsensusLead P} {bytes : Bytes} {msg : Message} {f : A → LeadProc P B}
  {x : LeadProc P Bool}

theorem digest_bare [SealedBlock B] (E : Env) (b : B) : digest E (bare b) = digest E b :=
  digest_withSeal E b .none

theorem cutHash_bareFinal (E : Env) (b : TxBlock) : cutHash E (bareFinal b) = cutHash E b := by
  unfold cutHash cutCoinBase
  have hcoins : (bareFinal b).header.dsCoinBase = b.header.dsCoinBase.take 1 := rfl
  rw [hcoins]
  cases b.header.dsCoinBase with
  | nil => rfl
  | cons first rest => rfl

theorem deref_map_bind (f : A → A) (g : A → Except Err B) (hg : ∀ a, g (f a) = g a) (o : Option A) :
    (deref (o.map f) >>= g) = deref o >>= g := by
  cases o with
  | none => rfl
  | some a => exact hg a

theorem SameRound.roundHash (h : SameRound p q) (type : ConsensusType) : roundHash q type = roundHash p type := by
  have hblock : ∀ {B : Type} [SealedBlock B] {a b : Option B}, a.map bare = b.map bare →
      (deref a >>= digest P.toEnv) = deref b >>= digest P.toEnv := by
    intro B _ a b hab
    rw [← deref_map_bind bare _ (digest_bare P.toEnv) a, hab, deref_map_bind bare _ (digest_bare P.toEnv) b]
  cases type with
  | dsBlock => exact hblock h.dsBlock
  | finalBlock =>
    show (deref q.currentFinalBlock >>= cutHash P.toEnv) = deref p.currentFinalBlock >>= cutHash P.toEnv
    rw [← deref_map_bind bareFinal _ (cutHash_bareFinal P.toEnv), h.finalBlock,
      deref_map_bind bareFinal _ (cutHash_bareFinal P.toEnv)]
  | microBlock => exact hblock h.microBlock
  | viewChange => exact hblock h.vcBlock
  | unknown n => rfl

def membersOf (p : PeerServer P) (type : ConsensusType) : Except Err (List PeerEndpoint) := (members type p).1

theorem committeeSort_state (p : PeerServer P) : (committeeSort p).2 = p := rfl

theorem members_eq (type : ConsensusType) (p : PeerServer P) : members type p =
    (decidedByCommittee p type >>= fun committee =>
      if committee then sortByPubkey P.toEnv p.committee
      else match type with
        | .unknown _ => .ok []
        | _ => .ok p.shardingNodes, p) := by
  unfold members
  rw [bind_of_run (inCommittee_run type p)]
  cases decidedByCommittee p type with
  | error e => rfl
  | ok committee =>
    cases committee with
    | true => rfl
    | false => cases type <;> rfl

theorem membersOf_committee (hdecided : decidedByCommittee p type = .ok true)
    (h : sortByPubkey P.toEnv p.committee = .ok ms) : membersOf p type = .ok ms := by
  unfold membersOf
  rw [members_eq, hdecided]
  exact h

theorem SameRound.decidedByCommittee (h : SameRound p q) (type : ConsensusType) :
    decidedByCommittee q type = decidedByCommittee p type := by
  cases type with
  | viewChange =>
    unfold Consensus.decidedByCommittee
    rw [← deref_map_bind bare _ (fun _ => rfl) q.currentVCBlock, h.vcBlock, deref_map_bind bare _ fun _ => rfl]
  | _ => rfl

theorem SameRound.members (h : SameRound p q) (type : ConsensusType) : membersOf q type = membersOf p type := by
  unfold membersOf
  rw [members_eq, members_eq, h.decidedByCommittee type, h.committee, h.shardingNodes]

/-! ### Steps of the node -/

theorem Slot.current_bind {f : B → NodeProc P A}
    {Q : Except Err A × PeerServer P → Prop} (herror : ∀ e, Q (.error e, p))
    (hok : ∀ b, slot.get p = some b → Q (f b p)) : Q ((slot.current >>= f) p) := by
  refine run_bind (fun e t h => ?_) fun b t h => ?_
  · obtain rfl : p = t := congrArg snd h
    exact herror e
  · obtain rfl : p = t := congrArg snd h
    exact hok b (deref_ok.mp (congrArg fst h))

theorem signedMessage_cases {type : MessageType} {payload : Bytes} (herror : ∀ e, Q (.error e, p))
    (hok : ∀ m issued, m.type = type → m.payload = payload → Q (.ok m, {p with issued := issued})) :
    Q (signedMessage type payload p) := by
  unfold signedMessage blsSign
  rw [bind_read, bind_assoc]
  refine run_lift herror fun bytes _ => ?_
  rw [bind_assoc]
  refine run_ensure herror fun _ => ?_
  exact hok _ _ rfl rfl

theorem still_of_issued (p : PeerServer P) (issued : List Signable) : Still p {p with issued := issued} :=
  ⟨⟨rfl, rfl, rfl, rfl, rfl, rfl, rfl⟩, rfl, rfl⟩

/-! ### A response of the first round -/

def carriedSig (P : Platform) (type : ConsensusType) (msg : Message) : Except Err P.bls.Sig := do
  let payload ← P.payload.decode msg.payload
  match type with
  | .dsBlock => readSig P.toEnv (← P.dsBlock.decode payload.msg).header.signature
  | .finalBlock => readSig P.toEnv (← P.txBlock.decode payload.msg).header.signature
  | .microBlock => readSig P.toEnv (← P.microBlock.decode payload.msg).header.signature
  | .viewChange => readSig P.toEnv (← P.vcBlock.decode payload.msg).header.signature
  | .unknown _ => .error (.consensus .verifyMessage)

def namedKey (P : Platform) (msg : Message) : Except Err P.bls.PubKey := do
  readPub P.toEnv (← deref msg.peer).pubkey

/-- The response names the key and carries the signature, and the signature is good for the round. -/
structure Votes (p : PeerServer P) (msg : Message) (pub : P.bls.PubKey) (sign : P.bls.Sig) : Prop where
  key : namedKey P msg = .ok pub
  carries : carriedSig P p.currentType msg = .ok sign
  verifies : ∃ hash, roundHash p p.currentType = .ok hash ∧ blsVerify P.toEnv sign pub hash.bytes = .ok true

/-- What becomes of a response that is checked: it is refused, or it is noted. -/
inductive Checked (s : ConsensusLead P) (V : P.bls.PubKey → P.bls.Sig → Prop) : Except Err Unit × ConsensusLead P → Prop
  | refused {q : PeerServer P} (e : Err) (hq : Still s.peer q) : Checked s V (.error e, {s with peer := q})
  | noted {q : PeerServer P} {pub : P.bls.PubKey} {sign : P.bls.Sig} (hq : Still s.peer q) (hvote : V pub sign) :
      Checked s V (.ok ⟨⟩, {s.noting pub sign with peer := q})

theorem Checked.same (e : Err) : Checked s V (.error e, s) := .refused e (.refl s.peer)

theorem verifyResponse_cases [SealedBlock B] [DecidableEq B] {c : Codec B}
    (h : ∀ b sign hash, c.decode bytes = .ok b → readSig P.toEnv (getSeal b).signature = .ok sign →
      (deref (slot.get s.peer) >>= digest P.toEnv) = .ok hash → blsVerify P.toEnv sign pub hash.bytes = .ok true →
      V pub sign) :
    Checked s V (verifyResponse slot c bytes pub s) := by
  refine run_lift .same fun b hb => ?_
  refine run_ensureState .same fun hmine => ?_
  refine run_lift .same fun sign hsign => ?_
  refine run_lift .same fun hash hhash => ?_
  refine run_lift .same fun ret hret => ?_
  refine run_ensure .same fun hgood => ?_
  refine .noted (.refl s.peer) (h b sign hash hb hsign ?_ (hgood ▸ hret))
  rw [hmine]
  exact (digest_withSignature P.toEnv b []).trans hhash

theorem still_of_finalBlock {b c : TxBlock} (hb : p.currentFinalBlock = some b) (hbare : bareFinal c = bareFinal b)
    (hseal : getSeal c = getSeal b) : Still p ((finalSlot P).set c p) where
  committee := rfl
  shardingNodes := rfl
  currentType := rfl
  dsBlock := rfl
  finalBlock := by
    rw [hb]
    exact congrArg some hbare
  microBlock := rfl
  vcBlock := rfl
  seals := by
    funext type
    cases type with
    | finalBlock =>
      show some (getSeal c) = p.currentFinalBlock.map getSeal
      rw [hb, hseal]
      rfl
    | _ => rfl
  outbox := rfl

theorem verifyFinalResponse_cases
    (h : ∀ b sign hash, P.txBlock.decode bytes = .ok b → readSig P.toEnv b.header.signature = .ok sign →
      roundHash s.peer .finalBlock = .ok hash → blsVerify P.toEnv sign pub hash.bytes = .ok true → V pub sign) :
    Checked s V (verifyFinalResponse bytes pub s) := by
  refine run_lift .same fun b hb => ?_
  refine run_bind (fun e t ht => ?_) fun mine t ht => ?_
  · obtain rfl : s = t := congrArg snd ht
    exact .same e
  obtain rfl : s = t := congrArg snd ht
  have hmine : s.peer.currentFinalBlock = some mine := deref_ok.mp (congrArg fst ht)
  refine run_lift .same fun ptocoin _ => ?_
  refine run_lift .same fun first hfirst => ?_
  obtain ⟨rest, hcoins⟩ : ∃ rest, mine.header.dsCoinBase = first :: rest := by
    cases hlist : mine.header.dsCoinBase with
    | nil =>
      rw [hlist] at hfirst
      exact nomatch hfirst
    | cons a rest =>
      rw [hlist] at hfirst
      exact ⟨rest, congrArg (· :: rest) (Except.ok.inj hfirst)⟩
  -- the coinbases are replaced before the block is compared, and put back longer afterwards
  let asked := withDSCoinBase mine [first, ptocoin]
  have hasked : Still s.peer ((finalSlot P).set asked s.peer) := by
    refine still_of_finalBlock hmine ?_ rfl
    unfold bareFinal
    rw [hcoins]
    rfl
  rw [bind_run (onPeer_run ((finalSlot P).modify_run hmine))]
  refine run_ensureState (fun e => .refused e hasked) fun hsame => ?_
  refine run_lift (fun e => .refused e hasked) fun sign hsign => ?_
  refine run_lift (fun e => .refused e hasked) fun hash hhash => ?_
  refine run_lift (fun e => .refused e hasked) fun ret hret => ?_
  have hnow : (finalSlot P).get ((finalSlot P).set asked s.peer) = some asked := rfl
  have hgrown : Still s.peer ((finalSlot P).set (withDSCoinBase asked (mine.header.dsCoinBase ++ [ptocoin]))
      ((finalSlot P).set asked s.peer)) := by
    refine hasked.trans (still_of_finalBlock hnow ?_ rfl)
    rw [hcoins]
    rfl
  refine run_ensure (fun e => .refused e hgrown) fun hgood => ?_
  refine .noted hgrown (h b sign hash hb hsign ?_ (hgood ▸ hret))
  -- the block in the response is the leader's, so its hash is the one of the round
  have hblock : asked = withSignature b [] := Option.some.inj hsame
  have hcut : withDSCoinBase (withSignature b []) [first] = withDSCoinBase mine [first] := by
    rw [← hblock]
    rfl
  have hround : roundHash s.peer .finalBlock = (withDSCoinBase mine [first]).mHash P.toEnv := by
    show (deref s.peer.currentFinalBlock >>= cutHash P.toEnv) = _
    rw [hmine]
    exact cutHash_of_first hfirst
  rw [hround, ← hcut]
  exact hhash

/-- **A response of the first round is refused or noted**, and it is noted only if its signature is good. -/
theorem verifyAndUpdate_cases (msg : Message) (s : ConsensusLead P) :
    Checked s (Votes s.peer msg) (verifyAndUpdate msg s.peer.currentType s) := by
  refine run_lift .same fun peer hpeer => ?_
  refine run_lift .same fun pub hpub => ?_
  refine run_lift .same fun payload hpayload => ?_
  have hkey : namedKey P msg = .ok pub := except_bind_ok.mpr ⟨peer, hpeer, hpub⟩
  have hvotes : ∀ sign hash, carriedSig P s.peer.currentType msg = .ok sign →
      roundHash s.peer s.peer.currentType = .ok hash → blsVerify P.toEnv sign pub hash.bytes = .ok true →
      Votes s.peer msg pub sign := fun sign hash hsign hround hgood => ⟨hkey, hsign, hash, hround, hgood⟩
  generalize s.peer.currentType = type at hvotes ⊢
  cases type with
  | unknown n => exact .same _
  | finalBlock =>
    exact verifyFinalResponse_cases fun b sign hash hb hsign =>
      hvotes sign hash (except_bind_ok.mpr ⟨payload, hpayload, except_bind_ok.mpr ⟨b, hb, hsign⟩⟩)
  | _ =>
    exact verifyResponse_cases fun b sign hash hb hsign =>
      hvotes sign hash (except_bind_ok.mpr ⟨payload, hpayload, except_bind_ok.mpr ⟨b, hb, hsign⟩⟩)

/-! ### A response of the second round -/

def carriedSig2 (P : Platform) (msg : Message) : Except Err P.bls.Sig := do
  let payload ← P.payload.decode msg.payload
  orError (.consensus .deserializeSign2) (deserializeSig P.toEnv payload.msg)

/-- The final response names the key and carries a signature on the signature of the current block, in a round
of the DS committee. -/
structure Votes2 (p : PeerServer P) (msg : Message) (pub : P.bls.PubKey) (sign : P.bls.Sig) : Prop where
  committee : decidedByCommittee p p.currentType = .ok true
  key : namedKey P msg = .ok pub
  carries : carriedSig2 P msg = .ok sign
  verifies : ∃ s, sealOf p p.currentType = some s ∧ blsVerify P.toEnv sign pub s.signature = .ok true

theorem currentSeal_ok {s : Seal} (h : currentSeal type p = (.ok s, q)) : sealOf p type = some s := by
  have hblock : ∀ {B : Type} [SealedBlock B] {slot : Slot P B},
      (slot.current >>= fun b => pure (getSeal b)) p = (.ok s, q) → (slot.get p).map getSeal = some s := by
    intro B _ slot hrun
    obtain ⟨b, t, hcurrent, hpure⟩ := bind_ok.mp hrun
    obtain ⟨rfl, -⟩ := pure_ok.mp hpure
    rw [deref_ok.mp (congrArg fst hcurrent : deref (slot.get p) = .ok b)]
    rfl
  cases type with
  | dsBlock => exact hblock h
  | finalBlock => exact hblock h
  | viewChange => exact hblock h
  | microBlock => exact nomatch congrArg fst h
  | unknown n => exact nomatch congrArg fst h

theorem currentSeal_state (type : ConsensusType) (p : PeerServer P) : (currentSeal type p).2 = p := by
  cases type with
  | dsBlock => exact Slot.current_bind (Q := fun o => o.2 = p) (fun _ => rfl) fun _ _ => rfl
  | finalBlock => exact Slot.current_bind (Q := fun o => o.2 = p) (fun _ => rfl) fun _ _ => rfl
  | viewChange => exact Slot.current_bind (Q := fun o => o.2 = p) (fun _ => rfl) fun _ _ => rfl
  | microBlock => rfl
  | unknown n => rfl

/-- A step of the node that only looks. -/
theorem onPeer_look {x : NodeProc P A}
    {Q : Except Err B × ConsensusLead P → Prop} (hx : (x s.peer).2 = s.peer) (herror : ∀ e, Q (.error e, s))
    (hok : ∀ a, x s.peer = (.ok a, s.peer) → Q (f a s)) : Q ((onPeer x >>= f) s) := by
  have hstate : {s with peer := (x s.peer).2} = s := by rw [hx]
  refine run_bind (fun e t h => ?_) fun a t h => ?_
  · obtain rfl : s = t := hstate ▸ congrArg snd h
    exact herror e
  · obtain rfl : s = t := hstate ▸ congrArg snd h
    have hfst : (x s.peer).1 = .ok a := congrArg fst h
    exact hok a (Prod.ext hfst hx)

/-- How a procedure of the leader goes on after a step of the node. -/
def goOn {A B : Type} (f : A → LeadProc P B) (s : ConsensusLead P) : Except Err A × PeerServer P → Except Err B × ConsensusLead P
  | (.ok a, q) => f a {s with peer := q}
  | (.error e, q) => (.error e, {s with peer := q})

theorem onPeer_bind (x : NodeProc P A) (f : A → LeadProc P B) (s : ConsensusLead P) :
    (onPeer x >>= f) s = goOn f s (x s.peer) := by
  rcases h : x s.peer with ⟨e | a, q⟩
  · simp only [bind, onPeer, h, goOn]
  · exact bind_run (onPeer_run h)

/-- **A response of the second round is refused or noted.** -/
theorem verifySig2AndUpdate_cases (msg : Message) (s : ConsensusLead P) :
    Checked s (Votes2 s.peer msg) (verifySig2AndUpdate msg s.peer.currentType s) := by
  refine onPeer_look (congrArg snd (inCommittee_run _ _)) .same fun committee hcommittee => ?_
  refine run_ensure .same fun htrue => ?_
  refine run_lift .same fun peer hpeer => ?_
  refine run_lift .same fun pub hpub => ?_
  refine run_lift .same fun payload hpayload => ?_
  refine run_lift .same fun sign hsign => ?_
  refine onPeer_look (currentSeal_state _ _) .same fun current hcurrent => ?_
  refine run_lift .same fun ret hret => ?_
  refine run_ensure .same fun hgood => ?_
  refine .noted (.refl s.peer) ⟨?_, ?_, ?_, current, currentSeal_ok hcurrent, hgood ▸ hret⟩
  · have hdecided := congrArg fst ((inCommittee_run _ _).symm.trans hcommittee)
    exact htrue ▸ hdecided
  · exact except_bind_ok.mpr ⟨peer, hpeer, hpub⟩
  · exact except_bind_ok.mpr ⟨payload, hpayload, hsign⟩

/-! ### Adding up -/

def keyOf (P : Platform) (p : PeerEndpoint) : P.bls.PubKey := (P.bls.deserializePub p.pubkey).getD 0

theorem keyOf_of {p : PeerEndpoint} {k : P.bls.PubKey} (h : deserializePub P.toEnv p.pubkey = .ok k) :
    keyOf P p = k := by
  unfold deserializePub at h
  split at h
  · exact nomatch h
  · unfold keyOf
    split at h
    case h_1 k' hk =>
      rw [hk]
      exact Except.ok.inj h
    case h_2 => exact nomatch h

def noted (s : ConsensusLead P) (ms : List PeerEndpoint) : List PeerEndpoint :=
  ms.filter fun p => s.publicKey2MsgMap (keyOf P p)

/-- The sum of what a map holds for these members. -/
def sumOf {A : Type} [AddCommMonoid A] (f : P.bls.PubKey → Option A) (ps : List PeerEndpoint) : A :=
  (ps.map fun p => (f (keyOf P p)).getD 0).sum

theorem noted_cons_pos {p : PeerEndpoint} (h : s.publicKey2MsgMap (keyOf P p) = true) :
    noted s (p :: ms) = p :: noted s ms := filter_cons_of_pos h

theorem noted_cons_neg {p : PeerEndpoint} (h : s.publicKey2MsgMap (keyOf P p) = false) :
    noted s (p :: ms) = noted s ms :=
  filter_cons_of_neg (by simp [h])

theorem sumOf_cons [AddCommMonoid A] {f : P.bls.PubKey → Option A} {p : PeerEndpoint} {a : A}
    (h : f (keyOf P p) = some a) (ps : List PeerEndpoint) : sumOf f (p :: ps) = a + sumOf f ps := by
  simp [sumOf, h]

inductive Totalled (s : ConsensusLead P) (ms : List PeerEndpoint) : Except Err (List Bool) × ConsensusLead P → Prop
  | failed (e : Err) (x : P.bls.Sig) (y : P.bls.PubKey) : Totalled s ms (.error e, s.added x y)
  | done (hkeys : ∀ p ∈ ms, deserializePub P.toEnv p.pubkey = .ok (keyOf P p)) :
      Totalled s ms (.ok (ms.map fun p => s.publicKey2MsgMap (keyOf P p)),
        s.added (sumOf s.signMap (noted s ms)) (sumOf s.pubKeyMap (noted s ms)))

theorem pick_bind {g : ConsensusLead P → Option A}
    {Q : Except Err B × ConsensusLead P → Prop} (herror : ∀ e, Q (.error e, s)) (hok : ∀ a, g s = some a → Q (f a s)) :
    Q ((pick g >>= f) s) := by
  cases hg : g s with
  | none =>
    have hrun : (pick g >>= f) s = (.error (.panic .nilDereference), s) := by simp only [bind, pick, hg, deref]
    rw [hrun]
    exact herror _
  | some a =>
    rw [bind_run (pick_run hg)]
    exact hok a hg

theorem ConsensusLead.added_zero (s : ConsensusLead P) : s.added 0 0 = s := by
  unfold ConsensusLead.added
  rw [add_zero, add_zero]

theorem collect_cases (ms : List PeerEndpoint) (s : ConsensusLead P) : Totalled s ms (collect ms s) := by
  induction ms generalizing s with
  | nil =>
    have hdone : Totalled s [] (.ok [], s.added 0 0) := .done fun p hp => nomatch hp
    rwa [ConsensusLead.added_zero] at hdone
  | cons p ms ih =>
    have hsame : ∀ e, Totalled s (p :: ms) (.error e, s) := fun e => by
      have hfailed : Totalled s (p :: ms) (.error e, s.added 0 0) := .failed e 0 0
      rwa [ConsensusLead.added_zero] at hfailed
    refine run_lift hsame fun key hkey => ?_
    obtain rfl := keyOf_of hkey
    rw [bind_read]
    cases hvoted : s.publicKey2MsgMap (keyOf P p) with
    | false =>
      refine run_bind (fun e t h => ?_) fun bits t h => ?_
      · have hrest := h ▸ ih s
        cases hrest with
        | failed _ x y => exact .failed e x y
      · have hrest := h ▸ ih s
        cases hrest with
        | done hms =>
          have hdone := Totalled.done (s := s) (forall_mem_cons.mpr ⟨hkey, hms⟩)
          rwa [map_cons, hvoted, noted_cons_neg hvoted] at hdone
    | true =>
      unfold addVote
      simp only [bind_assoc]
      refine pick_bind hsame fun sign hsign => ?_
      refine pick_bind (fun e => ?_) fun pub hpub => ?_
      · have hfailed : Totalled s (p :: ms) (.error e, s.added sign 0) := .failed e sign 0
        unfold ConsensusLead.added at hfailed
        rwa [add_zero] at hfailed
      rw [bind_update]
      have hadded : ∀ x y, (s.added sign pub).added x y = s.added (sign + x) (pub + y) :=
        fun x y => s.added_added sign x pub y
      refine run_bind (fun e t h => ?_) fun bits t h => ?_
      · have hrest := h ▸ ih (s.added sign pub)
        cases hrest with
        | failed _ x y =>
          rw [hadded]
          exact .failed e _ _
      · have hrest := h ▸ ih (s.added sign pub)
        cases hrest with
        | done hms =>
          have hdone := Totalled.done (s := s) (forall_mem_cons.mpr ⟨hkey, hms⟩)
          rw [map_cons, hvoted, noted_cons_pos hvoted, sumOf_cons hsign, sumOf_cons hpub] at hdone
          rw [hadded]
          exact hdone

section
variable (hknown : ∀ n, type ≠ .unknown n)
include hknown

theorem sealCurrent_cases {blockSeal : Seal} {Q : Except Err Unit × PeerServer P → Prop} (herror : ∀ e, Q (.error e, p))
    (hok : ∀ q, SameRound p q → q.outbox = p.outbox → sealOf q type = some blockSeal → Q (.ok ⟨⟩, q)) :
    Q (sealCurrent type blockSeal p) := by
  cases type with
  | unknown n => exact absurd rfl (hknown n)
  | dsBlock =>
    refine Slot.current_bind herror fun b hb => hok _ ⟨rfl, rfl, rfl, ?_, rfl, rfl, rfl⟩ rfl (congrArg some (getSeal_withSeal b _))
    have hb : p.currentDSBlock = some b := hb
    rw [hb]
    exact congrArg some (bare_withSeal b blockSeal)
  | finalBlock =>
    refine Slot.current_bind herror fun b hb => hok _ ⟨rfl, rfl, rfl, rfl, ?_, rfl, rfl⟩ rfl (congrArg some (getSeal_withSeal b _))
    have hb : p.currentFinalBlock = some b := hb
    rw [hb]
    rfl
  | microBlock =>
    refine Slot.current_bind herror fun b hb => hok _ ⟨rfl, rfl, rfl, rfl, rfl, ?_, rfl⟩ rfl (congrArg some (getSeal_withSeal b _))
    have hb : p.currentMicroBlock = some b := hb
    rw [hb]
    exact congrArg some (bare_withSeal b blockSeal)
  | viewChange =>
    refine Slot.current_bind herror fun b hb => hok _ ⟨rfl, rfl, rfl, rfl, rfl, rfl, ?_⟩ rfl (congrArg some (getSeal_withSeal b _))
    have hb : p.currentVCBlock = some b := hb
    rw [hb]
    exact congrArg some (bare_withSeal b blockSeal)

/-- The seal the leader makes of what its maps and its running sums hold. -/
def madeSeal (s : ConsensusLead P) (ms : List PeerEndpoint) : Seal where
  boolMap := ms.map fun p => s.publicKey2MsgMap (keyOf P p)
  signature := P.bls.serializeSig (s.finalBLSSign + sumOf s.signMap (noted s ms))
  multiPubKey := P.bls.serializePub (s.gPubkey + sumOf s.pubKeyMap (noted s ms))

/-- What `generateBoolMap` ends with. When it fails the running sums are left as they are. -/
inductive Generated (s : ConsensusLead P) (type : ConsensusType) : Except Err Unit × ConsensusLead P → Prop
  | failed (e : Err) (x : P.bls.Sig) (y : P.bls.PubKey) :
      Generated s type (.error e, {s with finalBLSSign := x, gPubkey := y})
  | done {q : PeerServer P} {ms : List PeerEndpoint} (hms : membersOf s.peer type = .ok ms)
      (hkeys : ∀ p ∈ ms, deserializePub P.toEnv p.pubkey = .ok (keyOf P p)) (hround : SameRound s.peer q)
      (hout : q.outbox = s.peer.outbox) (hseal : sealOf q type = some (madeSeal s ms)) :
      Generated s type (.ok ⟨⟩, {s with peer := q, finalBLSSign := 0, gPubkey := 0})

theorem generateBoolMap_cases (s : ConsensusLead P) : Generated s type (generateBoolMap type s) := by
  refine onPeer_look (by rw [members_eq]) (fun e => .failed e s.finalBLSSign s.gPubkey) fun ms hms => ?_
  have hms : membersOf s.peer type = .ok ms := congrArg fst hms
  refine run_bind (fun e t h => ?_) fun bits t h => ?_
  · have hcollected := h ▸ collect_cases ms s
    cases hcollected with
    | failed _ x y => exact .failed e _ _
  · have hcollected := h ▸ collect_cases ms s
    cases hcollected with
    | done hkeys =>
      rw [bind_read, onPeer_bind]
      refine sealCurrent_cases (Q := fun o => Generated s type (goOn _ _ o)) hknown (fun e => .failed e _ _)
        fun q hround hout hseal => ?_
      exact .done hms hkeys hround hout hseal

end

/-! ### Messages of the leader -/

/-- The block as it is broadcast: as it is now, and in a round of the DS committee with the outcome of the second
round. -/
inductive Broadcasts (q : PeerServer P) (shardLead : Bool) (sig2 : Option BoolMapSignature) : ConsensusType → Bytes → Prop
  | dsBlock {b : DSBlock} {sig : BoolMapSignature} (hb : q.currentDSBlock = some b) (hsig : sig2 = some sig) :
      Broadcasts q shardLead sig2 .dsBlock (P.dsBlockWithSig2.marshal ⟨b, sig⟩)
  | finalBlock {b : TxBlock} {sig : BoolMapSignature} (hb : q.currentFinalBlock = some b) (hsig : sig2 = some sig) :
      Broadcasts q shardLead sig2 .finalBlock (P.txBlockWithSig2.marshal ⟨b, sig⟩)
  | microBlock {b : MicroBlock} (hb : q.currentMicroBlock = some b) :
      Broadcasts q shardLead sig2 .microBlock (P.microBlock.marshal b)
  | viewChange {b : VCBlock} {sig : BoolMapSignature} (hb : q.currentVCBlock = some b) (hlead : shardLead = false)
      (hsig : sig2 = some sig) : Broadcasts q shardLead sig2 .viewChange (P.vcBlockWithSig2.marshal ⟨b, sig⟩)
  | shardViewChange {b : VCBlock} (hb : q.currentVCBlock = some b) (hlead : shardLead = true) :
      Broadcasts q shardLead sig2 .viewChange (P.vcBlock.marshal b)

/-- The message that broadcasts the block. -/
structure Delivers (q : PeerServer P) (shardLead : Bool) (sig2 : Option BoolMapSignature) (type : ConsensusType)
    (m : Message) : Prop where
  isBlock : m.type = .consensusBroadCastBlock
  carries : ∃ block, m.payload = consensusPayload P type block ∧ Broadcasts q shardLead sig2 type block

/-- The message that goes out at the end of the first count, over the seal `s` of the block. -/
inductive Reply (q : PeerServer P) (shardLead : Bool) (type : ConsensusType) (s : Seal) : Message → Prop
  | collective {m : Message} {payload : Bytes} (hlead : shardLead = false) (htype : m.type = .consensusFinalCollectiveSig)
      (hpayload : m.payload = consensusPayload P type payload)
      (hseal : type ≠ .microBlock → payload = P.boolMapSignature.marshal ⟨s.boolMap, s.signature⟩) :
      Reply q shardLead type s m
  | block {m : Message} (hlead : shardLead = true) (hblock : Delivers q shardLead none type m) :
      Reply q shardLead type s m

/-- A message is composed, if it can be, and the node is still. -/
inductive Composed (p : PeerServer P) (Good : PeerServer P → Message → Prop) : Except Err Message × PeerServer P → Prop
  | failed {q : PeerServer P} (e : Err) (hq : Still p q) : Composed p Good (.error e, q)
  | done {q : PeerServer P} {m : Message} (hq : Still p q) (hgood : Good q m) : Composed p Good (.ok m, q)

theorem Composed.same {Good : PeerServer P → Message → Prop} (e : Err) : Composed p Good (.error e, p) :=
  .failed e (.refl p)

theorem Composed.mono {G H : PeerServer P → Message → Prop} {o : Except Err Message × PeerServer P}
    (h : Composed p G o) (hgood : ∀ {q m}, G q m → H q m) : Composed p H o := by
  cases h with
  | failed e hq => exact .failed e hq
  | done hq hg => exact .done hq (hgood hg)

theorem composeBroadCastBlock_cases (hknown : ∀ n, type ≠ .unknown n) {boolMap : List Bool} {sig : Option P.bls.Sig}
    {shardLead : Bool} :
    Composed p (fun q => Delivers q shardLead (sig.map fun sig => ⟨boolMap, P.bls.serializeSig sig⟩) type)
      (composeBroadCastBlock boolMap sig shardLead type p) := by
  have hsig2 : ∀ {x}, deref sig = .ok x →
      (sig.map fun sig => (⟨boolMap, P.bls.serializeSig sig⟩ : BoolMapSignature)) = some ⟨boolMap, P.bls.serializeSig x⟩ := by
    intro x hx
    rw [deref_ok.mp hx]
    rfl
  generalize (sig.map fun sig => (⟨boolMap, P.bls.serializeSig sig⟩ : BoolMapSignature)) = sig2 at hsig2 ⊢
  have hsigned : ∀ {q : PeerServer P} {block : Bytes}, Still p q →
      (∀ issued, Broadcasts {q with issued := issued} shardLead sig2 type block) →
      Composed p (fun q => Delivers q shardLead sig2 type)
        (signedMessage .consensusBroadCastBlock (consensusPayload P type block) q) := fun hq hblock =>
    signedMessage_cases (fun e => .failed e hq) fun m issued htype hpayload =>
      .done (hq.trans (still_of_issued _ issued)) ⟨htype, _, hpayload, hblock issued⟩
  unfold composeBroadCastBlock
  cases type with
  | unknown n => exact absurd rfl (hknown n)
  | dsBlock =>
    simp only [bind_assoc]
    refine Slot.current_bind .same fun b hb => ?_
    exact run_lift .same fun x hx => hsigned (.refl p) fun _ => .dsBlock hb (hsig2 hx)
  | microBlock => exact Slot.current_bind .same fun b hb => hsigned (.refl p) fun _ => .microBlock hb
  | viewChange =>
    simp only [bind_assoc]
    refine Slot.current_bind .same fun b hb => ?_
    cases shardLead with
    | true => exact hsigned (.refl p) fun _ => .shardViewChange hb rfl
    | false => exact run_lift .same fun x hx => hsigned (.refl p) fun _ => .viewChange hb rfl (hsig2 hx)
  | finalBlock =>
    simp only [bind_assoc]
    refine Slot.current_bind .same fun b hb => ?_
    refine run_lift .same fun r hr => ?_
    rw [bind_run ((finalSlot P).modify_run hb)]
    have hstill : Still p ((finalSlot P).set {b with header := {b.header with
        stateRoot := r.1.bytes, gasUsed := r.2}} p) := still_of_finalBlock hb rfl rfl
    exact run_lift (fun e => .failed e hstill) fun x hx => hsigned hstill fun _ => .finalBlock rfl (hsig2 hx)

theorem composeFinalCollectiveSig_cases {blockSeal : Seal} (hseal : sealOf p type = some blockSeal) :
    Composed p (fun q => Reply q false type blockSeal) (composeFinalCollectiveSig type p) := by
  have hsigned : ∀ {payload : Bytes}, (type ≠ .microBlock →
        payload = P.boolMapSignature.marshal ⟨blockSeal.boolMap, blockSeal.signature⟩) →
      Composed p (fun q => Reply q false type blockSeal)
        (signedMessage .consensusFinalCollectiveSig (consensusPayload P type payload) p) := fun hcarries =>
    signedMessage_cases .same fun m issued htype hpayload =>
      .done (still_of_issued p issued) (.collective rfl htype hpayload hcarries)
  have hcurrent : Composed p (fun q => Reply q false type blockSeal)
      ((currentSeal type >>= fun s => signedMessage .consensusFinalCollectiveSig
        (consensusPayload P type (P.boolMapSignature.marshal ⟨s.boolMap, s.signature⟩))) p) := by
    refine run_bind (fun e t h => ?_) fun s t h => ?_
    · obtain rfl : p = t := (currentSeal_state type p).symm.trans (congrArg snd h)
      exact .same e
    · obtain rfl : p = t := (currentSeal_state type p).symm.trans (congrArg snd h)
      rw [Option.some.inj ((currentSeal_ok h).symm.trans hseal)]
      exact hsigned fun _ => rfl
  unfold composeFinalCollectiveSig
  cases type with
  | dsBlock => exact hcurrent
  | finalBlock => exact hcurrent
  | viewChange => exact hcurrent
  | microBlock => exact hsigned fun hne => absurd rfl hne
  | unknown n => exact nomatch hseal

/-! ### A message that is handled -/

/-- The leader when it has taken a message and sends none. `pass` says whether the message was verified, and `V`
what a verified one carries. The last response of a count may have changed the block and the running sums. -/
inductive Unsent (s : ConsensusLead P) (pass : Bool) (V : P.bls.PubKey → P.bls.Sig → Prop) : ConsensusLead P → Prop
  | refused {q : PeerServer P} (hpass : pass = false) (hq : Still s.peer q) : Unsent s pass V {s with peer := q}
  | counted {q : PeerServer P} {pub : P.bls.PubKey} {sign x : P.bls.Sig} {y : P.bls.PubKey} (hpass : pass = true)
      (hq : SameRound s.peer q) (hout : q.outbox = s.peer.outbox) (hvote : V pub sign)
      (hopen : ((s.counter + 1 : Nat) : Int) ≠ s.toleranceSize → Still s.peer q ∧ x = s.finalBLSSign ∧ y = s.gPubkey) :
      Unsent s pass V {s.noting pub sign with peer := q, counter := s.counter + 1, finalBLSSign := x, gPubkey := y}

theorem Unsent.mono {pass : Bool} {W : P.bls.PubKey → P.bls.Sig → Prop} {t : ConsensusLead P}
    (h : Unsent s pass V t) (hV : ∀ {pub sign}, V pub sign → W pub sign) : Unsent s pass W t := by
  cases h with
  | refused hpass hq => exact .refused hpass hq
  | counted hpass hq hout hvote hopen => exact .counted hpass hq hout (hV hvote) hopen

theorem Unsent.same {pass : Bool} {t : ConsensusLead P} (h : Unsent s pass V t) : t.state = s.state ∧
    t.shardLead = s.shardLead ∧ t.toleranceSize = s.toleranceSize := by
  cases h <;> exact ⟨rfl, rfl, rfl⟩

theorem Unsent.peer {pass : Bool} {t : ConsensusLead P} (h : Unsent s pass V t) :
    SameRound s.peer t.peer ∧ t.peer.outbox = s.peer.outbox := by
  cases h with
  | refused _ hq => exact ⟨hq.toSameRound, hq.outbox⟩
  | counted _ hq hout => exact ⟨hq, hout⟩

/-- What becomes of a message of either round. `Sends` says what the leader is like once it has sent the next
message. -/
inductive Outcome (s : ConsensusLead P) (pass : Bool) (V : P.bls.PubKey → P.bls.Sig → Prop)
    (Sends : ConsensusLead P → ConsensusLead P → Prop) : Except Err Bool × ConsensusLead P → Prop
  | unsent {r : Except Err Bool} {t : ConsensusLead P} (hr : r ≠ .ok true) (h : Unsent s pass V t) :
      Outcome s pass V Sends (r, t)
  | sent {t : ConsensusLead P} {pub : P.bls.PubKey} {sign : P.bls.Sig} (hpass : pass = true) (hvote : V pub sign)
      (hcount : ((s.counter + 1 : Nat) : Int) = s.toleranceSize) (hsends : Sends (s.noting pub sign) t) :
      Outcome s pass V Sends (.ok true, t)

/-- The last response of a count, when the next message cannot be composed. -/
theorem Outcome.failed {q : PeerServer P} {x : P.bls.Sig} {y : P.bls.PubKey} (e : Err) (hq : SameRound s.peer q)
    (hout : q.outbox = s.peer.outbox) (hvote : V pub sign) (hcount : ((s.counter + 1 : Nat) : Int) = s.toleranceSize) :
    Outcome s true V Sends
      (.error e, {s.noting pub sign with peer := q, counter := s.counter + 1, finalBLSSign := x, gPubkey := y}) :=
  .unsent (nomatch ·) (.counted rfl hq hout hvote fun h => absurd hcount h)

theorem Outcome.orFalse {pass : Bool} (h : Outcome s pass V Sends (x s)) : Outcome s pass V Sends (orFalse x s) := by
  unfold Consensus.orFalse
  generalize x s = o at h
  cases h with
  | @unsent r t hr h =>
    cases r with
    | ok sent => exact .unsent hr h
    | error e =>
      cases e with
      | panic p => exact .unsent (nomatch ·) h
      | _ => exact .unsent (nomatch ·) h
  | sent hpass hvote hcount hsends => exact .sent hpass hvote hcount hsends

theorem Delivers.sent {shardLead : Bool} {sig2 : Option BoolMapSignature} {m : Message} {outbox : List Message}
    (h : Delivers q shardLead sig2 type m) : Delivers {q with outbox := outbox} shardLead sig2 type m := by
  obtain ⟨htype, block, hpayload, hblock⟩ := h
  refine ⟨htype, block, hpayload, ?_⟩
  cases hblock with
  | dsBlock hb hsig => exact .dsBlock hb hsig
  | finalBlock hb hsig => exact .finalBlock hb hsig
  | microBlock hb => exact .microBlock hb
  | viewChange hb hlead hsig => exact .viewChange hb hlead hsig
  | shardViewChange hb hlead => exact .shardViewChange hb hlead

theorem Reply.sent {shardLead : Bool} {blockSeal : Seal} {m : Message} {outbox : List Message}
    (h : Reply q shardLead type blockSeal m) : Reply {q with outbox := outbox} shardLead type blockSeal m := by
  cases h with
  | collective hlead htype hpayload hcarries => exact .collective hlead htype hpayload hcarries
  | block hlead hblock => exact .block hlead hblock.sent

theorem SameRound.sent (h : SameRound p q) (outbox : List Message) : SameRound p {q with outbox := outbox} :=
  ⟨h.committee, h.shardingNodes, h.currentType, h.dsBlock, h.finalBlock, h.microBlock, h.vcBlock⟩

theorem sealOf_sent (q : PeerServer P) (outbox : List Message) (type : ConsensusType) :
    sealOf {q with outbox := outbox} type = sealOf q type := by
  cases type <;> rfl

/-- The leader has noted the last response of the first round, sealed its block and sent the next message. -/
structure SendsFirst (next : ConsensusState) (v t : ConsensusLead P) : Prop where
  sealed : ∃ ms q reply, membersOf v.peer v.peer.currentType = .ok ms ∧
    (∀ p ∈ ms, deserializePub P.toEnv p.pubkey = .ok (keyOf P p)) ∧ SameRound v.peer q ∧
    q.outbox = v.peer.outbox ++ [reply] ∧ sealOf q v.peer.currentType = some (madeSeal v ms) ∧
    Reply q v.shardLead v.peer.currentType (madeSeal v ms) reply ∧
    t = {v with peer := q, counter := 0, state := next, finalBLSSign := 0, gPubkey := 0}

theorem Votes.known (h : Votes p msg pub sign) (n : Int) : p.currentType ≠ .unknown n := by
  intro htype
  obtain ⟨hash, hhash, -⟩ := h.verifies
  rw [htype] at hhash
  exact nomatch hhash

/-- A composed message goes out, if it can be composed. -/
theorem sendOut_cases {compose : NodeProc P Message} {move : ConsensusLead P → ConsensusLead P}
    {Good : PeerServer P → Message → Prop} {Q : Except Err Bool × ConsensusLead P → Prop}
    (hmove : ∀ v, (move v).peer = v.peer) (hsent : ∀ {q m outbox}, Good q m → Good {q with outbox := outbox} m)
    (hcomposed : Composed w.peer Good (compose w.peer)) (herror : ∀ e q, Still w.peer q → Q (.error e, {w with peer := q}))
    (hok : ∀ m q r, SameRound w.peer r → r.outbox = w.peer.outbox ++ [m] → sealOf r = sealOf w.peer → Good r m →
      Q (.ok true, {move {w with peer := q} with peer := r})) : Q (sendOut compose move w) := by
  unfold sendOut
  rw [onPeer_bind]
  generalize compose w.peer = o at hcomposed
  cases hcomposed with
  | failed e hq => exact herror e _ hq
  | @done q m hq hgood =>
    show Q (.ok true, {move {w with peer := q} with peer := {(move {w with peer := q}).peer with
      outbox := (move {w with peer := q}).peer.outbox ++ [m]}})
    rw [hmove]
    refine hok m q _ (hq.toSameRound.sent _) (congrArg (· ++ [m]) hq.outbox) ?_ (hsent hgood)
    funext type
    rw [sealOf_sent, hq.seals]

/-- Both handlers check the response, count it and stop there, unless the count is complete. -/
theorem counting_cases {curState : ConsensusState} {check : ConsensusType → LeadProc P Unit}
    {rest : ConsensusType → LeadProc P Bool} (hstate : s.state = curState)
    (hchecked : Checked s V (check s.peer.currentType s))
    (hrest : ∀ q pub sign, Still s.peer q → V pub sign → ((s.counter + 1 : Nat) : Int) = s.toleranceSize →
      Outcome s true V Sends (rest s.peer.currentType {s.noting pub sign with peer := q, counter := s.counter + 1})) :
    Outcome s (check s.peer.currentType s).1.isOk V Sends (counting curState check rest s) := by
  refine Outcome.orFalse ?_
  rw [bind_read_of hstate, if_neg (not_not.mpr rfl), bind_read]
  refine run_bind (fun e t h => ?_) fun u t h => ?_
  · rw [h] at hchecked ⊢
    cases hchecked with
    | refused _ hq => exact .unsent (nomatch ·) (.refused rfl hq)
  rw [h] at hchecked ⊢
  cases hchecked with
  | @noted q pub sign hq hvote =>
    rw [bind_update]
    refine run_unless (fun _ => ?_) fun henough => ?_
    · exact .unsent (nomatch ·) (.counted rfl hq.toSameRound hq.outbox hvote fun _ => ⟨hq, rfl, rfl⟩)
    · exact hrest q pub sign hq hvote (of_decide_eq_true henough)

theorem handleResponse_cases (next : ConsensusState) (msg : Message) (s : ConsensusLead P) (hstate : s.state = .announceDone) :
    Outcome s (verifyAndUpdate msg s.peer.currentType s).1.isOk (Votes s.peer msg) (SendsFirst next)
      (handleResponse next msg s) := by
  refine counting_cases hstate (verifyAndUpdate_cases msg s) fun q pub sign hq hvote hcount => ?_
  have hgenerated := generateBoolMap_cases hvote.known {s.noting pub sign with peer := q, counter := s.counter + 1}
  refine run_bind (fun e t h => ?_) fun u t h => ?_
  · have hgenerated := h ▸ hgenerated
    cases hgenerated with
    | failed _ x y => exact .failed e hq.toSameRound hq.outbox hvote hcount
  · have hgenerated := h ▸ hgenerated
    cases hgenerated with
    | @done q' ms hms hkeys hround hout hseal =>
      have hround := hq.toSameRound.trans hround
      have hout := hout.trans hq.outbox
      have hms := (hq.toSameRound.members _).symm.trans hms
      have hreply : Composed q' (fun r => Reply r s.shardLead s.peer.currentType (madeSeal (s.noting pub sign) ms))
          ((if s.shardLead then composeBroadCastBlock [] none s.shardLead s.peer.currentType
            else composeFinalCollectiveSig s.peer.currentType) q') := by
        cases s.shardLead with
        | true => exact (composeBroadCastBlock_cases hvote.known).mono (.block rfl)
        | false => exact composeFinalCollectiveSig_cases hseal
      rw [bind_read]
      refine sendOut_cases (fun _ => rfl) Reply.sent hreply (fun e r hstill => ?_) fun m _ r hsame hr hseals hreply => ?_
      · exact .failed e (hround.trans hstill.toSameRound) (hstill.outbox.trans hout) hvote hcount
      · exact .sent rfl hvote hcount ⟨ms, r, m, hms, hkeys, hround.trans hsame, hr.trans (congrArg (· ++ [m]) hout),
          (congrFun hseals _).trans hseal, hreply, rfl⟩

/-! ### The second round -/

def madeSig2 (s : ConsensusLead P) (ms : List PeerEndpoint) : BoolMapSignature where
  boolMap := ms.map fun p => s.publicKey2MsgMap (keyOf P p)
  signature := P.bls.serializeSig (sumOf s.signMap (noted s ms))

theorem collectSig2_cases {Q : Except Err (List Bool × P.bls.Sig) × ConsensusLead P → Prop}
    (herror : ∀ e, Q (.error e, s)) (hok : (∀ p ∈ ms, deserializePub P.toEnv p.pubkey = .ok (keyOf P p)) →
      Q (.ok (ms.map fun p => s.publicKey2MsgMap (keyOf P p), sumOf s.signMap (noted s ms)), s)) :
    Q (collectSig2 ms s) := by
  induction ms generalizing Q with
  | nil => exact hok fun p hp => nomatch hp
  | cons p ms ih =>
    refine run_lift herror fun key hkey => ?_
    obtain rfl := keyOf_of hkey
    rw [bind_read]
    cases hvoted : s.publicKey2MsgMap (keyOf P p) with
    | false =>
      rw [if_neg Bool.false_ne_true, bind_eq_andThen]
      refine ih (Q := fun o => Q (Proc.andThen _ o)) herror fun hms => ?_
      have hdone := hok (forall_mem_cons.mpr ⟨hkey, hms⟩)
      rwa [map_cons, hvoted, noted_cons_neg hvoted] at hdone
    | true =>
      refine pick_bind herror fun sign hsign => ?_
      rw [bind_eq_andThen]
      refine ih (Q := fun o => Q (Proc.andThen _ o)) herror fun hms => ?_
      have hdone := hok (forall_mem_cons.mpr ⟨hkey, hms⟩)
      rwa [map_cons, hvoted, noted_cons_pos hvoted, sumOf_cons hsign] at hdone

/-- The leader has noted the last response of the second round and sent the finished block. -/
structure SendsSecond (v t : ConsensusLead P) : Prop where
  sealed : ∃ ms q reply, sortByPubkey P.toEnv v.peer.committee = .ok ms ∧
    (∀ p ∈ ms, deserializePub P.toEnv p.pubkey = .ok (keyOf P p)) ∧ SameRound v.peer q ∧
    q.outbox = v.peer.outbox ++ [reply] ∧ sealOf q = sealOf v.peer ∧
    Delivers q v.shardLead (some (madeSig2 v ms)) v.peer.currentType reply ∧
    t = {v with peer := q, counter := 0, state := .broadCastBlockDone, boolMapSign2 := madeSig2 v ms}

theorem Votes2.known (h : Votes2 p msg pub sign) (n : Int) : p.currentType ≠ .unknown n := by
  intro htype
  obtain ⟨s, hs, -⟩ := h.verifies
  rw [htype] at hs
  exact nomatch hs

theorem handleFinalResponse_cases (msg : Message) (s : ConsensusLead P) (hstate : s.state = .finalCollectiveSigDone) :
    Outcome s (verifySig2AndUpdate msg s.peer.currentType s).1.isOk (Votes2 s.peer msg) SendsSecond
      (handleFinalResponse msg s) := by
  refine counting_cases hstate (verifySig2AndUpdate_cases msg s) fun q pub sign hq hvote hcount => ?_
  have hfailed : ∀ e, Outcome s true (Votes2 s.peer msg) SendsSecond
      (.error e, {s.noting pub sign with peer := q, counter := s.counter + 1}) :=
    fun e => .failed e hq.toSameRound hq.outbox hvote hcount
  refine onPeer_look (committeeSort_state q) hfailed fun ms hms => ?_
  have hms : sortByPubkey P.toEnv s.peer.committee = .ok ms := hq.committee ▸ congrArg fst hms
  rw [bind_eq_andThen]
  refine collectSig2_cases (Q := fun o => Outcome _ _ _ _ (Proc.andThen _ o)) hfailed fun hkeys => ?_
  refine sendOut_cases (fun _ => rfl) Delivers.sent (composeBroadCastBlock_cases hvote.known)
    (fun e r hstill => ?_) fun m _ r hsame hr hseals hblock => ?_
  · exact .failed e (hq.toSameRound.trans hstill.toSameRound) (hstill.outbox.trans hq.outbox) hvote hcount
  · exact .sent rfl hvote hcount ⟨ms, r, m, hms, hkeys, hq.toSameRound.trans hsame,
      hr.trans (congrArg (· ++ [m]) hq.outbox), hseals.trans hq.seals, hblock, rfl⟩

/-! ### Any message -/

/-- The sender is one of the nodes the leader listens to, and the message is signed. -/
def admits (msg : Message) (sender : PeerEndpoint) (s : ConsensusLead P) : Bool :=
  (s.consensusBackupNodes.any fun p => p.pubkey = sender.pubkey) && (authenticate msg s.peer).1.isOk

/-- The message is a response to the count that is open, and is found good. -/
def verified (msg : Message) (sender : PeerEndpoint) (s : ConsensusLead P) : Bool :=
  admits msg sender s && match msg.type with
    | .consensusResponse => s.state = .announceDone && (verifyAndUpdate msg s.peer.currentType s).1.isOk
    | .consensusFinalResponse =>
      s.state = .finalCollectiveSigDone && (verifySig2AndUpdate msg s.peer.currentType s).1.isOk
    | _ => false

/-- The state a shard leader or a DS leader goes to when the first count is complete. -/
def afterFirst (s : ConsensusLead P) : ConsensusState :=
  if s.shardLead then .broadCastBlockDone else .finalCollectiveSigDone

def isSent : Except Err Bool → Bool
  | .ok true => true
  | _ => false

/-- The role is told that the round is complete (`OnConsensusCompleted`). -/
def reportsCompletion (msg : Message) (sender : PeerEndpoint) (s : ConsensusLead P) : Bool :=
  admits msg sender s && match msg.type with
    | .consensusResponse => s.shardLead && isSent (handleResponse (afterFirst s) msg s).1
    | .consensusFinalResponse => isSent (handleFinalResponse msg s).1
    | _ => false

def ConsensusLead.cleared (s : ConsensusLead P) : ConsensusLead P :=
  {s with counter := 0, publicKey2MsgMap := fun _ => false, pubKeyMap := fun _ => none, signMap := fun _ => none}

inductive Voted (s : ConsensusLead P) (msg : Message) (pub : P.bls.PubKey) (sign : P.bls.Sig) : Prop
  | first (hstate : s.state = .announceDone) (htype : msg.type = .consensusResponse) (hvote : Votes s.peer msg pub sign)
  | second (hstate : s.state = .finalCollectiveSigDone) (htype : msg.type = .consensusFinalResponse)
      (hvote : Votes2 s.peer msg pub sign)

/-- What a leader has become when it has handled a message. -/
inductive Handled (s : ConsensusLead P) (msg : Message) (sender : PeerEndpoint) : ConsensusLead P → Prop
  | unsent {t : ConsensusLead P} (hreport : reportsCompletion msg sender s = false)
      (h : Unsent s (verified msg sender s) (Voted s msg) t) : Handled s msg sender t
  | first {t : ConsensusLead P} {pub : P.bls.PubKey} {sign : P.bls.Sig} (hpass : verified msg sender s = true)
      (hreport : reportsCompletion msg sender s = s.shardLead) (hstate : s.state = .announceDone)
      (htype : msg.type = .consensusResponse) (hvote : Votes s.peer msg pub sign)
      (hcount : ((s.counter + 1 : Nat) : Int) = s.toleranceSize) (hsends : SendsFirst (afterFirst s) (s.noting pub sign) t) :
      Handled s msg sender t.cleared
  | second {t : ConsensusLead P} {pub : P.bls.PubKey} {sign : P.bls.Sig} (hpass : verified msg sender s = true)
      (hreport : reportsCompletion msg sender s = true) (hstate : s.state = .finalCollectiveSigDone)
      (htype : msg.type = .consensusFinalResponse) (hvote : Votes2 s.peer msg pub sign)
      (hcount : ((s.counter + 1 : Nat) : Int) = s.toleranceSize) (hsends : SendsSecond (s.noting pub sign) t) :
      Handled s msg sender t.cleared

theorem dropError_state {σ : Type} (x : Proc Err σ Unit) (s : σ) : (dropError x s).2 = (x s).2 := by
  unfold dropError
  rcases x s with ⟨e | a, t⟩
  · cases e <;> rfl
  · rfl

theorem isSent_of_ne (hr : r ≠ .ok true) : isSent r = false := by
  unfold isSent
  split
  · exact absurd rfl hr
  · rfl

theorem authenticate_state (msg : Message) (p : PeerServer P) : (authenticate msg p).2 = p := rfl

section
variable {msg : Message} {sender : PeerEndpoint} {s : ConsensusLead P}

theorem Handled.of_not_admits (h : admits msg sender s = false) : Handled s msg sender s := by
  refine .unsent ?_ (.refused ?_ (.refl _))
  · unfold reportsCompletion
    rw [h, Bool.false_and]
  · unfold verified
    rw [h, Bool.false_and]

section
variable (hadmits : admits msg sender s = true)
include hadmits

theorem verified_response (htype : msg.type = .consensusResponse) :
    verified msg sender s = (s.state = .announceDone && (verifyAndUpdate msg s.peer.currentType s).1.isOk) := by
  unfold verified
  rw [hadmits, htype, Bool.true_and]

theorem verified_finalResponse (htype : msg.type = .consensusFinalResponse) : verified msg sender s =
      (s.state = .finalCollectiveSigDone && (verifySig2AndUpdate msg s.peer.currentType s).1.isOk) := by
  unfold verified
  rw [hadmits, htype, Bool.true_and]

theorem reportsCompletion_response (htype : msg.type = .consensusResponse) :
    reportsCompletion msg sender s = (s.shardLead && isSent (handleResponse (afterFirst s) msg s).1) := by
  unfold reportsCompletion
  rw [hadmits, htype, Bool.true_and]

theorem reportsCompletion_finalResponse (htype : msg.type = .consensusFinalResponse) :
    reportsCompletion msg sender s = isSent (handleFinalResponse msg s).1 := by
  unfold reportsCompletion
  rw [hadmits, htype, Bool.true_and]

end

/-- The maps are emptied only when a message was sent. -/
def settleMaps : Except Err Bool × ConsensusLead P → Except Err Unit × ConsensusLead P :=
  Proc.andThen fun sent => if sent then resetMaps else pure ⟨⟩

theorem settleMaps_unsent (hr : r ≠ .ok true) (t : ConsensusLead P) : (settleMaps (r, t)).2 = t := by
  cases r with
  | error e => rfl
  | ok sent =>
    cases sent with
    | false => rfl
    | true => exact absurd rfl hr

variable {o : Except Err Bool × ConsensusLead P}

/-- What becomes of a message is what the leader has done with it, once the maps are settled. -/
theorem Outcome.handled (report : Bool) {pass : Bool}
    (h : Outcome s pass V Sends o) (hverified : verified msg sender s = pass)
    (hreports : reportsCompletion msg sender s = (report && isSent o.1))
    (hvoted : ∀ {pub sign}, V pub sign → Voted s msg pub sign)
    (hsent : ∀ {pub sign t}, verified msg sender s = true → reportsCompletion msg sender s = report → V pub sign →
      ((s.counter + 1 : Nat) : Int) = s.toleranceSize → Sends (s.noting pub sign) t → Handled s msg sender t.cleared) :
    Handled s msg sender (settleMaps o).2 := by
  subst hverified
  cases h with
  | unsent hr h =>
    rw [isSent_of_ne hr, Bool.and_false] at hreports
    rw [settleMaps_unsent hr]
    exact .unsent hreports (h.mono hvoted)
  | sent hpass hvote hcount hsends => exact hsent hpass (hreports.trans (Bool.and_true report)) hvote hcount hsends

/-- A message that meets another state is answered at once. -/
theorem Handled.of_closed (ho : o = (.ok false, s))
    (hverified : verified msg sender s = false) (hreports : reportsCompletion msg sender s = false) :
    Handled s msg sender (settleMaps o).2 := by
  rw [ho]
  exact .unsent hreports (.refused hverified (.refl s.peer))

theorem handleResponse_handled (hadmits : admits msg sender s = true) (htype : msg.type = .consensusResponse) :
    Handled s msg sender (settleMaps (handleResponse (afterFirst s) msg s)).2 := by
  have hverified := verified_response hadmits htype
  have hreports := reportsCompletion_response hadmits htype
  by_cases hstate : s.state = .announceDone
  · rw [decide_eq_true hstate] at hverified
    exact (handleResponse_cases (afterFirst s) msg s hstate).handled s.shardLead hverified hreports (.first hstate htype)
      fun hpass hreport => .first hpass hreport hstate htype
  · have hrun : handleResponse (afterFirst s) msg s = (.ok false, s) := counting_closed hstate
    rw [decide_eq_false hstate] at hverified
    rw [hrun, show isSent (.ok false) = false from rfl, Bool.and_false] at hreports
    exact .of_closed hrun hverified hreports

theorem handleFinalResponse_handled (hadmits : admits msg sender s = true)
    (htype : msg.type = .consensusFinalResponse) :
    Handled s msg sender (settleMaps (handleFinalResponse msg s)).2 := by
  have hverified := verified_finalResponse hadmits htype
  have hreports := reportsCompletion_finalResponse hadmits htype
  by_cases hstate : s.state = .finalCollectiveSigDone
  · rw [decide_eq_true hstate] at hverified
    exact (handleFinalResponse_cases msg s hstate).handled true hverified hreports (.second hstate htype)
      fun hpass hreport => .second hpass hreport hstate htype
  · have hrun : handleFinalResponse msg s = (.ok false, s) := counting_closed hstate
    rw [decide_eq_false hstate] at hverified
    rw [hrun] at hreports
    exact .of_closed hrun hverified hreports

/-- **What a leader does with a message**, whoever sends it and whatever is in it. -/
theorem processConsensusMsg_handled (msg : Message) (sender : PeerEndpoint) (s : ConsensusLead P) :
    Handled s msg sender (ConsensusLead.processConsensusMsg msg sender s).2 := by
  by_cases hnode : (s.consensusBackupNodes.any fun p => p.pubkey = sender.pubkey) = true
  case neg =>
    have hadmits : admits msg sender s = false := by
      unfold admits
      rw [Bool.eq_false_iff.mpr hnode, Bool.false_and]
    have hstate : (ConsensusLead.processConsensusMsg msg sender s).2 = s := by
      refine run_ensureState (Q := fun o => o.2 = s) (fun _ => rfl) fun h => absurd h hnode
    rw [hstate]
    exact .of_not_admits hadmits
  case pos =>
    unfold ConsensusLead.processConsensusMsg
    rw [bind_ensureState
      (c := fun s : ConsensusLead P => (s.consensusBackupNodes.any fun p => p.pubkey = sender.pubkey) = true) hnode]
    by_cases hauth : (authenticate msg s.peer).1.isOk = true
    case neg =>
      have hadmits : admits msg sender s = false := by
        unfold admits
        rw [Bool.eq_false_iff.mpr hauth, Bool.and_false]
      have hstops : ∀ handle : LeadProc P Bool, (answering msg handle s).2 = s := fun handle =>
        onPeer_look (Q := fun o => o.2 = s) (authenticate_state msg s.peer) (fun _ => rfl)
          fun a ha => absurd (isOk_iff.mpr ⟨a, s.peer, ha⟩) hauth
      cases msg.type with
      | consensusResponse =>
        rw [dropError_state, processMessageResponse, hstops]
        exact .of_not_admits hadmits
      | consensusFinalResponse =>
        rw [dropError_state, processMessageFinalResponse, hstops]
        exact .of_not_admits hadmits
      | _ => exact .of_not_admits hadmits
    case pos =>
      have hadmits : admits msg sender s = true := by
        unfold admits
        rw [hnode, hauth]
        rfl
      obtain ⟨u, t, hrun⟩ := isOk_iff.mp hauth
      obtain rfl : s.peer = t := congrArg snd hrun
      have hsettles : ∀ handle : LeadProc P Bool, answering msg handle s = settleMaps (handle s) := fun handle =>
        (bind_run (onPeer_run hrun)).trans (bind_eq_andThen _ _ _)
      cases htype : msg.type with
      | consensusResponse =>
        rw [dropError_state, processMessageResponse, hsettles]
        exact handleResponse_handled hadmits htype
      | consensusFinalResponse =>
        rw [dropError_state, processMessageFinalResponse, hsettles]
        exact handleFinalResponse_handled hadmits htype
      | _ =>
        refine .unsent ?_ (.refused ?_ (.refl _))
        · unfold reportsCompletion
          rw [htype]
          exact Bool.and_false _
        · unfold verified
          rw [htype]
          exact Bool.and_false _

end

end Okchain.Consensus
