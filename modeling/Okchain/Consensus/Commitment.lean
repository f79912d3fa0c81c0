import Okchain.Consensus.BackupStep
import Okchain.Consensus.LeadSeal

/-! What a DS backup commits is what it verified.

The current block of a backup is replaced when it composes one of its own and when an announced one passes; no other
step changes more of it than the round fills in: the seal and, for a final block, the coinbases, the state root and
the gas.
-/
namespace Okchain.Consensus
open Lib Proc Protos Core State

variable {P : Platform}

/-! ### What a round fills in -/

/-- A final block without its seal, its coinbases, its state root and its gas. -/
def core (b : TxBlock) : TxBlock :=
  {bare b with header := {(bare b).header with dsCoinBase := [], stateRoot := [], gasUsed := 0}}

def Sealed {B : Type} [SealedBlock B] (b : B) : Prop := (getSeal b).boolMap ≠ []

/-- A current block is kept: what `f` shows of it is the same, and a sealed block stays sealed. -/
structure KeptAs {B : Type} [SealedBlock B] (f : B → B) (x y : Option B) : Prop where
  same : y.map f = x.map f
  sealed : (∃ b, x = some b ∧ Sealed b) → ∃ c, y = some c ∧ Sealed c

section

variable {B : Type} [SealedBlock B] {f : B → B} {x y z : Option B}

theorem KeptAs.refl (x : Option B) : KeptAs f x x := ⟨rfl, id⟩

theorem KeptAs.trans (h : KeptAs f x y) (h' : KeptAs f y z) : KeptAs f x z :=
  ⟨h'.same.trans h.same, fun hx => h'.sealed (h.sealed hx)⟩

theorem KeptAs.of_some {b c : B} (hsame : f c = f b) (hsealed : Sealed b → Sealed c) : KeptAs f (some b) (some c) where
  same := congrArg some hsame
  sealed := by
    rintro ⟨b', hb, hb'⟩
    cases hb
    exact ⟨c, rfl, hsealed hb'⟩

end

/-- The current DS block and the current final block are kept. -/
structure KeptBlocks (s t : PeerServer P) : Prop where
  ds : KeptAs bare s.currentDSBlock t.currentDSBlock
  final : KeptAs core s.currentFinalBlock t.currentFinalBlock

theorem KeptBlocks.refl (s : PeerServer P) : KeptBlocks s s := ⟨.refl _, .refl _⟩

theorem KeptBlocks.trans {s t u : PeerServer P} (h : KeptBlocks s t) (h' : KeptBlocks t u) : KeptBlocks s u :=
  ⟨h.ds.trans h'.ds, h.final.trans h'.final⟩

theorem sealed_withSignature {B : Type} [SealedBlock B] {b : B} (x : Bytes) (h : Sealed b) :
    Sealed (withSignature b x) := by
  unfold Sealed
  rw [getSeal_withSignature]
  exact h

/-! ### Procedures of a round -/

/-- What changing a block in this slot must respect. -/
def Slot.Respects {B : Type} (slot : Slot P B) (R : PeerServer P → PeerServer P → Prop) (A : B → B → Prop) : Prop :=
  ∀ s b c, slot.get s = some b → A b c → R s (slot.set c s)

/-- Two blocks that differ in their seal only, the second being sealed if the first is. -/
def Agrees {B : Type} [SealedBlock B] (b c : B) : Prop := bare c = bare b ∧ (Sealed b → Sealed c)

/-- Two final blocks that differ in nothing but what the round fills in. -/
def AgreesFinal (b c : TxBlock) : Prop := core c = core b ∧ (Sealed b → Sealed c)

/-- A relation that a round keeps to, but for the blocks that are announced and the signatures on final blocks. -/
class RoundRel (R : PeerServer P → PeerServer P → Prop) : Prop where
  refl : ∀ s, R s s
  trans : ∀ {s t u}, R s t → R t u → R s u
  sign : ∀ s what, (∀ b, what ≠ .finalBlock b) → R s {s with issued := what :: s.issued}
  send : ∀ s out, R s {s with outbox := out}
  ds : (dsSlot P).Respects R Agrees
  final : (finalSlot P).Respects R AgreesFinal
  micro : ∀ s b, R s ((microSlot P).set b s)
  vc : ∀ s b, R s ((vcSlot P).set b s)

theorem Agrees.toFinal {b c : TxBlock} (h : Agrees b c) : AgreesFinal b c :=
  ⟨congrArg (fun b : TxBlock => {b with header := {b.header with dsCoinBase := [], stateRoot := [], gasUsed := 0}}) h.1,
    h.2⟩

theorem agrees_withSignature {B : Type} [SealedBlock B] (b : B) (x : Bytes) : Agrees b (withSignature b x) :=
  ⟨bare_withSignature b x, sealed_withSignature x⟩

theorem agrees_finished {B : Type} [SealedBlock B] {mine b : B} (h : mine = withSeal b .none) : Agrees mine b := by
  subst h
  refine ⟨(withSeal_withSeal b _ _).symm, fun hsealed => ?_⟩
  exact absurd (by rw [getSeal_withSeal]; rfl) hsealed

instance : RoundRel (KeptBlocks (P := P)) where
  refl := .refl
  trans := .trans
  sign _ _ _ := ⟨.refl _, .refl _⟩
  send _ _ := ⟨.refl _, .refl _⟩
  ds s b c hget hA := ⟨by rw [show s.currentDSBlock = some b from hget]; exact .of_some hA.1 hA.2, .refl _⟩
  final s b c hget hA := ⟨.refl _, by rw [show s.currentFinalBlock = some b from hget]; exact .of_some hA.1 hA.2⟩
  micro _ _ := ⟨.refl _, .refl _⟩
  vc _ _ := ⟨.refl _, .refl _⟩

/-- However the procedure ends, the relation holds. -/
abbrev Keeping {α : Type} (R : PeerServer P → PeerServer P → Prop) (x : NodeProc P α) : Prop := Proc.Moves R x

section
variable {R : PeerServer P → PeerServer P → Prop}

variable {α : Type} {x : NodeProc P α} {msg : Message}

theorem keeping_orFail {e : Err} (h : Keeping R x) : Keeping R (orFail e x) := h

variable [RoundRel R]

theorem Keeping.bind {β : Type} {f : α → NodeProc P β} (hx : Keeping R x)
    (hf : ∀ a, Keeping R (f a)) : Keeping R (x >>= f) := Proc.Moves.bind RoundRel.trans hx hf

theorem keeping_pure (a : α) : Keeping R (pure a : NodeProc P α) := Proc.Moves.pure RoundRel.refl a

theorem keeping_throw (e : Err) : Keeping R (.throw e : NodeProc P α) := Proc.Moves.throw RoundRel.refl e

theorem keeping_lift (y : Except Err α) : Keeping R (.lift y : NodeProc P α) :=
  Proc.Moves.lift RoundRel.refl y

theorem keeping_read (g : PeerServer P → α) : Keeping R (.read g : NodeProc P α) :=
  Proc.Moves.read RoundRel.refl g

theorem keeping_ensure (c : Prop) [Decidable c] (e : Err) : Keeping R (.ensure c e : NodeProc P PUnit) :=
  Proc.Moves.ensure RoundRel.refl c e

section

variable {B : Type} {slot : Slot P B} {A : B → B → Prop}

theorem keeping_current (slot : Slot P B) : Keeping R slot.current := fun _ => RoundRel.refl _

theorem keeping_modify (hslot : slot.Respects R A) {g : B → B} (hg : ∀ b, A b (g b)) : Keeping R (slot.modify g) := by
  intro s
  refine Slot.current_bind (Q := fun o => R s o.2) (fun _ => RoundRel.refl s) fun b hb => ?_
  exact hslot s b (g b) hb (hg b)

end

theorem keeping_blsSign {what : Signable} (h : ∀ b, what ≠ .finalBlock b) :
    Keeping R (blsSign what : NodeProc P P.bls.Sig) := by
  refine .bind (keeping_lift _) fun bytes => .bind (keeping_ensure _ _) fun _ => .bind ?_ fun _ => keeping_read _
  exact fun s => RoundRel.sign s what h

theorem keeping_signedMessage (type : MessageType) (payload : Bytes) :
    Keeping R (signedMessage type payload : NodeProc P Message) := by
  exact .bind (keeping_read _) fun _ => .bind (keeping_blsSign fun _ => nofun) fun _ => keeping_pure _

theorem keeping_send (m : Message) : Keeping R (send m : NodeProc P Unit) := fun s => RoundRel.send s _

theorem keeping_committeeSort : Keeping R (committeeSort : NodeProc P (List PeerEndpoint)) :=
  .bind (keeping_read _) fun _ => keeping_lift _

theorem keeping_inCommittee (type : ConsensusType) : Keeping R (inCommittee type : NodeProc P Bool) :=
  Proc.Moves.of_state RoundRel.refl fun s => congrArg Prod.snd (inCommittee_run type s)

/-! ### The handlers -/

theorem microSlot_respects : (microSlot P).Respects R Agrees := fun s _ c _ _ => RoundRel.micro s c

theorem vcSlot_respects : (vcSlot P).Respects R Agrees := fun s _ c _ _ => RoundRel.vc s c

theorem keeping_respondWith {B : Type} [SealedBlock B] {slot : Slot P B} (hslot : slot.Respects R Agrees) (c : Codec B)
    (what : B → Signable) (hwhat : ∀ b c, what b ≠ .finalBlock c) (type : ConsensusType) :
    Keeping R (respondWith P slot c what type) := by
  refine .bind (keeping_current slot) fun b => .bind (keeping_blsSign (hwhat b)) fun sign => .bind ?_ fun _ => ?_
  · exact keeping_modify hslot fun b => agrees_withSignature b _
  · exact .bind (keeping_current slot) fun b => keeping_signedMessage _ _

theorem keeping_answerFinal (sign : P.bls.Sig) : Keeping R (do
    (finalSlot P).modify (withSignature · (P.bls.serializeSig sign))
    let coinBase ← .read fun s => s.coinBase
    (finalSlot P).modify fun b => {b with header := {b.header with dsCoinBase := b.header.dsCoinBase ++ [coinBase]}}
    let b ← (finalSlot P).current
    signedMessage .consensusResponse (consensusPayload P .finalBlock (P.txBlock.marshal b))) :=
  .bind (keeping_modify RoundRel.final fun b => (agrees_withSignature b _).toFinal) fun _ =>
    .bind (keeping_read _) fun _ => .bind (keeping_modify RoundRel.final fun _ => ⟨rfl, id⟩) fun _ =>
    .bind (keeping_current _) fun _ => keeping_signedMessage _ _

theorem composeResponse_moves (type : ConsensusType) (s : PeerServer P)
    (hfinal : type = .finalBlock → ∀ b, s.currentFinalBlock = some b →
      R s {s with issued := .finalBlock b :: s.issued}) : R s (composeResponse P type s).2 := by
  cases type with
  | dsBlock => exact keeping_respondWith RoundRel.ds _ .dsBlock (fun _ _ => nofun) _ s
  | viewChange => exact keeping_respondWith vcSlot_respects _ .vcBlock (fun _ _ => nofun) _ s
  | finalBlock =>
    refine Slot.current_bind (Q := fun o => R s o.2) (fun _ => RoundRel.refl s) fun b hb => ?_
    unfold blsSign
    rw [bind_assoc]
    refine state_lift_bind (RoundRel.refl s) fun bytes _ => ?_
    rw [bind_assoc]
    refine state_ensure_bind (RoundRel.refl s) fun _ => ?_
    exact RoundRel.trans (hfinal rfl b hb) (keeping_answerFinal _ _)
  | microBlock => exact RoundRel.refl s
  | unknown n => exact RoundRel.refl s

theorem keeping_composeFinalResponse (type : ConsensusType) : Keeping R (composeFinalResponse P type) := by
  have hsign : ∀ {B : Type} [SealedBlock B] (slot : Slot P B), Keeping R (counterSign P slot type) := fun slot =>
    .bind (keeping_current slot) fun b => .bind (keeping_blsSign fun _ => nofun) fun sign2 => keeping_signedMessage _ _
  cases type with
  | dsBlock => exact hsign (dsSlot P)
  | finalBlock => exact hsign (finalSlot P)
  | viewChange => exact hsign (vcSlot P)
  | microBlock => exact keeping_throw _
  | unknown n => exact keeping_throw _

theorem keeping_verifyBlockSig1 (msg : Message) (type : ConsensusType) :
    Keeping R (verifyBlockSig1 msg type : NodeProc P Unit) := by
  have hcheck : ∀ {B : Type} [SealedBlock B] {A : B → B → Prop} {slot : Slot P B} {signed : B → Except Err Hash}
      {sig1 : P.bls.Sig} {multiPubkey : P.bls.PubKey} {signature : Bytes}, slot.Respects R A →
      (∀ b, A b (withSignature b signature)) → Keeping R (checkSig1 slot signed sig1 multiPubkey signature) := by
    intro B _ A slot signed sig1 multiPubkey signature hslot hA
    exact .bind (keeping_current slot) fun b => .bind (keeping_lift _) fun hash => .bind (keeping_lift _) fun verified =>
      .bind (keeping_ensure _ _) fun _ => keeping_modify hslot hA
  refine .bind (keeping_inCommittee type) fun committee => .bind (keeping_ensure _ _) fun _ =>
    .bind keeping_committeeSort fun sorted => .bind (keeping_lift _) fun payload => .bind (keeping_lift _) fun blockSig1 =>
    .bind (keeping_lift _) fun ⟨multiPubkey, counter⟩ => .bind (keeping_ensure _ _) fun _ =>
    .bind (keeping_lift _) fun sig1 => ?_
  cases type with
  | dsBlock => exact hcheck RoundRel.ds fun b => agrees_withSignature b _
  | finalBlock => exact hcheck RoundRel.final fun b => (agrees_withSignature b _).toFinal
  | viewChange => exact hcheck vcSlot_respects fun b => agrees_withSignature b _
  | microBlock => exact keeping_pure _
  | unknown n => exact keeping_pure _

theorem keeping_compareFinished {B : Type} [SealedBlock B] [DecidableEq B] {A : B → B → Prop} {slot : Slot P B} {b : B}
    (hslot : slot.Respects R A) (hA : ∀ {mine}, mine = withSeal b .none → A mine b) (signed : B → Except Err B)
    (members : List PeerEndpoint) : Keeping R (compareFinished slot signed members b) := by
  intro s
  have hs := RoundRel.refl (R := R) s
  refine Slot.current_bind (Q := fun o => R s o.2) (fun _ => hs) fun mine hmine => ?_
  refine state_ensure_bind hs fun hsame => ?_
  refine state_lift_bind hs fun _ _ => ?_
  refine state_lift_bind hs fun valid _ => ?_
  refine state_ensure_bind hs fun _ => ?_
  exact hslot s mine b hmine (hA hsame)

theorem keeping_checkFinished {B : Type} [SealedBlock B] [DecidableEq B] {slot : Slot P B}
    (hslot : slot.Respects R Agrees) (members : List PeerEndpoint) (b : B) : Keeping R (checkFinished slot members b) :=
  .bind (keeping_modify hslot fun b => agrees_withSignature b _) fun _ =>
    keeping_compareFinished hslot agrees_finished .ok members

theorem keeping_checkFinishedFinal (members : List PeerEndpoint) (b : TxBlock) :
    Keeping R (checkFinishedFinal members b : NodeProc P Unit) :=
  .bind (keeping_modify RoundRel.final fun b => (agrees_withSignature b _).toFinal) fun _ =>
    .bind (keeping_read _) fun _ => .bind (keeping_lift _) fun _ =>
    .bind (keeping_modify RoundRel.final fun _ => ⟨rfl, id⟩) fun _ => .bind (keeping_current _) fun _ =>
    .bind (keeping_read _) fun _ => .bind (keeping_lift _) fun _ =>
    .bind (keeping_modify RoundRel.final fun _ => ⟨rfl, id⟩) fun _ =>
    keeping_compareFinished RoundRel.final (fun h => (agrees_finished h).toFinal) cutCoinBase members

theorem keeping_verifyBlock (msg : Message) (type : ConsensusType) :
    Keeping R (verifyBlock msg type : NodeProc P Unit) := by
  intro s
  rw [verifyBlock_eq]
  refine state_lift_bind (RoundRel.refl s) fun ⟨expected, x⟩ _ => ?_
  have hvotes : ∀ {y : NodeProc P Unit} {c : Prop} [Decidable c] {e : Err}, Keeping R y →
      R s ((y >>= fun _ => .ensure c e) s).2 := fun hy => Keeping.bind hy (fun _ => keeping_ensure _ _) s
  cases x with
  | dsBlock members b => exact hvotes (keeping_checkFinished RoundRel.ds members b)
  | finalBlock members b => exact hvotes (keeping_checkFinishedFinal members b)
  | microBlock members b => exact hvotes (keeping_checkFinished microSlot_respects members b)
  | vcBlock members b => exact hvotes (keeping_checkFinished vcSlot_respects members b)
  | nothing => exact keeping_ensure _ _ s

/-! ### Announcements -/

/-- The message is an announcement from the leader whose block the node finds right. -/
def verifies (msg : Message) (sender : PeerEndpoint) (s : PeerServer P) : Prop :=
  s.leader.pubkey = sender.pubkey ∧ msg.type = .consensusAnnounce ∧ (authenticate msg s).1.isOk = true ∧
    (verifyAnnounced P msg s.currentType s).1.isOk = true

instance (msg : Message) (sender : PeerEndpoint) (s : PeerServer P) : Decidable (verifies msg sender s) := by
  unfold verifies
  infer_instance

/-- The node with the announced block as its current one. -/
def storing (msg : Message) (s : PeerServer P) : PeerServer P :=
  match s.currentType with
  | .dsBlock => {s with currentDSBlock := (announced P P.dsBlock msg).toOption}
  | .finalBlock => {s with currentFinalBlock := (announced P P.txBlock msg).toOption}
  | _ => s

theorem storing_ds {s : PeerServer P} {b : DSBlock} (htype : s.currentType = .dsBlock)
    (hb : announced P P.dsBlock msg = .ok b) : storing msg s = (dsSlot P).set b s := by
  unfold storing
  split
  · rw [hb]
    rfl
  · next h => exact nomatch htype.symm.trans h
  · next h _ => exact absurd htype h

theorem storing_final {s : PeerServer P} {b : TxBlock} (htype : s.currentType = .finalBlock)
    (hb : announced P P.txBlock msg = .ok b) : storing msg s = (finalSlot P).set b s := by
  unfold storing
  split
  · next h => exact nomatch htype.symm.trans h
  · rw [hb]
    rfl
  · next _ h => exact absurd htype h

theorem storing_other {s : PeerServer P} (hds : s.currentType ≠ .dsBlock)
    (hfinal : s.currentType ≠ .finalBlock) : storing msg s = s := by
  unfold storing
  split
  · next h => exact absurd h hds
  · next h => exact absurd h hfinal
  · rfl

/-- The current blocks an announcement leaves, before the node answers. -/
def stored (msg : Message) (sender : PeerEndpoint) (s : PeerServer P) : PeerServer P :=
  if verifies msg sender s then storing msg s else s

/-- What becomes of an announced block: it is refused and nothing changes, or it is stored. -/
inductive Stores {B : Type} (slot : Slot P B) (c : Codec B) (msg : Message) (s : PeerServer P) :
    Except Err Unit × PeerServer P → Prop
  | refused (e : Err) : Stores slot c msg s (.error e, s)
  | stored {b : B} (hb : announced P c msg = .ok b) : Stores slot c msg s (.ok ⟨⟩, slot.set b s)

theorem Stores.announced {B : Type} {slot : Slot P B} {c : Codec B} {s : PeerServer P}
    {o : Except Err Unit × PeerServer P} (h : Stores slot c msg s o) (hok : o.1.isOk = true) :
    ∃ b, announced P c msg = .ok b := by
  cases h with
  | refused e => exact nomatch hok
  | stored hb => exact ⟨_, hb⟩

section
variable (msg)

theorem verifyDSBlock_stores (s : PeerServer P) : Stores (dsSlot P) P.dsBlock msg s (verifyDSBlock P msg s) := by
  refine run_lift .refused fun b hb => ?_
  refine run_lift .refused fun _ _ => ?_
  exact .stored hb

theorem verifyFinalBlock_stores (s : PeerServer P) :
    Stores (finalSlot P) P.txBlock msg s (verifyFinalBlock P msg s) := by
  refine run_lift .refused fun b hb => ?_
  refine Slot.current_bind .refused fun mine _ => ?_
  refine run_ensure .refused fun _ => ?_
  refine run_ensure .refused fun _ => ?_
  refine run_ensure .refused fun _ => ?_
  refine run_ensure .refused fun _ => ?_
  refine run_ensure .refused fun _ => ?_
  refine run_ensure .refused fun _ => ?_
  refine run_ensure .refused fun _ => ?_
  exact .stored hb

theorem keeping_verifyVCBlock : Keeping R (verifyVCBlock P msg) := by
  exact .bind (keeping_lift _) fun b => .bind (keeping_read _) fun s => .bind (keeping_ensure _ _) fun _ =>
    .bind (keeping_ensure _ _) fun _ => .bind (keeping_ensure _ _) fun _ => .bind (keeping_ensure _ _) fun _ =>
    .bind (keeping_lift _) fun named => .bind (keeping_lift _) fun expected => .bind (keeping_ensure _ _) fun _ =>
    fun s => RoundRel.vc s b

/-- An announced block that is refused is not stored, and one that passes is. -/
theorem verifyAnnounced_stored (s : PeerServer P) :
    R (if (verifyAnnounced P msg s.currentType s).1.isOk then storing msg s else s)
      (verifyAnnounced P msg s.currentType s).2 := by
  cases htype : s.currentType with
  | dsBlock =>
    have hrun := verifyDSBlock_stores msg s
    show R (if (verifyDSBlock P msg s).1.isOk then _ else s) (verifyDSBlock P msg s).2
    generalize verifyDSBlock P msg s = o at hrun ⊢
    cases hrun with
    | refused e => exact RoundRel.refl s
    | stored hb =>
      rw [storing_ds htype hb]
      exact RoundRel.refl _
  | finalBlock =>
    have hrun := verifyFinalBlock_stores msg s
    show R (if (verifyFinalBlock P msg s).1.isOk then _ else s) (verifyFinalBlock P msg s).2
    generalize verifyFinalBlock P msg s = o at hrun ⊢
    cases hrun with
    | refused e => exact RoundRel.refl s
    | stored hb =>
      rw [storing_final htype hb]
      exact RoundRel.refl _
  | viewChange =>
    rw [storing_other (by simp [htype]) (by simp [htype]), ite_self]
    exact keeping_verifyVCBlock msg s
  | microBlock => exact RoundRel.refl s
  | unknown n => exact RoundRel.refl s

end

theorem verifyAnnounced_final {s t : PeerServer P} {u : Unit} {b : TxBlock}
    (hrun : verifyAnnounced P msg .finalBlock s = (.ok u, t)) (hb : t.currentFinalBlock = some b) :
    announced P P.txBlock msg = .ok b := by
  have hstores := verifyFinalBlock_stores msg s
  change verifyFinalBlock P msg s = _ at hrun
  rw [hrun] at hstores
  cases hstores with
  | stored hannounced =>
    cases hb
    exact hannounced

/-- The relation lets a node sign the final block that was announced to it. -/
def LetsSign (R : PeerServer P → PeerServer P → Prop) (msg : Message) (sender : PeerEndpoint) (s : PeerServer P) : Prop :=
  verifies msg sender s → s.currentType = .finalBlock → ∀ b, announced P P.txBlock msg = .ok b →
    ∀ t : PeerServer P, R t {t with issued := .finalBlock b :: t.issued}

theorem processMessageAnnounce_stored {sender : PeerEndpoint} {s : PeerServer P}
    (hleader : s.leader.pubkey = sender.pubkey) (htype : msg.type = .consensusAnnounce)
    (hsign : LetsSign R msg sender s) : R (stored msg sender s) (processMessageAnnounce msg s).2 := by
  have hstored : ∀ {auth : Bool}, (authenticate msg s).1.isOk = auth → stored msg sender s =
      if auth = true ∧ (verifyAnnounced P msg s.currentType s).1.isOk = true then storing msg s else s := by
    rintro _ rfl
    unfold stored verifies
    simp only [hleader, htype, true_and]
  refine run_bind (Q := fun o => R (stored msg sender s) o.2) (fun e t hauth => ?_) fun _ t hauth => ?_
  · obtain rfl : s = t := congrArg Prod.snd hauth
    rw [hstored (show _ = false by rw [hauth]; rfl)]
    exact RoundRel.refl s
  obtain rfl : s = t := congrArg Prod.snd hauth
  have hok : (authenticate msg s).1.isOk = true := by rw [hauth]; rfl
  rw [hstored hok, bind_read]
  simp only [true_and]
  have hverify := verifyAnnounced_stored (R := R) msg s
  refine state_bind hverify fun _ t hrun => ?_
  have hpassed := orFail_ok hrun
  have ht : (verifyAnnounced P msg s.currentType s).2 = t := congrArg Prod.snd hpassed
  refine RoundRel.trans (ht ▸ hverify) ?_
  have hresponse : R t (orFail (.consensus .composeMessage) (composeResponse P s.currentType) t).2 := by
    refine composeResponse_moves s.currentType t fun hfinal b hb => ?_
    have hverifies : verifies msg sender s := ⟨hleader, htype, hok, by rw [hpassed]; rfl⟩
    rw [hfinal] at hpassed
    exact hsign hverifies hfinal b (verifyAnnounced_final hpassed hb) t
  refine state_bind hresponse fun response v hv => ?_
  have hsent := keeping_send (R := R) response v
  have hv : (orFail (.consensus .composeMessage) (composeResponse P s.currentType) t).2 = v := congrArg Prod.snd hv
  exact RoundRel.trans (hv ▸ hresponse) hsent

/-- Whatever a node is sent, it is as before, or as with the block that was announced, but for what the round
fills in. -/
theorem processConsensusMsg_stored (msg : Message) (sender : PeerEndpoint) (s : PeerServer P)
    (hsign : LetsSign R msg sender s) : R (stored msg sender s) (processConsensusMsg msg sender s).2 := by
  have hother : ∀ {x : NodeProc P Unit}, Keeping R x → ¬verifies msg sender s → R (stored msg sender s) (x s).2 := by
    intro x hx hnot
    unfold stored
    rw [if_neg hnot]
    exact hx s
  unfold processConsensusMsg
  by_cases hleader : s.leader.pubkey = sender.pubkey
  · rw [bind_ensureState (c := fun s : PeerServer P => s.leader.pubkey = sender.pubkey) hleader]
    unfold handler
    cases htype : msg.type with
    | consensusAnnounce =>
      rw [dropError_state]
      exact processMessageAnnounce_stored hleader htype hsign
    | consensusFinalCollectiveSig =>
      rw [dropError_state]
      refine hother ?_ fun h => nomatch htype.symm.trans h.2.1
      exact .bind (keeping_lift _) fun _ => .bind (keeping_read _) fun type =>
        .bind (keeping_orFail (keeping_verifyBlockSig1 msg type)) fun _ =>
        .bind (keeping_orFail (keeping_composeFinalResponse type)) fun finalResponse => keeping_send finalResponse
    | consensusBroadCastBlock =>
      rw [dropError_state]
      refine hother ?_ fun h => nomatch htype.symm.trans h.2.1
      exact .bind (keeping_lift _) fun _ => .bind (keeping_read _) fun type =>
        keeping_orFail (keeping_verifyBlock msg type)
    | _ => exact hother (keeping_throw _) fun h => nomatch htype.symm.trans h.2.1
  · rw [bind_ensureState_not (c := fun s : PeerServer P => s.leader.pubkey = sender.pubkey) hleader]
    exact hother (keeping_throw (.consensus .incorrectMessageSource)) fun h => hleader h.1

end

/-! ### Runs of a backup -/

/-- A node, with the DS block and the final block it has last composed or verified. There is none when the node
has since taken over a finished block from elsewhere. -/
structure BackupLog (P : Platform) where
  node : PeerServer P
  dsBlock : Option DSBlock
  finalBlock : Option TxBlock

/-- The node is sent a message; an announced block that it verifies is noted. -/
def BackupLog.hear (l : BackupLog P) (msg : Message) (sender : PeerEndpoint) : BackupLog P where
  node := (processConsensusMsg msg sender l.node).2
  dsBlock := if verifies msg sender l.node ∧ l.node.currentType = .dsBlock then (announced P P.dsBlock msg).toOption
    else l.dsBlock
  finalBlock := if verifies msg sender l.node ∧ l.node.currentType = .finalBlock then
      (announced P P.txBlock msg).toOption
    else l.finalBlock

/-- The runs of a node as a DS backup. It is sent any messages in any order. It composes blocks of its own,
which become the current ones. As a member of another role, or after a restart, it takes over blocks that are
finished and carry a seal; one it takes over without a seal (the genesis block after a restart, a final block as an
idle node) counts as one of its own. Everything else it does leaves its current blocks as they are, up to what a round
fills in: a node may lead a round in between. -/
inductive BackupRun : BackupLog P → Prop
  | start {s : PeerServer P} (hds : ∀ b, s.currentDSBlock = some b → Sealed b)
      (hfinal : ∀ b, s.currentFinalBlock = some b → Sealed b) : BackupRun ⟨s, none, none⟩
  | message {l : BackupLog P} (h : BackupRun l) (msg : Message) (sender : PeerEndpoint) : BackupRun (l.hear msg sender)
  | composeDS {l : BackupLog P} (h : BackupRun l) (b : DSBlock) :
      BackupRun {l with node := (dsSlot P).set b l.node, dsBlock := some b}
  | composeFinal {l : BackupLog P} (h : BackupRun l) (b : TxBlock) :
      BackupRun {l with node := (finalSlot P).set b l.node, finalBlock := some b}
  | takeDS {l : BackupLog P} (h : BackupRun l) {b : DSBlock} (hb : Sealed b) :
      BackupRun {l with node := (dsSlot P).set b l.node, dsBlock := none}
  | takeFinal {l : BackupLog P} (h : BackupRun l) {b : TxBlock} (hb : Sealed b) :
      BackupRun {l with node := (finalSlot P).set b l.node, finalBlock := none}
  | other {l : BackupLog P} (h : BackupRun l) {s : PeerServer P} (hs : KeptBlocks l.node s) :
      BackupRun {l with node := s}

/-- Where the current block comes from: it is the one noted, or none is noted and it is sealed. -/
def Sourced {B : Type} [SealedBlock B] (f : B → B) : Option B → Option B → Prop
  | some c, current => current.map f = some (f c)
  | none, current => ∀ b, current = some b → Sealed b

theorem Sourced.kept {B : Type} [SealedBlock B] {f : B → B} {noted x y : Option B} (h : Sourced f noted x)
    (hkept : KeptAs f x y) : Sourced f noted y := by
  cases noted with
  | some c => exact hkept.same.trans h
  | none =>
    intro b hb
    have hsome : x.map f = some (f b) := by rw [← hkept.same, hb]; rfl
    obtain ⟨a, ha, -⟩ := Option.map_eq_some_iff.mp hsome
    obtain ⟨c, hc, hsealed⟩ := hkept.sealed ⟨a, ha, h a ha⟩
    obtain rfl : c = b := Option.some.inj (hc.symm.trans hb)
    exact hsealed

theorem Sourced.unsealed {B : Type} [SealedBlock B] {f : B → B} {noted : Option B} {b : B}
    (h : Sourced f noted (some b)) (hb : ¬Sealed b) : ∃ c, noted = some c ∧ f b = f c := by
  cases noted with
  | some c => exact ⟨c, rfl, Option.some.inj h⟩
  | none => exact absurd (h b rfl) hb

structure BackupLog.Sourced (l : BackupLog P) : Prop where
  ds : Consensus.Sourced bare l.dsBlock l.node.currentDSBlock
  final : Consensus.Sourced core l.finalBlock l.node.currentFinalBlock

theorem announced_of_verifies {msg : Message} {sender : PeerEndpoint} {s : PeerServer P} (h : verifies msg sender s) :
    (s.currentType = .dsBlock → ∃ b, announced P P.dsBlock msg = .ok b) ∧
      (s.currentType = .finalBlock → ∃ b, announced P P.txBlock msg = .ok b) := by
  obtain ⟨-, -, -, hok⟩ := h
  constructor <;> intro htype <;> rw [htype] at hok
  · exact (verifyDSBlock_stores msg s).announced hok
  · exact (verifyFinalBlock_stores msg s).announced hok

variable {l : BackupLog P}

theorem BackupLog.Sourced.hear (h : l.Sourced) (msg : Message) (sender : PeerEndpoint) :
    (l.hear msg sender).Sourced := by
  have hkept := processConsensusMsg_stored (R := KeptBlocks) msg sender l.node fun _ _ _ _ _ => ⟨.refl _, .refl _⟩
  have hstored : ({l.hear msg sender with node := stored msg sender l.node} : BackupLog P).Sourced := by
    unfold BackupLog.hear stored
    by_cases hv : verifies msg sender l.node
    · obtain ⟨hds, hfinal⟩ := announced_of_verifies hv
      unfold storing
      cases htype : l.node.currentType with
      | dsBlock =>
        obtain ⟨b, hb⟩ := hds htype
        simp only [hv, hb]
        exact ⟨rfl, h.final⟩
      | finalBlock =>
        obtain ⟨b, hb⟩ := hfinal htype
        simp only [hv, hb]
        exact ⟨h.ds, rfl⟩
      | _ =>
        simp only [hv]
        exact h
    · simp only [hv]
      exact h
  exact ⟨hstored.ds.kept hkept.ds, hstored.final.kept hkept.final⟩

theorem BackupRun.sourced (h : BackupRun l) : l.Sourced := by
  induction h with
  | start hds hfinal => exact ⟨hds, hfinal⟩
  | message _ msg sender ih => exact ih.hear msg sender
  | composeDS _ b ih => exact ⟨rfl, ih.final⟩
  | composeFinal _ b ih => exact ⟨ih.ds, rfl⟩
  | takeDS _ hb ih => exact ⟨fun c hc => Option.some.inj hc ▸ hb, ih.final⟩
  | takeFinal _ hb ih => exact ⟨ih.ds, fun c hc => Option.some.inj hc ▸ hb⟩
  | other _ hs ih => exact ⟨ih.ds.kept hs.ds, ih.final.kept hs.final⟩

/-- **The commitment theorem.** In every run, the block a backup completes a round with is the one it has last
composed or verified, but for the seal. In a final block the coinbases, the state root and the gas may differ as
well, and the state root and the gas are those of the backup's own execution. -/
theorem commits_verified {l : BackupLog P} (hrun : BackupRun l) {msg : Message} {t : PeerServer P}
    (hok : processMessageBroadCastBlock msg l.node = (.ok (), t)) :
    (l.node.currentType = .dsBlock → ∃ b c, t.currentDSBlock = some b ∧ l.dsBlock = some c ∧ bare b = bare c) ∧
    (l.node.currentType = .finalBlock → ∃ b c mine root gasUsed, t.currentFinalBlock = some b ∧
      l.finalBlock = some c ∧ core b = core c ∧ l.node.currentFinalBlock = some mine ∧
      calStateRoot P.toMachine l.node.headState (withCoinbasesOf b mine) = .ok (root, gasUsed) ∧
      b.header.stateRoot = root.bytes ∧ b.header.gasUsed = gasUsed) := by
  have hsourced := hrun.sourced
  obtain ⟨_, -, hok⟩ := lift_bind_ok.mp hok
  rw [bind_read] at hok
  have hverify := orFail_ok hok
  constructor
  · intro htype
    rw [htype] at hverify
    obtain ⟨payload, finished, sorted, -, -, -, hcheck, -⟩ := verifyBlock_dsBlock hverify
    obtain ⟨⟨mine, hmine, hsame⟩, rfl, -⟩ := checkFinished_ok dsSlot_lawful hcheck
    have hcurrent : l.node.currentDSBlock = some mine := hmine
    have hds := hsourced.ds
    rw [hcurrent] at hds
    have hunsealed : ¬Sealed mine := fun hsealed => by
      have := sealed_withSignature [] hsealed
      rw [hsame] at this
      exact this (congrArg Seal.boolMap (getSeal_withSeal finished.block Seal.none))
    obtain ⟨c, hc, hagree⟩ := hds.unsealed hunsealed
    refine ⟨finished.block, c, rfl, hc, ?_⟩
    rw [← hagree, ← bare_withSignature mine [], hsame]
    exact (withSeal_withSeal finished.block _ _).symm
  · intro htype
    rw [htype] at hverify
    obtain ⟨payload, finished, sorted, -, -, -, hcheck, -⟩ := verifyBlock_finalBlock hverify
    obtain ⟨⟨mine, root, gasUsed, hmine, hroot, hsame⟩, rfl, -⟩ := checkFinishedFinal_ok hcheck
    have hfinal := hsourced.final
    rw [hmine] at hfinal
    have hunsealed : ¬Sealed mine := fun hsealed => hsealed (congrArg (·.header.boolMap) hsame)
    obtain ⟨c, hc, hagree⟩ := hfinal.unsealed hunsealed
    refine ⟨finished.block, c, mine, root, gasUsed, rfl, hc, ?_, hmine, hroot, (congrArg (·.header.stateRoot) hsame).symm,
      (congrArg (·.header.gasUsed) hsame).symm⟩
    exact (congrArg core hsame).symm.trans hagree

/-- A backup that has composed the block itself completes the round of two members with it. -/
theorem commits_verified_pair : ∃ (l : BackupLog Platform.sample) (msg : Message) (t : PeerServer Platform.sample),
    BackupRun l ∧ processMessageBroadCastBlock msg l.node = (.ok (), t) ∧ l.node.currentType = .dsBlock ∧
      ∃ b c, t.currentDSBlock = some b ∧ l.dsBlock = some c ∧ bare b = bare c := by
  obtain ⟨b, d, hfresh, hd⟩ := exists_sample_block
  have hquorum : Quorum (Platform.sample.sortPeers twoMembers) fun _ => true := by
    have hall : (Platform.sample.sortPeers twoMembers).filter (fun _ => true) = Platform.sample.sortPeers twoMembers :=
      List.filter_eq_self.mpr fun _ _ => rfl
    have hlength : (Platform.sample.sortPeers twoMembers).length = 2 :=
      (Platform.sample.sortPeers_perm twoMembers).length_eq
    refine ⟨?_, fun hnil => ?_⟩
    · decide
    · rw [hall] at hnil
      rw [hnil] at hlength
      exact nomatch hlength
  have hnode : BackupRun ⟨(sampleNode 6 twoMembers).holding b, some b, none⟩ :=
    .composeDS (.start (s := sampleNode 6 twoMembers) (fun _ h => nomatch h) fun _ h => nomatch h) b
  have hcurrent : ((sampleNode 6 twoMembers).holding b).currentDSBlock = some (withSignature b []) := by
    rw [withSignature_nil hfresh]
    rfl
  have hrun := processMessageBroadCastBlock_run MultiSig.linear_complete sample_dsRoundTrip
    (sample_honest 5 twoMembers) rfl hd twoMembers_sorted
    (fun p hp => twoMembers_keyed (mem_sortedTwo hp)) hquorum hcurrent hquorum hfresh
  exact ⟨_, _, _, hnode, hrun, rfl, (commits_verified hnode hrun).1 rfl⟩

end Okchain.Consensus
