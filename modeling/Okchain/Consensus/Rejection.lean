import Okchain.Consensus.BackupStep
import Okchain.Consensus.Wire

/-! What a refused message leaves behind.

Neither handler restores what it has changed when a later check fails. A backup takes the signature out of its current
block, and puts the coinbases of the message and the result of an execution into its final block, before it compares.
A leader cuts the coinbases of its final block to two before it compares it with a response, and adds the coinbase of
the sender before it looks at the outcome of the signature check.
-/
namespace Okchain.Consensus
open Lib Proc Protos Core State List Except
open Platform (sample)
open Prod (fst snd)

variable {P : Platform}
variable {E : Env} {b : TxBlock} {type : ConsensusType}

structure SameBlocks (s t : PeerServer P) : Prop where
  ds : t.currentDSBlock = s.currentDSBlock
  final : t.currentFinalBlock = s.currentFinalBlock
  micro : t.currentMicroBlock = s.currentMicroBlock
  vc : t.currentVCBlock = s.currentVCBlock

theorem SameBlocks.refl (s : PeerServer P) : SameBlocks s s := ⟨rfl, rfl, rfl, rfl⟩

def Returned (e : Err) : Prop := ∀ p, e ≠ .panic p

/-! ### The backup -/

def Slot.Counts {B : Type} (slot : Slot P B) : Prop :=
  ∀ b s, SameBlocks s (slot.set b s) ↔ slot.get s = some b

theorem dsSlot_counts : (dsSlot P).Counts := fun _ _ => ⟨fun h => h.ds.symm, fun h => ⟨h.symm, rfl, rfl, rfl⟩⟩
theorem finalSlot_counts : (finalSlot P).Counts := fun _ _ =>
  ⟨fun h => h.final.symm, fun h => ⟨rfl, h.symm, rfl, rfl⟩⟩
theorem microSlot_counts : (microSlot P).Counts := fun _ _ =>
  ⟨fun h => h.micro.symm, fun h => ⟨rfl, rfl, h.symm, rfl⟩⟩
theorem vcSlot_counts : (vcSlot P).Counts := fun _ _ => ⟨fun h => h.vc.symm, fun h => ⟨rfl, rfl, rfl, h.symm⟩⟩

/-- The current block has no signature to lose and the finished block is refused. -/
def Slot.Untouched {B : Type} [SealedBlock B] (slot : Slot P B) (members : List PeerEndpoint) (b : B)
    (s : PeerServer P) : Prop :=
  ∀ mine, slot.get s = some mine → (getSeal mine).signature = [] ∧ ¬Finishes P.toEnv members mine b

/-- What the check of a final block writes before it fails was there before: no signature, the coinbases of the
message if they are right, and the result of the execution if there is one. -/
structure KeepsFinal (s : PeerServer P) (members : List PeerEndpoint) (mine b : TxBlock) : Prop where
  signature : mine.header.signature = []
  coinbases : checkCoinBase2 b members s.coinbaseByPubkey = .ok ⟨⟩ → mine.header.dsCoinBase = b.header.dsCoinBase
  result : checkCoinBase2 b members s.coinbaseByPubkey = .ok ⟨⟩ → ∀ root gasUsed,
    calStateRoot P.toMachine s.headState (withCoinbasesOf b mine) = .ok (root, gasUsed) →
      mine.header.stateRoot = root.bytes ∧ mine.header.gasUsed = gasUsed

/-- The finished block is refused, and what the check has written by then was there before. -/
def Finished.Untouched (s : PeerServer P) : Finished → Prop
  | .dsBlock members b => (dsSlot P).Untouched members b s
  | .finalBlock members b => ∀ mine, s.currentFinalBlock = some mine →
      KeepsFinal s members mine b ∧ ¬FinishesFinal s members mine b
  | .microBlock members b => (microSlot P).Untouched members b s
  | .vcBlock members b => (vcSlot P).Untouched members b s
  | .nothing => True

/-- A message that is refused at a backup leaves its blocks alone: it is refused before the current block is
looked at, or what is written to it was there before. -/
def BackupUntouched (s : PeerServer P) (msg : Message) (type : ConsensusType) : Prop :=
  ∀ expected x, examine s msg type = .ok (expected, x) → x.Untouched s

variable {B : Type} {members : List PeerEndpoint}

theorem withSignature_nil_iff [SealedBlock B] {b : B} : withSignature b [] = b ↔ (getSeal b).signature = [] := by
  constructor
  · intro h
    rw [← h]
    unfold withSignature
    rw [getSeal_withSeal]
  · intro h
    rw [← h]
    exact withSeal_getSeal b

theorem multiPubKey_ne_nil {boolMap : List Bool} {key : Bytes} {u : Unit}
    (h : blsMultiPubkeyVerify E boolMap members key = .ok u) : key ≠ [] := by
  rintro rfl
  obtain ⟨_, _, h⟩ := except_bind_ok.mp h
  exact nomatch h

/-- A block that finishes the current one carries a seal, the current one none. -/
theorem Compares.keys_ne [SealedBlock B] {signed : B → Except Err B} {mine b : B} (h : Compares E signed members mine b) :
    (getSeal mine).multiPubKey ≠ (getSeal b).multiPubKey := by
  rw [h.same]
  unfold bare
  rw [getSeal_withSeal]
  exact (multiPubKey_ne_nil h.key).symm

theorem Finishes.ne [SealedBlock B] {mine b : B} (h : Finishes E members mine b) : mine ≠ b := by
  rintro rfl
  have hne := h.keys_ne
  rw [getSeal_withSignature] at hne
  exact hne rfl

theorem FinishesFinal.ne {s : PeerServer P} {mine : TxBlock} (h : FinishesFinal s members mine b) : mine ≠ b := by
  rintro rfl
  obtain ⟨root, gasUsed, -, hcompares⟩ := h.compares
  exact hcompares.keys_ne rfl

section

variable {s t : PeerServer P} {e : Err} {members : List PeerEndpoint}

variable {B : Type} {slot : Slot P B} {c : Prop} {e' : Err}

/-- Common to all kinds: a block is put into the slot, whether the check that follows passes or not. -/
theorem sameBlocks_of_set (hcounts : slot.Counts) {mine b : B}
    (hmine : slot.get s = some mine) (ht : t = slot.set b s) : SameBlocks s t ↔ mine = b := by
  rw [ht, hcounts b s, hmine, Option.some.injEq]

/-- A check that puts the block of the message into the slot when it passes and `left` when it fails. -/
theorem checked_rejected [Decidable c] (hcounts : slot.Counts) {mine b left : B} (hmine : slot.get s = some mine)
    {check : NodeProc P Unit} {Good : Prop} (hne : Good → mine ≠ b)
    (haccepts : Good → check s = (.ok ⟨⟩, slot.set b s)) (hrefuses : ¬Good → ∃ e, check s = (.error e, slot.set left s))
    (h : (check >>= fun _ => .ensure c e') s = (.error e, t)) : SameBlocks s t ↔ left = mine ∧ ¬Good := by
  by_cases hgood : Good
  · rw [bind_run (haccepts hgood)] at h
    rw [sameBlocks_of_set hcounts hmine (ensure_state h)]
    exact ⟨fun heq => absurd heq (hne hgood), fun hno => absurd hgood hno.2⟩
  · obtain ⟨e'', hrun⟩ := hrefuses hgood
    rw [bind_eq_andThen, hrun] at h
    rw [sameBlocks_of_set hcounts hmine (congrArg snd h).symm, eq_comm]
    exact ⟨fun hleft => ⟨hleft, hgood⟩, And.left⟩

theorem conclude_rejected [SealedBlock B] [DecidableEq B] (hslot : slot.Lawful)
    (hcounts : slot.Counts) {b : B} [Decidable c]
    (h : (checkFinished slot members b >>= fun _ => .ensure c e') s = (.error e, t)) (he : Returned e) :
    SameBlocks s t ↔ slot.Untouched members b s := by
  unfold Slot.Untouched
  cases hmine : slot.get s with
  | none =>
    rw [bind_of_run (checkFinished_none hmine)] at h
    exact absurd (error.inj (congrArg fst h)).symm (he _)
  | some mine =>
    rw [checked_rejected hcounts hmine Finishes.ne (checkFinished_accepts hslot hmine)
      (checkFinished_refuses hslot hmine) h, withSignature_nil_iff]
    simp

theorem leftBehind_eq_iff {mine : TxBlock} : leftBehind s members b mine = mine ↔ KeepsFinal s members mine b := by
  have hcoinbases : withCoinbasesOf b mine = mine ↔
      mine.header.signature = [] ∧ mine.header.dsCoinBase = b.header.dsCoinBase := by
    constructor
    · intro h
      exact ⟨congrArg (·.header.signature) h.symm, congrArg (·.header.dsCoinBase) h.symm⟩
    · rintro ⟨hsig, hcoin⟩
      unfold withCoinbasesOf withDSCoinBase
      rw [withSignature_nil_iff.mpr hsig, ← hcoin]
  unfold leftBehind
  split
  · next e he =>
    have hno : ∀ {Q : Prop}, checkCoinBase2 b members s.coinbaseByPubkey = .ok ⟨⟩ → Q :=
      fun h => nomatch he.symm.trans h
    rw [withSignature_nil_iff]
    exact ⟨fun hsig => ⟨hsig, fun h => hno h, fun h => hno h⟩, KeepsFinal.signature⟩
  · next hok =>
    split
    · next e he =>
      rw [hcoinbases]
      exact ⟨fun h => ⟨h.1, fun _ => h.2, fun _ _ _ h => nomatch he.symm.trans h⟩, fun h => ⟨h.signature, h.coinbases hok⟩⟩
    · next root gasUsed hroot =>
      constructor
      · intro h
        refine ⟨congrArg (·.header.signature) h.symm, fun _ => congrArg (·.header.dsCoinBase) h.symm, fun _ r g hrg => ?_⟩
        obtain ⟨rfl, rfl⟩ := Prod.mk.inj (ok.inj (hroot.symm.trans hrg))
        exact ⟨congrArg (·.header.stateRoot) h.symm, congrArg (·.header.gasUsed) h.symm⟩
      · intro h
        obtain ⟨hstate, hgas⟩ := h.result hok root gasUsed hroot
        rw [hcoinbases.mpr ⟨h.signature, h.coinbases hok⟩]
        unfold withResult
        rw [← hstate, ← hgas]

theorem concludeFinal_rejected [Decidable c]
    (h : (checkFinishedFinal members b >>= fun _ => .ensure c e') s = (.error e, t)) (he : Returned e) :
    SameBlocks s t ↔ (Finished.finalBlock members b).Untouched s := by
  unfold Finished.Untouched
  cases hmine : s.currentFinalBlock with
  | none =>
    rw [bind_of_run (checkFinishedFinal_none hmine)] at h
    exact absurd (error.inj (congrArg fst h)).symm (he _)
  | some mine =>
    rw [checked_rejected finalSlot_counts hmine FinishesFinal.ne (checkFinishedFinal_accepts hmine)
      (checkFinishedFinal_refuses hmine) h, leftBehind_eq_iff]
    simp

theorem verifyBlock_rejected {msg : Message} (h : verifyBlock msg type s = (.error e, t)) (he : Returned e) :
    SameBlocks s t ↔ BackupUntouched s msg type := by
  rw [verifyBlock_eq] at h
  unfold BackupUntouched
  cases hexamine : examine s msg type with
  | error e' =>
    rw [hexamine] at h
    obtain rfl : s = t := congrArg snd h
    exact ⟨fun _ _ _ hno => (nomatch hno), fun _ => .refl s⟩
  | ok x =>
    obtain ⟨expected, x⟩ := x
    rw [bind_lift hexamine] at h
    have hone : (∀ expected' x', (.ok (expected, x) : Except Err (Int × Finished)) = .ok (expected', x') →
        x'.Untouched s) ↔ x.Untouched s := by
      constructor
      · exact fun hall => hall expected x rfl
      · rintro hx _ _ ⟨⟩
        exact hx
    rw [hone]
    cases x with
    | dsBlock members b => exact conclude_rejected dsSlot_lawful dsSlot_counts h he
    | finalBlock members b => exact concludeFinal_rejected h he
    | microBlock members b => exact conclude_rejected microSlot_lawful microSlot_counts h he
    | vcBlock members b => exact conclude_rejected vcSlot_lawful vcSlot_counts h he
    | nothing =>
      rw [ensure_state h]
      exact ⟨fun _ => trivial, fun _ => .refl s⟩

end

/-! ### The leader -/

/-- What a leader has read when it starts to write: the key and the coinbase of the sender, the block in the
response, and its own final block with the first coinbase in it. -/
structure Answer (P : Platform) where
  pub : P.bls.PubKey
  ptocoin : Bytes
  response : TxBlock
  mine : TxBlock
  first : Bytes

def cachedCoinBase (s : PeerServer P) (pub : P.bls.PubKey) : Except Err Bytes :=
  match s.coinbaseByPubkey (P.bls.serializePub pub) with
  | some ptocoin => .ok ptocoin
  | none => .error (.consensus .getCoinBase)

/-- The first part of `verifyAndUpdate` for a final block. -/
def readAnswer (s : PeerServer P) (msg : Message) : Except Err (Answer P) := do
  let pub ← namedKey P msg
  let payload ← P.payload.decode msg.payload
  let response ← P.txBlock.decode payload.msg
  let mine ← deref s.currentFinalBlock
  let ptocoin ← cachedCoinBase s pub
  let first ← index mine.header.dsCoinBase 0
  return ⟨pub, ptocoin, response, mine, first⟩

def Answer.asked (a : Answer P) : TxBlock := withDSCoinBase a.mine [a.first, a.ptocoin]

def Answer.grown (a : Answer P) : TxBlock := withDSCoinBase a.mine (a.mine.header.dsCoinBase ++ [a.ptocoin])

def Answer.check (a : Answer P) : LeadProc P Unit := do
  onPeer ((finalSlot P).modify (withDSCoinBase · [a.first, a.ptocoin]))
  .ensureState (fun s => (finalSlot P).get s.peer = some (withSignature a.response [])) (.consensus .verifyBlock)
  let sign ← .lift (readSig P.toEnv a.response.header.signature)
  let hash ← .lift ((withDSCoinBase a.response [a.first]).mHash P.toEnv)
  let ret ← .lift (blsVerify P.toEnv sign a.pub hash.bytes)
  onPeer ((finalSlot P).modify (withDSCoinBase · (a.mine.header.dsCoinBase ++ [a.ptocoin])))
  .ensure ret (.consensus .verifyMessage)
  .update fun s => s.noting a.pub sign

/-- A response that is refused leaves the blocks of the leader alone: it is not about a final block, or is
refused before anything is written, or the coinbases are cut to what they are. -/
def LeadUntouched (s : PeerServer P) (msg : Message) (type : ConsensusType) : Prop :=
  type = .finalBlock → ∀ a, readAnswer s msg = .ok a →
    a.mine.header.dsCoinBase = [a.first, a.ptocoin] ∧ a.mine ≠ withSignature a.response []

section

variable {s t : ConsensusLead P} {msg : Message} {e : Err} {a : Answer P}

theorem verifyAndUpdate_final (msg : Message) (s : ConsensusLead P) :
    verifyAndUpdate msg .finalBlock s = (Proc.lift (readAnswer s.peer msg) >>= Answer.check) s := by
  have hmine : onPeer (finalSlot P).current s = (deref s.peer.currentFinalBlock, s) := rfl
  unfold readAnswer namedKey
  rw [bind_assoc, lift_bind]
  refine lift_congr fun peer _ => ?_
  rw [lift_bind]
  refine lift_congr fun pub _ => ?_
  rw [lift_bind]
  refine lift_congr fun payload _ => ?_
  rw [lift_bind]
  refine lift_congr fun response _ => ?_
  rw [lift_bind]
  refine lift_congr fun mine _ => ?_
  rw [lift_bind]
  refine lift_congr fun ptocoin _ => ?_
  rw [lift_bind]
  exact lift_congr fun first _ => rfl

theorem readAnswer_mine {p : PeerServer P} (h : readAnswer p msg = .ok a) : p.currentFinalBlock = some a.mine := by
  unfold readAnswer at h
  simp only [except_bind_ok, deref_ok] at h
  obtain ⟨pub, -, payload, -, response, -, mine, hmine, ptocoin, -, first, -, h⟩ := h
  rw [hmine, ← ok.inj h]

theorem readSig_error {b : Bytes} (h : readSig E b = .error e) : ∃ p, e = .panic p := by
  unfold readSig at h
  split at h
  · exact ⟨_, (error.inj h).symm⟩
  · exact nomatch h

theorem blsVerify_error {sig : E.bls.Sig} {pub : E.bls.PubKey} {m : Bytes} (h : blsVerify E sig pub m = .error e) :
    ∃ p, e = .panic p := by
  unfold blsVerify at h
  split at h
  · exact ⟨_, (error.inj h).symm⟩
  · exact nomatch h

theorem txMHash_error (h : b.mHash E = .error e) : ∃ p, e = .panic p := by
  unfold TxBlock.mHash TxBlockHeader.hash TxBlockHeader.hashed at h
  cases hminer : b.header.miner with
  | none =>
    rw [hminer] at h
    exact ⟨_, (error.inj h).symm⟩
  | some m =>
    rw [hminer] at h
    exact nomatch h

/-- What the second part does: the block is compared, and on a match it has grown whatever the signature. -/
inductive Answered (s : ConsensusLead P) (a : Answer P) : Except Err Unit × ConsensusLead P → Prop
  | panicked (p : Panic) (t : ConsensusLead P) : Answered s a (.error (.panic p), t)
  | mismatched (h : a.asked ≠ withSignature a.response []) (e : Err) :
      Answered s a (.error e, {s with peer := (finalSlot P).set a.asked s.peer})
  | unsigned (h : a.asked = withSignature a.response []) (e : Err) :
      Answered s a (.error e, {s with peer := (finalSlot P).set a.grown s.peer})
  | counted (h : a.asked = withSignature a.response []) (sign : P.bls.Sig) :
      Answered s a (.ok ⟨⟩, ConsensusLead.noting {s with peer := (finalSlot P).set a.grown s.peer} a.pub sign)

theorem Answer.check_answered (hmine : s.peer.currentFinalBlock = some a.mine) : Answered s a (a.check s) := by
  unfold Answer.check
  rw [bind_run (onPeer_run ((finalSlot P).modify_run hmine))]
  by_cases hsame : a.asked = withSignature a.response []
  · rw [bind_ensureState (by exact congrArg some hsame)]
    -- what comes before the block grows can only panic
    refine run_lift_cases (fun e he => ?_) fun sign _ => ?_
    · obtain ⟨p, rfl⟩ := readSig_error he
      exact .panicked p _
    refine run_lift_cases (fun e he => ?_) fun hash _ => ?_
    · obtain ⟨p, rfl⟩ := txMHash_error he
      exact .panicked p _
    refine run_lift_cases (fun e he => ?_) fun ret _ => ?_
    · obtain ⟨p, rfl⟩ := blsVerify_error he
      exact .panicked p _
    refine run_ensure (fun e => .unsigned hsame e) fun _ => .counted hsame sign
  · rw [bind_ensureState_not (by exact fun h => hsame (Option.some.inj h))]
    exact .mismatched hsame _

theorem verifyAndUpdate_mismatched (hread : readAnswer s.peer msg = .ok a)
    (hdiff : a.asked ≠ withSignature a.response []) : verifyAndUpdate msg .finalBlock s =
      (.error (.consensus .verifyBlock), {s with peer := (finalSlot P).set a.asked s.peer}) := by
  have hmine : (finalSlot P).get s.peer = some a.mine := readAnswer_mine hread
  rw [verifyAndUpdate_final, bind_lift hread]
  exact (bind_run (onPeer_run ((finalSlot P).modify_run hmine))).trans
    (bind_ensureState_not fun h => hdiff (Option.some.inj h))

theorem grown_ne (a : Answer P) : a.grown ≠ a.mine := by
  intro h
  have hcoins : a.mine.header.dsCoinBase ++ [a.ptocoin] = a.mine.header.dsCoinBase :=
    congrArg (·.header.dsCoinBase) h
  simp at hcoins

theorem asked_eq_iff (a : Answer P) : a.asked = a.mine ↔ a.mine.header.dsCoinBase = [a.first, a.ptocoin] := by
  constructor
  · intro h
    rw [← h]
    rfl
  · intro h
    unfold Answer.asked withDSCoinBase
    rw [← h]

def FailedAt (s : ConsensusLead P) (o : Except Err Unit × ConsensusLead P) : Prop :=
  ∀ e t, o = (.error e, t) → t = s

theorem failedAt (s : ConsensusLead P) (e : Err) : FailedAt s (.error e, s) :=
  fun _ _ h => (congrArg snd h).symm

theorem verifyResponse_failedAt {B : Type} [SealedBlock B] [DecidableEq B] {slot : Slot P B} {c : Codec B}
    {bytes : Bytes} {pub : P.bls.PubKey} : FailedAt s (verifyResponse slot c bytes pub s) := by
  refine run_lift (failedAt s) fun b _ => ?_
  refine run_ensureState (failedAt s) fun _ => ?_
  refine run_lift (failedAt s) fun sign _ => ?_
  refine run_lift (failedAt s) fun hash _ => ?_
  refine run_lift (failedAt s) fun ret _ => ?_
  exact run_ensure (failedAt s) fun _ _ _ h => (nomatch congrArg fst h)

/-- Responses about other blocks are refused without a trace. -/
theorem verifyAndUpdate_failedAt (htype : type ≠ .finalBlock) : FailedAt s (verifyAndUpdate msg type s) := by
  refine run_lift (failedAt s) fun peer _ => ?_
  refine run_lift (failedAt s) fun pub _ => ?_
  refine run_lift (failedAt s) fun payload _ => ?_
  cases type with
  | dsBlock => exact verifyResponse_failedAt
  | finalBlock => exact absurd rfl htype
  | microBlock => exact verifyResponse_failedAt
  | viewChange => exact verifyResponse_failedAt
  | unknown n => exact failedAt s _

theorem verifyAndUpdate_rejected (h : verifyAndUpdate msg type s = (.error e, t)) (he : Returned e) :
    SameBlocks s.peer t.peer ↔ LeadUntouched s.peer msg type := by
  by_cases htype : type = .finalBlock
  · subst htype
    rw [verifyAndUpdate_final] at h
    cases hread : readAnswer s.peer msg with
    | error e' =>
      rw [hread] at h
      obtain rfl : s = t := congrArg snd h
      refine ⟨fun _ _ a ha => ?_, fun _ => .refl s.peer⟩
      rw [hread] at ha
      exact nomatch ha
    | ok a =>
      have hmine := readAnswer_mine hread
      have huntouched : LeadUntouched s.peer msg .finalBlock ↔
          a.asked = a.mine ∧ a.mine ≠ withSignature a.response [] := by
        unfold LeadUntouched
        rw [hread, asked_eq_iff]
        constructor
        · exact fun hall => hall rfl a rfl
        · rintro ha _ _ ⟨⟩
          exact ha
      rw [bind_lift hread] at h
      rw [huntouched]
      have hcases := a.check_answered hmine
      rw [h] at hcases
      cases hcases with
      | panicked p => exact absurd rfl (he p)
      | mismatched hdiff =>
        rw [sameBlocks_of_set finalSlot_counts hmine rfl, eq_comm]
        exact ⟨fun heq => ⟨heq, heq ▸ hdiff⟩, And.left⟩
      | unsigned hsame =>
        rw [sameBlocks_of_set finalSlot_counts hmine rfl]
        exact ⟨fun heq => absurd heq.symm (grown_ne a), fun hno => absurd (hno.1 ▸ hsame) hno.2⟩
  · rw [verifyAndUpdate_failedAt htype _ _ h]
    exact ⟨fun _ hfinal => absurd hfinal htype, fun _ => .refl s.peer⟩

end

/-! ### The coinbases the leader collects -/

/-- A leader that collects responses to its final block, with the key and the coinbase of each signer it has
counted. Every response it refuses leaves its blocks alone and no signer is counted twice; nothing else it does
changes the coinbases. -/
inductive Counting (own : Bytes) : ConsensusLead P → List (P.bls.PubKey × Bytes) → Prop
  | start {s : ConsensusLead P} {b : TxBlock} (hb : s.peer.currentFinalBlock = some b)
      (hown : b.header.dsCoinBase = [own]) : Counting own s []
  | counted {s t : ConsensusLead P} {signers : List (P.bls.PubKey × Bytes)} {msg : Message} {pub : P.bls.PubKey}
      {ptocoin : Bytes} (h : Counting own s signers) (hkey : namedKey P msg = .ok pub)
      (hcoin : cachedCoinBase s.peer pub = .ok ptocoin) (hnew : pub ∉ signers.map Prod.fst)
      (hrun : verifyAndUpdate msg .finalBlock s = (.ok ⟨⟩, t)) : Counting own t (signers ++ [(pub, ptocoin)])
  | refused {s t : ConsensusLead P} {signers : List (P.bls.PubKey × Bytes)} {msg : Message} {type : ConsensusType}
      {e : Err} (h : Counting own s signers) (huntouched : LeadUntouched s.peer msg type) (he : Returned e)
      (hrun : verifyAndUpdate msg type s = (.error e, t)) : Counting own t signers
  | other {s t : ConsensusLead P} {signers : List (P.bls.PubKey × Bytes)} (h : Counting own s signers)
      (hsame : t.peer.currentFinalBlock.map (·.header.dsCoinBase) =
        s.peer.currentFinalBlock.map (·.header.dsCoinBase)) : Counting own t signers

/-- The coinbases of the final block are the leader's own, then one for each signer counted. -/
structure OwnThenSigners (own : Bytes) (s : ConsensusLead P) (signers : List (P.bls.PubKey × Bytes)) : Prop where
  coinbases : s.peer.currentFinalBlock.map (·.header.dsCoinBase) = some (own :: signers.map Prod.snd)
  once : (signers.map Prod.fst).Nodup

section

variable {s t : ConsensusLead P} {msg : Message}

theorem verifyAndUpdate_counted {pub : P.bls.PubKey} {ptocoin : Bytes} {coinbase : List Bytes}
    (hkey : namedKey P msg = .ok pub) (hcoin : cachedCoinBase s.peer pub = .ok ptocoin)
    (hcoins : s.peer.currentFinalBlock.map (·.header.dsCoinBase) = some coinbase)
    (h : verifyAndUpdate msg .finalBlock s = (.ok ⟨⟩, t)) :
    t.peer.currentFinalBlock.map (·.header.dsCoinBase) = some (coinbase ++ [ptocoin]) := by
  rw [verifyAndUpdate_final] at h
  obtain ⟨a, hread, h⟩ := lift_bind_ok.mp h
  have hmine := readAnswer_mine hread
  have hcases := a.check_answered hmine
  rw [h] at hcases
  have hptocoin : a.ptocoin = ptocoin := by
    unfold readAnswer at hread
    simp only [except_bind_ok] at hread
    obtain ⟨pub', hkey', payload, -, response, -, mine, -, ptocoin', hcoin', first, -, ha⟩ := hread
    obtain rfl : pub = pub' := ok.inj (hkey.symm.trans hkey')
    rw [← ok.inj ha]
    exact ok.inj (hcoin'.symm.trans hcoin)
  rw [hmine] at hcoins
  obtain rfl : a.mine.header.dsCoinBase = coinbase := Option.some.inj hcoins
  cases hcases with
  | counted hsame sign => exact congrArg (fun c => some (a.mine.header.dsCoinBase ++ [c])) hptocoin

theorem Counting.ownThenSigners {own : Bytes} {signers : List (P.bls.PubKey × Bytes)} (h : Counting own s signers) :
    OwnThenSigners own s signers := by
  induction h with
  | start hb hown => exact ⟨by rw [hb]; exact congrArg some hown, nodup_nil⟩
  | @counted _ _ _ _ pub _ _ hkey hcoin hnew hrun ih =>
    refine ⟨?_, ?_⟩
    · rw [verifyAndUpdate_counted hkey hcoin ih.coinbases hrun, map_append]
      rfl
    · rw [map_append]
      refine nodup_append.mpr ⟨ih.once, nodup_singleton _, fun a ha b hb hab => hnew ?_⟩
      have hb : b = pub := mem_singleton.mp hb
      rwa [← hb, ← hab]
  | refused h huntouched he hrun ih =>
    have hsame := (verifyAndUpdate_rejected hrun he).mpr huntouched
    exact ⟨by rw [hsame.final]; exact ih.coinbases, ih.once⟩
  | other h hsame ih => exact ⟨hsame.trans ih.coinbases, ih.once⟩

end

/-- **The rejection theorem.** A response or a finished block that is refused leaves the current blocks as they
were exactly if what was written before the refusal had been there before. In a round where that is so, and no
signer is counted twice, the leader's coinbases are its own and one for each signer it has counted. -/
theorem rejected_unchanged_iff {P : Platform} :
    (∀ (msg : Message) (type : ConsensusType) (s t : ConsensusLead P) (e : Err),
      verifyAndUpdate msg type s = (.error e, t) → Returned e →
        (SameBlocks s.peer t.peer ↔ LeadUntouched s.peer msg type)) ∧
    (∀ (msg : Message) (type : ConsensusType) (s t : PeerServer P) (e : Err),
      verifyBlock msg type s = (.error e, t) → Returned e → (SameBlocks s t ↔ BackupUntouched s msg type)) ∧
    (∀ (own : Bytes) (s : ConsensusLead P) (signers : List (P.bls.PubKey × Bytes)),
      Counting own s signers → OwnThenSigners own s signers) :=
  ⟨fun _ _ _ _ _ h he => verifyAndUpdate_rejected h he, fun _ _ _ _ _ h he => verifyBlock_rejected h he,
    fun _ _ _ h => h.ownThenSigners⟩

/-! ### A response to another block -/

/-- A leader that has counted one signer, with the coinbase `[2]`; every other member has the coinbase `[3]`. -/
def countedOne : ConsensusLead Platform.sample :=
  newConsensusLead {sampleNode 5 [] with
    currentFinalBlock := some (withDSCoinBase (sampleBlock 1 []) [[1], [2]])
    coinbaseByPubkey := fun _ => some [3]} false

def strayResponse : Message :=
  ⟨.consensusResponse, none,
    consensusPayload Platform.sample .finalBlock (Platform.sample.txBlock.marshal (sampleBlock 2 [])), [],
    some (Chain.peerWithKey 6)⟩

def strayAnswer : Answer Platform.sample where
  pub := (Platform.sample.bls.deserializePub (Chain.peerWithKey 6).pubkey).getD 0
  ptocoin := [3]
  response := sampleBlock 2 []
  mine := withDSCoinBase (sampleBlock 1 []) [[1], [2]]
  first := [1]

theorem readAnswer_stray : readAnswer countedOne.peer strayResponse = .ok strayAnswer := by
  have hpayload : sample.payload.decode strayResponse.payload =
      .ok ⟨.finalBlock, sample.txBlock.marshal (sampleBlock 2 [])⟩ :=
    (Codec.numbered_roundTrip _).decode _
  have hblock : sample.txBlock.decode (sample.txBlock.marshal (sampleBlock 2 [])) =
      .ok (sampleBlock 2 []) := (Codec.numbered_roundTrip _).decode _
  have hpub : namedKey sample strayResponse = .ok strayAnswer.pub := by
    rfl
  exact except_bind_ok.mpr ⟨_, hpub, except_bind_ok.mpr ⟨_, hpayload, except_bind_ok.mpr ⟨_, hblock,
    except_bind_ok.mpr ⟨strayAnswer.mine, rfl, except_bind_ok.mpr ⟨[3], rfl,
      except_bind_ok.mpr ⟨[1], rfl, rfl⟩⟩⟩⟩⟩⟩

/-- The leader refuses the response and has lost the coinbase of the signer it counted. -/
theorem coinbase_lost : ∃ (msg : Message) (s t : ConsensusLead Platform.sample) (e : Err),
    verifyAndUpdate msg .finalBlock s = (.error e, t) ∧ Returned e ∧ ¬SameBlocks s.peer t.peer ∧
      s.peer.currentFinalBlock.map (·.header.dsCoinBase) = some [[1], [2]] ∧
      t.peer.currentFinalBlock.map (·.header.dsCoinBase) = some [[1], [3]] := by
  have hdiff : strayAnswer.asked ≠ withSignature strayAnswer.response [] := by
    intro h
    have hnumber : strayAnswer.asked.header.blockNumber = strayAnswer.response.header.blockNumber :=
      congrArg (fun b : TxBlock => b.header.blockNumber) h
    exact absurd hnumber (by decide)
  refine ⟨strayResponse, countedOne, _, _, verifyAndUpdate_mismatched readAnswer_stray hdiff, fun _ => nofun,
    fun hsame => ?_, rfl, rfl⟩
  have hcoins : some [[1], [3]] = some ([[1], [2]] : List Bytes) :=
    congrArg (Option.map fun b : TxBlock => b.header.dsCoinBase) hsame.final
  exact absurd hcoins (by decide)

end Okchain.Consensus
