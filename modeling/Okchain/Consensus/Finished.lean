import Okchain.Consensus.Backup

/-! `verifyBlock` in two halves.

The first half decodes the message and checks the signatures of the second round; it only reads the node (`examine`).
The second compares the finished block with the current one, which it rewrites on the way (`Finished.conclude`).
-/
namespace Okchain.Consensus
open Lib Proc Protos Core State
open Chain (getToleranceSize)

variable {P : Platform}

/-- A finished block with the members who were to sign it. -/
inductive Finished
  | dsBlock (members : List PeerEndpoint) (b : DSBlock)
  | finalBlock (members : List PeerEndpoint) (b : TxBlock)
  | microBlock (members : List PeerEndpoint) (b : MicroBlock)
  | vcBlock (members : List PeerEndpoint) (b : VCBlock)
  | nothing

/-! ### The first half -/

/-- `inCommittee`, as a function of the node. -/
def decidedByCommittee (s : PeerServer P) : ConsensusType → Except Err Bool
  | .dsBlock | .finalBlock => .ok true
  | .viewChange => do
    let b ← deref s.currentVCBlock
    return !(ofShard b.header.stage)
  | _ => .ok false

theorem inCommittee_run (type : ConsensusType) (s : PeerServer P) :
    inCommittee type s = (decidedByCommittee s type, s) := by
  cases type with
  | viewChange =>
    have hcurrent : (vcSlot P).current s = (deref s.currentVCBlock, s) := rfl
    show ((vcSlot P).current >>= fun b => pure !(ofShard b.header.stage)) s =
      (deref s.currentVCBlock >>= fun b => .ok !(ofShard b.header.stage), s)
    rw [bind_of_run hcurrent]
    cases deref s.currentVCBlock <;> rfl
  | _ => rfl

/-- `checkSig2`, which reads nothing of the node. -/
def sig2Check (E : Env) (sig2 : BoolMapSignature) (sorted : List PeerEndpoint) (signature : Bytes)
    (expected : Int) : Except Err Unit := do
  let multiSig2 ← deserializeSig E sig2.signature
  verifyMultiSignByBoolMap E sig2.boolMap sorted multiSig2 signature expected

theorem checkSig2_run (sig2 : BoolMapSignature) (sorted : List PeerEndpoint) (signature : Bytes) (expected : Int)
    (s : PeerServer P) :
    checkSig2 sig2 sorted signature expected s = (sig2Check P.toEnv sig2 sorted signature expected, s) := by
  unfold checkSig2 sig2Check
  cases deserializeSig P.toEnv sig2.signature <;> rfl

/-- Whose votes a message of the given type needs, and how many. -/
def electorate (s : PeerServer P) (type : ConsensusType) : Except Err (Bool × List PeerEndpoint × Int) := do
  let committee ← decidedByCommittee s type
  let sorted ← if committee then sortByPubkey P.toEnv s.committee else .ok []
  let expected ← if committee then .ok (getToleranceSize sorted.length) else expectedOfShard s
  return (committee, sorted, expected)

def readFinished (s : PeerServer P) (type : ConsensusType) (committee : Bool) (sorted : List PeerEndpoint)
    (expected : Int) (bytes : Bytes) : Except Err Finished :=
  match type with
  | .dsBlock => do
    let finished ← P.dsBlockWithSig2.decode bytes
    sig2Check P.toEnv finished.sig2 sorted finished.block.header.signature expected
    return .dsBlock sorted finished.block
  | .finalBlock => do
    let finished ← P.txBlockWithSig2.decode bytes
    sig2Check P.toEnv finished.sig2 sorted finished.block.header.signature expected
    return .finalBlock sorted finished.block
  | .microBlock => do
    let b ← P.microBlock.decode bytes
    return .microBlock s.shardingNodes b
  | .viewChange =>
    if committee then do
      let finished ← P.vcBlockWithSig2.decode bytes
      sig2Check P.toEnv finished.sig2 sorted finished.block.header.signature expected
      return .vcBlock (if ofShard finished.block.header.stage then s.shardingNodes else sorted) finished.block
    else do
      let b ← P.vcBlock.decode bytes
      return .vcBlock (if ofShard b.header.stage then s.shardingNodes else sorted) b
  | .unknown _ => .ok .nothing

/-- Everything `verifyBlock` does before it looks at the current block. -/
def examine (s : PeerServer P) (msg : Message) (type : ConsensusType) : Except Err (Int × Finished) := do
  let payload ← P.payload.decode msg.payload
  let (committee, sorted, expected) ← electorate s type
  let finished ← readFinished s type committee sorted expected payload.msg
  return (expected, finished)

/-! ### The second half -/

/-- The finished block against the current one, then the number of votes. -/
def Finished.conclude (expected : Int) : Finished → NodeProc P Unit
  | .dsBlock members b => do
    checkFinished (dsSlot P) members b
    .ensure (expected ≤ voteTickets b.header.boolMap) (.consensus .verifyBlock)
  | .finalBlock members b => do
    checkFinishedFinal members b
    .ensure (expected ≤ voteTickets b.header.boolMap) (.consensus .verifyBlock)
  | .microBlock members b => do
    checkFinished (microSlot P) members b
    .ensure (expected ≤ voteTickets b.header.boolMap) (.consensus .verifyBlock)
  | .vcBlock members b => do
    checkFinished (vcSlot P) members b
    .ensure (expected ≤ voteTickets b.header.boolMap) (.consensus .verifyBlock)
  | .nothing => .ensure (expected ≤ voteTickets []) (.consensus .verifyBlock)

section

variable {msg : Message} {s : PeerServer P}

variable {type : ConsensusType} {D : Type} {decoded : Except Err D} {goOn : D → NodeProc P Unit} {made : D → Finished}
  {conclude : Finished → NodeProc P Unit}

theorem electorate_committee (h : decidedByCommittee s type = .ok true) : electorate s type =
      sortByPubkey P.toEnv s.committee >>= fun sorted => .ok (true, sorted, getToleranceSize sorted.length) := by
  unfold electorate
  rw [h]
  rfl

theorem electorate_shard (h : decidedByCommittee s type = .ok false) :
    electorate s type = expectedOfShard s >>= fun expected => .ok (false, [], expected) := by
  unfold electorate
  rw [h]
  rfl

theorem decode_checkSig2 {sig2 : D → BoolMapSignature} {signature : D → Bytes}
    {sorted : List PeerEndpoint} {expected : Int}
    (h : ∀ d, goOn d s = conclude (made d) s) :
    (Proc.lift decoded >>= fun d =>
        checkSig2 (sig2 d) sorted (signature d) expected >>= fun _ => goOn d) s =
      (Proc.lift (decoded >>= fun d =>
        sig2Check P.toEnv (sig2 d) sorted (signature d) expected >>= fun _ => .ok (made d)) >>= conclude) s := by
  rw [lift_bind]
  refine lift_congr fun d _ => ?_
  rw [bind_of_run (checkSig2_run (sig2 d) sorted (signature d) expected s), lift_bind]
  exact lift_congr fun _ _ => h d

theorem decode_plain (h : ∀ d, goOn d s = conclude (made d) s) :
    (Proc.lift decoded >>= goOn) s = (Proc.lift (decoded >>= fun d => .ok (made d)) >>= conclude) s := by
  rw [lift_bind]
  exact lift_congr fun d _ => h d

theorem verifyBlock_eq (type : ConsensusType) : verifyBlock msg type s =
    (Proc.lift (examine s msg type) >>= fun x => x.2.conclude x.1) s := by
  have hsort : committeeSort s = (sortByPubkey P.toEnv s.committee, s) := rfl
  unfold examine
  rw [lift_bind]
  refine lift_congr fun payload _ => ?_
  rw [bind_of_run (inCommittee_run type s)]
  cases hcommittee : decidedByCommittee s type with
  | error e =>
    unfold electorate
    rw [hcommittee]
    rfl
  | ok committee =>
    rw [bind_lift rfl]
    cases committee with
    | true =>
      rw [electorate_committee hcommittee, bind_assoc, lift_bind]
      refine (bind_of_run hsort).trans (lift_congr fun sorted _ => ?_)
      show _ = (Proc.lift (readFinished s type true sorted (getToleranceSize sorted.length) payload.msg >>=
        fun finished => .ok (getToleranceSize sorted.length, finished)) >>= fun x => x.2.conclude x.1) s
      rw [lift_bind]
      cases type with
      | dsBlock => exact decode_checkSig2 fun _ => rfl
      | finalBlock => exact decode_checkSig2 fun _ => rfl
      | microBlock => exact decode_plain fun _ => rfl
      | viewChange => exact decode_checkSig2 fun _ => rfl
      | unknown n => rfl
    | false =>
      rw [electorate_shard hcommittee, bind_assoc, lift_bind]
      refine bind_read.trans (lift_congr fun expected _ => ?_)
      show _ = (Proc.lift (readFinished s type false [] expected payload.msg >>=
        fun finished => .ok (expected, finished)) >>= fun x => x.2.conclude x.1) s
      rw [lift_bind]
      cases type with
      | dsBlock => exact decode_checkSig2 fun _ => rfl
      | finalBlock => exact decode_checkSig2 fun _ => rfl
      | microBlock => exact decode_plain fun _ => rfl
      | viewChange => exact decode_plain fun _ => rfl
      | unknown n => rfl

end

/-! ### The finished block against the current one -/

/-- The finished block is the given one up to the seal, and its seal is good for what is signed. -/
structure Compares (E : Env) {B : Type} [SealedBlock B] (signed : B → Except Err B) (members : List PeerEndpoint)
    (mine b : B) : Prop where
  same : mine = bare b
  key : blsMultiPubkeyVerify E (getSeal b).boolMap members (getSeal b).multiPubKey = .ok ⟨⟩
  valid : (signed b >>= verifySeal E) = .ok true

/-- The finished block agrees with the current one up to the seal, and its seal is good. -/
def Finishes (E : Env) {B : Type} [SealedBlock B] (members : List PeerEndpoint) (mine b : B) : Prop :=
  Compares E .ok members (withSignature mine []) b

/-- The backup's own final block as it is compared: without signature, with the coinbases of the message. -/
def withCoinbasesOf (b mine : TxBlock) : TxBlock := withDSCoinBase (withSignature mine []) b.header.dsCoinBase

theorem cutHash_of_first {E : Env} {b : TxBlock} {first : Bytes} (h : index b.header.dsCoinBase 0 = .ok first) :
    cutHash E b = (withDSCoinBase b [first]).mHash E := by
  unfold cutHash cutCoinBase
  rw [h]
  rfl

/-- The final block with the state root and the gas of its execution. -/
def withResult (b : TxBlock) (root : Hash) (gasUsed : UInt64) : TxBlock :=
  {b with header := {b.header with stateRoot := root.bytes, gasUsed := gasUsed}}

/-- The same for a final block, which is compared after the coinbases of the message and the result of its own
execution have been filled in. -/
structure FinishesFinal (s : PeerServer P) (members : List PeerEndpoint) (mine b : TxBlock) : Prop where
  coinbases : checkCoinBase2 b members s.coinbaseByPubkey = .ok ⟨⟩
  compares : ∃ root gasUsed, calStateRoot P.toMachine s.headState (withCoinbasesOf b mine) = .ok (root, gasUsed) ∧
    Compares P.toEnv cutCoinBase members (withResult (withCoinbasesOf b mine) root gasUsed) b

/-- The final block that a check which fails leaves in its slot. -/
def leftBehind (s : PeerServer P) (members : List PeerEndpoint) (b mine : TxBlock) : TxBlock :=
  match checkCoinBase2 b members s.coinbaseByPubkey with
  | .error _ => withSignature mine []
  | .ok _ =>
    match calStateRoot P.toMachine s.headState (withCoinbasesOf b mine) with
    | .error _ => withCoinbasesOf b mine
    | .ok (root, gasUsed) => withResult (withCoinbasesOf b mine) root gasUsed

section

variable {s : PeerServer P} {members : List PeerEndpoint}

section
variable {B : Type} [SealedBlock B] [DecidableEq B] {slot : Slot P B} {mine b : B}

theorem checkFinished_none (h : slot.get s = none) :
    checkFinished slot members b s = (.error (.panic .nilDereference), s) := by
  unfold checkFinished Slot.modify
  rw [bind_assoc, bind_of_run (Slot.current_none h)]
  rfl

section
variable {signed : B → Except Err B} (hmine : slot.get s = some mine)
include hmine

theorem compareFinished_accepts (h : Compares P.toEnv signed members mine b) :
    compareFinished slot signed members b s = (.ok ⟨⟩, slot.set b s) :=
  (bind_run (slot.current_run hmine)).trans <| (bind_ensure h.same).trans <|
    (bind_lift (orError_ok.mpr h.key)).trans <| (bind_lift h.valid).trans <| bind_ensure rfl

theorem compareFinished_refuses (h : ¬Compares P.toEnv signed members mine b) :
    ∃ e, compareFinished slot signed members b s = (.error e, s) := by
  unfold compareFinished
  rw [bind_run (slot.current_run hmine)]
  let Q (o : Except Err Unit × PeerServer P) : Prop := ∃ e, o = (.error e, s)
  have hfail : ∀ e, Q (.error e, s) := fun e => ⟨e, rfl⟩
  refine run_ensure hfail fun hsame => ?_
  refine run_lift hfail fun _ hkey => ?_
  refine run_lift hfail fun valid hvalid => ?_
  refine run_ensure hfail fun htrue => ?_
  exact absurd ⟨hsame, orError_ok.mp hkey, htrue ▸ hvalid⟩ h

end

variable (hslot : slot.Lawful) (hmine : slot.get s = some mine)
include hslot hmine

theorem checkFinished_accepts (h : Finishes P.toEnv members mine b) :
    checkFinished slot members b s = (.ok ⟨⟩, slot.set b s) := by
  refine (bind_run (slot.modify_run hmine)).trans ((compareFinished_accepts (hslot.get_set _ _) h).trans ?_)
  exact congrArg (Prod.mk _) (hslot.set_set _ _ _)

theorem checkFinished_refuses (h : ¬Finishes P.toEnv members mine b) :
    ∃ e, checkFinished slot members b s = (.error e, slot.set (withSignature mine []) s) := by
  unfold checkFinished
  rw [bind_run (slot.modify_run hmine)]
  exact compareFinished_refuses (hslot.get_set _ _) h

end

theorem bind_orError {A B : Type} {y : Except Err A} {e e' : Err} {f : A → NodeProc P B} (h : y = .error e) :
    (Proc.lift (orError e' y) >>= f) s = (.error (e.replacedBy e'), s) := by
  rw [h, orError_error]
  rfl

section
variable {mine b : TxBlock}

theorem checkFinishedFinal_none (h : s.currentFinalBlock = none) :
    checkFinishedFinal members b s = (.error (.panic .nilDereference), s) := by
  unfold checkFinishedFinal Slot.modify
  rw [bind_assoc, bind_of_run (Slot.current_none h)]
  rfl

variable (hmine : s.currentFinalBlock = some mine)
include hmine

/-- When the coinbases are good and the block executes, what is left is the comparison. -/
theorem checkFinishedFinal_compares {root : Hash} {gasUsed : UInt64}
    (hcoinbases : checkCoinBase2 b members s.coinbaseByPubkey = .ok ⟨⟩)
    (hroot : calStateRoot P.toMachine s.headState (withCoinbasesOf b mine) = .ok (root, gasUsed)) :
    checkFinishedFinal members b s = compareFinished (finalSlot P) cutCoinBase members b
      ((finalSlot P).set (withResult (withCoinbasesOf b mine) root gasUsed) s) :=
  (bind_run ((finalSlot P).modify_run hmine)).trans <| bind_read.trans <|
    (bind_lift (orError_ok.mpr hcoinbases)).trans <|
    (bind_run ((finalSlot P).modify_run rfl)).trans <|
    (bind_run ((finalSlot P).current_run rfl)).trans <| bind_read.trans <|
    (bind_lift (orError_ok.mpr hroot)).trans <| bind_run ((finalSlot P).modify_run rfl)

theorem checkFinishedFinal_miscounts {e : Err} (h : checkCoinBase2 b members s.coinbaseByPubkey = .error e) :
    checkFinishedFinal members b s = (.error (e.replacedBy (.consensus .checkCoinBase)),
      (finalSlot P).set (withSignature mine []) s) :=
  (bind_run ((finalSlot P).modify_run hmine)).trans <| bind_read.trans <| bind_orError h

theorem checkFinishedFinal_fails {e : Err} (hcoinbases : checkCoinBase2 b members s.coinbaseByPubkey = .ok ⟨⟩)
    (hroot : calStateRoot P.toMachine s.headState (withCoinbasesOf b mine) = .error e) :
    checkFinishedFinal members b s = (.error (e.replacedBy (.consensus .calStateRoot)),
      (finalSlot P).set (withCoinbasesOf b mine) s) :=
  (bind_run ((finalSlot P).modify_run hmine)).trans <| bind_read.trans <|
    (bind_lift (orError_ok.mpr hcoinbases)).trans <|
    (bind_run ((finalSlot P).modify_run rfl)).trans <|
    (bind_run ((finalSlot P).current_run rfl)).trans <| bind_read.trans <| bind_orError hroot

theorem checkFinishedFinal_accepts (h : FinishesFinal s members mine b) :
    checkFinishedFinal members b s = (.ok ⟨⟩, (finalSlot P).set b s) := by
  obtain ⟨root, gasUsed, hroot, hcompares⟩ := h.compares
  rw [checkFinishedFinal_compares hmine h.coinbases hroot]
  exact compareFinished_accepts rfl hcompares

theorem checkFinishedFinal_refuses (h : ¬FinishesFinal s members mine b) :
    ∃ e, checkFinishedFinal members b s = (.error e, (finalSlot P).set (leftBehind s members b mine) s) := by
  unfold leftBehind
  cases hcoinbases : checkCoinBase2 b members s.coinbaseByPubkey with
  | error e => exact ⟨_, checkFinishedFinal_miscounts hmine hcoinbases⟩
  | ok _ =>
    cases hroot : calStateRoot P.toMachine s.headState (withCoinbasesOf b mine) with
    | error e => exact ⟨_, checkFinishedFinal_fails hmine hcoinbases hroot⟩
    | ok result =>
      obtain ⟨root, gasUsed⟩ := result
      rw [checkFinishedFinal_compares hmine hcoinbases hroot]
      exact compareFinished_refuses rfl fun hcompares => h ⟨hcoinbases, root, gasUsed, hroot, hcompares⟩

end

end

end Okchain.Consensus
