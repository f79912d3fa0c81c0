import Okchain.Consensus.Returns
import Okchain.Chain.Seal

/-! When the checks of a certificate return.

The bool maps and the coinbases in a message have any length its sender likes, the parent it names need not be
there, and a byte string can be empty. Some checks notice and return an error; others index, follow a pointer or
pass the address of the first byte, and panic. For each check the messages on which it returns are given exactly.
-/
namespace Okchain.Consensus
open Lib Protos Core State Option Except
open Proc hiding read
open Chain (getToleranceSize DSBlockChain Validator checkSeal verifySealBy sealHash)

variable {P : Platform}
variable {msg : Message} {key sig : Bytes} {V : Validator} {b : TxBlock} {bits : List Bool}
  {members sorted : List PeerEndpoint} {type : ConsensusType} {e : ConsensusErr} {expected : Int}

/-! ### A transaction block against the DS block it names -/

section

variable {E : Env}

/-- The seal of a block can be checked against the committee of `base`. -/
structure SealCovered (E : Env) (base : DSBlock) (b : TxBlock) : Prop where
  sortable : Sortable base.body.committee
  keys : KeySumCovered E b.header.boolMap (E.sortPeers base.body.committee) b.header.multiPubKey
  block : blsMultiPubkeyVerify E b.header.boolMap (E.sortPeers base.body.committee) b.header.multiPubKey = .ok ⟨⟩ →
    b.header.dsCoinBase ≠ [] ∧ b.header.miner.isSome = true ∧ b.header.signature ≠ []
  coinbases : ∀ first hash, blsMultiPubkeyVerify E b.header.boolMap (E.sortPeers base.body.committee)
      b.header.multiPubKey = .ok ⟨⟩ → index b.header.dsCoinBase 0 = .ok first →
    (withDSCoinBase b [first]).mHash E = .ok hash →
    verifyHash E hash.bytes b.header.signature b.header.multiPubKey = .ok true →
    CoinBasesCovered b (E.sortPeers base.body.committee) base.getCoinbaseByPubkey

theorem returns_verifyHash {msg : Hash} (hkey : key ≠ []) : Returns (verifyHash E msg.bytes sig key) ↔ sig ≠ [] := by
  unfold verifyHash
  rw [returns_bind, returns_deserializeSig]
  refine and_iff_left fun s _ => returns_bind.mpr ⟨returns_deserializePub.mpr hkey, fun pub _ => ?_⟩
  refine returns_bind.mpr ⟨returns_blsVerify.mpr (hash_ne_nil msg), fun valid _ => ?_⟩
  cases valid <;> simp

theorem sortByPubkey_of_sortable {ps : List PeerEndpoint} (h : Sortable ps) :
    sortByPubkey E ps = .ok (E.sortPeers ps) := by
  refine if_neg fun ⟨hlength, hshort⟩ => ?_
  obtain ⟨p, hp, hlt⟩ := List.any_eq_true.mp hshort
  exact absurd (h hlength p hp) (not_le.mpr (of_decide_eq_true hlt))

theorem verifyHash_true {msg : Bytes} {valid : Bool} (h : verifyHash E msg sig key = .ok valid) : valid = true := by
  obtain ⟨_, _, h⟩ := except_bind_ok.mp h
  obtain ⟨_, _, h⟩ := except_bind_ok.mp h
  obtain ⟨verified, _, h⟩ := except_bind_ok.mp h
  cases verified with
  | true => exact (ok.inj h).symm
  | false => exact nomatch h

end

theorem sealHash_of_first {first : Bytes} (h : index b.header.dsCoinBase 0 = .ok first) :
    sealHash V b = (withDSCoinBase b [first]).mHash V.machine.toEnv := by
  unfold sealHash Chain.TxBlock.cutCoinBase
  rw [h]
  rfl

theorem index_first {l : List Bytes} (h : l ≠ []) : ∃ first, index l 0 = .ok first := by
  cases l with
  | nil => exact absurd rfl h
  | cons first rest => exact ⟨first, rfl⟩

theorem returns_sealHash : Returns (sealHash V b) ↔ b.header.dsCoinBase ≠ [] ∧ b.header.miner.isSome = true := by
  by_cases hne : b.header.dsCoinBase = []
  · have hpanic : sealHash V b = .error (.panic .indexOutOfRange) := by
      unfold sealHash Chain.TxBlock.cutCoinBase
      rw [hne]
      rfl
    rw [hpanic]
    simp [hne]
  · obtain ⟨first, hfirst⟩ := index_first hne
    rw [sealHash_of_first hfirst, returns_mHash]
    exact (and_iff_right hne).symm

theorem sealHash_isOk (hne : b.header.dsCoinBase ≠ []) (h : Returns (sealHash V b)) :
    ∃ digest, sealHash V b = .ok digest := by
  obtain ⟨first, hfirst⟩ := index_first hne
  rw [sealHash_of_first hfirst] at h ⊢
  cases hhash : (withDSCoinBase b [first]).mHash V.machine.toEnv with
  | ok digest => exact ⟨digest, rfl⟩
  | error e =>
    obtain ⟨p, rfl⟩ := txMHash_error hhash
    exact absurd (h _ hhash) not_returned_panic

variable {E : Env} {committee : List PeerEndpoint} {mHash : Except Err Hash}

theorem returns_checkSeal : Returns (checkSeal E committee bits key sig mHash) ↔
      Sortable committee ∧ KeySumCovered E bits (E.sortPeers committee) key ∧
      (blsMultiPubkeyVerify E bits (E.sortPeers committee) key = .ok ⟨⟩ →
        Returns mHash ∧ ∀ digest, mHash = .ok digest → sig ≠ []) := by
  unfold checkSeal
  rw [returns_bind, returns_sortByPubkey]
  refine and_congr_right fun hsort => ?_
  rw [sortByPubkey_of_sortable hsort]
  simp only [ok.injEq, forall_eq']
  rw [returns_bind, returns_orError returned_chain, returns_blsMultiPubkeyVerify]
  refine and_congr_right fun _ => ?_
  simp only [orError_ok]
  rw [Unique.forall_iff]
  refine imp_congr_right fun hkeys => ?_
  rw [returns_bind]
  refine and_congr_right fun _ => forall_congr' fun digest => imp_congr_right fun _ => ?_
  rw [returns_bind, returns_orError returned_chain, returns_verifyHash (multiPubKey_ne_nil hkeys)]
  refine and_iff_left fun valid _ => ?_
  cases valid <;> simp

theorem checkSeal_sorted (hsort : Sortable committee) :
    checkSeal E committee bits key sig mHash = .ok sorted ↔ sorted = E.sortPeers committee ∧
      blsMultiPubkeyVerify E bits (E.sortPeers committee) key = .ok ⟨⟩ ∧
      ∃ digest, mHash = .ok digest ∧ verifyHash E digest.bytes sig key = .ok true := by
  unfold checkSeal
  simp only [except_bind_ok, orError_ok, sortByPubkey_of_sortable hsort, ok.injEq, exists_eq_left']
  constructor
  · rintro ⟨_, hkeys, digest, hdigest, valid, hvalid, h⟩
    obtain rfl := verifyHash_true hvalid
    exact ⟨(ok.inj h).symm, hkeys, digest, hdigest, hvalid⟩
  · rintro ⟨rfl, hkeys, digest, hdigest, hvalid⟩
    exact ⟨⟨⟩, hkeys, digest, hdigest, true, hvalid, rfl⟩

theorem returns_verifySealBy {base : DSBlock} :
    Returns (verifySealBy V base b) ↔ SealCovered V.machine.toEnv base b := by
  let E := V.machine.toEnv
  have hcoinbases : ∀ sorted, Returns (orError (.chain .checkCoinBase)
        (checkCoinBase2 b sorted base.getCoinbaseByPubkey) >>= fun _ =>
      if (b.getVoteTickets : Int) < getToleranceSize base.body.committee.length then
        (.error (.chain .bitmapTolerence) : Except Err Unit) else .ok ⟨⟩) ↔
      CoinBasesCovered b sorted base.getCoinbaseByPubkey := by
    intro sorted
    rw [returns_bind, returns_orError returned_chain, returns_checkCoinBase2]
    split <;> simp
  unfold verifySealBy
  rw [returns_bind, returns_checkSeal]
  constructor
  · rintro ⟨⟨hsort, hkeys, hblock⟩, hcoins⟩
    have hparts : blsMultiPubkeyVerify E b.header.boolMap (E.sortPeers base.body.committee)
        b.header.multiPubKey = .ok ⟨⟩ →
        b.header.dsCoinBase ≠ [] ∧ b.header.miner.isSome = true ∧ b.header.signature ≠ [] := by
      intro hsum
      obtain ⟨hhash, hsig⟩ := hblock hsum
      obtain ⟨hfirst, hminer⟩ := returns_sealHash.mp hhash
      obtain ⟨digest, hdigest⟩ := sealHash_isOk hfirst hhash
      exact ⟨hfirst, hminer, hsig digest hdigest⟩
    refine ⟨hsort, hkeys, hparts, fun first hash hsum hfirst hhash hvalid => ?_⟩
    refine (hcoinbases _).mp (hcoins _ ((checkSeal_sorted hsort).mpr ⟨rfl, hsum, hash, ?_, hvalid⟩))
    rw [sealHash_of_first hfirst]
    exact hhash
  · intro h
    refine ⟨⟨h.sortable, h.keys, fun hsum => ?_⟩, fun sorted hchecked => (hcoinbases sorted).mpr ?_⟩
    · obtain ⟨hfirst, hminer, hsig⟩ := h.block hsum
      exact ⟨returns_sealHash.mpr ⟨hfirst, hminer⟩, fun _ _ => hsig⟩
    · obtain ⟨rfl, hsum, hash, hhash, hvalid⟩ := (checkSeal_sorted h.sortable).mp hchecked
      obtain ⟨first, hfirst⟩ := index_first (h.block hsum).1
      rw [sealHash_of_first hfirst] at hhash
      exact h.coinbases first hash hsum hfirst hhash hvalid

/-- `VerifySeal` returns: the block is one of the first, or its DS block is not there to check against, or the seal
can be checked. -/
def VerifySealCovered (V : Validator) (b : TxBlock) : Prop :=
  ∀ ds base, 1 < b.header.blockNumber → 1 ≤ b.header.dsBlockNum → V.dsBC = some ds → V.signer = true →
    ds.getBlockByNumber b.header.dsBlockNum = some base → SealCovered V.machine.toEnv base b

theorem returns_chainVerifySeal : Returns (Chain.verifySeal V b) ↔ VerifySealCovered V b := by
  unfold Chain.verifySeal VerifySealCovered
  by_cases hgate : 1 < b.header.blockNumber ∧ 1 ≤ b.header.dsBlockNum
  · rw [if_pos hgate]
    cases hds : V.dsBC with
    | none => simp
    | some ds =>
      cases hsigner : V.signer with
      | false => simp
      | true =>
        cases hbase : ds.getBlockByNumber b.header.dsBlockNum with
        | none =>
          refine iff_of_true (by simp [hbase]) ?_
          rintro _ _ _ _ ⟨⟩ _ hsome
          rw [hbase] at hsome
          exact nomatch hsome
        | some base =>
          simp only [hbase, Bool.not_true, Bool.false_eq_true, if_false]
          rw [returns_verifySealBy]
          constructor
          · rintro h _ _ _ _ ⟨⟩ _ hsome
            rw [hbase] at hsome
            cases hsome
            exact h
          · exact fun h => h ds base hgate.1 hgate.2 rfl trivial hbase
  · rw [if_neg hgate]
    exact iff_of_true (returns_ok _) fun _ _ hn hd => absurd ⟨hn, hd⟩ hgate

/-! ### A DS block against the committee of its parent -/

/-- `VerifyDSBlockMultiSign2`. The parent is not checked for before it is used. -/
def verifyDSBlockMultiSign2 (E : Env) (dsBlockChain : DSBlockChain) (dsBlockSign2 : DSBlockWithSig2) :
    Except Err Unit :=
  let dsblock := dsBlockSign2.block
  if 1 < dsblock.header.blockNumber then do
    let parent ← deref (dsBlockChain.getBlock dsblock.parentHash (dsblock.header.blockNumber - 1))
    let sorted ← sortByPubkey E parent.body.committee
    sig2Check E dsBlockSign2.sig2 sorted dsblock.header.signature (getToleranceSize sorted.length)
  else .ok ⟨⟩

/-- The parent is known and its committee can check the signatures. -/
def ParentCovered (E : Env) (dsBlockChain : DSBlockChain) (b : DSBlockWithSig2) : Prop :=
  1 < b.block.header.blockNumber →
    ∃ parent, dsBlockChain.getBlock b.block.parentHash (b.block.header.blockNumber - 1) = some parent ∧
      Sortable parent.body.committee ∧ Sig2Covered E b.sig2 (E.sortPeers parent.body.committee)
        b.block.header.signature (getToleranceSize (E.sortPeers parent.body.committee).length)

theorem returns_verifyDSBlockMultiSign2 {dsBlockChain : DSBlockChain} {b : DSBlockWithSig2} :
    Returns (verifyDSBlockMultiSign2 E dsBlockChain b) ↔ ParentCovered E dsBlockChain b := by
  unfold verifyDSBlockMultiSign2 ParentCovered
  by_cases hnumber : 1 < b.block.header.blockNumber
  · simp only [hnumber, if_true, forall_const]
    rw [returns_bind, returns_deref]
    cases hparent : dsBlockChain.getBlock b.block.parentHash (b.block.header.blockNumber - 1) with
    | none => simp
    | some parent =>
      have hderef : (deref (some parent) : Except Err DSBlock) = .ok parent := rfl
      simp only [isSome_some, hderef, ok.injEq, forall_eq', true_and, some.injEq, exists_eq_left']
      rw [returns_bind, returns_sortByPubkey]
      refine and_congr_right fun hsort => ?_
      rw [sortByPubkey_of_sortable hsort]
      simp only [ok.injEq, forall_eq']
      exact returns_sig2Check
  · simp [hnumber]

/-! ### The first signature round -/

theorem returns_decidedByCommittee {s : PeerServer P} :
    Returns (decidedByCommittee s type) ↔ (type = .viewChange → s.currentVCBlock.isSome = true) := by
  cases type with
  | viewChange =>
    unfold decidedByCommittee
    rw [returns_bind]
    simp
  | _ => simp [decidedByCommittee]

/-- The current block is there and has the hash that is signed. -/
def CurrentCovered (s : PeerServer P) : ConsensusType → Prop
  | .dsBlock => ∃ b, s.currentDSBlock = some b ∧ Returns (digest P.toEnv b)
  | .finalBlock => ∃ b, s.currentFinalBlock = some b ∧ b.header.dsCoinBase ≠ [] ∧ b.header.miner.isSome = true
  | .viewChange => ∃ b, s.currentVCBlock = some b ∧ Returns (digest P.toEnv b)
  | _ => True

/-- `verifyBlockSig1` returns. Whatever the number of members, a set bit past the last one is not noticed. -/
structure Sig1Covered (s : PeerServer P) (msg : Message) (type : ConsensusType) : Prop where
  stage : type = .viewChange → s.currentVCBlock.isSome = true
  sortable : decidedByCommittee s type = .ok true → Sortable s.committee
  bits : ∀ payload blockSig1, decidedByCommittee s type = .ok true →
    P.payload.decode msg.payload = .ok payload → P.boolMapSignature.decode payload.msg = .ok blockSig1 →
    BitsCovered blockSig1.boolMap (P.sortPeers s.committee)
  signature : ∀ payload blockSig1, decidedByCommittee s type = .ok true →
    P.payload.decode msg.payload = .ok payload → P.boolMapSignature.decode payload.msg = .ok blockSig1 →
    getToleranceSize (P.sortPeers s.committee).length ≤ voteTickets blockSig1.boolMap →
    blockSig1.signature ≠ [] ∧ ((P.bls.deserializeSig blockSig1.signature).isSome = true → CurrentCovered s type)

section

variable {s : PeerServer P}

variable {B σ : Type} {slot : Slot P B} {sig1 : P.bls.Sig} {multiPubkey : P.bls.PubKey} {signature bytes : Bytes}
  {E : Env} {t : σ}

theorem returns_checkSig1 [SealedBlock B] {signed : B → Except Err Hash} :
    Returns (checkSig1 slot signed sig1 multiPubkey signature s).1 ↔
      ∃ b, slot.get s = some b ∧ Returns (signed b) := by
  have hcurrent : slot.current s = (deref (slot.get s), s) := rfl
  unfold checkSig1
  rw [bind_of_run hcurrent, returns_lift_bind, returns_deref]
  cases hget : slot.get s with
  | none => simp
  | some b =>
    have hderef : (deref (some b) : Except Err B) = .ok b := rfl
    simp only [isSome_some, hderef, ok.injEq, forall_eq', true_and, some.injEq, exists_eq_left']
    rw [returns_lift_bind]
    refine and_iff_left fun hash _ => ?_
    rw [returns_lift_bind]
    refine ⟨returns_blsVerify.mpr (hash_ne_nil hash), fun verified _ => ?_⟩
    rw [returns_ensure_bind returned_consensus]
    intro _
    rw [slot.modify_run hget]
    exact returns_ok _

theorem returns_cutHash : Returns (cutHash E b) ↔ b.header.dsCoinBase ≠ [] ∧ b.header.miner.isSome = true := by
  by_cases hne : b.header.dsCoinBase = []
  · have hpanic : cutHash E b = .error (.panic .indexOutOfRange) := by
      unfold cutHash cutCoinBase
      rw [hne]
      rfl
    rw [hpanic]
    simp [hne]
  · obtain ⟨first, hfirst⟩ := index_first hne
    rw [cutHash_of_first hfirst]
    exact returns_mHash.trans (and_iff_right hne).symm

theorem returns_checkCurrentSig1 (type : ConsensusType) :
    Returns (checkCurrentSig1 type sig1 multiPubkey signature s).1 ↔ CurrentCovered s type := by
  cases type with
  | dsBlock => exact returns_checkSig1
  | finalBlock =>
    refine returns_checkSig1.trans (exists_congr fun b => and_congr_right fun _ => ?_)
    exact returns_cutHash
  | viewChange => exact returns_checkSig1
  | microBlock => exact iff_of_true (returns_ok _) trivial
  | unknown n => exact iff_of_true (returns_ok _) trivial

theorem returns_checkBlockSig1 : Returns (checkBlockSig1 sorted msg type s).1 ↔
      ∀ payload, P.payload.decode msg.payload = .ok payload →
      ∀ blockSig1, P.boolMapSignature.decode payload.msg = .ok blockSig1 →
      BitsCovered blockSig1.boolMap sorted ∧ (getToleranceSize sorted.length ≤ voteTickets blockSig1.boolMap →
        blockSig1.signature ≠ [] ∧
          ((P.bls.deserializeSig blockSig1.signature).isSome = true → CurrentCovered s type)) := by
  unfold checkBlockSig1
  rw [returns_lift_bind, and_iff_right (returns_decode _ _)]
  refine forall_congr' fun payload => imp_congr_right fun _ => ?_
  rw [returns_lift_bind, and_iff_right (returns_decode _ _)]
  refine forall_congr' fun blockSig1 => imp_congr_right fun _ => ?_
  rw [returns_lift_bind, returns_sumByBoolMap]
  refine and_congr_right fun hbits => ?_
  obtain ⟨total, hsum⟩ := sumByBoolMap_covered hbits
  rw [hsum]
  simp only [ok.injEq, forall_eq']
  rw [returns_ensure_bind returned_consensus]
  refine imp_congr_right fun _ => ?_
  rw [returns_lift_bind, returns_orError returned_consensus, returns_deserializeSig]
  refine and_congr_right fun hne => ?_
  simp only [orError_ok]
  constructor
  · intro h hsome
    obtain ⟨sig1, hsig1⟩ := deserializeSig_isOk.mpr ⟨hne, hsome⟩
    exact (returns_checkCurrentSig1 type).mp (h sig1 hsig1)
  · intro h sig1 hsig1
    exact (returns_checkCurrentSig1 type).mpr (h (deserializeSig_isOk.mp ⟨sig1, hsig1⟩).2)

theorem returns_verifyBlockSig1 : Returns (verifyBlockSig1 msg type s).1 ↔ Sig1Covered s msg type := by
  have hsort : committeeSort s = (sortByPubkey P.toEnv s.committee, s) := rfl
  have hcommittee : ∀ committee : Bool, Returns ((Proc.ensure committee (.consensus .cannotProcessType) >>= fun _ =>
      committeeSort >>= fun sorted => checkBlockSig1 sorted msg type) s).1 ↔
      (committee = true → Sortable s.committee ∧
        Returns (checkBlockSig1 (P.sortPeers s.committee) msg type s).1) := by
    intro committee
    rw [returns_ensure_bind returned_consensus]
    refine imp_congr_right fun _ => ?_
    rw [bind_of_run hsort, returns_lift_bind, returns_sortByPubkey]
    refine and_congr_right fun hsortable => ?_
    rw [sortByPubkey_of_sortable hsortable]
    simp
  unfold verifyBlockSig1
  rw [bind_of_run (inCommittee_run type s), returns_lift_bind, returns_decidedByCommittee]
  simp only [hcommittee, returns_checkBlockSig1]
  constructor
  · rintro ⟨hstage, h⟩
    exact ⟨hstage, fun hd => (h true hd rfl).1,
      fun payload blockSig1 hd hp hb => ((h true hd rfl).2 payload hp blockSig1 hb).1,
      fun payload blockSig1 hd hp hb => ((h true hd rfl).2 payload hp blockSig1 hb).2⟩
  · intro h
    refine ⟨h.stage, fun committee hd htrue => ?_⟩
    subst htrue
    exact ⟨h.sortable hd, fun payload hp blockSig1 hb =>
      ⟨h.bits payload blockSig1 hd hp hb, h.signature payload blockSig1 hd hp hb⟩⟩

/-! ### The finished block -/

/-- The block in the slot can be compared with the finished one, and if they agree the seal can be checked. -/
structure SlotCovered {B : Type} [SealedBlock B] (slot : Slot P B) (members : List PeerEndpoint) (b : B)
    (s : PeerServer P) : Prop where
  current : (slot.get s).isSome = true
  agreed : ∀ mine, slot.get s = some mine → withSignature mine [] = bare b →
    KeySumCovered P.toEnv (getSeal b).boolMap members (getSeal b).multiPubKey ∧
    (blsMultiPubkeyVerify P.toEnv (getSeal b).boolMap members (getSeal b).multiPubKey = .ok ⟨⟩ →
      (getSeal b).signature ≠ [] ∧ Returns (digest P.toEnv b))

theorem returns_compareFinished [SealedBlock B] [DecidableEq B] {signed : B → Except Err B} {mine b : B} {Covered : Prop}
    (hmine : slot.get s = some mine)
    (hvalid : (getSeal b).multiPubKey ≠ [] → (Returns (signed b >>= verifySeal P.toEnv) ↔ Covered)) :
    Returns (compareFinished slot signed members b s).1 ↔ (mine = bare b →
      KeySumCovered P.toEnv (getSeal b).boolMap members (getSeal b).multiPubKey ∧
      (blsMultiPubkeyVerify P.toEnv (getSeal b).boolMap members (getSeal b).multiPubKey = .ok ⟨⟩ → Covered)) := by
  unfold compareFinished
  rw [bind_run (slot.current_run hmine), returns_ensure_bind returned_consensus]
  refine imp_congr_right fun _ => ?_
  rw [returns_lift_bind, returns_orError returned_consensus, returns_blsMultiPubkeyVerify, Unique.forall_iff,
    orError_ok]
  refine and_congr_right fun _ => imp_congr_right fun hkeys => ?_
  rw [returns_lift_bind, hvalid (multiPubKey_ne_nil hkeys)]
  refine and_iff_left fun valid _ => ?_
  rw [returns_ensure_bind returned_consensus]
  exact fun _ => returns_ok _

theorem returns_checkFinished [SealedBlock B] [DecidableEq B] (hslot : slot.Lawful) {b : B} :
    Returns (checkFinished slot members b s).1 ↔ SlotCovered slot members b s := by
  cases hget : slot.get s with
  | none =>
    rw [checkFinished_none hget]
    refine iff_of_false (fun h => not_returned_panic (returns_error.mp h)) fun h => ?_
    have hsome := h.current
    rw [hget] at hsome
    exact nomatch hsome
  | some mine =>
    have hone : SlotCovered slot members b s ↔ (withSignature mine [] = bare b →
        KeySumCovered P.toEnv (getSeal b).boolMap members (getSeal b).multiPubKey ∧
        (blsMultiPubkeyVerify P.toEnv (getSeal b).boolMap members (getSeal b).multiPubKey = .ok ⟨⟩ →
          (getSeal b).signature ≠ [] ∧ Returns (digest P.toEnv b))) := by
      refine ⟨fun h => h.agreed mine hget, fun h => ⟨by rw [hget]; rfl, fun mine' hmine' => ?_⟩⟩
      obtain rfl : mine = mine' := some.inj (hget.symm.trans hmine')
      exact h
    rw [hone]
    unfold checkFinished
    rw [bind_run (slot.modify_run hget)]
    exact returns_compareFinished (hslot.get_set _ _) returns_verifySeal

/-- The same for a final block, which is executed before it is compared. -/
structure FinalCovered (members : List PeerEndpoint) (b : TxBlock) (s : PeerServer P) : Prop where
  current : s.currentFinalBlock.isSome = true
  coinbases : CoinBasesCovered b members s.coinbaseByPubkey
  executes : ∀ mine, s.currentFinalBlock = some mine → checkCoinBase2 b members s.coinbaseByPubkey = .ok ⟨⟩ →
    Returns (calStateRoot P.toMachine s.headState (withCoinbasesOf b mine))
  agreed : ∀ mine root gasUsed, s.currentFinalBlock = some mine →
    checkCoinBase2 b members s.coinbaseByPubkey = .ok ⟨⟩ →
    calStateRoot P.toMachine s.headState (withCoinbasesOf b mine) = .ok (root, gasUsed) →
    withResult (withCoinbasesOf b mine) root gasUsed = bare b →
    KeySumCovered P.toEnv b.header.boolMap members b.header.multiPubKey ∧
    (blsMultiPubkeyVerify P.toEnv b.header.boolMap members b.header.multiPubKey = .ok ⟨⟩ →
      b.header.signature ≠ [] ∧ b.header.miner.isSome = true)

theorem returns_cutCoinBase_verifySeal (hfirst : b.header.dsCoinBase ≠ []) (hkey : (getSeal b).multiPubKey ≠ []) :
    Returns (cutCoinBase b >>= verifySeal E) ↔ b.header.signature ≠ [] ∧ b.header.miner.isSome = true := by
  obtain ⟨first, hindex⟩ := index_first hfirst
  have hcut : cutCoinBase b = .ok (withDSCoinBase b [first]) := by
    unfold cutCoinBase
    rw [hindex]
    rfl
  rw [hcut]
  exact (returns_verifySeal (b := withDSCoinBase b [first]) hkey).trans (and_congr_right fun _ => returns_mHash)

theorem returns_checkFinishedFinal : Returns (checkFinishedFinal members b s).1 ↔ FinalCovered members b s := by
  cases hget : s.currentFinalBlock with
  | none =>
    rw [checkFinishedFinal_none hget]
    refine iff_of_false (fun h => not_returned_panic (returns_error.mp h)) fun h => ?_
    have hsome := h.current
    rw [hget] at hsome
    exact nomatch hsome
  | some mine =>
    have hsome : s.currentFinalBlock.isSome = true := by rw [hget]; rfl
    have hunique : ∀ mine', s.currentFinalBlock = some mine' → mine = mine' := fun _ h =>
      some.inj (hget.symm.trans h)
    cases hcoins : checkCoinBase2 b members s.coinbaseByPubkey with
    | error e =>
      rw [checkFinishedFinal_miscounts hget hcoins, returns_error, returned_replacedBy returned_consensus,
        ← returns_error, ← hcoins, returns_checkCoinBase2]
      have hno : checkCoinBase2 b members s.coinbaseByPubkey ≠ .ok ⟨⟩ := by simp [hcoins]
      exact ⟨fun h => ⟨hsome, h, fun _ _ hok => absurd hok hno, fun _ _ _ _ hok => absurd hok hno⟩,
        fun h => h.coinbases⟩
    | ok _ =>
      have hcovered : CoinBasesCovered b members s.coinbaseByPubkey := by
        rw [← returns_checkCoinBase2, hcoins]
        exact returns_ok _
      cases hroot : calStateRoot P.toMachine s.headState (withCoinbasesOf b mine) with
      | error e =>
        rw [checkFinishedFinal_fails hget hcoins hroot, returns_error, returned_replacedBy returned_consensus]
        constructor
        · intro h
          refine ⟨hsome, hcovered, fun mine' hmine' _ => ?_, fun mine' root gasUsed hmine' _ hok => ?_⟩
          · obtain rfl := hunique mine' hmine'
            rw [hroot]
            exact returns_error.mpr h
          · obtain rfl := hunique mine' hmine'
            exact nomatch hroot.symm.trans hok
        · exact fun h => h.executes mine hget hcoins e hroot
      | ok result =>
        obtain ⟨root, gasUsed⟩ := result
        rw [checkFinishedFinal_compares hget hcoins hroot,
          returns_compareFinished rfl (returns_cutCoinBase_verifySeal hcovered.first)]
        constructor
        · intro h
          refine ⟨hsome, hcovered, fun mine' hmine' _ => ?_, fun mine' root' gasUsed' hmine' _ hok => ?_⟩
          · obtain rfl := hunique mine' hmine'
            rw [hroot]
            exact returns_ok _
          · obtain rfl := hunique mine' hmine'
            obtain ⟨rfl, rfl⟩ := Prod.mk.inj (ok.inj (hroot.symm.trans hok))
            exact h
        · exact fun h => h.agreed mine root gasUsed hget hcoins hroot

/-- The finished block can be compared with the current one. -/
def Finished.Covered (s : PeerServer P) : Finished → Prop
  | .dsBlock members b => SlotCovered (dsSlot P) members b s
  | .finalBlock members b => FinalCovered members b s
  | .microBlock members b => SlotCovered (microSlot P) members b s
  | .vcBlock members b => SlotCovered (vcSlot P) members b s
  | .nothing => True

/-- The count of the votes returns in any case. -/
theorem returns_counted {x : Proc Err σ Unit} {c : Prop} [Decidable c] :
    Returns ((x >>= fun _ => Proc.ensure c (.consensus e)) t).1 ↔ Returns (x t).1 := by
  rw [bind_eq_andThen]
  rcases hx : x t with ⟨_ | _, u⟩
  · simp [Proc.andThen]
  · exact iff_of_true (returns_ensure returned_consensus) (returns_ok _)

theorem returns_conclude {x : Finished} : Returns (x.conclude expected s).1 ↔ x.Covered s := by
  cases x with
  | dsBlock members b => exact returns_counted.trans (returns_checkFinished dsSlot_lawful)
  | finalBlock members b => exact returns_counted.trans returns_checkFinishedFinal
  | microBlock members b => exact returns_counted.trans (returns_checkFinished microSlot_lawful)
  | vcBlock members b => exact returns_counted.trans (returns_checkFinished vcSlot_lawful)
  | nothing => exact iff_of_true (returns_ensure returned_consensus) trivial

/-- The members and the number of their votes can be determined. -/
structure ElectorateCovered (s : PeerServer P) (type : ConsensusType) : Prop where
  stage : type = .viewChange → s.currentVCBlock.isSome = true
  sortable : decidedByCommittee s type = .ok true → Sortable s.committee
  shards : decidedByCommittee s type = .ok false → s.dsHead.header.shardingSum.toNat ≠ 0

theorem returns_expectedOfShard : Returns (expectedOfShard s) ↔ s.dsHead.header.shardingSum.toNat ≠ 0 := by
  unfold expectedOfShard
  by_cases hone : s.dsHead.header.shardingSum.toNat = 1
  · simp [hone]
  · by_cases hzero : s.dsHead.header.shardingSum.toNat = 0
    · simp [hzero]
    · simp [hone, hzero]

theorem returns_electorate : Returns (electorate s type) ↔ ElectorateCovered s type := by
  have hstage : Returns (decidedByCommittee s type) ↔ (type = .viewChange → s.currentVCBlock.isSome = true) :=
    returns_decidedByCommittee
  cases hdecided : decidedByCommittee s type with
  | error e =>
    have herror : electorate s type = .error e := by
      unfold electorate
      rw [hdecided]
      rfl
    rw [hdecided, returns_error] at hstage
    rw [herror, returns_error, hstage]
    refine ⟨fun h => ⟨h, fun hok => ?_, fun hok => ?_⟩, fun h => h.stage⟩
    · exact nomatch hdecided.symm.trans hok
    · exact nomatch hdecided.symm.trans hok
  | ok committee =>
    have hstage := hstage.mp (by rw [hdecided]; exact returns_ok _)
    cases committee with
    | true =>
      rw [electorate_committee hdecided, returns_bind, returns_sortByPubkey, and_iff_left fun _ _ => returns_ok _]
      refine ⟨fun h => ⟨hstage, fun _ => h, fun hno => ?_⟩, fun h => h.sortable hdecided⟩
      exact nomatch hdecided.symm.trans hno
    | false =>
      rw [electorate_shard hdecided, returns_bind, returns_expectedOfShard, and_iff_left fun _ _ => returns_ok _]
      refine ⟨fun h => ⟨hstage, fun hno => ?_, fun _ => h⟩, fun h => h.shards hdecided⟩
      exact nomatch hdecided.symm.trans hno

/-- The block can be read and the signatures of the second round can be checked. -/
def ReadCovered (type : ConsensusType) (committee : Bool) (sorted : List PeerEndpoint) (expected : Int)
    (bytes : Bytes) : Prop :=
  match type with
  | .dsBlock => ∀ finished, P.dsBlockWithSig2.decode bytes = .ok finished →
      Sig2Covered P.toEnv finished.sig2 sorted finished.block.header.signature expected
  | .finalBlock => ∀ finished, P.txBlockWithSig2.decode bytes = .ok finished →
      Sig2Covered P.toEnv finished.sig2 sorted finished.block.header.signature expected
  | .viewChange => committee = true → ∀ finished, P.vcBlockWithSig2.decode bytes = .ok finished →
      Sig2Covered P.toEnv finished.sig2 sorted finished.block.header.signature expected
  | _ => True

theorem returns_decode_sig2 {D : Type} {c : Codec D} {sig2 : D → BoolMapSignature}
    {signature : D → Bytes} {made : D → Finished} :
    Returns (c.decode bytes >>= fun d => sig2Check P.toEnv (sig2 d) sorted (signature d) expected >>= fun _ =>
      pure (made d)) ↔
      ∀ d, c.decode bytes = .ok d → Sig2Covered P.toEnv (sig2 d) sorted (signature d) expected := by
  rw [returns_bind, and_iff_right (returns_decode _ _)]
  refine forall_congr' fun d => imp_congr_right fun _ => ?_
  rw [returns_bind, returns_sig2Check]
  exact and_iff_left fun _ _ => returns_pure _

theorem returns_readFinished {committee : Bool} : Returns (readFinished s type committee sorted expected bytes) ↔
      ReadCovered (P := P) type committee sorted expected bytes := by
  have hplain : ∀ {D : Type} {c : Codec D} {made : D → Finished},
      Returns (c.decode bytes >>= fun d => pure (made d)) := fun {_ c _} =>
    returns_bind.mpr ⟨returns_decode c bytes, fun _ _ => returns_pure _⟩
  cases type with
  | dsBlock => exact returns_decode_sig2
  | finalBlock => exact returns_decode_sig2
  | microBlock => exact iff_of_true hplain trivial
  | viewChange =>
    cases committee with
    | true => exact returns_decode_sig2.trans ⟨fun h _ => h, fun h => h rfl⟩
    | false => exact iff_of_true hplain nofun
  | unknown n => exact iff_of_true (returns_ok _) trivial

/-- `verifyBlock` returns. -/
structure BlockCovered (s : PeerServer P) (msg : Message) (type : ConsensusType) : Prop where
  voters : ∀ payload, P.payload.decode msg.payload = .ok payload → ElectorateCovered s type
  read : ∀ payload committee sorted expected, P.payload.decode msg.payload = .ok payload →
    electorate s type = .ok (committee, sorted, expected) →
    ReadCovered (P := P) type committee sorted expected payload.msg
  finished : ∀ expected x, examine s msg type = .ok (expected, x) → x.Covered s

theorem returns_examine : Returns (examine s msg type) ↔
    ∀ payload, P.payload.decode msg.payload = .ok payload → ElectorateCovered s type ∧
      ∀ committee sorted expected, electorate s type = .ok (committee, sorted, expected) →
        ReadCovered (P := P) type committee sorted expected payload.msg := by
  unfold examine
  rw [returns_bind, and_iff_right (returns_decode _ _)]
  refine forall_congr' fun payload => imp_congr_right fun _ => ?_
  rw [returns_bind, returns_electorate]
  refine and_congr_right fun _ => ?_
  have hread : ∀ committee sorted expected,
      Returns (readFinished s type committee sorted expected payload.msg >>= fun finished =>
        pure (expected, finished)) ↔ ReadCovered (P := P) type committee sorted expected payload.msg := by
    intro committee sorted expected
    rw [returns_bind, returns_readFinished]
    exact and_iff_left fun _ _ => returns_pure _
  constructor
  · exact fun h committee sorted expected hok => (hread committee sorted expected).mp (h _ hok)
  · rintro h ⟨committee, sorted, expected⟩ hok
    exact (hread committee sorted expected).mpr (h committee sorted expected hok)

theorem returns_verifyBlock : Returns (verifyBlock msg type s).1 ↔ BlockCovered s msg type := by
  rw [verifyBlock_eq, returns_lift_bind, returns_examine]
  constructor
  · rintro ⟨hexamine, hconclude⟩
    exact ⟨fun payload hpayload => (hexamine payload hpayload).1,
      fun payload committee sorted expected hpayload => (hexamine payload hpayload).2 committee sorted expected,
      fun expected x hx => returns_conclude.mp (hconclude (expected, x) hx)⟩
  · intro h
    exact ⟨fun payload hpayload => ⟨h.voters payload hpayload, fun committee sorted expected =>
        h.read payload committee sorted expected hpayload⟩,
      fun x hx => returns_conclude.mpr (h.finished x.1 x.2 hx)⟩

end

/-- **When the checks return.** Each of the five checks returns exactly on the inputs given here. None of the
conditions is checked by the code before it is relied on. -/
theorem certificates_return_iff {P : Platform} :
    (∀ (b : TxBlock) (members : List PeerEndpoint) (cache : Bytes → Option Bytes),
      Returns (checkCoinBase2 b members cache) ↔ CoinBasesCovered b members cache) ∧
    (∀ (V : Validator) (b : TxBlock), Returns (Chain.verifySeal V b) ↔ VerifySealCovered V b) ∧
    (∀ (E : Env) (dsBlockChain : DSBlockChain) (b : DSBlockWithSig2),
      Returns (verifyDSBlockMultiSign2 E dsBlockChain b) ↔ ParentCovered E dsBlockChain b) ∧
    (∀ (msg : Message) (type : ConsensusType) (s : PeerServer P),
      Returns (verifyBlockSig1 msg type s).1 ↔ Sig1Covered s msg type) ∧
    (∀ (msg : Message) (type : ConsensusType) (s : PeerServer P),
      Returns (verifyBlock msg type s).1 ↔ BlockCovered s msg type) :=
  ⟨fun _ _ _ => returns_checkCoinBase2, fun _ _ => returns_chainVerifySeal,
    fun _ _ _ => returns_verifyDSBlockMultiSign2, fun _ _ _ => returns_verifyBlockSig1,
    fun _ _ _ => returns_verifyBlock⟩

/-- A block without coinbases, a bool map longer than the committee, and a DS block whose parent is not known. -/
theorem malformed_panics :
    checkCoinBase2 (withDSCoinBase (sampleBlock 1 []) []) [] (fun _ => none) = .error (.panic .indexOutOfRange) ∧
    checkCoinBase2 (withSeal (withDSCoinBase (sampleBlock 1 []) [[1]]) ⟨[true], [], []⟩) [] (fun _ => none) =
      .error (.panic .indexOutOfRange) ∧
    verifyDSBlockMultiSign2 Env.sample Chain.dsChainOfFirst
      ⟨{Chain.dsFirst with header := {Chain.dsFirst.header with blockNumber := 5}}, ⟨[], []⟩⟩ =
      .error (.panic .nilDereference) := by
  decide +kernel

end Okchain.Consensus
