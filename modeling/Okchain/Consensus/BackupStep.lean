import Okchain.Consensus.LeadStep

/-! What a backup has checked when it accepts a finished block.

Each kind of block has its own way through `verifyBlock`; each is taken apart once here. Of the seal all
kinds say the same: the signature verifies on the hash of the block under the sum of the keys that the bool
map selects.
-/
namespace Okchain.Consensus
open Lib Proc Protos Core State Except
open Chain (getToleranceSize)

variable {P : Platform}

/-! ### Current blocks -/

variable {A B : Type} {slot : Slot P B} {s t : PeerServer P} {a : A} {f : Unit → NodeProc P A} {E : Env}
  {members : List PeerEndpoint} {u : Unit} {b : TxBlock}

theorem Slot.current_bind_ok {f : B → NodeProc P A}
    (h : (slot.current >>= f) s = (.ok a, t)) : ∃ b, slot.get s = some b ∧ f b s = (.ok a, t) := by
  cases hget : slot.get s with
  | none =>
    have hfail : slot.current s = (.error (.panic .nilDereference), s) := by
      rw [Slot.current_eq, hget]
      rfl
    obtain ⟨_, _, hcurrent, _⟩ := bind_ok.mp h
    rw [hfail] at hcurrent
    exact nomatch hcurrent
  | some b =>
    rw [bind_run (slot.current_run hget)] at h
    exact ⟨b, rfl, h⟩

theorem orFail_ok {α : Type} {e : Err} {x : NodeProc P α} {a : α}
    (h : orFail e x s = (.ok a, t)) : x s = (.ok a, t) := by
  have hstate : (x s).2 = t := congrArg Prod.snd h
  exact Prod.ext (orError_ok.mp (congrArg Prod.fst h)) hstate

/-! ### The seal -/

/-- The signature in the seal verifies on the hash under the keys that the bool map selects. -/
def SealCovers (E : Env) (mark : Seal) (members : List PeerEndpoint) (hash : Hash) : Prop :=
  ∃ sig, readSig E mark.signature = .ok sig ∧
    MultiSig.Covers sig hash.bytes ((selected mark.boolMap members).map (·.pubkey))

theorem verifySeal_covers [SealedBlock B] {b : B}
    (hkey : blsMultiPubkeyVerify E (getSeal b).boolMap members (getSeal b).multiPubKey = .ok u)
    (hvalid : verifySeal E b = .ok true) : ∃ hash, digest E b = .ok hash ∧ SealCovers E (getSeal b) members hash := by
  obtain ⟨pubs, hpubs, hcomposed⟩ := blsMultiPubkeyVerify_ok hkey
  obtain ⟨pub, hpub, hvalid⟩ := except_bind_ok.mp hvalid
  obtain ⟨sig, hsig, hvalid⟩ := except_bind_ok.mp hvalid
  obtain ⟨hash, hhash, hvalid⟩ := except_bind_ok.mp hvalid
  have hsum : pubs.sum = pub := by
    unfold readPub at hpub
    split at hpub
    · exact nomatch hpub
    · rw [hcomposed] at hpub
      exact ok.inj hpub
  refine ⟨hash, hhash, sig, hsig, pubs, hpubs, ?_⟩
  unfold blsVerify at hvalid
  split at hvalid
  · exact nomatch hvalid
  · rw [hsum]
    exact ok.inj hvalid

/-! ### The finished block against the current one -/

theorem checkFinished_ok [SealedBlock B] [DecidableEq B] (hslot : slot.Lawful) {b : B}
    (h : checkFinished slot members b s = (.ok u, t)) :
    (∃ mine, slot.get s = some mine ∧ withSignature mine [] = bare b) ∧ t = slot.set b s ∧
      ∃ hash, digest P.toEnv b = .ok hash ∧ SealCovers P.toEnv (getSeal b) members hash := by
  cases hmine : slot.get s with
  | none => exact nomatch (checkFinished_none hmine).symm.trans h
  | some mine =>
    by_cases hgood : Finishes P.toEnv members mine b
    · rw [checkFinished_accepts hslot hmine hgood] at h
      exact ⟨⟨mine, rfl, hgood.same⟩, (congrArg Prod.snd h).symm, verifySeal_covers hgood.key hgood.valid⟩
    · obtain ⟨e, he⟩ := checkFinished_refuses hslot hmine hgood
      exact nomatch he.symm.trans h

theorem checkFinishedFinal_ok (h : checkFinishedFinal members b s = (.ok u, t)) :
    (∃ mine root gasUsed, s.currentFinalBlock = some mine ∧
      calStateRoot P.toMachine s.headState (withCoinbasesOf b mine) = .ok (root, gasUsed) ∧
      withResult (withCoinbasesOf b mine) root gasUsed = bare b) ∧
      t = (finalSlot P).set b s ∧ (selected b.header.boolMap members).length = voteTickets b.header.boolMap ∧
      ∃ hash, cutHash P.toEnv b = .ok hash ∧ SealCovers P.toEnv (getSeal b) members hash := by
  cases hmine : s.currentFinalBlock with
  | none => exact nomatch (checkFinishedFinal_none hmine).symm.trans h
  | some mine =>
    by_cases hgood : FinishesFinal s members mine b
    · rw [checkFinishedFinal_accepts hmine hgood] at h
      obtain ⟨hcoins, root, gasUsed, hroot, hcompares⟩ := hgood
      refine ⟨⟨mine, root, gasUsed, rfl, hroot, hcompares.same⟩, (congrArg Prod.snd h).symm, ?_, ?_⟩
      · obtain ⟨_, _, hcoins⟩ := except_bind_ok.mp hcoins
        obtain ⟨cbs, hcbs, _⟩ := except_bind_ok.mp hcoins
        exact selectedCoinbases_length hcbs
      · obtain ⟨c, hcut, hvalid⟩ := except_bind_ok.mp hcompares.valid
        obtain ⟨first, _, hc⟩ := except_bind_ok.mp hcut
        obtain rfl : withDSCoinBase b [first] = c := ok.inj hc
        unfold cutHash
        rw [hcut]
        exact verifySeal_covers (b := withDSCoinBase b [first]) hcompares.key hvalid
    · obtain ⟨e, he⟩ := checkFinishedFinal_refuses hmine hgood
      exact nomatch he.symm.trans h

/-! ### The message -/

theorem checkSig2_bind_ok {sig2 : BoolMapSignature} {sorted : List PeerEndpoint} {signature : Bytes} {expected : Int}
    (h : (checkSig2 sig2 sorted signature expected >>= f) s = (.ok a, t)) : f ⟨⟩ s = (.ok a, t) := by
  unfold checkSig2 at h
  rw [bind_assoc] at h
  obtain ⟨multiSig2, -, h⟩ := lift_bind_ok.mp h
  obtain ⟨_, -, h⟩ := lift_bind_ok.mp h
  exact h

section

variable {msg : Message} {s t : PeerServer P} {u : Unit}

theorem committeeSort_bind_ok {A : Type} {f : List PeerEndpoint → NodeProc P A} {a : A}
    (h : (committeeSort >>= f) s = (.ok a, t)) :
    ∃ sorted, sortByPubkey P.toEnv s.committee = .ok sorted ∧ f sorted s = (.ok a, t) := by
  exact lift_bind_ok.mp h

theorem verifyBlock_dsBlock (h : verifyBlock msg .dsBlock s = (.ok u, t)) :
    ∃ payload finished sorted, P.payload.decode msg.payload = .ok payload ∧
      P.dsBlockWithSig2.decode payload.msg = .ok finished ∧ sortByPubkey P.toEnv s.committee = .ok sorted ∧
      checkFinished (dsSlot P) sorted finished.block s = (.ok ⟨⟩, t) ∧
      getToleranceSize sorted.length ≤ (voteTickets finished.block.header.boolMap : Int) := by
  obtain ⟨payload, hpayload, h⟩ := lift_bind_ok.mp h
  obtain ⟨sorted, hsorted, h⟩ := committeeSort_bind_ok h
  beta_reduce at h
  rw [bind_read] at h
  obtain ⟨expected, hexpected, h⟩ := lift_bind_ok.mp h
  obtain ⟨finished, hfinished, h⟩ := lift_bind_ok.mp h
  replace h := checkSig2_bind_ok h
  obtain ⟨_, s₁, hrun, h⟩ := bind_ok.mp h
  obtain ⟨hcount, rfl⟩ := ensure_ok.mp h
  obtain rfl : getToleranceSize sorted.length = expected := ok.inj hexpected
  exact ⟨payload, finished, sorted, hpayload, hfinished, hsorted, hrun, hcount⟩

theorem verifyBlock_finalBlock (h : verifyBlock msg .finalBlock s = (.ok u, t)) :
    ∃ payload finished sorted, P.payload.decode msg.payload = .ok payload ∧
      P.txBlockWithSig2.decode payload.msg = .ok finished ∧ sortByPubkey P.toEnv s.committee = .ok sorted ∧
      checkFinishedFinal sorted finished.block s = (.ok ⟨⟩, t) ∧
      getToleranceSize sorted.length ≤ (voteTickets finished.block.header.boolMap : Int) := by
  obtain ⟨payload, hpayload, h⟩ := lift_bind_ok.mp h
  obtain ⟨sorted, hsorted, h⟩ := committeeSort_bind_ok h
  beta_reduce at h
  rw [bind_read] at h
  obtain ⟨expected, hexpected, h⟩ := lift_bind_ok.mp h
  obtain ⟨finished, hfinished, h⟩ := lift_bind_ok.mp h
  replace h := checkSig2_bind_ok h
  obtain ⟨_, s₁, hrun, h⟩ := bind_ok.mp h
  obtain ⟨hcount, rfl⟩ := ensure_ok.mp h
  obtain rfl : getToleranceSize sorted.length = expected := ok.inj hexpected
  exact ⟨payload, finished, sorted, hpayload, hfinished, hsorted, hrun, hcount⟩

theorem verifyBlock_microBlock (h : verifyBlock msg .microBlock s = (.ok u, t)) :
    ∃ payload b expected, P.payload.decode msg.payload = .ok payload ∧ P.microBlock.decode payload.msg = .ok b ∧
      expectedOfShard s = .ok expected ∧ checkFinished (microSlot P) s.shardingNodes b s = (.ok ⟨⟩, t) ∧
      expected ≤ (voteTickets b.header.boolMap : Int) := by
  obtain ⟨payload, hpayload, h⟩ := lift_bind_ok.mp h
  have hcommittee : inCommittee .microBlock = (pure false : NodeProc P Bool) := rfl
  rw [hcommittee, pure_bind, pure_bind] at h
  obtain ⟨expected, hexpected, h⟩ := lift_bind_ok.mp h
  obtain ⟨b, hb, h⟩ := lift_bind_ok.mp h
  obtain ⟨_, s₁, hrun, h⟩ := bind_ok.mp h
  obtain ⟨hcount, rfl⟩ := ensure_ok.mp h
  exact ⟨payload, b, expected, hpayload, hb, hexpected, hrun, hcount⟩

end

end Okchain.Consensus
