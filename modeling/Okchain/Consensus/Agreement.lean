import Okchain.Consensus.Commitment
import Okchain.Consensus.Quorum

/-! Agreement on final blocks.

A final block that a backup accepts is signed by a quorum, so two accepted blocks with one number were both signed by
some honest member. They are the same if an honest node signs one block per number, and if the coinbases, of which
only the first is signed, are the same. A backup sees to neither.
-/
variable {b : TxBlock}

namespace Okchain.Consensus
open Lib Protos Core List Option
open Chain (getToleranceSize peerWithKey)

variable {P : Platform}

/-! ### What is signed -/

/-- A final block reduced to what its hash is made of. -/
def hashedPart (b : TxBlock) : TxBlock where
  header := {b.header with
    timestamp := none, stateRoot := [], gasUsed := 0, boolMap := [], signature := [], multiPubKey := []
    miner := b.header.miner.map fun m => {emptyEndpoint with pubkey := m.pubkey}}
  body := {b.body with
    transactions := []
    microBlockHashes := b.body.microBlockHashes ++ b.body.transactions.map (·.signature)}

/-- What is signed of a finished block: of the coinbases only the first. -/
def signedPart (b : TxBlock) : TxBlock := hashedPart (withDSCoinBase b (b.header.dsCoinBase.take 1))

def signedFinals (s : PeerServer P) : List TxBlock :=
  s.issued.filterMap fun what => match what with
    | .finalBlock b => some (hashedPart b)
    | _ => none

theorem mHash_hashedPart (E : Env) (b : TxBlock) : (hashedPart b).mHash E = b.mHash E := by
  unfold TxBlock.mHash TxBlockHeader.hash TxBlockHeader.hashed TxBlockBody.hash TxBlockBody.hashed hashedPart
  cases b.header.miner with
  | none => rfl
  | some m => simp [deref, Function.comp_def]

theorem mHash_of_signedPart {c : TxBlock} (E : Env) (h : signedPart b = signedPart c)
    (hcoins : b.header.dsCoinBase = c.header.dsCoinBase) : b.mHash E = c.mHash E := by
  have hpart : ∀ b, hashedPart b = withDSCoinBase (signedPart b) b.header.dsCoinBase := fun _ => rfl
  rw [← mHash_hashedPart E b, hpart, h, hcoins, ← hpart, mHash_hashedPart]

/-! ### The committee -/

/-- The honest members by their keys, and the final blocks they have accepted as backups. -/
structure Net (P : Platform) where
  node : Bytes → PeerServer P
  accepted : List TxBlock

/-- The final block a node signs when it is sent a message: one that is announced and found right. -/
def proposedTo (msg : Message) (sender : PeerEndpoint) (s : PeerServer P) : Option TxBlock :=
  if verifies msg sender s ∧ s.currentType = .finalBlock then (announced P P.txBlock msg).toOption else none

def finishedFinal (P : Platform) (msg : Message) : Option TxBlockWithSig2 :=
  (P.payload.decode msg.payload >>= fun payload => P.txBlockWithSig2.decode payload.msg).toOption

/-- The final block that `processMessageBroadCastBlock` accepts. -/
def acceptedFinal (msg : Message) (sender : PeerEndpoint) (s : PeerServer P) : Option TxBlock :=
  if s.currentType = .finalBlock ∧ msg.type = .consensusBroadCastBlock ∧ accepts msg sender s then
    (finishedFinal P msg).map (·.block)
  else none

def Net.deliver (n : Net P) (k : Bytes) (msg : Message) (sender : PeerEndpoint) : Net P where
  node := Function.update n.node k (processConsensusMsg msg sender (n.node k)).2
  accepted := (acceptedFinal msg sender (n.node k)).toList ++ n.accepted

/-- Signatures are not forged and hashes do not collide: if the seal of the finished block verifies, the honest
members it names have signed that block. -/
def Unforged (honest : Bytes → Bool) (n : Net P) (k : Bytes) (msg : Message) : Prop :=
  ∀ f ∈ finishedFinal P msg, ∀ sorted hash, sortByPubkey P.toEnv (n.node k).committee = .ok sorted →
    cutHash P.toEnv f.block = .ok hash → SealCovers P.toEnv (getSeal f.block) sorted hash →
    ∀ p ∈ selected f.block.header.boolMap sorted, honest p.pubkey = true →
      signedPart f.block ∈ signedFinals (n.node p.pubkey)

/-- The node has signed no other final block with the number of the one it is about to sign, and a finished block has
the coinbases it was accepted with before. -/
def Careful (n : Net P) (k : Bytes) (msg : Message) (sender : PeerEndpoint) : Prop :=
  (∀ b ∈ proposedTo msg sender (n.node k), ∀ c ∈ signedFinals (n.node k),
    c.header.blockNumber = b.header.blockNumber → c = hashedPart b) ∧
  ∀ f ∈ finishedFinal P msg, ∀ b ∈ n.accepted, signedPart b = signedPart f.block →
    b.header.dsCoinBase = f.block.header.dsCoinBase

/-- The states of a committee. Its honest members are sent messages that meet `C`, in any order and any number of
times. Whatever else they do, they sign no final blocks. -/
inductive NetRun (members : List Bytes) (honest : Bytes → Bool) (C : Net P → Bytes → Message → PeerEndpoint → Prop) :
    Net P → Prop
  | start {n : Net P} (haccepted : n.accepted = []) (hsigned : ∀ k, signedFinals (n.node k) = []) :
      NetRun members honest C n
  | message {n : Net P} {k : Bytes} {msg : Message} {sender : PeerEndpoint} (h : NetRun members honest C n)
      (hhonest : honest k = true) (hcommittee : ((n.node k).committee.map (·.pubkey)).Perm members)
      (hunforged : Unforged honest n k msg) (hC : C n k msg sender) : NetRun members honest C (n.deliver k msg sender)
  | other {n : Net P} {node : Bytes → PeerServer P} (h : NetRun members honest C n)
      (hsame : ∀ k, signedFinals (node k) = signedFinals (n.node k)) : NetRun members honest C {n with node := node}

/-- Accepted blocks with the same number have the same hash. -/
def Agreed (n : Net P) : Prop := ∀ b ∈ n.accepted, ∀ c ∈ n.accepted,
  b.header.blockNumber = c.header.blockNumber → b.mHash P.toEnv = c.mHash P.toEnv

/-! ### What a node signs -/

/-- Of final blocks the node has signed those it had and some that are allowed. -/
structure Signs (allowed : TxBlock → Prop) (s t : PeerServer P) : Prop where
  kept : signedFinals s ⊆ signedFinals t
  new : ∀ c ∈ signedFinals t, c ∈ signedFinals s ∨ allowed c

theorem Signs.of_eq {allowed : TxBlock → Prop} {s t : PeerServer P} (h : signedFinals t = signedFinals s) :
    Signs allowed s t := ⟨h ▸ List.Subset.refl _, fun _ hc => .inl (h ▸ hc)⟩

instance (allowed : TxBlock → Prop) : RoundRel (Signs (P := P) allowed) where
  refl _ := .of_eq rfl
  trans h h' := ⟨List.Subset.trans h.kept h'.kept, fun c hc => (h'.new c hc).elim (h.new c) .inr⟩
  sign s what hwhat := .of_eq (by
    cases what with
    | finalBlock b => exact absurd rfl (hwhat b)
    | _ => rfl)
  send _ _ := .of_eq rfl
  ds _ _ _ _ _ := .of_eq rfl
  final _ _ _ _ _ := .of_eq rfl
  micro _ _ := .of_eq rfl
  vc _ _ := .of_eq rfl

theorem processConsensusMsg_signs (msg : Message) (sender : PeerEndpoint) (s : PeerServer P) :
    Signs (fun c => ∃ b, proposedTo msg sender s = some b ∧ c = hashedPart b) s (processConsensusMsg msg sender s).2 := by
  have hstored : signedFinals (stored msg sender s) = signedFinals s := by
    unfold stored storing
    split
    · split <;> rfl
    · rfl
  refine RoundRel.trans (.of_eq hstored) (processConsensusMsg_stored msg sender s fun hv htype b hb t => ⟨?_, ?_⟩)
  · exact subset_cons_self _ _
  · intro c hc
    rcases mem_cons.mp hc with rfl | hc
    · refine .inr ⟨b, ?_, rfl⟩
      rw [proposedTo, if_pos ⟨hv, htype⟩, hb]
      rfl
    · exact .inl hc

section
variable {members : List Bytes} {honest : Bytes → Bool} {n : Net P} {k : Bytes} {msg : Message} {sender : PeerEndpoint}

theorem deliver_signs (n : Net P) (k : Bytes) (msg : Message) (sender : PeerEndpoint) (k' : Bytes) :
    Signs (fun c => k' = k ∧ ∃ b, proposedTo msg sender (n.node k) = some b ∧ c = hashedPart b) (n.node k')
      ((n.deliver k msg sender).node k') := by
  show Signs _ _ (Function.update n.node k _ k')
  by_cases hk : k' = k
  · subst hk
    have hsigns := processConsensusMsg_signs msg sender (n.node k')
    rw [Function.update_self]
    exact ⟨hsigns.kept, fun c hc => (hsigns.new c hc).imp_right fun h => ⟨rfl, h⟩⟩
  · exact .of_eq (congrArg signedFinals (Function.update_of_ne hk _ _))

/-! ### What an accepted block is signed by -/

/-- A quorum of the committee has signed the block, as far as it is honest. -/
def Certified (members : List Bytes) (honest : Bytes → Bool) (n : Net P) (b : TxBlock) : Prop :=
  ∃ signers : List Bytes, signers.Nodup ∧ signers ⊆ members ∧ getToleranceSize members.length ≤ signers.length ∧
    ∀ k ∈ signers, honest k = true → signedPart b ∈ signedFinals (n.node k)

theorem acceptedFinal_signed {s : PeerServer P} (h : acceptedFinal msg sender s = some b) :
    ∃ f sorted hash, finishedFinal P msg = some f ∧ f.block = b ∧ sortByPubkey P.toEnv s.committee = .ok sorted ∧
      cutHash P.toEnv b = .ok hash ∧ SealCovers P.toEnv (getSeal b) sorted hash ∧
      getToleranceSize sorted.length ≤ (selected b.header.boolMap sorted).length := by
  unfold acceptedFinal at h
  split at h
  next hacc =>
    obtain ⟨htype, hmsg, haccepts⟩ := hacc
    obtain ⟨f, hf, rfl⟩ := map_eq_some_iff.mp h
    unfold accepts handler at haccepts
    rw [hmsg] at haccepts
    obtain ⟨-, hok⟩ := of_decide_eq_true haccepts
    obtain ⟨_, t, hrun⟩ := Proc.isOk_iff.mp (show (processMessageBroadCastBlock msg s).1.isOk = true from hok)
    obtain ⟨_, -, hrun⟩ := Proc.lift_bind_ok.mp hrun
    rw [Proc.bind_read, htype] at hrun
    obtain ⟨payload, finished, sorted, hpayload, hfinished, hsorted, hcheck, hcount⟩ :=
      verifyBlock_finalBlock (orFail_ok hrun)
    obtain ⟨-, -, hvotes, hash, hhash, hcovers⟩ := checkFinishedFinal_ok hcheck
    have hsame : finishedFinal P msg = some finished := by
      unfold finishedFinal
      rw [hpayload]
      exact congrArg Except.toOption hfinished
    obtain rfl : f = finished := some.inj (hf.symm.trans hsame)
    exact ⟨f, sorted, hash, hf, rfl, hsorted, hhash, hcovers, hvotes ▸ hcount⟩
  next => exact nomatch h

theorem certified_of_accepted (hdistinct : members.Nodup)
    (hcommittee : ((n.node k).committee.map (·.pubkey)).Perm members) (hunforged : Unforged honest n k msg)
    (h : acceptedFinal msg sender (n.node k) = some b) : Certified members honest n b := by
  obtain ⟨f, sorted, hash, hf, rfl, hsorted, hhash, hcovers, hcount⟩ := acceptedFinal_signed h
  have hkeys : (sorted.map (·.pubkey)).Perm members := ((sortByPubkey_perm hsorted).map _).trans hcommittee
  have hsub := (selected_sublist f.block.header.boolMap sorted).map (·.pubkey)
  refine ⟨_, (hkeys.nodup_iff.mpr hdistinct).sublist hsub, fun k hk => hkeys.subset (hsub.subset hk), ?_, ?_⟩
  · rwa [← hkeys.length_eq, length_map, length_map]
  · intro k hk hhonest
    obtain ⟨p, hp, rfl⟩ := mem_map.mp hk
    exact hunforged f hf sorted hash hsorted hhash hcovers p hp hhonest

theorem exists_honest_common (hfaulty : (members.filter (!honest ·)).length ≤ maxFaulty members.length)
    (hquorum : (members.length + maxFaulty members.length + 1 : Int) ≤ 2 * getToleranceSize members.length)
    {A B : List Bytes} (hA : A.Nodup) (hB : B.Nodup) (hAsub : A ⊆ members) (hBsub : B ⊆ members)
    (hAq : getToleranceSize members.length ≤ A.length) (hBq : getToleranceSize members.length ≤ B.length) :
    ∃ k ∈ A, k ∈ B ∧ honest k = true := by
  by_contra hnone
  push Not at hnone
  have hsubset : ∀ {l : List Bytes}, l ⊆ members → l.toFinset ⊆ members.toFinset := fun hl k hk =>
    List.mem_toFinset.mpr (hl (List.mem_toFinset.mp hk))
  have hshare := Quorum.card_le_card_inter (hsubset hAsub) (hsubset hBsub)
  have hbad : A.toFinset ∩ B.toFinset ⊆ (members.filter (!honest ·)).toFinset := by
    intro k hk
    simp only [Finset.mem_inter, List.mem_toFinset] at hk
    rw [List.mem_toFinset, mem_filter]
    exact ⟨hAsub hk.1, by simpa using hnone k hk.1 hk.2⟩
  have hfew := (Finset.card_le_card hbad).trans (toFinset_card_le _)
  have hall := toFinset_card_le members
  rw [toFinset_card_of_nodup hA, toFinset_card_of_nodup hB] at hshare
  omega

/-! ### Runs -/

structure NetInv (members : List Bytes) (honest : Bytes → Bool) (n : Net P) : Prop where
  certified : ∀ b ∈ n.accepted, Certified members honest n b
  once : ∀ k, ∀ c ∈ signedFinals (n.node k), ∀ d ∈ signedFinals (n.node k),
    c.header.blockNumber = d.header.blockNumber → c = d
  coinbases : ∀ b ∈ n.accepted, ∀ c ∈ n.accepted, signedPart b = signedPart c →
    b.header.dsCoinBase = c.header.dsCoinBase

theorem Certified.mono {n' : Net P} (h : Certified members honest n b)
    (hkept : ∀ k, signedFinals (n.node k) ⊆ signedFinals (n'.node k)) : Certified members honest n' b := by
  obtain ⟨signers, hnodup, hsub, hcount, hall⟩ := h
  exact ⟨signers, hnodup, hsub, hcount, fun k hk hhonest => hkept k (hall k hk hhonest)⟩

theorem NetInv.deliver (h : NetInv members honest n) (hdistinct : members.Nodup)
    (hcommittee : ((n.node k).committee.map (·.pubkey)).Perm members) (hunforged : Unforged honest n k msg)
    (hcareful : Careful n k msg sender) : NetInv members honest (n.deliver k msg sender) := by
  have hsigns := deliver_signs n k msg sender
  have haccepted : ∀ {b}, b ∈ (n.deliver k msg sender).accepted →
      acceptedFinal msg sender (n.node k) = some b ∨ b ∈ n.accepted := fun hb =>
    (mem_append.mp hb).imp_left mem_toList.mp
  refine ⟨fun b hb => ?_, fun k' c hc d hd hnum => ?_, fun b hb c hc hpart => ?_⟩
  · have hbefore := (haccepted hb).elim (certified_of_accepted hdistinct hcommittee hunforged) (h.certified b)
    exact hbefore.mono fun k' => (hsigns k').kept
  · rcases (hsigns k').new c hc with hc' | ⟨rfl, b, hb, rfl⟩ <;>
      rcases (hsigns k').new d hd with hd' | ⟨hk, b', hb', rfl⟩
    · exact h.once k' c hc' d hd' hnum
    · exact hcareful.1 b' hb' c (hk ▸ hc') hnum
    · exact (hcareful.1 b hb d hd' hnum.symm).symm
    · rw [some.inj (hb.symm.trans hb')]
  · have hcoins : ∀ {b c}, acceptedFinal msg sender (n.node k) = some b → c ∈ n.accepted →
        signedPart c = signedPart b → c.header.dsCoinBase = b.header.dsCoinBase := by
      intro b c hb hc hpart
      obtain ⟨f, -, -, hf, rfl, -⟩ := acceptedFinal_signed hb
      exact hcareful.2 f hf c hc hpart
    rcases haccepted hb with hb | hb <;> rcases haccepted hc with hc | hc
    · rw [some.inj (hb.symm.trans hc)]
    · exact (hcoins hb hc hpart.symm).symm
    · exact hcoins hc hb hpart
    · exact h.coinbases b hb c hc hpart

theorem NetRun.inv (hdistinct : members.Nodup) (h : NetRun members honest Careful n) : NetInv members honest n := by
  induction h with
  | start haccepted hsigned => exact ⟨by simp [haccepted], by simp [hsigned], by simp [haccepted]⟩
  | message _ _ hcommittee hunforged hcareful ih => exact ih.deliver hdistinct hcommittee hunforged hcareful
  | other _ hsame ih =>
    refine ⟨fun b hb => (ih.certified b hb).mono fun k => (hsame k).symm ▸ List.Subset.refl _, fun k => ?_, ih.coinbases⟩
    rw [hsame]
    exact ih.once k

/-- **The agreement theorem.** If two quorums of the committee have to share an honest member, honest backups agree in
every run in which no honest node is brought to sign two final blocks with one number, and no block is finished with
two lists of coinbases. -/
theorem finals_agreed (hdistinct : members.Nodup)
    (hfaulty : (members.filter (!honest ·)).length ≤ maxFaulty members.length)
    (hquorum : (members.length + maxFaulty members.length + 1 : Int) ≤ 2 * getToleranceSize members.length)
    (hrun : NetRun members honest Careful n) : Agreed n := by
  have hinv := hrun.inv hdistinct
  intro b hb c hc hnum
  obtain ⟨A, hA, hAsub, hAq, hAall⟩ := hinv.certified b hb
  obtain ⟨B, hB, hBsub, hBq, hBall⟩ := hinv.certified c hc
  obtain ⟨k, hkA, hkB, hhonest⟩ := exists_honest_common hfaulty hquorum hA hB hAsub hBsub hAq hBq
  have hpart := hinv.once k _ (hAall k hkA hhonest) _ (hBall k hkB hhonest) hnum
  exact mHash_of_signedPart P.toEnv hpart (hinv.coinbases b hb c hc hpart)

theorem NetRun.weaken {C : Net P → Bytes → Message → PeerEndpoint → Prop} (h : NetRun members honest C n) :
    NetRun members honest (fun _ _ _ _ => True) n := by
  induction h with
  | start haccepted hsigned => exact .start haccepted hsigned
  | message _ hhonest hcommittee hunforged _ ih => exact ih.message hhonest hcommittee hunforged trivial
  | other _ hsame ih => exact ih.other hsame

end

/-! ### Two orders of the coinbases -/

/-- A codec that also reads the messages in a table. -/
def Codec.knowing {T : Type} (c : Codec T) (table : Bytes → Option T) : Codec T :=
  ⟨c.marshal, fun b => (table b).or (c.unmarshal b)⟩

def fourMembers : List PeerEndpoint := [peerWithKey 5, peerWithKey 6, peerWithKey 7, peerWithKey 8]

/-- The final block that the leader, who has the key 5, announces. -/
def proposal : TxBlock := {sampleBlock 1 [] with header := {(sampleBlock 1 []).header with
  dsCoinBase := [[5]], txRoot := List.replicate 32 48}}

def threeSign (m : Bytes) : BoolMapSignature :=
  ⟨[true, true, true, false], MultiSig.natBytes (18 * MultiSig.messageNat m)⟩

def proposalSigned : BoolMapSignature := threeSign (Chain.hashBytes (proposal.mHash Env.sample))

/-- The block as it is finished, with the coinbases of the three in the given order. -/
def finishedWith (keys : List Nat) : TxBlockWithSig2 :=
  let b := withDSCoinBase proposal ([5] :: keys.map MultiSig.natBytes)
  let mark : Seal := ⟨proposalSigned.boolMap, proposalSigned.signature, MultiSig.natBytes 18⟩
  let executed := (calStateRoot Machine.sample (fun _ => none) b).toOption.map fun result =>
    withResult b result.1 result.2
  ⟨withSeal (executed.getD b) mark, threeSign mark.signature⟩

/-- The computable platform, where the messages of the leader have short encodings. -/
def Platform.four : Platform := {Platform.sample with
  payload := Platform.sample.payload.knowing fun b => if b.head? = some 0 then some ⟨.finalBlock, b⟩ else none
  txBlock := Platform.sample.txBlock.knowing fun b => if b = [0] then some proposal else none
  boolMapSignature := Platform.sample.boolMapSignature.knowing fun b => if b = [0] then some proposalSigned else none
  txBlockWithSig2 := Platform.sample.txBlockWithSig2.knowing fun b =>
    if b = [0, 0] then some (finishedWith [5, 6, 7]) else if b = [0, 1] then some (finishedWith [7, 6, 5]) else none}

/-- A member that has composed the block itself, and knows the coinbases. -/
def fourNode (k : Nat) : PeerServer Platform.four := {sampleNode k fourMembers with
  privateKey := k
  coinBase := MultiSig.natBytes k
  coinbaseByPubkey := some
  currentType := .finalBlock
  currentFinalBlock := some proposal}

abbrev fourKeys : List Bytes := fourMembers.map (·.pubkey)

def fourHonest (k : Bytes) : Bool := k != MultiSig.natBytes 5

def Net.hear (n : Net Platform.four) (k : Nat) (type : MessageType) (payload : Bytes) : Net Platform.four :=
  n.deliver (MultiSig.natBytes k) (messageFrom (fourNode 5) type payload) (peerWithKey 5)

theorem NetRun.hear {C : Net Platform.four → Bytes → Message → PeerEndpoint → Prop} {n : Net Platform.four}
    (h : NetRun fourKeys fourHonest C n) (k : Nat) (type : MessageType) (payload : Bytes)
    (hhonest : fourHonest (MultiSig.natBytes k) = true)
    (hcommittee : ((n.node (MultiSig.natBytes k)).committee.map (·.pubkey)).Perm fourKeys)
    (hsigned : ∀ f ∈ finishedFinal Platform.four (messageFrom (fourNode 5) type payload),
      ∀ sorted ∈ (sortByPubkey Platform.four.toEnv (n.node (MultiSig.natBytes k)).committee).toOption,
      ∀ p ∈ selected f.block.header.boolMap sorted, fourHonest p.pubkey = true →
        signedPart f.block ∈ signedFinals (n.node p.pubkey))
    (hC : C n (MultiSig.natBytes k) (messageFrom (fourNode 5) type payload) (peerWithKey 5)) :
    NetRun fourKeys fourHonest C (n.hear k type payload) :=
  h.message hhonest hcommittee (fun f hf sorted _ hsorted _ _ => hsigned f hf sorted (by rw [hsorted]; rfl)) hC

instance (n : Net P) (k : Bytes) (msg : Message) (sender : PeerEndpoint) : Decidable (Careful n k msg sender) := by
  unfold Careful
  infer_instance

/-- Two members sign the block and its signature, and one is sent the finished block. -/
def oneAccepts : Net Platform.four :=
  ((((Net.hear ⟨fun k => fourNode (MultiSig.keyNat k), []⟩ 6 .consensusAnnounce [0]).hear 7 .consensusAnnounce [0]).hear 6
    .consensusFinalCollectiveSig [0]).hear 7 .consensusFinalCollectiveSig [0]).hear 6 .consensusBroadCastBlock [0, 0]

theorem oneAccepts_run : NetRun fourKeys fourHonest Careful oneAccepts := by
  refine NetRun.hear (NetRun.hear (NetRun.hear (NetRun.hear (NetRun.hear (.start rfl fun _ => rfl) _ _ _ ?_ ?_ ?_ ?_)
    _ _ _ ?_ ?_ ?_ ?_) _ _ _ ?_ ?_ ?_ ?_) _ _ _ ?_ ?_ ?_ ?_) _ _ _ ?_ ?_ ?_ ?_
  all_goals decide +kernel

/-- The finished block is sent to the other member as well, and both accept it. -/
theorem finals_agreed_four : (oneAccepts.hear 7 .consensusBroadCastBlock [0, 0]).accepted.length = 2 ∧
    Agreed (oneAccepts.hear 7 .consensusBroadCastBlock [0, 0]) := by
  have hrun := oneAccepts_run.hear 7 .consensusBroadCastBlock [0, 0] (by decide +kernel) (by decide +kernel)
    (by decide +kernel) (by decide +kernel)
  exact ⟨by decide +kernel, finals_agreed (by decide +kernel) (by decide) (by decide) hrun⟩

/-- The leader sends the two members the same block with the coinbases in two orders. Both accept, and the hashes
differ. -/
theorem coinbases_split_four : ∃ (P : Platform) (members : List Bytes) (honest : Bytes → Bool) (n : Net P),
    members.Nodup ∧ (members.filter (!honest ·)).length ≤ maxFaulty members.length ∧
    (members.length + maxFaulty members.length + 1 : Int) ≤ 2 * getToleranceSize members.length ∧
    NetRun members honest (fun _ _ _ _ => True) n ∧ ¬Agreed n := by
  refine ⟨Platform.four, fourKeys, fourHonest, oneAccepts.hear 7 .consensusBroadCastBlock [0, 1], by decide +kernel,
    by decide, by decide, ?_, fun h => ?_⟩
  · exact oneAccepts_run.weaken.hear _ _ _ (by decide +kernel) (by decide +kernel) (by decide +kernel) trivial
  have hsplit : ∃ b ∈ (oneAccepts.hear 7 .consensusBroadCastBlock [0, 1]).accepted,
      ∃ c ∈ (oneAccepts.hear 7 .consensusBroadCastBlock [0, 1]).accepted,
      b.header.blockNumber = c.header.blockNumber ∧ b.mHash Env.sample ≠ c.mHash Env.sample := by decide +kernel
  obtain ⟨b, hb, c, hc, hnum, hne⟩ := hsplit
  exact hne (h b hb c hc hnum)

end Okchain.Consensus
