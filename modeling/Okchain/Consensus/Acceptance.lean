import Okchain.Consensus.BackupStep
import Okchain.Consensus.LeadSeal

/-! What the acceptance of a finished block says about its signers.

The keys are summed by a loop along the members, the signatures counted by a loop along the bool map. So a leader can
make up for missing signatures with bits past the last member, except in a final block, where the coinbases are looked
up bit by bit as well.
-/
variable {type : ConsensusType}

namespace Okchain.Consensus
open Lib Proc Protos Core
open Chain (getToleranceSize)
open Platform (sample)

variable {P : Platform}

/-- The seal of the finished block in a message, and the hash that was to be signed in the first round. -/
def finishedIn (P : Platform) (type : ConsensusType) (msg : Message) : Except Err (Seal × Hash) := do
  let payload ← P.payload.decode msg.payload
  match type with
  | .dsBlock =>
    let finished ← P.dsBlockWithSig2.decode payload.msg
    return (getSeal finished.block, ← digest P.toEnv finished.block)
  | .finalBlock =>
    let finished ← P.txBlockWithSig2.decode payload.msg
    return (getSeal finished.block, ← cutHash P.toEnv finished.block)
  | .microBlock =>
    let b ← P.microBlock.decode payload.msg
    return (getSeal b, ← digest P.toEnv b)
  | _ => .error (.consensus .cannotProcessType)

/-- How many signatures `verifyBlock` expects. -/
def expectedOf (s : PeerServer P) : ConsensusType → Except Err Int
  | .microBlock => expectedOfShard s
  | _ => .ok (getToleranceSize s.committee.length)

/-- The kinds of blocks a round of the DS committee or of a shard is about. -/
def Proposed (type : ConsensusType) : Prop := type = .dsBlock ∨ type = .finalBlock ∨ type = .microBlock

/-- What `verifyBlock` has found out about the seal of a block that it lets pass. -/
structure Accepted (s : PeerServer P) (type : ConsensusType) (msg : Message) (mark : Seal) (hash : Hash)
    (ms : List PeerEndpoint) (expected : Int) : Prop where
  carried : finishedIn P type msg = .ok (mark, hash)
  members : membersOf s type = .ok ms
  asked : expectedOf s type = .ok expected
  covers : SealCovers P.toEnv mark ms hash
  counted : expected ≤ (voteTickets mark.boolMap : Int)
  final : type = .finalBlock → (selected mark.boolMap ms).length = voteTickets mark.boolMap

theorem verifyBlock_accepted {s t : PeerServer P} {msg : Message} {u : Unit}
    (htype : Proposed type) (h : verifyBlock msg type s = (.ok u, t)) :
    ∃ mark hash ms expected, Accepted s type msg mark hash ms expected := by
  rcases htype with rfl | rfl | rfl
  · obtain ⟨payload, finished, sorted, hpayload, hfinished, hsorted, hrun, hcount⟩ := verifyBlock_dsBlock h
    obtain ⟨-, -, hash, hhash, hcovers⟩ := checkFinished_ok dsSlot_lawful hrun
    refine ⟨_, hash, sorted, _, ?_, membersOf_committee rfl hsorted, rfl, hcovers, ?_, fun htype => nomatch htype⟩
    · simp only [finishedIn, hpayload, hfinished, hhash, bind, Except.bind, pure, Except.pure]
    · rwa [(sortByPubkey_perm hsorted).length_eq] at hcount
  · obtain ⟨payload, finished, sorted, hpayload, hfinished, hsorted, hrun, hcount⟩ := verifyBlock_finalBlock h
    obtain ⟨-, -, hvotes, hash, hhash, hcovers⟩ := checkFinishedFinal_ok hrun
    refine ⟨_, hash, sorted, _, ?_, membersOf_committee rfl hsorted, rfl, hcovers, ?_, fun _ => hvotes⟩
    · simp only [finishedIn, hpayload, hfinished, hhash, bind, Except.bind, pure, Except.pure]
    · rwa [(sortByPubkey_perm hsorted).length_eq] at hcount
  · obtain ⟨payload, b, expected, hpayload, hb, hexpected, hrun, hcount⟩ := verifyBlock_microBlock h
    obtain ⟨-, -, hash, hhash, hcovers⟩ := checkFinished_ok microSlot_lawful hrun
    refine ⟨_, hash, s.shardingNodes, expected, ?_, rfl, hexpected, hcovers, hcount, fun htype => nomatch htype⟩
    simp only [finishedIn, hpayload, hb, hhash, bind, Except.bind, pure, Except.pure]

def keysOf (ms : List PeerEndpoint) : List Bytes := ms.map (·.pubkey)

/-- A block that a backup accepts is signed by as many members as are expected exactly when so many of the
members have their bit set; of a final block this is always so. -/
theorem accepted_signed_iff {s t : PeerServer P} {type : ConsensusType} {msg : Message} {u : Unit}
    (htype : Proposed type) (hok : verifyBlock msg type s = (.ok u, t))
    (hdistinct : ∀ ms, membersOf s type = .ok ms → (keysOf ms).Nodup)
    (hseparates : ∀ mark hash ms sig, finishedIn P type msg = .ok (mark, hash) → membersOf s type = .ok ms →
      readSig P.toEnv mark.signature = .ok sig → MultiSig.Separates (keysOf ms) sig) :
    ∃ mark hash ms expected sig, finishedIn P type msg = .ok (mark, hash) ∧ membersOf s type = .ok ms ∧
      expectedOf s type = .ok expected ∧ readSig P.toEnv mark.signature = .ok sig ∧
      ((∀ signed, MultiSig.Unforged (keysOf ms) signed sig →
        MultiSig.SignedBy (keysOf ms) expected signed hash.bytes) ↔
          expected ≤ ((selected mark.boolMap ms).length : Int)) ∧
      (type = .finalBlock → expected ≤ ((selected mark.boolMap ms).length : Int)) := by
  obtain ⟨mark, hash, ms, expected, hacc⟩ := verifyBlock_accepted htype hok
  obtain ⟨sig, hsig, hcovers⟩ := hacc.covers
  have hsub := (selected_sublist mark.boolMap ms).map (·.pubkey)
  refine ⟨mark, hash, ms, expected, sig, hacc.carried, hacc.members, hacc.asked, hsig, ?_, fun hfinal => ?_⟩
  · rw [MultiSig.signedBy_iff (hseparates mark hash ms sig hacc.carried hacc.members hsig) hcovers
      ((hdistinct ms hacc.members).sublist hsub) hsub.subset, List.length_map]
  · rw [hacc.final hfinal]
    exact hacc.counted

/-! ### A shard of three -/

def threeNodes : List PeerEndpoint := [Chain.peerWithKey 5, Chain.peerWithKey 6, Chain.peerWithKey 7]

def sampleMicroBlock : MicroBlock := ⟨(sampleBlock 1 []).header, 0, some (Chain.peerWithKey 5), [9], []⟩

/-- A member of the only shard, with that micro block under way. -/
def shardMember : PeerServer Platform.sample :=
  {sampleNode 6 [Chain.peerWithKey 5] with
    shardingNodes := threeNodes
    dsHead := {Chain.dsFirst with
      header := {Chain.dsFirst.header with shardingSum := 1}
      body := {Chain.dsFirst.body with shardingNodes := threeNodes}}
    currentType := .microBlock
    currentMicroBlock := some (bare sampleMicroBlock)}

/-- The micro block with the bool map, signed by keys with the sum `pub`. -/
def microSealed (boolMap : List Bool) (pub : Nat) : MicroBlock :=
  withSeal sampleMicroBlock ⟨boolMap, MultiSig.natBytes
    (pub * MultiSig.messageNat (Chain.hashBytes (digest Env.sample sampleMicroBlock))), MultiSig.natBytes pub⟩

def microMessage (b : MicroBlock) : Message :=
  ⟨.consensusBroadCastBlock, none, consensusPayload Platform.sample .microBlock (Platform.sample.microBlock.marshal b), [],
    none⟩

theorem threeNodes_separates (sig : sample.bls.Sig) : MultiSig.Separates (keysOf threeNodes) sig :=
  MultiSig.linear_separates sig (by decide +kernel)

theorem payload_microMessage (b : MicroBlock) : sample.payload.decode (microMessage b).payload =
    .ok ⟨.microBlock, sample.microBlock.marshal b⟩ := (Codec.numbered_roundTrip _).decode _

theorem microBlock_microMessage (b : MicroBlock) : sample.microBlock.decode (sample.microBlock.marshal b) = .ok b :=
  (Codec.numbered_roundTrip _).decode _

theorem finishedIn_microMessage {b : MicroBlock} {mark : Seal} {hash : Hash}
    (h : finishedIn sample .microBlock (microMessage b) = .ok (mark, hash)) : mark = getSeal b := by
  obtain ⟨payload, hpayload, h⟩ := except_bind_ok.mp h
  rw [payload_microMessage] at hpayload
  cases hpayload
  obtain ⟨c, hc, h⟩ := except_bind_ok.mp h
  rw [microBlock_microMessage] at hc
  obtain rfl : b = c := Except.ok.inj hc
  obtain ⟨hash', -, h⟩ := except_bind_ok.mp h
  exact (congrArg Prod.fst (Except.ok.inj h)).symm

theorem shardMember_expected : expectedOf shardMember .microBlock = .ok 2 := by decide +kernel

/-- Two set bits are enough for the member, wherever they are, if the seal is good. -/
theorem verifyBlock_microMessage {b : MicroBlock} (hvotes : 2 ≤ voteTickets b.header.boolMap)
    (hcheck : (checkFinished (microSlot sample) threeNodes b shardMember).1.isOk = true) :
    ∃ t, verifyBlock (microMessage b) .microBlock shardMember = (.ok ⟨⟩, t) := by
  obtain ⟨_, t, hrun⟩ := isOk_iff.mp hcheck
  refine ⟨t, ?_⟩
  refine (bind_lift (payload_microMessage b)).trans ?_
  refine (bind_lift (microBlock_microMessage b)).trans ?_
  refine (bind_run hrun).trans ?_
  exact ensure_ok.mpr ⟨Int.ofNat_le.mpr hvotes, rfl⟩

/-- Two of the members have signed. -/
theorem accepted_signed_iff_three : ∃ (t : PeerServer Platform.sample) (msg : Message),
    verifyBlock msg .microBlock shardMember = (.ok (), t) ∧ ∃ mark hash ms expected sig,
      finishedIn Platform.sample .microBlock msg = .ok (mark, hash) ∧ membersOf shardMember .microBlock = .ok ms ∧
      expectedOf shardMember .microBlock = .ok expected ∧ readSig Env.sample mark.signature = .ok sig ∧
      ((∀ signed, MultiSig.Unforged (keysOf ms) signed sig →
        MultiSig.SignedBy (keysOf ms) expected signed hash.bytes) ↔
          expected ≤ ((selected mark.boolMap ms).length : Int)) ∧
      (ConsensusType.microBlock = .finalBlock → expected ≤ ((selected mark.boolMap ms).length : Int)) := by
  obtain ⟨t, hok⟩ := verifyBlock_microMessage (b := microSealed [true, true, false] 11) (by decide) (by decide +kernel)
  refine ⟨t, _, hok, accepted_signed_iff (.inr (.inr rfl)) hok (fun ms hms => ?_) fun _ _ ms sig _ hms _ => ?_⟩
  · obtain rfl : threeNodes = ms := Except.ok.inj hms
    decide +kernel
  · obtain rfl : threeNodes = ms := Except.ok.inj hms
    exact threeNodes_separates sig

/-- One of three members has signed, and a bit past the last member makes up for the second signature that is
expected. -/
theorem accepted_by_spare_bit : ∃ (s t : PeerServer Platform.sample) (msg : Message) (mark : Seal) (hash : Hash)
    (ms : List PeerEndpoint) (sig : Platform.sample.bls.Sig) (signed : Bytes → Bytes → Prop),
    verifyBlock msg .microBlock s = (.ok (), t) ∧ finishedIn Platform.sample .microBlock msg = .ok (mark, hash) ∧
      membersOf s .microBlock = .ok ms ∧ (keysOf ms).Nodup ∧ (∀ p ∈ ms, Keyed sampleKey p) ∧
      expectedOf s .microBlock = .ok 2 ∧ readSig Env.sample mark.signature = .ok sig ∧
      MultiSig.Unforged (keysOf ms) signed sig ∧ ¬MultiSig.SignedBy (keysOf ms) 2 signed hash.bytes := by
  obtain ⟨t, hok⟩ := verifyBlock_microMessage (b := microSealed [true, false, false, true] 5) (by decide) (by decide +kernel)
  obtain ⟨mark, hash, ms, expected, hacc⟩ := verifyBlock_accepted (.inr (.inr rfl)) hok
  obtain ⟨sig, hsig, hcovers⟩ := hacc.covers
  obtain rfl : threeNodes = ms := Except.ok.inj hacc.members
  obtain rfl := finishedIn_microMessage hacc.carried
  have hdistinct : (keysOf threeNodes).Nodup := by decide +kernel
  have hkeyed : ∀ p ∈ threeNodes, Keyed sampleKey p := by
    intro p hp
    simp only [threeNodes, List.mem_cons, List.not_mem_nil, or_false] at hp
    rcases hp with rfl | rfl | rfl <;> exact sample_keyed _
  refine ⟨shardMember, t, _, _, hash, threeNodes, sig, MultiSig.leastSigned (keysOf threeNodes) sig, hok, hacc.carried,
    rfl, hdistinct, hkeyed, shardMember_expected, hsig, MultiSig.leastSigned_unforged _ sig, fun hsigned => ?_⟩
  have hsub := (selected_sublist [true, false, false, true] threeNodes).map (·.pubkey)
  -- the signature is that of the first member alone, so it speaks for nobody else
  have hone := MultiSig.leastSigned_le (threeNodes_separates sig) hcovers (hdistinct.sublist hsub) hsub.subset hsigned
  exact absurd hone (show ¬(2 : Int) ≤ ((selected [true, false, false, true] threeNodes).map (·.pubkey)).length by decide)

end Okchain.Consensus
