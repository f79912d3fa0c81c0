import Okchain.Chain.Storage
import Okchain.Consensus.BackupStep
import Okchain.Consensus.DsAnnounce

/-! The final block: how it is made of the micro blocks, and what a backup checks of the leader's.

Leader and backup both run `composeFinalBlock` on the micro blocks they have accepted, in the order in which these came
in. `verifyFinalBlock` compares what does not depend on the order; it compares the transactions with the root in the
same block only, and the number with nothing at all. The backup needs a block of its own, which
`onWait4MicroBlockSubmissionDone` drops if it does not know the coinbase of the leader.
-/
variable {txHead : TxBlock} {previous : Hash}

namespace Okchain.Consensus
open Lib Proc Protos List

variable {P : Platform}

/-! ### Composing -/

def gasLimitBoundDivisor : UInt64 := 1024
def minGasLimit : UInt64 := 5000
def minerGasFloor : UInt64 := 8000000
def minerGasCeil : UInt64 := 8000000

/-- `calcGasLimit`; all of it in `uint64`. -/
def calcGasLimit (parent : TxBlock) : UInt64 :=
  let contrib := (parent.header.gasUsed + parent.header.gasUsed / 2) / gasLimitBoundDivisor
  let decay := parent.header.gasLimit / gasLimitBoundDivisor - 1
  let limit := max (parent.header.gasLimit - decay + contrib) minGasLimit
  if limit < minerGasFloor then min (parent.header.gasLimit + decay) minerGasFloor
  else if limit > minerGasCeil then max (parent.header.gasLimit - decay) minerGasCeil
  else limit

/-- `util.Hash` of the header of a micro block. -/
def microBlockHash (P : Platform) (m : MicroBlock) : Bytes :=
  (P.hash Chain.Storage.txBlockHeaderType (Chain.Storage.txBlockHeaderValue m.header)).bytes

/-- The header of a final block over the given micro blocks, of which the first is repeated. -/
def finalHeader (s : PeerServer P) (first : MicroBlock) (microBlocks : List MicroBlock) (previous : Hash) :
    TxBlockHeader :=
  let transactions := microBlocks.flatMap (·.transactions)
  { version := first.header.version
    timestamp := some s.clock
    previousBlockHash := previous.bytes
    blockNumber := first.header.blockNumber
    dsCoinBase := [s.coinBase]
    shardingLeadCoinBase := microBlocks.map (·.shardingLeadCoinBase)
    stateRoot := []
    txRoot := computeMerkelRoot P transactions
    gasLimit := max (transactions.map (·.gasLimit)).sum (calcGasLimit s.txHead)
    gasUsed := (microBlocks.map (·.header.gasUsed)).sum
    dsBlockNum := first.header.dsBlockNum
    dsBlockHash := first.header.dsBlockHash
    miner := some s.selfNode
    txNum := (microBlocks.map (·.header.txNum)).sum
    boolMap := [], signature := [], multiPubKey := [] }

def composeFinalBlock (s : PeerServer P) (microBlockList : List MicroBlock) : Except Err TxBlock :=
  match microBlockList with
  | [] => .error (.consensus .composeBlock)
  | first :: _ => do
    let previous ← s.txHead.hash P.toEnv
    let header := finalHeader s first microBlockList previous
    let hash ← header.hash P.toEnv
    return ⟨header, {
      numberOfMicroBlock := UInt32.ofNat microBlockList.length
      microBlockHashes := microBlockList.map (microBlockHash P)
      transactions := microBlockList.flatMap (·.transactions)
      currentBlockHash := hash.bytes }⟩

/-- `RoleDsBackup.onWait4MicroBlockSubmissionDone`. -/
def onWait4MicroBlockSubmissionDone (microBlockList : List MicroBlock) : NodeProc P Unit := do
  .update fun s => {s with currentType := .finalBlock}
  let s ← .read id
  let leader ← .lift (index s.committee 0)
  .update fun s => {s with leader := leader}
  let txblock ← .lift (orError (.consensus .composeBlock) (composeFinalBlock s microBlockList))
  let ptocoin ← .lift (match s.coinbaseByPubkey leader.pubkey with
    | some ptocoin => .ok ptocoin
    | none => .error (.consensus .getCoinBase))
  .update ((finalSlot P).set (withDSCoinBase txblock [ptocoin]))

/-! ### What is compared -/

/-- All that `verifyFinalBlock` compares of an announced block `b` with the backup's own. -/
structure PassesFinal (P : Platform) (mine b : TxBlock) : Prop where
  hashes : mine.body.microBlockHashes.Perm b.body.microBlockHashes
  leads : mine.header.shardingLeadCoinBase.Perm b.header.shardingLeadCoinBase
  number : b.body.numberOfMicroBlock = mine.body.numberOfMicroBlock
  txNum : b.header.txNum = mine.header.txNum
  dsBlockNum : b.header.dsBlockNum = mine.header.dsBlockNum
  previous : b.header.previousBlockHash = mine.header.previousBlockHash
  root : computeMerkelRoot P b.body.transactions = b.header.txRoot

theorem verifyFinalBlock_ok {s : PeerServer P} {b : TxBlock} {msg : Message} (h : announced P P.txBlock msg = .ok b) :
    (∃ t, verifyFinalBlock P msg s = (.ok ⟨⟩, t)) ↔ ∃ mine, s.currentFinalBlock = some mine ∧ PassesFinal P mine b := by
  unfold verifyFinalBlock
  rw [bind_lift h]
  cases hget : s.currentFinalBlock with
  | none =>
    refine ⟨fun ⟨t, hrun⟩ => ?_, fun ⟨_, hmine, _⟩ => nomatch hmine⟩
    obtain ⟨mine, hmine, -⟩ := Slot.current_bind_ok hrun
    exact nomatch hget.symm.trans hmine
  | some mine =>
    rw [bind_run ((finalSlot P).current_run hget)]
    simp only [ensure_bind_ok, isPerm_iff, Option.some.injEq, exists_eq_left']
    constructor
    · rintro ⟨t, hhashes, hleads, hnumber, htxNum, hds, hprevious, hroot, -⟩
      exact ⟨hhashes, hleads, hnumber, htxNum, hds, hprevious, hroot⟩
    · rintro ⟨hhashes, hleads, hnumber, htxNum, hds, hprevious, hroot⟩
      exact ⟨_, hhashes, hleads, hnumber, htxNum, hds, hprevious, hroot, rfl⟩

/-! ### Micro blocks in any order -/

section Order
variable {s t : PeerServer P} {b mine : TxBlock} {l l' : List MicroBlock}

/-- The block is one of these micro blocks on that head, as far as a backup can tell. -/
structure Summarizes (P : Platform) (l : List MicroBlock) (txHead b : TxBlock) : Prop where
  hashes : (l.map (microBlockHash P)).Perm b.body.microBlockHashes
  leads : (l.map (·.shardingLeadCoinBase)).Perm b.header.shardingLeadCoinBase
  number : b.body.numberOfMicroBlock = UInt32.ofNat l.length
  txNum : b.header.txNum = (l.map (·.header.txNum)).sum
  dsBlockNum : ∀ m ∈ l, b.header.dsBlockNum = m.header.dsBlockNum
  previous : ∃ hash, txHead.hash P.toEnv = .ok hash ∧ b.header.previousBlockHash = hash.bytes

theorem Summarizes.perm (h : Summarizes P l txHead b) (hperm : l'.Perm l) : Summarizes P l' txHead b where
  hashes := (hperm.map _).trans h.hashes
  leads := (hperm.map _).trans h.leads
  number := by rw [h.number, hperm.length_eq]
  txNum := h.txNum.trans (hperm.map _).sum_eq.symm
  dsBlockNum := fun m hm => h.dsBlockNum m (hperm.mem_iff.mp hm)
  previous := h.previous

theorem composeFinalBlock_ok (h : composeFinalBlock s l = .ok b) : ∃ first rest previous hash, l = first :: rest ∧
    s.txHead.hash P.toEnv = .ok previous ∧ b.header = finalHeader s first l previous ∧
    b.body = ⟨UInt32.ofNat l.length, l.map (microBlockHash P), l.flatMap (·.transactions), hash⟩ := by
  cases l with
  | nil => exact nomatch h
  | cons first rest =>
    obtain ⟨previous, hprevious, h⟩ := except_bind_ok.mp h
    cases h
    exact ⟨first, rest, previous, _, rfl, hprevious, rfl, rfl⟩

/-- Nothing can go wrong but the hash of the head. -/
theorem composeFinalBlock_isOk (hne : l ≠ []) (hprevious : s.txHead.hash P.toEnv = .ok previous) :
    ∃ b, composeFinalBlock s l = .ok b := by
  obtain ⟨first, rest, rfl⟩ := exists_cons_of_ne_nil hne
  unfold composeFinalBlock
  rw [hprevious]
  exact ⟨_, rfl⟩

def OneDSBlock (l : List MicroBlock) : Prop := ∀ m ∈ l, ∀ m' ∈ l, m.header.dsBlockNum = m'.header.dsBlockNum

theorem composeFinalBlock_summarizes (hone : OneDSBlock l) (h : composeFinalBlock s l = .ok b) :
    Summarizes P l s.txHead b ∧ computeMerkelRoot P b.body.transactions = b.header.txRoot := by
  obtain ⟨first, rest, previous, hash, hl, hprevious, hheader, hbody⟩ := composeFinalBlock_ok h
  have hfirst : first ∈ l := hl ▸ mem_cons_self
  rw [hbody, hheader]
  refine ⟨⟨?_, ?_, ?_, ?_, ?_, previous, hprevious, ?_⟩, rfl⟩
  · rw [hbody]
  · rw [hheader]
    exact .refl _
  · rw [hbody]
  · rw [hheader]
    rfl
  · intro m hm
    rw [hheader]
    exact hone first hfirst m hm
  · rw [hheader]
    rfl

theorem Summarizes.passes_iff (hb : Summarizes P l txHead b) (hne : l ≠ [])
    (hroot : computeMerkelRoot P b.body.transactions = b.header.txRoot) :
    PassesFinal P mine b ↔ Summarizes P l txHead mine := by
  obtain ⟨first, rest, rfl⟩ := exists_cons_of_ne_nil hne
  constructor
  · intro h
    refine ⟨hb.hashes.trans h.hashes.symm, hb.leads.trans h.leads.symm, h.number.symm.trans hb.number,
      h.txNum.symm.trans hb.txNum, fun m hm => h.dsBlockNum.symm.trans (hb.dsBlockNum m hm), ?_⟩
    obtain ⟨hash, hhash, hprevious⟩ := hb.previous
    exact ⟨hash, hhash, h.previous.symm.trans hprevious⟩
  · intro h
    obtain ⟨hash, hhash, hprevious⟩ := hb.previous
    obtain ⟨hash', hhash', hprevious'⟩ := h.previous
    obtain rfl := Except.ok.inj (hhash.symm.trans hhash')
    have hfirst := mem_cons_self (a := first) (l := rest)
    exact ⟨h.hashes.symm.trans hb.hashes, h.leads.symm.trans hb.leads, hb.number.trans h.number.symm,
      hb.txNum.trans h.txNum.symm, (hb.dsBlockNum _ hfirst).trans (h.dsBlockNum _ hfirst).symm,
      hprevious.trans hprevious'.symm, hroot⟩

def CoinbaseKnown (s : PeerServer P) : Prop := ∃ p, s.committee.head? = some p ∧ (s.coinbaseByPubkey p.pubkey).isSome

/-- When the micro blocks are in, a backup that knows the coinbase of the leader has a block of its own. -/
theorem currentFinalBlock_done_known (hne : l ≠ []) (hprevious : s.txHead.hash P.toEnv = .ok previous)
    (hknown : CoinbaseKnown s) : ∃ txblock coinbases, composeFinalBlock s l = .ok txblock ∧
      (onWait4MicroBlockSubmissionDone l s).2.currentFinalBlock = some (withDSCoinBase txblock coinbases) := by
  obtain ⟨p, hp, hcache⟩ := hknown
  obtain ⟨ptocoin, hptocoin⟩ := Option.isSome_iff_exists.mp hcache
  obtain ⟨txblock, hcompose⟩ := composeFinalBlock_isOk hne hprevious
  have hleader : index s.committee 0 = .ok p := index_ok.mpr (by rw [← head?_eq_getElem?]; exact hp)
  have hcoin : (match s.coinbaseByPubkey p.pubkey with
      | some ptocoin => .ok ptocoin
      | none => .error (.consensus .getCoinBase) : Except Err Bytes) = .ok ptocoin := by rw [hptocoin]
  have hrun : onWait4MicroBlockSubmissionDone l s = (.ok ⟨⟩, (finalSlot P).set (withDSCoinBase txblock [ptocoin])
      {s with currentType := .finalBlock, leader := p}) :=
    bind_update.trans <| bind_read.trans <| (bind_lift hleader).trans <| bind_update.trans <|
      (bind_lift (orError_ok.mpr hcompose)).trans (bind_lift hcoin)
  exact ⟨txblock, [ptocoin], hcompose, by rw [hrun]; rfl⟩

theorem currentFinalBlock_done_unknown (hunknown : ¬CoinbaseKnown s) :
    (onWait4MicroBlockSubmissionDone l s).2.currentFinalBlock = s.currentFinalBlock := by
  let Q (t : PeerServer P) : Prop := t.currentFinalBlock = s.currentFinalBlock
  have hmarked : Q {s with currentType := .finalBlock} := rfl
  refine state_lift_bind hmarked fun leader hleader => ?_
  refine state_lift_bind hmarked fun txblock _ => ?_
  refine state_lift_bind hmarked fun ptocoin hptocoin => absurd ?_ hunknown
  refine ⟨leader, by rw [head?_eq_getElem?]; exact index_ok.mp hleader, ?_⟩
  dsimp only [id] at hptocoin
  split at hptocoin
  · next hcache => rw [hcache]; rfl
  · exact nomatch hptocoin

/-- **Micro blocks in any order.** Leader and backup have one head and accepted the same micro blocks. The block the
leader composes passes if the backup knows the coinbase of the leader; if not, it passes only if the final block the
backup was left with is itself one of these micro blocks. -/
theorem microblock_order_iff (hpayload : P.payload.RoundTrip) (hblock : P.txBlock.RoundTrip) {msg : Message}
    (hhead : t.txHead = s.txHead) (hperm : l'.Perm l) (hne : l ≠ []) (hone : OneDSBlock l)
    (hcompose : composeFinalBlock s l = .ok b)
    (hmsg : msg.payload = consensusPayload P .finalBlock (P.txBlock.marshal b)) :
    (∃ u, verifyFinalBlock P msg (onWait4MicroBlockSubmissionDone l' t).2 = (.ok ⟨⟩, u)) ↔
      CoinbaseKnown t ∨ ∃ old, t.currentFinalBlock = some old ∧ Summarizes P l t.txHead old := by
  obtain ⟨hsummary, hroot⟩ := composeFinalBlock_summarizes hone hcompose
  obtain ⟨previous, hprevious, -⟩ := hsummary.previous
  rw [verifyFinalBlock_ok (announced_payload hpayload hblock hmsg)]
  simp only [hsummary.passes_iff hne hroot]
  rw [hhead]
  by_cases hknown : CoinbaseKnown t
  · refine ⟨fun _ => .inl hknown, fun _ => ?_⟩
    have hne' : l' ≠ [] := fun hnil => hne (List.nil_perm.mp (hnil ▸ hperm))
    have hone' : OneDSBlock l' := fun m hm m' hm' => hone m (hperm.mem_iff.mp hm) m' (hperm.mem_iff.mp hm')
    obtain ⟨txblock, coinbases, hcompose', hcurrent⟩ := currentFinalBlock_done_known hne' (hhead ▸ hprevious) hknown
    have hown := (composeFinalBlock_summarizes hone' hcompose').1.perm hperm.symm
    rw [hhead] at hown
    exact ⟨_, hcurrent, ⟨hown.hashes, hown.leads, hown.number, hown.txNum, hown.dsBlockNum, hown.previous⟩⟩
  · rw [currentFinalBlock_done_unknown hknown]
    exact ⟨.inr, fun h => h.resolve_left hknown⟩

end Order

/-- A micro block without transactions, of the shard with the given id. -/
def emptyMicroBlock (shardID : UInt32) : MicroBlock :=
  ⟨(Core.sampleBlock 1 []).header, shardID, some (Chain.peerWithKey 5), [shardID.toUInt8], []⟩

/-- A node of the committee of one that may know its coinbase. -/
def collectingNode (coinbase : Option Bytes) : PeerServer Platform.sample :=
  {sampleNode 5 [Chain.peerWithKey 5] with coinbaseByPubkey := fun _ => coinbase}

/-- The announcement of a final block in the computable platform. -/
def sampleFinalAnnouncement (b : TxBlock) : Message where
  type := .consensusAnnounce
  timestamp := none
  payload := consensusPayload Platform.sample .finalBlock (Platform.sample.txBlock.marshal b)
  signature := []
  peer := none

theorem oneDSBlock_pair : OneDSBlock [emptyMicroBlock 0, emptyMicroBlock 1] := by
  simp [OneDSBlock, emptyMicroBlock]

theorem composeFinalBlock_pair (coinbase : Option Bytes) :
    ∃ b, composeFinalBlock (collectingNode coinbase) [emptyMicroBlock 0, emptyMicroBlock 1] = .ok b := by
  obtain ⟨previous, hprevious⟩ := Core.exists_of_isOk
    (show ((collectingNode none).txHead.hash Platform.sample.toEnv).isOk = true by decide +kernel)
  exact composeFinalBlock_isOk (by simp) hprevious

/-- Two micro blocks that come in in the opposite order. -/
theorem microblock_order_pair :
    ∃ b u, composeFinalBlock (collectingNode (some [9])) [emptyMicroBlock 0, emptyMicroBlock 1] = .ok b ∧
      verifyFinalBlock Platform.sample (sampleFinalAnnouncement b)
        (onWait4MicroBlockSubmissionDone [emptyMicroBlock 1, emptyMicroBlock 0] (collectingNode (some [9]))).2 =
          (.ok ⟨⟩, u) := by
  obtain ⟨b, hb⟩ := composeFinalBlock_pair (some [9])
  have hmsg : (sampleFinalAnnouncement b).payload =
      consensusPayload Platform.sample .finalBlock (Platform.sample.txBlock.marshal b) := rfl
  have hknown : CoinbaseKnown (collectingNode (some [9])) := ⟨_, rfl, rfl⟩
  obtain ⟨u, hu⟩ := (microblock_order_iff (Codec.numbered_roundTrip _) (Codec.numbered_roundTrip _) rfl
    (List.Perm.swap _ _ []) (by simp) oneDSBlock_pair hb hmsg).mpr (.inl hknown)
  exact ⟨b, u, hb, hu⟩

/-- A backup that does not know the coinbase of the leader has nothing to compare with. -/
theorem microblock_order_unknown :
    ∃ b, composeFinalBlock (collectingNode none) [emptyMicroBlock 0, emptyMicroBlock 1] = .ok b ∧
      ¬∃ u, verifyFinalBlock Platform.sample (sampleFinalAnnouncement b)
        (onWait4MicroBlockSubmissionDone [emptyMicroBlock 0, emptyMicroBlock 1] (collectingNode none)).2 = (.ok ⟨⟩, u) := by
  obtain ⟨b, hb⟩ := composeFinalBlock_pair none
  have hannounced : announced Platform.sample Platform.sample.txBlock (sampleFinalAnnouncement b) = .ok b :=
    announced_payload (Codec.numbered_roundTrip _) (Codec.numbered_roundTrip _) rfl
  refine ⟨b, hb, fun hpass => ?_⟩
  obtain ⟨mine, hmine, -⟩ := (verifyFinalBlock_ok hannounced).mp hpass
  exact nomatch hmine

/-! ### A block of other transactions -/

section Sound
variable {s : PeerServer P}

/-- The transactions are those of the micro blocks, in some order of the micro blocks, and the block is the next
one. -/
def OfMicroBlocks (s : PeerServer P) (microBlockList : List MicroBlock) (b : TxBlock) : Prop :=
  (∃ order : List MicroBlock, order.Perm microBlockList ∧ b.body.transactions = order.flatMap (·.transactions)) ∧
    b.header.blockNumber = s.txHead.numberU64 + 1

/-- The backup's own block under another number, with the root of its transactions put in. -/
def renumbered (P : Platform) (mine : TxBlock) (number : UInt64) : TxBlock :=
  {mine with header := {mine.header with
    blockNumber := number, txRoot := computeMerkelRoot P mine.body.transactions}}

theorem renumbered_passes (mine : TxBlock) (number : UInt64) : PassesFinal P mine (renumbered P mine number) :=
  ⟨.refl _, .refl _, rfl, rfl, rfl, rfl, rfl⟩

/-- **Announced final blocks.** That every final block a backup accepts is made of the micro blocks it accepted, and
is the next one, is true only while the backup has no current final block and accepts none. -/
theorem finalBlock_sound_iff (hpayload : P.payload.RoundTrip) (hblock : P.txBlock.RoundTrip) (s : PeerServer P)
    (microBlockList : List MicroBlock) :
    (∀ msg b t, announced P P.txBlock msg = .ok b → verifyFinalBlock P msg s = (.ok ⟨⟩, t) →
      OfMicroBlocks s microBlockList b) ↔ s.currentFinalBlock = none := by
  constructor
  · intro hsound
    by_contra hsome
    obtain ⟨mine, hmine⟩ := Option.ne_none_iff_exists'.mp hsome
    let blk := renumbered P mine (s.txHead.numberU64 + 2)
    let msg : Message := ⟨.consensusAnnounce, none, consensusPayload P .finalBlock (P.txBlock.marshal blk), [], none⟩
    have hannounced : announced P P.txBlock msg = .ok blk := announced_payload hpayload hblock rfl
    obtain ⟨t, ht⟩ := (verifyFinalBlock_ok hannounced).mpr ⟨mine, hmine, renumbered_passes mine _⟩
    have hnumber : s.txHead.numberU64 + 2 = s.txHead.numberU64 + 1 := (hsound msg blk t hannounced ht).2
    exact absurd (UInt64.add_right_inj _ |>.mp hnumber) (by decide)
  · intro hnone msg b t hannounced hrun
    obtain ⟨mine, hmine, -⟩ := (verifyFinalBlock_ok hannounced).mp ⟨t, hrun⟩
    exact nomatch hnone.symm.trans hmine

end Sound

/-- A backup that has composed no final block accepts none. -/
theorem finalBlock_sound_idle : (collectingNode none).currentFinalBlock = none ∧
    ∀ msg b t, announced Platform.sample Platform.sample.txBlock msg = .ok b →
      verifyFinalBlock Platform.sample msg (collectingNode none) = (.ok ⟨⟩, t) → OfMicroBlocks (collectingNode none) [] b :=
  ⟨rfl, (finalBlock_sound_iff (Codec.numbered_roundTrip _) (Codec.numbered_roundTrip _) (collectingNode none) []).mpr rfl⟩

/-- A block of other transactions than the backup's own. -/
def substituted (mine : TxBlock) (transactions : List Transaction) : TxBlock where
  header := {mine.header with txRoot := computeMerkelRoot Platform.sample transactions}
  body := {mine.body with transactions := transactions}

theorem substituted_passes (mine : TxBlock) (transactions : List Transaction) :
    PassesFinal Platform.sample mine (substituted mine transactions) := ⟨.refl _, .refl _, rfl, rfl, rfl, rfl, rfl⟩

/-- Two micro blocks without transactions have come in; a final block with a transaction is accepted. -/
theorem substituted_accepted : ∃ s mine t,
    s = (onWait4MicroBlockSubmissionDone [emptyMicroBlock 0, emptyMicroBlock 1] (collectingNode (some [9]))).2 ∧
      s.currentFinalBlock = some mine ∧
      verifyFinalBlock Platform.sample (sampleFinalAnnouncement (substituted mine [Core.sampleTx (some [9]) 0 5])) s =
        (.ok ⟨⟩, t) ∧
      ¬OfMicroBlocks s [emptyMicroBlock 0, emptyMicroBlock 1] (substituted mine [Core.sampleTx (some [9]) 0 5]) := by
  obtain ⟨b, hb⟩ := composeFinalBlock_pair (some [9])
  obtain ⟨-, -, previous, -, -, hprevious, -, -⟩ := composeFinalBlock_ok hb
  obtain ⟨txblock, coinbases, -, hcurrent⟩ := currentFinalBlock_done_known (l := [emptyMicroBlock 0, emptyMicroBlock 1])
    (by simp) hprevious ⟨_, rfl, rfl⟩
  have hannounced (x : TxBlock) : announced Platform.sample Platform.sample.txBlock (sampleFinalAnnouncement x) = .ok x :=
    announced_payload (Codec.numbered_roundTrip _) (Codec.numbered_roundTrip _) rfl
  obtain ⟨t, ht⟩ := (verifyFinalBlock_ok (hannounced (substituted _ [Core.sampleTx (some [9]) 0 5]))).mpr
    ⟨_, hcurrent, substituted_passes _ _⟩
  refine ⟨_, _, t, rfl, hcurrent, ht, ?_⟩
  rintro ⟨⟨order, hperm, htxs⟩, -⟩
  have hempty : order.flatMap (·.transactions) = [] := by
    refine List.flatMap_eq_nil_iff.mpr fun m hm => ?_
    have hm := hperm.mem_iff.mp hm
    simp only [List.mem_cons, List.not_mem_nil, or_false] at hm
    rcases hm with rfl | rfl <;> rfl
  exact nomatch htxs.trans hempty

end Okchain.Consensus
