import Okchain.Consensus.HonestBackup
import Okchain.Consensus.PowList

/-! The DS block a leader announces, and what a backup checks of it.

The leader writes its own difficulty into the header, and the backup expects the one the winner has declared; to
compare two sharding nodes it looks at their names, which a submission can come without. It never looks at the
committee of the block nor at the keys of its sharding nodes.
-/
namespace Okchain.Consensus
open Lib Proc Protos List

variable {P : Platform}

/-! ### The checks -/

theorem ite_error_ok {α : Type} {c : Prop} [Decidable c] {e : Err} {x : Except Err α} {a : α} :
    (if c then .error e else x) = .ok a ↔ ¬c ∧ x = .ok a := by
  by_cases hc : c <;> simp [hc]

def nameOf (p : PeerEndpoint) : Option Bytes := p.id.map (·.name)

theorem peerName_ok {p : PeerEndpoint} {name : Bytes} : peerName p = .ok name ↔ nameOf p = some name := by
  unfold peerName nameOf
  cases p.id with
  | none => simp [deref]
  | some id => simp [deref, bind, Except.bind, pure, Except.pure]

/-- The name of the peer behind the submission at a place. -/
def submitterName (pows : List PoWSubmission) (i : Nat) : Option Bytes := (pows[i]?.bind (·.peer)).bind nameOf

def nodeName (nodes : List PeerEndpoint) (i : Nat) : Option Bytes := nodes[i]?.bind nameOf

def shardCount (s : PeerServer P) : UInt32 := if wholeShards s = 0 then 1 else UInt32.ofNat (wholeShards s)

/-- All that `verifyDSBlock` looks at. -/
structure Passes (s : PeerServer P) (b : DSBlock) : Prop where
  winner : ∃ pow pows, s.poWSubList = pow :: pows ∧ pow.publicKey = b.header.winnerPubKey ∧
    pow.nonce = b.header.winnerNonce ∧ pow.difficulty = b.header.powDifficulty ∧ pow.peer = b.header.newLeader
  number : s.dsHead.numberU64 + 1 = b.header.blockNumber
  previous : ∃ hash, s.dsHead.hash P.toEnv = .ok hash ∧ b.header.previousBlockHash = hash.bytes
  size : s.shardingSize ≠ 0
  sum : b.header.shardingSum = shardCount s
  last : ∃ name, s.committee.getLast?.bind nameOf = some name ∧ nodeName b.body.shardingNodes 0 = some name
  others : ∀ i, 0 < i → i < usedSubmissions s → ∃ name, submitterName s.poWSubList i = some name ∧
    nodeName b.body.shardingNodes i = some name

open Option (bind_eq_some_iff isSome_iff_exists)

theorem checkShardingNodes_ok {pows : List PoWSubmission} {nodes : List PeerEndpoint} {places : List Nat} {u : Unit} :
    checkShardingNodes pows nodes places = .ok u ↔
      ∀ i ∈ places, ∃ name, submitterName pows i = some name ∧ nodeName nodes i = some name := by
  induction places with
  | nil => simp [checkShardingNodes]
  | cons i rest ih =>
    have hplace : checkShardingNodes pows nodes (i :: rest) = .ok u ↔
        (∃ name, submitterName pows i = some name ∧ nodeName nodes i = some name) ∧
          checkShardingNodes pows nodes rest = .ok u := by
      simp only [checkShardingNodes, except_bind_ok, deref_ok, index_ok, peerName_ok, submitterName, nodeName,
        bind_eq_some_iff]
      constructor
      · rintro ⟨pow, hpow, peer, hpeer, name, hname, node, hnode, name', hname', h⟩
        split at h
        · next heq =>
          subst heq
          exact ⟨⟨name, ⟨peer, ⟨pow, hpow, hpeer⟩, hname⟩, node, hnode, hname'⟩, h⟩
        · exact nomatch h
      · rintro ⟨⟨name, ⟨peer, ⟨pow, hpow, hpeer⟩, hname⟩, node, hnode, hname'⟩, h⟩
        exact ⟨pow, hpow, peer, hpeer, name, hname, node, hnode, name, hname', by rw [if_pos rfl]; exact h⟩
    rw [hplace, ih, forall_mem_cons]

theorem mem_range_drop_one {i n : Nat} : i ∈ (range n).drop 1 ↔ 0 < i ∧ i < n := by
  cases n with
  | zero => simp
  | succ n =>
    rw [range_succ_eq_map, drop_one, tail_cons, mem_map]
    constructor
    · rintro ⟨j, hj, rfl⟩
      have := mem_range.mp hj
      omega
    · rintro ⟨hpos, hlt⟩
      exact ⟨i - 1, mem_range.mpr (by omega), by omega⟩

theorem checkDSBlock_ok {s : PeerServer P} {b : DSBlock} {u : Unit} : checkDSBlock P s b = .ok u ↔ Passes s b := by
  have hused : (if s.poWSubList.length / s.shardingSize * s.shardingSize = 0 then s.poWSubList.length
      else s.poWSubList.length / s.shardingSize * s.shardingSize) = usedSubmissions s := by
    unfold usedSubmissions wholeShards
    rw [ite_not]
  unfold checkDSBlock
  cases hpows : s.poWSubList with
  | nil =>
    refine ⟨(nomatch ·), fun h => ?_⟩
    obtain ⟨pow, pows, hcons, -⟩ := h.winner
    exact nomatch hpows.symm.trans hcons
  | cons pow pows =>
    simp only [ite_error_ok, except_bind_ok, index_ok, peerName_ok, hused, not_not, checkShardingNodes_ok,
      mem_range_drop_one, ← head?_eq_getElem?, head?_reverse, ← hpows]
    constructor
    · rintro ⟨hkey, hnonce, hnumber, hdiff, hash, hhash, hprevious, hsize, hsum, node, hnode, name, hfirst, last, hlast,
        name', hname, hsame, _, hothers, hleader, -⟩
      exact ⟨⟨pow, pows, hpows, hkey, hnonce, hdiff, hleader⟩, hnumber, ⟨hash, hhash, hprevious⟩, hsize, hsum,
        ⟨name, bind_eq_some_iff.mpr ⟨last, hlast, hsame ▸ hname⟩, bind_eq_some_iff.mpr
          ⟨node, (head?_eq_getElem? ▸ hnode), hfirst⟩⟩, fun i hpos hlt => hothers i ⟨hpos, hlt⟩⟩
    · rintro ⟨⟨pow', pows', hpows', hkey, hnonce, hdiff, hleader⟩, hnumber, ⟨hash, hhash, hprevious⟩, hsize, hsum,
        ⟨name, hlast, hfirst⟩, hothers⟩
      obtain ⟨rfl, rfl⟩ := cons.inj (hpows.symm.trans hpows')
      obtain ⟨last, hlast, hname⟩ := bind_eq_some_iff.mp hlast
      obtain ⟨node, hnode, hfirst⟩ := bind_eq_some_iff.mp hfirst
      exact ⟨hkey, hnonce, hnumber, hdiff, hash, hhash, hprevious, hsize, hsum, node, head?_eq_getElem? ▸ hnode, name,
        hfirst, last, hlast, name, hname, rfl, ⟨⟩, fun i hi => hothers i hi.1 hi.2, hleader, rfl⟩

theorem verifyDSBlock_ok {s : PeerServer P} {b : DSBlock} {msg : Message} (h : announced P P.dsBlock msg = .ok b) :
    (∃ t, verifyDSBlock P msg s = (.ok ⟨⟩, t)) ↔ Passes s b := by
  rw [← checkDSBlock_ok (u := ⟨⟩)]
  constructor
  · rintro ⟨t, hrun⟩
    unfold verifyDSBlock at hrun
    rw [bind_lift h] at hrun
    obtain ⟨_, hcheck, -⟩ := lift_bind_ok.mp hrun
    exact hcheck
  · intro hcheck
    exact ⟨_, (bind_lift h).trans (bind_read.trans (bind_lift hcheck))⟩

/-! ### A block composed from the same list -/

section Complete
variable {l b : PeerServer P} {blk : DSBlock} {rules : PowRules P} {admitted : List (Admission P)}

/-- Leader and backup are at the same place of the DS chain, with one committee and one list of submissions. -/
structure SameView (l b : PeerServer P) : Prop where
  head : b.dsHead = l.dsHead
  committee : b.committee = l.committee
  submissions : b.poWSubList = l.poWSubList

/-- What it takes for the leader's block to pass: the winner has declared the leader's difficulty, the peers the
backup looks up have names, and the two nodes make shards of their submissions alike. -/
structure Acceptable (l b : PeerServer P) : Prop where
  difficulty : ∀ pow ∈ l.poWSubList.head?, pow.difficulty = l.powDifficulty
  last : (l.committee.getLast?.bind nameOf).isSome
  named : ∀ i, 0 < i → i < usedSubmissions b → (submitterName l.poWSubList i).isSome
  size : b.shardingSize ≠ 0
  shards : shardCount b = shardCount l
  used : usedSubmissions b ≤ usedSubmissions l

/-- A composed block, as far as it is checked and `ComposedDSBlock` does not say. -/
structure ComposedHeader (s : PeerServer P) (b : DSBlock) : Prop where
  winner : ∃ pow pows, s.poWSubList = pow :: pows ∧ b.header.winnerPubKey = pow.publicKey ∧
    b.header.winnerNonce = pow.nonce ∧ b.header.newLeader = pow.peer
  number : b.header.blockNumber = s.dsHead.numberU64 + 1
  difficulty : b.header.powDifficulty = s.powDifficulty
  previous : ∃ hash, s.dsHead.hash P.toEnv = .ok hash ∧ b.header.previousBlockHash = hash.bytes
  recruited : ((List.range (usedSubmissions s)).drop 1).map (fun i => s.poWSubList[i]?.bind (·.peer)) =
    b.body.shardingNodes.tail.map some

theorem composeDSBlock_header {s : PeerServer P} {b : DSBlock} (h : composeDSBlock s = .ok b) : ComposedHeader s b := by
  unfold composeDSBlock at h
  split at h
  case h_1 => exact nomatch h
  case h_2 pow pows hpows =>
    obtain ⟨previous, hprevious, h⟩ := except_bind_ok.mp h
    obtain ⟨winner, -, h⟩ := except_bind_ok.mp h
    obtain ⟨-, h⟩ := ite_error_ok.mp h
    obtain ⟨last, -, h⟩ := except_bind_ok.mp h
    obtain ⟨rest, hrest, h⟩ := except_bind_ok.mp h
    obtain ⟨hash, -, h⟩ := except_bind_ok.mp h
    cases h
    exact ⟨⟨pow, pows, hpows, rfl, rfl, rfl⟩, rfl, rfl, ⟨previous, hprevious, rfl⟩, submitters_ok hrest⟩

theorem nodeName_composed (h : ComposedHeader l blk) {i : Nat} (hpos : 0 < i) (hlt : i < usedSubmissions l) :
    nodeName blk.body.shardingNodes i = submitterName l.poWSubList i := by
  obtain ⟨j, rfl⟩ := Nat.exists_eq_add_one_of_ne_zero hpos.ne'
  have hplace : ((range (usedSubmissions l)).drop 1)[j]? = some (j + 1) := by
    rw [List.getElem?_drop, Nat.add_comm, List.getElem?_range hlt]
  have hnode := congrArg (·[j]?) h.recruited
  rw [List.getElem?_map, List.getElem?_map, hplace, List.getElem?_tail] at hnode
  unfold nodeName submitterName
  cases hsome : blk.body.shardingNodes[j + 1]? with
  | none =>
    rw [hsome] at hnode
    exact nomatch hnode
  | some node =>
    rw [hsome] at hnode
    have hpeer : l.poWSubList[j + 1]?.bind (·.peer) = some node := Option.some.inj hnode
    rw [hpeer]

theorem nodeName_composed_last {winner last : PeerEndpoint} (h : ComposedDSBlock l blk winner last) :
    nodeName blk.body.shardingNodes 0 = l.committee.getLast?.bind nameOf := by
  rw [h.nodes, h.last_mem]
  rfl

theorem nodeName_lt {nodes : List PeerEndpoint} {i : Nat} {name : Bytes} (h : nodeName nodes i = some name) :
    i < nodes.length := by
  obtain ⟨node, hnode, -⟩ := bind_eq_some_iff.mp h
  exact (List.getElem?_eq_some_iff.mp hnode).1

theorem passes_iff (hview : SameView l b) (hcompose : composeDSBlock l = .ok blk) : Passes b blk ↔ Acceptable l b := by
  obtain ⟨winner, last, hcomposed⟩ := composeDSBlock_composed hcompose
  have hheader := composeDSBlock_header hcompose
  obtain ⟨pow, pows, hpows, hkey, hnonce, hleader⟩ := hheader.winner
  have hlength : blk.body.shardingNodes.length = usedSubmissions l := by
    have hpos := usedSubmissions_pos hcomposed
    rw [hcomposed.nodes, length_cons, hcomposed.recruited]
    omega
  have hsum : blk.header.shardingSum = shardCount l := hcomposed.sum
  constructor
  · intro h
    obtain ⟨pow', pows', hpows', -, -, hdiff, -⟩ := h.winner
    obtain ⟨name, hname, hfirst⟩ := h.last
    rw [hview.submissions, hpows] at hpows'
    obtain ⟨rfl, rfl⟩ := cons.inj hpows'
    refine ⟨fun pow' hpow' => ?_, ?_, fun i hpos hlt => ?_, h.size, h.sum.symm.trans hsum, ?_⟩
    · rw [hpows] at hpow'
      cases hpow'
      exact hdiff.trans hheader.difficulty
    · rw [← hview.committee, hname]
      rfl
    · obtain ⟨name', hname', -⟩ := h.others i hpos hlt
      rw [← hview.submissions, hname']
      rfl
    · by_contra hmore
      -- the place after the last node is looked up
      have hplace := usedSubmissions_pos hcomposed
      obtain ⟨name', -, hnode⟩ := h.others (usedSubmissions l) hplace (not_le.mp hmore)
      exact absurd (nodeName_lt hnode) (by omega)
  · intro h
    have hdiff := h.difficulty pow (by rw [hpows]; rfl)
    obtain ⟨hash, hhash, hprevious⟩ := hheader.previous
    obtain ⟨name, hname⟩ := isSome_iff_exists.mp h.last
    refine ⟨⟨pow, pows, hview.submissions.trans hpows, hkey.symm, hnonce.symm, hdiff.trans hheader.difficulty.symm,
      hleader.symm⟩, by rw [hview.head, hheader.number], ⟨hash, by rw [hview.head]; exact hhash, hprevious⟩, h.size,
      hsum.trans h.shards.symm, ⟨name, by rw [hview.committee]; exact hname,
        (nodeName_composed_last hcomposed).trans hname⟩, fun i hpos hlt => ?_⟩
    obtain ⟨name', hname'⟩ := isSome_iff_exists.mp (h.named i hpos hlt)
    refine ⟨name', by rw [hview.submissions]; exact hname', ?_⟩
    rw [nodeName_composed hheader hpos (hlt.trans_le h.used)]
    exact hname'

theorem announced_payload {B : Type} {c : Codec B} (hpayload : P.payload.RoundTrip) (hc : c.RoundTrip) {msg : Message}
    {type : ConsensusType} {x : B} (h : msg.payload = consensusPayload P type (c.marshal x)) :
    announced P c msg = .ok x := by
  unfold announced
  rw [h, consensusPayload, hpayload.decode]
  exact hc.decode x

end Complete

/-- The announcement of a block in the computable platform. -/
def sampleAnnouncement (blk : DSBlock) : Message where
  type := .consensusAnnounce
  timestamp := none
  payload := consensusPayload Platform.sample .dsBlock (Platform.sample.dsBlock.marshal blk)
  signature := []
  peer := none

section Sound
variable {s : PeerServer P} {blk : DSBlock}

/-- The committee of the block and the keys of its sharding nodes are those of the block the node would compose
itself. -/
def MatchesOwn (s : PeerServer P) (blk : DSBlock) : Prop :=
  ∃ own, composeDSBlock s = .ok own ∧ blk.body.committee = own.body.committee ∧
    pubkeys blk.body.shardingNodes = pubkeys own.body.shardingNodes

/-- The node is in a state in which it can accept a DS block. -/
structure Receptive (s : PeerServer P) : Prop where
  submissions : s.poWSubList ≠ []
  head : ∃ hash, s.dsHead.hash P.toEnv = .ok hash
  size : s.shardingSize ≠ 0
  last : (s.committee.getLast?.bind nameOf).isSome
  named : ∀ i, 0 < i → i < usedSubmissions s → (submitterName s.poWSubList i).isSome

theorem Passes.receptive (h : Passes s blk) : Receptive s := by
  obtain ⟨pow, pows, hpows, -⟩ := h.winner
  obtain ⟨hash, hhash, -⟩ := h.previous
  obtain ⟨name, hname, -⟩ := h.last
  refine ⟨by rw [hpows]; exact cons_ne_nil _ _, ⟨hash, hhash⟩, h.size, by rw [hname]; rfl, fun i hpos hlt => ?_⟩
  obtain ⟨name', hname', -⟩ := h.others i hpos hlt
  rw [hname']
  rfl

/-- The peers a backup compares the sharding nodes with. -/
def expectedNodes (s : PeerServer P) : List PeerEndpoint :=
  s.committee.getLast?.getD emptyEndpoint ::
    ((List.range (usedSubmissions s)).drop 1).map fun i => (s.poWSubList[i]?.bind (·.peer)).getD emptyEndpoint

theorem nodeName_expected {i : Nat} (hpos : 0 < i) (hlt : i < usedSubmissions s)
    (h : (submitterName s.poWSubList i).isSome) :
    nodeName (expectedNodes s) i = submitterName s.poWSubList i := by
  obtain ⟨j, rfl⟩ := Nat.exists_eq_add_one_of_ne_zero hpos.ne'
  have hplace : ((range (usedSubmissions s)).drop 1)[j]? = some (j + 1) := by
    rw [List.getElem?_drop, Nat.add_comm, List.getElem?_range hlt]
  obtain ⟨name, hname⟩ := isSome_iff_exists.mp h
  obtain ⟨peer, hpeer, -⟩ := bind_eq_some_iff.mp hname
  unfold nodeName submitterName expectedNodes
  rw [List.getElem?_cons_succ, List.getElem?_map, hplace, Option.map_some, hpeer]
  rfl

/-- A block that the backup lets pass, with an empty committee. -/
def foreignBlock (s : PeerServer P) (previous : Hash) (pow : PoWSubmission) : DSBlock where
  header := {
    version := 1
    timestamp := none
    previousBlockHash := previous.bytes
    shardingSum := shardCount s
    winnerPubKey := pow.publicKey
    winnerNonce := pow.nonce
    blockNumber := s.dsHead.numberU64 + 1
    powDifficulty := pow.difficulty
    powSubmissionNum := 0
    newLeader := pow.peer
    miner := none
    boolMap := [], signature := [], multiPubKey := []}
  body := ⟨expectedNodes s, [], []⟩

theorem foreignBlock_passes {previous : Hash} {pow : PoWSubmission} {pows : List PoWSubmission} (h : Receptive s)
    (hprevious : s.dsHead.hash P.toEnv = .ok previous) (hpows : s.poWSubList = pow :: pows) :
    Passes s (foreignBlock s previous pow) := by
  obtain ⟨name, hname⟩ := isSome_iff_exists.mp h.last
  obtain ⟨last, hlast, -⟩ := bind_eq_some_iff.mp hname
  have hfirst : nodeName (expectedNodes s) 0 = some name := by
    unfold expectedNodes
    rw [hlast]
    rwa [hlast] at hname
  refine ⟨⟨pow, pows, hpows, rfl, rfl, rfl, rfl⟩, rfl, ⟨previous, hprevious, rfl⟩, h.size, rfl, ⟨name, hname, hfirst⟩,
    fun i hpos hlt => ?_⟩
  have hnamed := h.named i hpos hlt
  obtain ⟨name', hname'⟩ := isSome_iff_exists.mp hnamed
  exact ⟨name', hname', (nodeName_expected hpos hlt hnamed).trans hname'⟩

theorem committee_ne_nil (h : composeDSBlock s = .ok blk) : blk.body.committee ≠ [] := by
  obtain ⟨winner, last, hcomposed⟩ := composeDSBlock_composed h
  rw [hcomposed.committee]
  unfold enqueueAndDequeueTail
  split <;> exact cons_ne_nil _ _

/-- **An announcement and the node's own list.** That every DS block a backup accepts has the committee and the
keys it would have chosen itself is true only of a backup that accepts no block at all. -/
theorem announcement_sound_iff (hpayload : P.payload.RoundTrip) (hblock : P.dsBlock.RoundTrip) (s : PeerServer P) :
    (∀ msg blk t, announced P P.dsBlock msg = .ok blk → verifyDSBlock P msg s = (.ok ⟨⟩, t) → MatchesOwn s blk) ↔
      ¬Receptive s := by
  constructor
  · intro hsound hreceptive
    obtain ⟨previous, hprevious⟩ := hreceptive.head
    obtain ⟨pow, pows, hpows⟩ := List.exists_cons_of_ne_nil hreceptive.submissions
    let msg : Message := ⟨.consensusAnnounce, none,
      consensusPayload P .dsBlock (P.dsBlock.marshal (foreignBlock s previous pow)), [], none⟩
    have hannounced : announced P P.dsBlock msg = .ok (foreignBlock s previous pow) :=
      announced_payload hpayload hblock rfl
    obtain ⟨t, ht⟩ := (verifyDSBlock_ok hannounced).mpr (foreignBlock_passes hreceptive hprevious hpows)
    obtain ⟨own, hown, hcommittee, -⟩ := hsound msg _ t hannounced ht
    exact committee_ne_nil hown hcommittee.symm
  · intro hnot msg blk t hannounced hrun
    exact absurd ((verifyDSBlock_ok hannounced).mp ⟨t, hrun⟩).receptive hnot

end Sound

/-- A backup that has not received a submission accepts no block. -/
theorem announcement_sound_collector : ¬Receptive collector ∧
    ∀ msg blk t, announced Platform.sample Platform.sample.dsBlock msg = .ok blk →
      verifyDSBlock Platform.sample msg collector = (.ok ⟨⟩, t) → MatchesOwn collector blk := by
  have hnot : ¬Receptive collector := fun h => h.submissions rfl
  exact ⟨hnot, (announcement_sound_iff (Codec.numbered_roundTrip _) (Codec.numbered_roundTrip _) collector).mpr hnot⟩

/-- The block of one submission, but with the peer with the key 9, under the name of the last member, for the only
sharding node and as the committee. -/
def takenOver (blk : DSBlock) : DSBlock :=
  {blk with body := {blk.body with shardingNodes := [Chain.peerWithKey 9], committee := [Chain.peerWithKey 9]}}

theorem takenOver_accepted : ∃ blk t, composeDSBlock (collectorWith provedSeven 7) = .ok blk ∧
    verifyDSBlock Platform.sample (sampleAnnouncement (takenOver blk)) (collectorWith provedSeven 7) = (.ok ⟨⟩, t) ∧
    ¬MatchesOwn (collectorWith provedSeven 7) (takenOver blk) := by
  obtain ⟨blk, hblk⟩ := Core.exists_of_isOk (show (composeDSBlock (collectorWith provedSeven 7)).isOk = true by decide +kernel)
  have hcheck : (composeDSBlock (collectorWith provedSeven 7) >>= fun blk =>
      checkDSBlock Platform.sample (collectorWith provedSeven 7) (takenOver blk)) = .ok ⟨⟩ := by decide +kernel
  have hnodes : (composeDSBlock (collectorWith provedSeven 7)).map (·.body.shardingNodes) = .ok [Chain.peerWithKey 2] := by
    decide +kernel
  obtain ⟨blk', hblk', hcheck⟩ := except_bind_ok.mp hcheck
  obtain rfl := Except.ok.inj (hblk.symm.trans hblk')
  rw [hblk] at hnodes
  have hannounced : announced Platform.sample Platform.sample.dsBlock (sampleAnnouncement (takenOver blk)) =
      .ok (takenOver blk) := announced_payload (Codec.numbered_roundTrip _) (Codec.numbered_roundTrip _) rfl
  obtain ⟨t, ht⟩ := (verifyDSBlock_ok hannounced).mpr (checkDSBlock_ok.mp hcheck)
  refine ⟨blk, t, hblk, ht, ?_⟩
  rintro ⟨own, hown, -, hkeys⟩
  obtain rfl := Except.ok.inj (hblk.symm.trans hown)
  have hbody : blk.body.shardingNodes = [Chain.peerWithKey 2] := Except.ok.inj hnodes
  rw [hbody] at hkeys
  exact absurd (show pubkeys [Chain.peerWithKey 9] = pubkeys [Chain.peerWithKey 2] from hkeys) (by decide +kernel)

end Okchain.Consensus
