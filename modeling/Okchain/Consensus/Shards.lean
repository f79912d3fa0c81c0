import Okchain.Consensus.Lead
import Okchain.Consensus.Wire
import Okchain.Lib.Buckets

/-! The shards of an epoch, after `role_base.go`.

A DS block lists the sharding nodes without saying who is in which shard. The committee deals them out in
`resetShardingId2ShardingNodeListMap`, and a sharding node works out its shard and its peers in `initShardingNodeInfo`.
Both deal by place modulo the number of whole shards. They disagree when there is no whole shard, and about a node that
is in the list twice.
-/
variable {nodes : List PeerEndpoint}

namespace Okchain.Consensus
open Lib Lib.Buckets Protos List
open Core (exists_of_isOk)
open UInt32 (ofNat ofNat_toNat toNat_ofNat_of_lt')

variable {P : Platform}
variable {p : PeerEndpoint} {i : Nat} {E : Env}

/-- `PeerEndpointMap`. A list is only ever appended to, so a key is in the map when its list is not
empty. -/
abbrev ShardingMap := UInt32 → List PeerEndpoint

/-- `resetShardingId2ShardingNodeListMap`: the map the committee keeps. The first node is appended last. -/
def resetShardingId2ShardingNodeListMap (shardingSize : Nat) (b : DSBlock) : Except Err ShardingMap :=
  if shardingSize = 0 then .error (.panic .divisionByZero)
  else
    let nodes := b.body.shardingNodes
    let numOfSharding := nodes.length / shardingSize
    let shardingNodesTotal := numOfSharding * shardingSize
    let indexed := nodes.zipIdx.take shardingNodesTotal
    if shardingNodesTotal ≠ 0 then do
      let shardingMap := fill (fun x => UInt32.ofNat (x.2 % numOfSharding)) Prod.fst (fun _ => []) (indexed.drop 1)
      let first ← index nodes 0
      return put shardingMap 0 first
    else
      -- this loop, too, runs up to the total
      return fill (fun _ => 0) Prod.fst (fun _ => []) indexed

/-- `initShardingNodeInfo`: the id and the peers of the node with key `pk`. -/
def initShardingNodeInfo (E : Env) (shardingSize : Nat) (pk : Bytes) (b : DSBlock) :
    Except Err (UInt32 × List PeerEndpoint) :=
  if shardingSize = 0 then .error (.panic .divisionByZero)
  else do
    let nodes := b.body.shardingNodes
    let numOfSharding := nodes.length / shardingSize
    let shardingNodesTotal := numOfSharding * shardingSize
    let shardingID := match nodes.findIdx? (fun p => p.pubkey = pk) with
      | some i => if shardingNodesTotal ≠ 0 then UInt32.ofNat (i % numOfSharding) else 0
      | none => 0
    let mine := if shardingNodesTotal ≠ 0 then
        nodes.zipIdx.filter fun x => UInt32.ofNat (x.2 % numOfSharding) = shardingID
      else nodes.zipIdx
    let sorted ← sortByPubkey E (mine.map Prod.fst)
    return (shardingID, sorted)

/-! ### What the leader has composed -/

def wholeShards (s : PeerServer P) : Nat := s.poWSubList.length / s.shardingSize

/-- How many of the submissions a DS block is made of. -/
def usedSubmissions (s : PeerServer P) : Nat :=
  if wholeShards s * s.shardingSize ≠ 0 then wholeShards s * s.shardingSize else s.poWSubList.length

/-- The peers that become sharding nodes for their work: all that are used but the winner. -/
def recruits (s : PeerServer P) : List PeerEndpoint :=
  ((s.poWSubList.take (usedSubmissions s)).drop 1).filterMap (·.peer)

def DistinctSubmitters (s : PeerServer P) : Prop :=
  ((s.poWSubList.filterMap (·.peer)).map (·.pubkey)).Nodup

variable {peers : List PeerEndpoint} {s : PeerServer P}

theorem submitters_ok {pows : List PoWSubmission} {places : List Nat} (h : submitters pows places = .ok peers) :
    places.map (fun i => pows[i]?.bind (·.peer)) = peers.map some := by
  induction places generalizing peers with
  | nil =>
    cases h
    rfl
  | cons i places ih =>
    obtain ⟨pow, hpow, h⟩ := except_bind_ok.mp h
    obtain ⟨peer, hpeer, h⟩ := except_bind_ok.mp h
    obtain ⟨rest, hrest, h⟩ := except_bind_ok.mp h
    cases h
    rw [map_cons, map_cons, ih hrest, deref_ok.mp hpow]
    show pow.peer :: _ = _
    rw [deref_ok.mp hpeer]

theorem usedSubmissions_le (s : PeerServer P) : usedSubmissions s ≤ s.poWSubList.length := by
  unfold usedSubmissions
  split
  · exact Nat.div_mul_le_self _ _
  · exact le_rfl

structure ComposedDSBlock (s : PeerServer P) (b : DSBlock) (winner last : PeerEndpoint) : Prop where
  first : ∃ pow pows, s.poWSubList = pow :: pows ∧ pow.peer = some winner
  size_pos : 0 < s.shardingSize
  last_mem : s.committee.getLast? = some last
  sum : b.header.shardingSum = if wholeShards s = 0 then 1 else UInt32.ofNat (wholeShards s)
  nodes : b.body.shardingNodes = last :: recruits s
  recruited : (recruits s).length = usedSubmissions s - 1
  committee : b.body.committee = enqueueAndDequeueTail s.committee winner

theorem map_getElem?_range_drop {α : Type} (l : List α) {n : Nat} (hn : n ≤ l.length) :
    ((range n).drop 1).map (fun i => l[i]?) = ((l.take n).drop 1).map some := by
  have hall : (range n).map (fun i => l[i]?) = (l.take n).map some := by
    refine ext_getElem? fun i => ?_
    by_cases hi : i < n
    · simp [hi, List.getElem?_eq_getElem (Nat.lt_of_lt_of_le hi hn)]
    · simp [hi]
  rw [map_drop, hall, ← map_drop]

theorem submitters_recruits (h : submitters s.poWSubList ((range (usedSubmissions s)).drop 1) = .ok peers) :
    peers = recruits s ∧ peers.length = usedSubmissions s - 1 := by
  have hpeers := submitters_ok h
  have hused := map_getElem?_range_drop s.poWSubList (usedSubmissions_le s)
  have hmap : ((s.poWSubList.take (usedSubmissions s)).drop 1).map (·.peer) = peers.map some := by
    rw [← hpeers]
    have hbind := congrArg (map fun pow => Option.bind pow (·.peer)) hused
    simpa [Function.comp_def] using hbind.symm
  constructor
  · have hfilter := congrArg (filterMap id) hmap
    simpa [recruits] using hfilter.symm
  · have hlength := congrArg length hpeers
    simpa using hlength.symm

theorem composeDSBlock_composed {b : DSBlock} (h : composeDSBlock s = .ok b) :
    ∃ winner last, ComposedDSBlock s b winner last := by
  unfold composeDSBlock at h
  split at h
  case h_1 => exact nomatch h
  case h_2 pow pows hpows =>
    obtain ⟨previous, _, h⟩ := except_bind_ok.mp h
    obtain ⟨winner, hwinner, h⟩ := except_bind_ok.mp h
    split at h
    case isTrue => exact nomatch h
    case isFalse hsize =>
      obtain ⟨last, hlast, h⟩ := except_bind_ok.mp h
      obtain ⟨rest, hrest, h⟩ := except_bind_ok.mp h
      obtain ⟨hash, _, h⟩ := except_bind_ok.mp h
      cases h
      obtain ⟨rfl, hlength⟩ := submitters_recruits hrest
      have hlast : s.committee.getLast? = some last := by
        have hfirst := index_ok.mp hlast
        rwa [← head?_eq_getElem?, head?_reverse] at hfirst
      exact ⟨winner, last, ⟨⟨pow, pows, hpows, deref_ok.mp hwinner⟩, Nat.pos_of_ne_zero hsize, hlast, rfl, rfl,
        hlength, rfl⟩⟩

/-! ### Dealing out whole shards -/

section Deal
variable {b : DSBlock} {shardingSize numOfSharding : Nat}

/-- The nodes whose place has the shard's id as its remainder. -/
def dealt (nodes : List PeerEndpoint) (numOfSharding : Nat) (k : UInt32) : List PeerEndpoint :=
  (nodes.zipIdx.filter fun x => UInt32.ofNat (x.2 % numOfSharding) = k).map Prod.fst

variable {k : UInt32}

theorem mem_dealt : p ∈ dealt nodes numOfSharding k ↔ ∃ i, nodes[i]? = some p ∧ ofNat (i % numOfSharding) = k := by
  unfold dealt
  simp [mem_zipIdx_iff_getElem?]

theorem ofNat_eq_iff (hi : i < 2 ^ 32) : ofNat i = k ↔ i = k.toNat := by
  rw [← UInt32.toNat_inj, toNat_ofNat_of_lt' hi]

theorem dealt_eq_lane (nodes : List PeerEndpoint) (k : UInt32) (hnum : 0 < numOfSharding)
    (hfew : numOfSharding ≤ 2 ^ 32) : dealt nodes numOfSharding k = lane nodes numOfSharding k.toNat := by
  unfold dealt
  congr 2
  funext x
  simp only [ofNat_eq_iff (Nat.lt_of_lt_of_le (Nat.mod_lt x.2 hnum) hfew)]

theorem resetShardingMap_whole {first : PeerEndpoint} {rest : List PeerEndpoint}
    (hnodes : b.body.shardingNodes = first :: rest) (hsize : 0 < shardingSize) (hnum : 0 < numOfSharding)
    (hlength : b.body.shardingNodes.length = numOfSharding * shardingSize) :
    ∃ m, resetShardingId2ShardingNodeListMap shardingSize b = .ok m ∧
      ∀ k, (m k).Perm (dealt b.body.shardingNodes numOfSharding k) := by
  have htotal : numOfSharding * shardingSize ≠ 0 := (Nat.mul_pos hnum hsize).ne'
  have hall : b.body.shardingNodes.zipIdx.take (numOfSharding * shardingSize) = (first, 0) :: rest.zipIdx 1 := by
    rw [take_of_length_le (by rw [length_zipIdx, hlength]), hnodes, zipIdx_cons]
  unfold resetShardingId2ShardingNodeListMap
  simp only [if_neg hsize.ne', hlength, Nat.mul_div_cancel _ hsize, if_pos htotal, hall]
  have hfirst : index b.body.shardingNodes 0 = .ok first := by rw [hnodes]; rfl
  refine ⟨_, congrArg (· >>= _) hfirst, fun k => ?_⟩
  have hdealt : dealt b.body.shardingNodes numOfSharding k = (if k = 0 then [first] else []) ++
      ((rest.zipIdx 1).filter fun x => ofNat (x.2 % numOfSharding) = k).map Prod.fst := by
    unfold dealt
    rw [hnodes]
    by_cases hk : k = 0
    · simp [hk]
    · simp [hk, Ne.symm hk]
  rw [hdealt]
  by_cases hk : k = 0
  · subst hk
    rw [put, fill_apply]
    exact perm_append_comm
  · rw [put, Function.update_of_ne hk, fill_apply, if_neg hk]
    exact .refl _

/-- With fewer nodes than a shard needs nothing is dealt out. -/
theorem resetShardingMap_short (hsize : 0 < shardingSize) (hshort : b.body.shardingNodes.length < shardingSize) :
    resetShardingId2ShardingNodeListMap shardingSize b = .ok fun _ => [] := by
  unfold resetShardingId2ShardingNodeListMap
  simp only [if_neg hsize.ne', Nat.div_eq_of_lt hshort, Nat.zero_mul]
  rfl

theorem initShardingNodeInfo_whole {pk : Bytes} (hsize : 0 < shardingSize) (hnum : 0 < numOfSharding)
    (hlength : b.body.shardingNodes.length = numOfSharding * shardingSize)
    (hi : b.body.shardingNodes.findIdx? (fun p => p.pubkey = pk) = some i) :
    initShardingNodeInfo E shardingSize pk b =
      (sortByPubkey E (dealt b.body.shardingNodes numOfSharding (ofNat (i % numOfSharding))) >>=
        fun sorted => .ok (ofNat (i % numOfSharding), sorted)) := by
  have htotal : numOfSharding * shardingSize ≠ 0 := (Nat.mul_pos hnum hsize).ne'
  unfold initShardingNodeInfo
  simp only [if_neg hsize.ne', hlength, Nat.mul_div_cancel _ hsize, if_pos htotal, hi]
  rfl

end Deal

/-! ### Agreement -/

/-- The map has exactly the shards `0, …, sum - 1`, and they hold the nodes between them. -/
structure Splits (m : ShardingMap) (nodes : List PeerEndpoint) (sum : UInt32) : Prop where
  shards : ∀ k, m k ≠ [] ↔ k < sum
  nodes : ((List.range sum.toNat).flatMap fun k => m (UInt32.ofNat k)).Perm nodes

/-- The committee's map splits the sharding nodes of a block, and every node of a shard arrives at the
shard's id and at its peers. -/
def ShardMapAgrees (E : Env) (shardingSize : Nat) (b : DSBlock) : Prop :=
  ∃ m, resetShardingId2ShardingNodeListMap shardingSize b = .ok m ∧
    Splits m b.body.shardingNodes b.header.shardingSum ∧
    ∀ k, ∀ p ∈ m k, ∃ peers, initShardingNodeInfo E shardingSize p.pubkey b = .ok (k, peers) ∧
      ∀ q, q ∈ peers ↔ q ∈ m k

/-- The submissions make whole shards, not too many of them for their ids. Keys that are compared are long
enough to be. If the member who leaves has submitted work as well, then its place is in the first shard. -/
structure EvenShards (s : PeerServer P) : Prop where
  enough : s.shardingSize ≤ s.poWSubList.length
  few : wholeShards s < 2 ^ 32
  keys : s.shardingSize = 1 ∨ ∀ p ∈ s.committee.getLast?.toList ++ recruits s, 8 ≤ p.pubkey.length
  ousted : ∀ last ∈ s.committee.getLast?, ∀ i p, (recruits s)[i]? = some p → p.pubkey = last.pubkey →
    (i + 1) % wholeShards s = 0

section Agreement
variable {s : PeerServer P} {b : DSBlock} {winner last : PeerEndpoint}

section
variable (h : ComposedDSBlock s b winner last)
include h

theorem usedSubmissions_pos : 0 < usedSubmissions s := by
  obtain ⟨pow, pows, hpows, _⟩ := h.first
  unfold usedSubmissions
  split
  · omega
  · simp [hpows]

theorem length_shardingNodes : b.body.shardingNodes.length = usedSubmissions s := by
  rw [h.nodes, length_cons, h.recruited]
  have := usedSubmissions_pos h
  omega

theorem wholeShards_pos (henough : s.shardingSize ≤ s.poWSubList.length) : 0 < wholeShards s :=
  Nat.div_pos henough h.size_pos

theorem length_shardingNodes_whole (henough : s.shardingSize ≤ s.poWSubList.length) :
    b.body.shardingNodes.length = wholeShards s * s.shardingSize := by
  rw [length_shardingNodes h, usedSubmissions, if_pos]
  exact (Nat.mul_pos (wholeShards_pos h henough) h.size_pos).ne'

theorem mem_shardingNodes_iff (p : PeerEndpoint) :
    p ∈ b.body.shardingNodes ↔ p ∈ s.committee.getLast?.toList ++ recruits s := by
  rw [h.nodes, h.last_mem]
  rfl

end

theorem recruits_nodup (hdistinct : DistinctSubmitters s) : ((recruits s).map (·.pubkey)).Nodup := by
  have hsub : (recruits s).Sublist (s.poWSubList.filterMap (·.peer)) :=
    ((drop_sublist 1 _).trans (take_sublist _ _)).filterMap _
  exact (hsub.map _).nodup hdistinct

theorem length_dealt (h : ComposedDSBlock s b winner last) (henough : s.shardingSize ≤ s.poWSubList.length)
    (hfew : wholeShards s < 2 ^ 32) :
    (dealt b.body.shardingNodes (wholeShards s)
      (ofNat (i % wholeShards s))).length = s.shardingSize := by
  have hnum := wholeShards_pos h henough
  have hi := Nat.mod_lt i hnum
  rw [dealt_eq_lane _ _ hnum hfew.le, toNat_ofNat_of_lt' (hi.trans hfew)]
  exact length_lane (length_shardingNodes_whole h henough) hi

theorem sortByPubkey_isOk {l : List PeerEndpoint} :
    (∃ sorted, sortByPubkey E l = .ok sorted) ↔ l.length ≤ 1 ∨ ∀ p ∈ l, 8 ≤ p.pubkey.length := by
  have hshort : l.any (fun p => p.pubkey.length < 8) ↔ ¬ ∀ p ∈ l, 8 ≤ p.pubkey.length := by
    simp
  unfold sortByPubkey
  split
  case isTrue hpanic =>
    refine ⟨fun ⟨_, h⟩ => (nomatch h), ?_⟩
    rintro (hone | hlong)
    · omega
    · exact absurd hlong (hshort.mp hpanic.2)
  case isFalse hok =>
    refine ⟨fun _ => ?_, fun _ => ⟨_, rfl⟩⟩
    by_contra hcontra
    rw [not_or, not_le] at hcontra
    exact hok ⟨hcontra.1, hshort.mpr hcontra.2⟩

/-- Two places with one key are both in the first shard, or are the same place. -/
theorem mod_eq_of_pubkey_eq (h : ComposedDSBlock s b winner last) (hdistinct : DistinctSubmitters s)
    (heven : EvenShards s) {j : Nat} {q : PeerEndpoint} (hij : i ≤ j) (hi : b.body.shardingNodes[i]? = some p)
    (hj : b.body.shardingNodes[j]? = some q) (hkey : p.pubkey = q.pubkey) :
    i % wholeShards s = j % wholeShards s := by
  rw [h.nodes] at hi hj
  match i, j with
  | 0, 0 => rfl
  | 0, j + 1 =>
    obtain rfl : last = p := Option.some.inj hi
    rw [heven.ousted last h.last_mem j q hj hkey.symm, Nat.zero_mod]
  | i + 1, j + 1 =>
    rw [List.getElem?_cons_succ] at hi hj
    have hbound : i < ((recruits s).map (·.pubkey)).length := by
      rw [length_map]
      exact (List.getElem?_eq_some_iff.mp hi).1
    have hplace : i = j := by
      refine (List.getElem?_inj hbound (recruits_nodup hdistinct)).mp ?_
      rw [List.getElem?_map, List.getElem?_map, hi, hj, Option.map_some, Option.map_some, hkey]
    rw [hplace]

/-- A node finds the first place with its key. -/
theorem exists_first_place (hi : nodes[i]? = some p) :
    ∃ j q, nodes.findIdx? (fun q => q.pubkey = p.pubkey) = some j ∧ j ≤ i ∧ nodes[j]? = some q ∧
      q.pubkey = p.pubkey := by
  obtain ⟨hbound, hp⟩ := List.getElem?_eq_some_iff.mp hi
  have hsome : (nodes.findIdx? fun q => q.pubkey = p.pubkey).isSome := by
    rw [findIdx?_isSome, any_eq_true]
    exact ⟨p, mem_of_getElem? hi, by simp⟩
  obtain ⟨j, hj⟩ := Option.isSome_iff_exists.mp hsome
  obtain ⟨hlt, hkey, hbefore⟩ := findIdx?_eq_some_iff_getElem.mp hj
  refine ⟨j, nodes[j], hj, ?_, List.getElem?_eq_getElem hlt, by simpa using hkey⟩
  by_contra hlater
  exact hbefore i (not_le.mp hlater) (by simp [hp])

section
variable (h : ComposedDSBlock s b winner last)
include h

theorem agrees_of_even (hdistinct : DistinctSubmitters s) (heven : EvenShards s) : ShardMapAgrees E s.shardingSize b := by
  have hnum := wholeShards_pos h heven.enough
  have hlength := length_shardingNodes_whole h heven.enough
  obtain ⟨m, hm, hdealt⟩ := resetShardingMap_whole h.nodes h.size_pos hnum hlength
  have hsum : b.header.shardingSum = ofNat (wholeShards s) := by
    rw [h.sum, if_neg hnum.ne']
  have htoNat : b.header.shardingSum.toNat = wholeShards s := by
    rw [hsum, toNat_ofNat_of_lt' heven.few]
  refine ⟨m, hm, ⟨fun k => ?_, ?_⟩, fun k p hp => ?_⟩
  · rw [← length_pos_iff_ne_nil, (hdealt k).length_eq, UInt32.lt_iff_toNat_lt, htoNat]
    constructor
    · intro hpos
      obtain ⟨p, hp⟩ := exists_mem_of_length_pos hpos
      obtain ⟨i, _, hk⟩ := mem_dealt.mp hp
      rw [← (ofNat_eq_iff ((Nat.mod_lt i hnum).trans heven.few)).mp hk]
      exact Nat.mod_lt i hnum
    · intro hk
      have hown := length_dealt h heven.enough heven.few (i := k.toNat)
      rw [Nat.mod_eq_of_lt hk, ofNat_toNat] at hown
      rw [hown]
      exact h.size_pos
  · rw [htoNat]
    refine (List.Perm.flatMap_left _ fun k hk => ?_).trans (lanes_perm hnum)
    have hlane := dealt_eq_lane b.body.shardingNodes (ofNat k) hnum heven.few.le
    rw [toNat_ofNat_of_lt' ((mem_range.mp hk).trans heven.few)] at hlane
    exact (hdealt _).trans (.of_eq hlane)
  · obtain ⟨i, hi, hk⟩ := mem_dealt.mp ((hdealt k).mem_iff.mp hp)
    obtain ⟨j, q, hfirst, hji, hj, hkey⟩ := exists_first_place hi
    have hid : ofNat (j % wholeShards s) = k := by
      rw [mod_eq_of_pubkey_eq h hdistinct heven hji hj hi hkey, hk]
    have hsorted : ∃ sorted, sortByPubkey E (dealt b.body.shardingNodes (wholeShards s) k) = .ok sorted := by
      refine sortByPubkey_isOk.mpr (heven.keys.imp (fun hone => ?_) fun hlong q hq => ?_)
      · rw [← hid, length_dealt h heven.enough heven.few, hone]
      · obtain ⟨i, hi, _⟩ := mem_dealt.mp hq
        exact hlong q ((mem_shardingNodes_iff h q).mp (mem_of_getElem? hi))
    obtain ⟨sorted, hsorted⟩ := hsorted
    refine ⟨sorted, ?_, fun q => ?_⟩
    · rw [initShardingNodeInfo_whole h.size_pos hnum hlength hfirst, hid, hsorted]
      rfl
    · rw [(sortByPubkey_perm hsorted).mem_iff, (hdealt k).mem_iff]

section
variable (hagrees : ShardMapAgrees E s.shardingSize b)
include hagrees

theorem enough_of_agrees : s.shardingSize ≤ s.poWSubList.length := by
  by_contra hshort
  rw [not_le] at hshort
  have hwhole : wholeShards s = 0 := Nat.div_eq_of_lt hshort
  have hlength : b.body.shardingNodes.length < s.shardingSize := by
    rw [length_shardingNodes h, usedSubmissions, hwhole]
    simpa using hshort
  -- the map is empty and the block announces one shard
  obtain ⟨m, hm, hsplits, _⟩ := hagrees
  cases hm.symm.trans (resetShardingMap_short h.size_pos hlength)
  have hone : b.header.shardingSum = 1 := by rw [h.sum, if_pos hwhole]
  exact (hsplits.shards 0).mpr (by rw [hone]; decide) rfl

theorem few_of_agrees : wholeShards s < 2 ^ 32 := by
  by_contra hmany
  rw [not_lt] at hmany
  have henough := enough_of_agrees h hagrees
  have hlength := length_shardingNodes_whole h henough
  obtain ⟨m, hm, hsplits, _⟩ := hagrees
  obtain ⟨m', hm', hdealt⟩ := resetShardingMap_whole h.nodes h.size_pos (wholeShards_pos h henough) hlength
  cases hm.symm.trans hm'
  -- every id there is has a node, so the announced sum is an id with a shard
  have hplace : b.header.shardingSum.toNat < wholeShards s := b.header.shardingSum.toNat_lt.trans_le hmany
  have hbound : b.header.shardingSum.toNat < b.body.shardingNodes.length := by
    rw [hlength]
    exact hplace.trans_le (Nat.le_mul_of_pos_right _ h.size_pos)
  have hmem := (hdealt b.header.shardingSum).mem_iff.mpr (mem_dealt.mpr
    ⟨_, List.getElem?_eq_getElem hbound, by rw [Nat.mod_eq_of_lt hplace, ofNat_toNat]⟩)
  exact absurd ((hsplits.shards _).mp (ne_nil_of_mem hmem)) (UInt32.lt_irrefl _)

theorem even_of_agrees : EvenShards s := by
  have henough := enough_of_agrees h hagrees
  have hfew := few_of_agrees h hagrees
  have hnum := wholeShards_pos h henough
  have hlength := length_shardingNodes_whole h henough
  obtain ⟨m, hm, _, hnode⟩ := hagrees
  obtain ⟨m', hm', hdealt⟩ := resetShardingMap_whole h.nodes h.size_pos hnum hlength
  cases hm.symm.trans hm'
  have hown : ∀ i p, b.body.shardingNodes[i]? = some p → p ∈ m (ofNat (i % wholeShards s)) :=
    fun i p hi => (hdealt _).mem_iff.mpr (mem_dealt.mpr ⟨i, hi, rfl⟩)
  refine ⟨henough, hfew, ?_, ?_⟩
  · by_cases hone : s.shardingSize = 1
    · exact .inl hone
    refine .inr fun p hp => ?_
    obtain ⟨i, hi⟩ := mem_iff_getElem?.mp ((mem_shardingNodes_iff h p).mpr hp)
    obtain ⟨j, q, hfirst, _, _⟩ := exists_first_place hi
    obtain ⟨peers, hinit, _⟩ := hnode _ p (hown i p hi)
    -- a node that gets its peers has sorted a shard of more than one
    rw [initShardingNodeInfo_whole h.size_pos hnum hlength hfirst] at hinit
    obtain ⟨sorted, hsorted, hid⟩ := except_bind_ok.mp hinit
    have hshard : ofNat (j % wholeShards s) = ofNat (i % wholeShards s) := congrArg Prod.fst (Except.ok.inj hid)
    rcases sortByPubkey_isOk.mp ⟨sorted, hsorted⟩ with hsmall | hlong
    · rw [length_dealt h henough hfew] at hsmall
      have := h.size_pos
      omega
    · refine hlong p ?_
      rw [hshard]
      exact mem_dealt.mpr ⟨i, hi, rfl⟩
  · intro l hl i p hi hkey
    obtain rfl : last = l := Option.some.inj (h.last_mem.symm.trans hl)
    have hplace : b.body.shardingNodes[i + 1]? = some p := by
      rw [h.nodes, List.getElem?_cons_succ, hi]
    obtain ⟨peers, hinit, _⟩ := hnode _ p (hown (i + 1) p hplace)
    -- the node finds itself at place 0
    have hfirst : b.body.shardingNodes.findIdx? (fun q => q.pubkey = p.pubkey) = some 0 := by
      rw [h.nodes, findIdx?_cons]
      simp [hkey]
    rw [initShardingNodeInfo_whole h.size_pos hnum hlength hfirst] at hinit
    obtain ⟨sorted, _, hid⟩ := except_bind_ok.mp hinit
    have hzero : ofNat (0 % wholeShards s) = ofNat ((i + 1) % wholeShards s) := congrArg Prod.fst (Except.ok.inj hid)
    have hmod := (ofNat_eq_iff ((Nat.mod_lt _ hnum).trans hfew)).mp hzero.symm
    rw [hmod]
    rfl

end

end

end Agreement

/-- The shards a DS block announces are those both sides compute exactly when the submissions it is made
of are dealt out evenly. -/
theorem shardMap_agrees_iff {s : PeerServer P} {b : DSBlock} (hdistinct : DistinctSubmitters s)
    (hb : composeDSBlock s = .ok b) : ShardMapAgrees P.toEnv s.shardingSize b ↔ EvenShards s := by
  obtain ⟨winner, last, hcomposed⟩ := composeDSBlock_composed hb
  exact ⟨even_of_agrees hcomposed, agrees_of_even hcomposed hdistinct⟩

/-- A committee of two, with shards of two and one submission for each key. -/
def dealerOf (keys : List Nat) : PeerServer Platform.sample :=
  {sampleNode 1 [Chain.peerWithKey 1, Chain.peerWithKey 2] with
    shardingSize := 2
    poWSubList := keys.map fun key => ⟨0, 1, some (Chain.peerWithKey key), MultiSig.natBytes key⟩}

/-- Four submissions make two shards. -/
theorem shardMap_agrees_four : ∃ b, composeDSBlock (dealerOf [7, 8, 9, 10]) = .ok b ∧
    ShardMapAgrees Platform.sample.toEnv 2 b := by
  have hdistinct : DistinctSubmitters (dealerOf [7, 8, 9, 10]) := by
    unfold DistinctSubmitters
    decide +kernel
  obtain ⟨b, hb⟩ := exists_of_isOk
    (show (composeDSBlock (dealerOf [7, 8, 9, 10])).isOk = true by decide +kernel)
  refine ⟨b, hb, (shardMap_agrees_iff hdistinct hb).mpr ⟨by decide, by decide, .inr ?_, ?_⟩⟩
  · decide +kernel
  · rintro last ⟨⟩ i p hi hkey
    have hfresh : ∀ p ∈ recruits (dealerOf [7, 8, 9, 10]), p.pubkey ≠ (Chain.peerWithKey 2).pubkey := by
      decide +kernel
    exact absurd hkey (hfresh p (List.mem_of_getElem? hi))

/-- One submission makes a block that announces one shard, and a map without any. -/
theorem shardMap_disagrees_one : DistinctSubmitters (dealerOf [7]) ∧
    ∃ b, composeDSBlock (dealerOf [7]) = .ok b ∧ ¬ ShardMapAgrees Platform.sample.toEnv 2 b := by
  obtain ⟨b, hb⟩ := exists_of_isOk (show (composeDSBlock (dealerOf [7])).isOk = true by decide +kernel)
  obtain ⟨winner, last, hcomposed⟩ := composeDSBlock_composed hb
  refine ⟨List.nodup_singleton _, b, hb, fun hagrees => ?_⟩
  have henough : 2 ≤ 1 := enough_of_agrees hcomposed hagrees
  exact absurd henough (by decide)

end Okchain.Consensus
