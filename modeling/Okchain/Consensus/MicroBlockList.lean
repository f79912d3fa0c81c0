import Okchain.Consensus.Acceptance
import Okchain.Consensus.FinalBlock

/-! The micro blocks a final block is made of, after `ProcessMicroBlockSubmission`.

A DS node takes a micro block for signed by its shard if the bool map has enough bits and the sum of the keys it
selects is the one in the header. The signature in the header is not verified. A second micro block is refused if it
comes from the miner of one in the list, but not for naming the same shard, and its number is not looked at.
-/
variable {sorted : List PeerEndpoint}

namespace Okchain.Consensus
open Lib Proc Protos List

/-- A DS node in its role: with the shards it knows and the micro blocks it has accepted. -/
structure RoleDs (P : Platform) where
  peerServer : PeerServer P
  shardingMap : ShardingMap
  microBlockList : List MicroBlock

abbrev RoleDsProc (P : Platform) := Proc Err (RoleDs P)

variable {P : Platform}

/-- `SyncMicroBlockSubmissions.Has`. -/
def hasMicroBlock (peer : PeerEndpoint) : List MicroBlock → Except Err Bool
  | [] => .ok false
  | m :: ms => do
    let miner ← deref m.miner
    if miner.pubkey = peer.pubkey then return true else hasMicroBlock peer ms

/-- `ProcessMicroBlockSubmission` from the decoded micro block on, to the point where it is in the list. -/
def admitMicroBlock (msg : Message) (m : MicroBlock) : RoleDsProc P Unit := do
  let s ← .read fun r => r.peerServer
  .ensure (m.header.dsBlockNum = s.dsHead.numberU64) (.consensus .verifyBlock)
  let dsHash ← .lift (s.dsHead.hash P.toEnv)
  .ensure (m.header.dsBlockHash = dsHash.bytes) (.consensus .verifyBlock)
  let hash ← .lift (m.hash P.toEnv)
  .lift (orError (.consensus .verifyMessage) (msgVerify P.toEnv msg hash.bytes))
  -- the list in the map is sorted in place
  let members ← .read fun r => r.shardingMap m.shardID
  let sorted ← .lift (sortByPubkey P.toEnv members)
  .update fun r => {r with shardingMap := Function.update r.shardingMap m.shardID sorted}
  .ensure (m.header.boolMap.length = sorted.length) (.consensus .verifyBlock)
  let expected ← .lift (expectedOfShard s)
  .ensure (expected ≤ voteTickets m.header.boolMap) (.consensus .verifyBlock)
  .lift (orError (.consensus .blsPubKeyVerify)
    (blsMultiPubkeyVerify P.toEnv m.header.boolMap sorted m.header.multiPubKey))
  let sender ← .lift (deref msg.peer)
  let list ← .read fun r => r.microBlockList
  let known ← .lift (hasMicroBlock sender list)
  .ensure (known = false) (.consensus .duplicatedMessage)
  .update fun r => {r with microBlockList := r.microBlockList ++ [m]}

def RoleDs.full (r : RoleDs P) : Bool :=
  UInt32.ofNat r.microBlockList.length == r.peerServer.dsHead.header.shardingSum

/-- `ProcessMicroBlockSubmission`. The final-block stage starts with `onWait4MicroBlockSubmissionDone` of the role. -/
def processMicroBlockSubmission (done : RoleDsProc P Unit) (msg : Message) : RoleDsProc P Unit := do
  let m ← .lift (P.microBlock.decode msg.payload)
  admitMicroBlock msg m
  let full ← .read RoleDs.full
  if full then done else pure ⟨⟩

/-! ### What has been checked -/

/-- What a DS node has found out about a micro block that goes into its list. -/
structure Admitted (r : RoleDs P) (msg : Message) (m : MicroBlock) (hash : Hash) (sender : PeerEndpoint)
    (sorted : List PeerEndpoint) (expected : Int) : Prop where
  hashed : m.hash P.toEnv = .ok hash
  sent : msg.peer = some sender
  signed : verifyHash P.toEnv hash.bytes msg.signature sender.pubkey = .ok true
  sorts : sortByPubkey P.toEnv (r.shardingMap m.shardID) = .ok sorted
  length : m.header.boolMap.length = sorted.length
  asked : expectedOfShard r.peerServer = .ok expected
  counted : expected ≤ voteTickets m.header.boolMap

/-- The role after the micro block is in the list. -/
def RoleDs.adding (r : RoleDs P) (m : MicroBlock) (sorted : List PeerEndpoint) : RoleDs P :=
  {r with
    shardingMap := Function.update r.shardingMap m.shardID sorted
    microBlockList := r.microBlockList ++ [m]}

variable {r t : RoleDs P} {msg : Message} {m : MicroBlock}

theorem admitMicroBlock_ok {u : PUnit} (h : admitMicroBlock msg m r = (.ok u, t)) :
    ∃ hash sender sorted expected, Admitted r msg m hash sender sorted expected ∧ t = r.adding m sorted := by
  obtain ⟨-, h⟩ := ensure_bind_ok.mp h
  obtain ⟨dsHash, -, h⟩ := lift_bind_ok.mp h
  obtain ⟨-, h⟩ := ensure_bind_ok.mp h
  obtain ⟨hash, hhash, h⟩ := lift_bind_ok.mp h
  obtain ⟨_, hverify, h⟩ := lift_bind_ok.mp h
  obtain ⟨sorted, hsorted, h⟩ := lift_bind_ok.mp h
  obtain ⟨hlength, h⟩ := ensure_bind_ok.mp h
  obtain ⟨expected, hexpected, h⟩ := lift_bind_ok.mp h
  obtain ⟨hcounted, h⟩ := ensure_bind_ok.mp h
  obtain ⟨_, -, h⟩ := lift_bind_ok.mp h
  obtain ⟨sender, hsender, h⟩ := lift_bind_ok.mp h
  obtain ⟨known, -, h⟩ := lift_bind_ok.mp h
  obtain ⟨-, h⟩ := ensure_bind_ok.mp h
  obtain ⟨sender', hsender', hsigned⟩ := msgVerify_ok (orError_ok.mp hverify)
  exact ⟨hash, sender', sorted, expected, ⟨hhash, hsender', hsigned, hsorted, hlength, hexpected, hcounted⟩,
    update_ok.mp h⟩

theorem admitMicroBlock_error {e : Err} (h : admitMicroBlock msg m r = (.error e, t)) :
    t.microBlockList = r.microBlockList ∧ t.peerServer = r.peerServer := by
  let Q (o : Except Err PUnit × RoleDs P) : Prop := ∀ e, o.1 = .error e →
    o.2.microBlockList = r.microBlockList ∧ o.2.peerServer = r.peerServer
  suffices hrun : Q (admitMicroBlock msg m r) by
    have hstate := hrun e (congrArg Prod.fst h)
    rwa [h] at hstate
  have hfail : ∀ e, Q (.error e, r) := fun _ _ _ => ⟨rfl, rfl⟩
  refine run_ensure hfail fun _ => run_lift hfail fun dsHash _ => run_ensure hfail fun _ => ?_
  refine run_lift hfail fun hash _ => run_lift hfail fun _ _ => ?_
  refine run_lift hfail fun sorted _ => ?_
  refine run_ensure hfail fun _ => run_lift hfail fun expected _ => run_ensure hfail fun _ => ?_
  refine run_lift hfail fun _ _ => run_lift hfail fun sender _ => ?_
  refine run_lift hfail fun known _ => run_ensure hfail fun _ => ?_
  exact fun _ h => nomatch h

/-! ### Who has signed a micro block -/

theorem verifyHash_covers {E : Env} {hash sig key : Bytes} (h : verifyHash E hash sig key = .ok true) :
    ∃ s, E.bls.deserializeSig sig = some s ∧ MultiSig.Covers s hash [key] := by
  obtain ⟨s, p, hs, hp, hverify⟩ := verifyHash_ok h
  refine ⟨s, hs, [p], by simp [hp], ?_⟩
  simpa using hverify

theorem selected_length {bits : List Bool} {ps : List PeerEndpoint} (h : bits.length = ps.length) :
    (selected bits ps).length = voteTickets bits := by
  induction bits generalizing ps with
  | nil => rfl
  | cons bit bits ih =>
    cases ps with
    | nil => exact nomatch h
    | cons p ps =>
      have hrest := ih (Nat.succ.inj h)
      cases bit <;> simp [selected, voteTickets, hrest]

/-- Whatever the members of the shard have signed, as long as nobody forged the signature of the message or the one in
the header: at least `expected` of them have signed the hash. -/
def SignedByShard (r : RoleDs P) (msg : Message) (m : MicroBlock) (sender : PeerEndpoint) (hash : Hash) (expected : Int) :
    Prop :=
  ∀ signed,
    (∀ s, P.bls.deserializeSig msg.signature = some s →
      MultiSig.Unforged (sender.pubkey :: pubkeys (r.shardingMap m.shardID)) signed s) →
    (∀ s, P.bls.deserializeSig m.header.signature = some s →
      MultiSig.Unforged (pubkeys (r.shardingMap m.shardID)) signed s) →
    MultiSig.SignedBy (pubkeys (r.shardingMap m.shardID)) expected signed hash.bytes

theorem Admitted.signedByShard_iff {hash : Hash} {sender : PeerEndpoint} {expected : Int}
    {keys : List Bytes} (h : Admitted r msg m hash sender sorted expected)
    (hsender : ∀ s, P.bls.deserializeSig msg.signature = some s →
      MultiSig.Separates (sender.pubkey :: pubkeys (r.shardingMap m.shardID)) s)
    (hheader : ∀ s, P.bls.deserializeSig m.header.signature = some s →
      MultiSig.Separates (pubkeys (r.shardingMap m.shardID)) s)
    (hkeys : MultiSig.SpokenFor P.bls (pubkeys (r.shardingMap m.shardID)) m.header.signature hash.bytes keys) :
    SignedByShard r msg m sender hash expected ↔ expected ≤
      ((MultiSig.withSender (pubkeys (r.shardingMap m.shardID)) sender.pubkey keys).length : Int) :=
  MultiSig.signedBy_withSender_iff (verifyHash_covers h.signed) hsender hheader hkeys

/-- **The signers of a micro block.** A micro block that goes into the list was signed by the threshold of its shard
if and only if those are enough for whom the signature in its header speaks, with the sender if it is a member. So it
was if that signature verifies under the keys the bool map selects, which nobody has checked. -/
theorem microBlock_signed_iff {u : PUnit} (hok : admitMicroBlock msg m r = (.ok u, t))
    (hsender : ∀ sender s, msg.peer = some sender → P.bls.deserializeSig msg.signature = some s →
      MultiSig.Separates (sender.pubkey :: pubkeys (r.shardingMap m.shardID)) s)
    (hheader : ∀ s, P.bls.deserializeSig m.header.signature = some s →
      MultiSig.Separates (pubkeys (r.shardingMap m.shardID)) s) :
    ∃ hash sender expected, m.hash P.toEnv = .ok hash ∧ msg.peer = some sender ∧
      expectedOfShard r.peerServer = .ok expected ∧
      (∀ keys, MultiSig.SpokenFor P.bls (pubkeys (r.shardingMap m.shardID)) m.header.signature hash.bytes keys →
        (SignedByShard r msg m sender hash expected ↔ expected ≤
          ((MultiSig.withSender (pubkeys (r.shardingMap m.shardID)) sender.pubkey keys).length : Int))) ∧
      ((pubkeys (r.shardingMap m.shardID)).Nodup →
        (∃ sorted s, sortByPubkey P.toEnv (r.shardingMap m.shardID) = .ok sorted ∧
          P.bls.deserializeSig m.header.signature = some s ∧
          MultiSig.Covers s hash.bytes (pubkeys (selected m.header.boolMap sorted))) →
        SignedByShard r msg m sender hash expected) := by
  obtain ⟨hash, sender, sorted, expected, hadm, -⟩ := admitMicroBlock_ok hok
  have hsender := fun s => hsender sender s hadm.sent
  refine ⟨hash, sender, expected, hadm.hashed, hadm.sent, hadm.asked,
    fun keys => hadm.signedByShard_iff hsender hheader, ?_⟩
  rintro hnodup ⟨sorted', s, hsorts, hs, hcovers⟩
  obtain rfl := Except.ok.inj (hadm.sorts.symm.trans hsorts)
  have hperm := (sortByPubkey_perm hsorts).map (·.pubkey)
  have hsub : (pubkeys (selected m.header.boolMap sorted)).Sublist (pubkeys sorted) := (selected_sublist _ _).map _
  have hcount : (pubkeys (selected m.header.boolMap sorted)).length = voteTickets m.header.boolMap := by
    rw [pubkeys, List.length_map, selected_length hadm.length]
  refine (hadm.signedByShard_iff hsender hheader ⟨(hperm.nodup_iff.mpr hnodup).sublist hsub,
    fun k hk => hperm.mem_iff.mp (hsub.subset hk), .inl ⟨s, hs, hcovers⟩⟩).mpr ?_
  have hasked := hadm.counted
  have hle := MultiSig.length_le_withSender (pubkeys (r.shardingMap m.shardID)) sender.pubkey
    (pubkeys (selected m.header.boolMap sorted))
  omega

/-! ### A shard of three, of whom one has signed -/

/-- A DS node without micro blocks, on a DS block with the given number of shards and sharding nodes; every shard has
the same members. -/
def collectingRole (sum : UInt32) (nodes shard : List PeerEndpoint) : RoleDs Platform.sample where
  peerServer := {sampleNode 1 [Chain.peerWithKey 1] with
    dsHead := {Chain.dsFirst with
      header := {Chain.dsFirst.header with shardingSum := sum}
      body := {Chain.dsFirst.body with shardingNodes := nodes}}}
  shardingMap := fun _ => shard
  microBlockList := []

/-- A micro block of the shard for the next block, by the given miner. -/
def minedBy (shard : UInt32) (key : Nat) (mark : Seal) : MicroBlock := withSeal
  ⟨{(Core.sampleBlock 1 []).header with
    dsBlockNum := Chain.dsFirst.numberU64
    dsBlockHash := Chain.hashBytes (Chain.dsFirst.hash Env.sample)}, shard, some (Chain.peerWithKey key), [9], []⟩ mark

def submittedBy (key : Nat) (m : MicroBlock) : Message where
  type := .other 0
  timestamp := none
  payload := Platform.sample.microBlock.marshal m
  signature := MultiSig.natBytes (key * MultiSig.messageNat (Chain.hashBytes (m.hash Env.sample)))
  peer := some (Chain.peerWithKey key)

theorem submittedBy_decode (key : Nat) (m : MicroBlock) :
    Platform.sample.microBlock.decode (submittedBy key m).payload = .ok m := (Codec.numbered_roundTrip _).decode m

def roleOfThree : RoleDs Platform.sample := collectingRole 1 threeNodes threeNodes

/-- A micro block that the first two members should have signed. -/
def ofTwo (signature : Bytes) : MicroBlock := minedBy 0 5 ⟨[true, true, false], signature, MultiSig.natBytes 11⟩

theorem roleOfThree_separates (s : Platform.sample.bls.Sig) :
    MultiSig.Separates (pubkeys (roleOfThree.shardingMap 0)) s := threeNodes_separates s

theorem roleOfThree_separates_sender (s : Platform.sample.bls.Sig) :
    MultiSig.Separates ((Chain.peerWithKey 5).pubkey :: pubkeys (roleOfThree.shardingMap 0)) s :=
  MultiSig.linear_separates s (by decide +kernel)

def sumOfTwo : Bytes := MultiSig.natBytes (11 * MultiSig.messageNat (Chain.hashBytes ((ofTwo []).hash Env.sample)))

/-- The first two have signed, and the micro block carries the sum. -/
theorem microBlock_signed_two :
    ∃ t hash, admitMicroBlock (submittedBy 5 (ofTwo sumOfTwo)) (ofTwo sumOfTwo) roleOfThree =
    (.ok ⟨⟩, t) ∧ SignedByShard roleOfThree (submittedBy 5 (ofTwo sumOfTwo)) (ofTwo sumOfTwo) (Chain.peerWithKey 5) hash 2 := by
  obtain ⟨_, t, hrun⟩ := isOk_iff.mp (show (admitMicroBlock (submittedBy 5 (ofTwo sumOfTwo)) (ofTwo sumOfTwo)
    roleOfThree).1.isOk = true by decide +kernel)
  obtain ⟨hash, sender, expected, hhash, hpeer, hexpected, -, hsigned⟩ := microBlock_signed_iff hrun
    (fun sender s hpeer _ => by
      obtain rfl : Chain.peerWithKey 5 = sender := Option.some.inj hpeer
      exact roleOfThree_separates_sender s) fun s _ => roleOfThree_separates s
  obtain rfl : Chain.peerWithKey 5 = sender := Option.some.inj hpeer
  obtain rfl : (2 : Int) = expected := Except.ok.inj ((show expectedOfShard roleOfThree.peerServer = .ok 2 by
    decide +kernel).symm.trans hexpected)
  have hbytes : hash.bytes = Chain.hashBytes ((ofTwo []).hash Env.sample) := by
    have hsame : (ofTwo []).hash Env.sample = .ok hash := hhash
    rw [hsame]
    rfl
  have hcovers : MultiSig.Covers (B := MultiSig.linear)
      (11 * MultiSig.messageNat (Chain.hashBytes ((ofTwo []).hash Env.sample))) hash.bytes
      (pubkeys (selected [true, true, false] threeNodes)) := by
    rw [← hbytes]
    exact MultiSig.linear_covers_sum (show _ = List.map some [5, 6] by decide +kernel) hash.bytes
  exact ⟨t, hash, hrun, hsigned (by decide +kernel) ⟨threeNodes, _, by decide +kernel, MultiSig.ofNatBytes_natBytes _,
    hcovers⟩⟩

/-- The first member alone has signed; the other signature is nowhere, and the micro block is accepted. -/
theorem microBlock_signed_one :
    ∃ t hash, admitMicroBlock (submittedBy 5 (ofTwo [])) (ofTwo []) roleOfThree = (.ok ⟨⟩, t) ∧
    expectedOfShard roleOfThree.peerServer = .ok 2 ∧ (ofTwo []).hash Platform.sample.toEnv = .ok hash ∧
    ¬SignedByShard roleOfThree (submittedBy 5 (ofTwo [])) (ofTwo []) (Chain.peerWithKey 5) hash 2 := by
  obtain ⟨_, t, hrun⟩ := isOk_iff.mp (show (admitMicroBlock (submittedBy 5 (ofTwo [])) (ofTwo [])
    roleOfThree).1.isOk = true by decide +kernel)
  obtain ⟨hash, sender, sorted, expected, hadm, -⟩ := admitMicroBlock_ok hrun
  obtain rfl : Chain.peerWithKey 5 = sender := Option.some.inj hadm.sent
  have hexpected : expectedOfShard roleOfThree.peerServer = .ok 2 := by decide +kernel
  obtain rfl : (2 : Int) = expected := Except.ok.inj (hexpected.symm.trans hadm.asked)
  refine ⟨t, hash, hrun, hexpected, hadm.hashed, fun hsigned => ?_⟩
  -- an empty signature does not decode, so it speaks for nobody
  have hnobody : MultiSig.SpokenFor Platform.sample.bls (pubkeys (roleOfThree.shardingMap 0)) [] hash.bytes [] :=
    ⟨List.nodup_nil, List.nil_subset _, .inr ⟨rfl, fun s hs => nomatch hs⟩⟩
  have henough := (hadm.signedByShard_iff (fun s _ => roleOfThree_separates_sender s) (fun s _ => roleOfThree_separates s)
    hnobody).mp hsigned
  exact absurd henough (by decide +kernel)

/-! ### One micro block for each shard -/

/-- A micro block that was accepted, with the role at that time. -/
structure Arrival (P : Platform) where
  role : RoleDs P
  block : MicroBlock

/-- The roles that have come to their list by `ProcessMicroBlockSubmission`, with the micro blocks in the order in
which they came. Between two submissions anything may happen that leaves the list and the two heads alone. -/
inductive Collecting : RoleDs P → List (Arrival P) → Prop
  | clear (r : RoleDs P) : r.microBlockList = [] → Collecting r []
  | accepted {r t : RoleDs P} {delivered : List (Arrival P)} (msg : Message) (m : MicroBlock) :
      Collecting r delivered → P.microBlock.decode msg.payload = .ok m → admitMicroBlock msg m r = (.ok ⟨⟩, t) →
      Collecting t (delivered ++ [⟨r, m⟩])
  | refused {r t : RoleDs P} {delivered : List (Arrival P)} (msg : Message) (m : MicroBlock) (e : Err) :
      Collecting r delivered → P.microBlock.decode msg.payload = .ok m → admitMicroBlock msg m r = (.error e, t) →
      Collecting t delivered
  | other {r t : RoleDs P} {delivered : List (Arrival P)} : Collecting r delivered →
      t.microBlockList = r.microBlockList → t.peerServer.dsHead = r.peerServer.dsHead →
      t.peerServer.txHead = r.peerServer.txHead → Collecting t delivered

/-- The micro block is for a shard that has none in the list yet, and for the next block. -/
structure Fits (r : RoleDs P) (m : MicroBlock) : Prop where
  shard : m.shardID < r.peerServer.dsHead.header.shardingSum
  new : m.shardID ∉ r.microBlockList.map (·.shardID)
  number : m.header.blockNumber = r.peerServer.txHead.numberU64 + 1

/-- One micro block for each shard, all for the next block. -/
structure OnePerShard (r : RoleDs P) : Prop where
  shards : (r.microBlockList.map (·.shardID)).Perm
    ((List.range r.peerServer.dsHead.header.shardingSum.toNat).map UInt32.ofNat)
  number : ∀ m ∈ r.microBlockList, m.header.blockNumber = r.peerServer.txHead.numberU64 + 1

structure AtMostOne (r : RoleDs P) : Prop where
  distinct : (r.microBlockList.map (·.shardID)).Nodup
  shards : ∀ m ∈ r.microBlockList, m.shardID < r.peerServer.dsHead.header.shardingSum
  number : ∀ m ∈ r.microBlockList, m.header.blockNumber = r.peerServer.txHead.numberU64 + 1

theorem atMostOne_adding : AtMostOne (r.adding m sorted) ↔ AtMostOne r ∧ Fits r m := by
  have hids : (r.adding m sorted).microBlockList.map (·.shardID) = r.microBlockList.map (·.shardID) ++ [m.shardID] :=
    map_append
  constructor
  · intro h
    have hd := h.distinct
    rw [hids, nodup_append_comm, singleton_append, nodup_cons] at hd
    have hm : m ∈ (r.adding m sorted).microBlockList := mem_append_right _ (mem_singleton_self m)
    have hold : ∀ m' ∈ r.microBlockList, m' ∈ (r.adding m sorted).microBlockList := fun _ => mem_append_left _
    exact ⟨⟨hd.2, fun m' hm' => h.shards m' (hold m' hm'), fun m' hm' => h.number m' (hold m' hm')⟩, h.shards m hm, hd.1,
      h.number m hm⟩
  · rintro ⟨h, hfits⟩
    have hmem : ∀ m' ∈ (r.adding m sorted).microBlockList, m' ∈ r.microBlockList ∨ m' = m := fun m' hm' =>
      (mem_append.mp hm').imp_right mem_singleton.mp
    refine ⟨?_, fun m' hm' => ?_, fun m' hm' => ?_⟩
    · rw [hids, nodup_append_comm, singleton_append, nodup_cons]
      exact ⟨hfits.new, h.distinct⟩
    · rcases hmem m' hm' with hm' | rfl
      · exact h.shards m' hm'
      · exact hfits.shard
    · rcases hmem m' hm' with hm' | rfl
      · exact h.number m' hm'
      · exact hfits.number

theorem Collecting.atMostOne_iff {delivered : List (Arrival P)} (h : Collecting r delivered) :
    AtMostOne r ↔ ∀ d ∈ delivered, Fits d.role d.block := by
  induction h with
  | clear r hempty =>
    refine ⟨fun _ d hd => absurd hd not_mem_nil, fun _ => ?_⟩
    constructor <;> simp [hempty]
  | accepted msg m _ _ hadd ih =>
    obtain ⟨hash, sender, sorted, expected, -, rfl⟩ := admitMicroBlock_ok hadd
    rw [atMostOne_adding, ih, forall_mem_append, forall_mem_singleton]
  | @refused r t _ msg m e _ _ hadd ih =>
    obtain ⟨hlist, hpeer⟩ := admitMicroBlock_error hadd
    have hsame : AtMostOne t ↔ AtMostOne r := by
      constructor <;> rintro ⟨hd, hs, hn⟩ <;> constructor <;> simp_all
    exact hsame.trans ih
  | @other r t _ _ hlist hds htx ih =>
    have hsame : AtMostOne t ↔ AtMostOne r := by
      constructor <;> rintro ⟨hd, hs, hn⟩ <;> constructor <;> simp_all
    exact hsame.trans ih

theorem mem_shardIDs {sum k : UInt32} : k ∈ (range sum.toNat).map UInt32.ofNat ↔ k < sum := by
  rw [mem_map, UInt32.lt_iff_toNat_lt]
  constructor
  · rintro ⟨i, hi, rfl⟩
    have hlt := mem_range.mp hi
    rwa [UInt32.toNat_ofNat_of_lt' (hlt.trans sum.toNat_lt)]
  · intro hk
    exact ⟨k.toNat, mem_range.mpr hk, UInt32.ofNat_toNat⟩

theorem shardIDs_nodup (sum : UInt32) : ((range sum.toNat).map UInt32.ofNat).Nodup := by
  refine List.Nodup.map_on (fun i hi j hj heq => ?_) nodup_range
  have hlt {i : Nat} (hi : i ∈ range sum.toNat) : (UInt32.ofNat i).toNat = i :=
    UInt32.toNat_ofNat_of_lt' ((mem_range.mp hi).trans sum.toNat_lt)
  rw [← hlt hi, ← hlt hj, heq]

theorem onePerShard_iff_atMostOne (hfull : r.full = true) : OnePerShard r ↔ AtMostOne r := by
  constructor
  · intro h
    refine ⟨h.shards.nodup_iff.mpr (shardIDs_nodup _), fun m hm => ?_, h.number⟩
    exact mem_shardIDs.mp (h.shards.mem_iff.mp (mem_map_of_mem hm))
  · intro h
    refine ⟨?_, h.number⟩
    have hsub : r.microBlockList.map (·.shardID) ⊆
        (range r.peerServer.dsHead.header.shardingSum.toNat).map UInt32.ofNat := by
      intro k hk
      obtain ⟨m, hm, rfl⟩ := mem_map.mp hk
      exact mem_shardIDs.mpr (h.shards m hm)
    have hsubperm := subperm_of_subset h.distinct hsub
    have hle := hsubperm.length_le
    rw [length_map, length_map, length_range] at hle
    have hlength : r.microBlockList.length = r.peerServer.dsHead.header.shardingSum.toNat := by
      rw [← beq_iff_eq.mp hfull, UInt32.toNat_ofNat_of_lt' (hle.trans_lt (UInt32.toNat_lt _))]
    exact hsubperm.perm_of_length_le (by simp [hlength])

/-- **One micro block for each shard.** When a submission starts the final-block stage, there is one micro block for each
shard in the list, and all are for the next block, if and only if each of them fitted when it came. -/
theorem onePerShard_iff {arrived : List (Arrival P)} (hrun : Collecting r arrived)
    (hdecode : P.microBlock.decode msg.payload = .ok m) (hadd : admitMicroBlock msg m r = (.ok ⟨⟩, t))
    (hfull : t.full = true) : OnePerShard t ↔ ∀ a ∈ arrived ++ [⟨r, m⟩], Fits a.role a.block :=
  (onePerShard_iff_atMostOne hfull).trans (Collecting.accepted msg m hrun hdecode hadd).atMostOne_iff

theorem processMicroBlockSubmission_admitted (done : RoleDsProc P Unit) (hdecode : P.microBlock.decode msg.payload = .ok m)
    (hadd : admitMicroBlock msg m r = (.ok ⟨⟩, t)) :
    processMicroBlockSubmission done msg r = if t.full then done t else (.ok ⟨⟩, t) := by
  unfold processMicroBlockSubmission
  rw [bind_lift hdecode, bind_run hadd, bind_read]
  cases t.full <;> rfl

/-- A micro block signed by the only member of its shard, by the given miner. -/
def ofOne (shard : UInt32) (key : Nat) : MicroBlock := minedBy shard key ⟨[true], [], MultiSig.natBytes 5⟩

def roleOfTwo : RoleDs Platform.sample :=
  collectingRole 2 [Chain.peerWithKey 5, Chain.peerWithKey 6] [Chain.peerWithKey 5]

/-- A micro block of the first shard is in the list when another one comes. -/
theorem roleOfTwo_collects (shard : UInt32) (h : ((admitMicroBlock (submittedBy 5 (ofOne 0 5)) (ofOne 0 5) >>= fun _ =>
      admitMicroBlock (submittedBy 6 (ofOne shard 6)) (ofOne shard 6)) roleOfTwo).1.isOk = true) :
    ∃ sorted t, Collecting (roleOfTwo.adding (ofOne 0 5) sorted) [⟨roleOfTwo, ofOne 0 5⟩] ∧
      admitMicroBlock (submittedBy 6 (ofOne shard 6)) (ofOne shard 6) (roleOfTwo.adding (ofOne 0 5) sorted) =
        (.ok ⟨⟩, t) ∧ t.full = true ∧ t.microBlockList = [ofOne 0 5, ofOne shard 6] := by
  obtain ⟨_, t, hboth⟩ := isOk_iff.mp h
  obtain ⟨_, r, hfirst, hsecond⟩ := bind_ok.mp hboth
  have hrun := Collecting.accepted _ (ofOne 0 5) (.clear roleOfTwo rfl) (submittedBy_decode 5 (ofOne 0 5)) hfirst
  obtain ⟨_, _, sorted, _, -, rfl⟩ := admitMicroBlock_ok hfirst
  refine ⟨sorted, t, hrun, hsecond, ?_⟩
  obtain ⟨_, _, _, _, -, rfl⟩ := admitMicroBlock_ok hsecond
  exact ⟨rfl, rfl⟩

/-- One micro block of each of the two shards. -/
theorem onePerShard_two :
    ∃ (r t : RoleDs Platform.sample) (arrived : List (Arrival Platform.sample)), Collecting r arrived ∧
    admitMicroBlock (submittedBy 6 (ofOne 1 6)) (ofOne 1 6) r = (.ok ⟨⟩, t) ∧ t.full = true ∧ OnePerShard t := by
  obtain ⟨sorted, t, hrun, hadd, hfull, -⟩ := roleOfTwo_collects 1 (by decide +kernel)
  refine ⟨_, t, _, hrun, hadd, hfull, (onePerShard_iff hrun (submittedBy_decode 6 _) hadd hfull).mpr fun a ha => ?_⟩
  rcases List.mem_append.mp ha with ha | ha
  · obtain rfl := List.mem_singleton.mp ha
    exact ⟨by decide, List.not_mem_nil, rfl⟩
  · obtain rfl := List.mem_singleton.mp ha
    exact ⟨show (1 : UInt32) < 2 by decide, show (1 : UInt32) ∉ [0] by decide, rfl⟩

/-- Two senders submit micro blocks of the first shard, and the final-block stage starts without one of the second. -/
theorem first_shard_twice :
    ∃ (r t : RoleDs Platform.sample) (arrived : List (Arrival Platform.sample)), Collecting r arrived ∧
    admitMicroBlock (submittedBy 6 (ofOne 0 6)) (ofOne 0 6) r = (.ok ⟨⟩, t) ∧ t.full = true ∧
    (∀ done, processMicroBlockSubmission done (submittedBy 6 (ofOne 0 6)) r = done t) ∧ ¬OnePerShard t := by
  obtain ⟨sorted, t, hrun, hadd, hfull, hlist⟩ := roleOfTwo_collects 0 (by decide +kernel)
  refine ⟨_, t, _, hrun, hadd, hfull, fun done => ?_, fun hone => ?_⟩
  · rw [processMicroBlockSubmission_admitted done (submittedBy_decode 6 _) hadd, if_pos hfull]
  · have hdistinct := ((onePerShard_iff_atMostOne hfull).mp hone).distinct
    rw [hlist] at hdistinct
    exact absurd hdistinct (show ¬([0, 0] : List UInt32).Nodup by decide)

end Okchain.Consensus
