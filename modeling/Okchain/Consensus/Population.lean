import Okchain.Consensus.Shards

/-! Who is in the committee, over the epochs.

At the end of an epoch the leader makes a DS block of the submissions of work: the best submitter joins the committee
in place of its last member, who becomes a sharding node together with the other submitters. A submission is refused
if there is one with the same key, but not for coming from the committee, and `composeDSBlock` does not look at who is
a member either.
-/
namespace Okchain.Consensus
open Lib Proc Protos List
open Core (exists_of_isOk)

variable {P : Platform}

/-! ### Submissions -/

structure MiningResult where
  nonce : UInt64
  mixHash : Bytes
  powResult : Bytes
  proof : Bytes
  vrfvalue : Bytes

/-- A `PoWSubmission` as it arrives. -/
structure PoWMessage extends PoWSubmission where
  blockNum : UInt64
  rand1 : Bytes
  rand2 : Bytes
  coinbase : Bytes
  result : Option MiningResult

/-- What collecting submissions takes as given: their codec, the text of a public key, and the configured
verifier of work. -/
structure PowRules (P : Platform) where
  codec : Codec PoWMessage
  getHexString : P.bls.PubKey → Bytes
  verify : (key seed : Bytes) → (blockNum difficulty : UInt64) → Option MiningResult → Except Err Bool

/-- `PoWSubmission.Hash`. -/
def PoWMessage.hash (E : Env) (pow : PoWMessage) : Except Err Hash := do
  let result ← deref pow.result
  let peer ← deref pow.peer
  return E.hashList [Rlp.ofUint result.nonce.toNat, Rlp.ofBytes result.powResult, Rlp.ofBytes result.mixHash,
    Rlp.ofString pow.rand1, Rlp.ofString pow.rand2, Rlp.ofUint pow.blockNum.toNat, Rlp.ofBytes peer.pubkey]

/-- `SyncPowSubmissions.Has`. -/
def hasSubmission (peer : PeerEndpoint) : List PoWSubmission → Except Err Bool
  | [] => .ok false
  | pow :: pows => do
    let known ← deref pow.peer
    if known.pubkey = peer.pubkey then return true else hasSubmission peer pows

def hexDigit (n : UInt8) : UInt8 := if n < 10 then 48 + n else 87 + n

/-- `hex.EncodeToString`. -/
def hexEncode (b : Bytes) : Bytes := b.flatMap fun x => [hexDigit (x / 16), hexDigit (x % 16)]

/-- `Hash.String`. -/
def hashString (h : Hash) : Bytes := 48 :: 120 :: hexEncode h.bytes

def updateDSBlockRand (s : PeerServer P) : Except Err Bytes := do return hashString (← s.dsHead.hash P.toEnv)

def updateTXBlockRand (s : PeerServer P) : Except Err Bytes := do return hashString (← s.txHead.hash P.toEnv)

/-- `PeerServer.MsgVerify`. -/
def msgVerify (E : Env) (msg : Message) (hash : Bytes) : Except Err Unit := do
  let peer ← deref msg.peer
  let ret ← verifyHash E hash msg.signature peer.pubkey
  if ret then return () else .error (.consensus .verifyMessage)

/-- The submission goes to the end of the list, and its sender to the sharding nodes. -/
def PeerServer.listing (s : PeerServer P) (pow : PoWSubmission) (sender : Option PeerEndpoint) : PeerServer P :=
  {s with
    poWSubList := s.poWSubList ++ [pow]
    shardingNodes := s.shardingNodes ++ sender.toList}

/-- `ProcessPoWSubmission`, once the payload is decoded. -/
def acceptPoWSubmission (rules : PowRules P) (msg : Message) (pow : PoWMessage) : NodeProc P Unit := do
  let peer ← .lift (deref pow.peer)
  let s ← .read id
  let known ← .lift (hasSubmission peer s.poWSubList)
  .ensure (known = false) (.consensus .duplicatedMessage)
  let dsRand ← .lift (updateDSBlockRand s)
  .ensure (pow.rand1 = dsRand) (.consensus .verifyBlock)
  let txRand ← .lift (updateTXBlockRand s)
  .ensure (pow.rand2 = txRand) (.consensus .verifyBlock)
  let hash ← .lift (pow.hash P.toEnv)
  .lift (orError (.consensus .verifyMessage) (msgVerify P.toEnv msg hash.bytes))
  let pub ← .lift (orError (.consensus .pubKeyConvert) (deserializePub P.toEnv peer.pubkey))
  let pubKeyStr := rules.getHexString pub
  let seed := dsRand ++ txRand ++ peer.address ++ pubKeyStr ++ hexEncode pow.coinbase
  -- only an error of the verifier counts, not its verdict
  let _ ← .lift (orError (.consensus .verifyMine)
    (rules.verify pubKeyStr seed pow.blockNum s.powDifficulty pow.result))
  .update fun s => s.listing pow.toPoWSubmission msg.peer

def processPoWSubmission (rules : PowRules P) (msg : Message) : NodeProc P Unit := do
  let pow ← .lift (rules.codec.decode msg.payload)
  acceptPoWSubmission rules msg pow

/-- The verifier's verdict on the work in a submission, for its own peer and coinbase, on the node's heads and
at the node's difficulty. -/
def verdict (rules : PowRules P) (s : PeerServer P) (pow : PoWMessage) : Except Err Bool := do
  let peer ← deref pow.peer
  let dsRand ← updateDSBlockRand s
  let txRand ← updateTXBlockRand s
  let pub ← deserializePub P.toEnv peer.pubkey
  let pubKeyStr := rules.getHexString pub
  let seed := dsRand ++ txRand ++ peer.address ++ pubKeyStr ++ hexEncode pow.coinbase
  rules.verify pubKeyStr seed pow.blockNum s.powDifficulty pow.result

/-- All that `ProcessPoWSubmission` asks of a submission. Any verdict will do. -/
structure Admissible (rules : PowRules P) (s : PeerServer P) (msg : Message) (pow : PoWMessage)
    (peer sender : PeerEndpoint) (hash : Hash) : Prop where
  named : pow.peer = some peer
  fresh : hasSubmission peer s.poWSubList = .ok false
  rand1 : updateDSBlockRand s = .ok pow.rand1
  rand2 : updateTXBlockRand s = .ok pow.rand2
  hashed : pow.hash P.toEnv = .ok hash
  sent : msg.peer = some sender
  signed : verifyHash P.toEnv hash.bytes msg.signature sender.pubkey = .ok true
  judged : ∃ valid, verdict rules s pow = .ok valid

/-- The number `ByNounce` compares. -/
def PoWSubmission.rank (pow : PoWSubmission) : UInt64 :=
  let rand := UInt64.ofNat (Lib.Rlp.ofBeBytes (pow.publicKey.take 8))
  pow.nonce * (10000 : UInt64) + ((rand >>> (48 : UInt64)) &&& (0xFFF : UInt64))

/-- `sort.Sort(ByNounce)` may leave this list: the larger number is first, and entries with equal numbers
are in any order. Comparing reads eight bytes of a key. -/
structure Ranks (pows ranked : List PoWSubmission) : Prop where
  perm : ranked.Perm pows
  descending : ranked.Pairwise fun a b => b.rank ≤ a.rank
  readable : 2 ≤ pows.length → ∀ pow ∈ pows, 8 ≤ pow.publicKey.length

/-! ### Epochs -/

/-- The nodes that have come to their list of submissions by `ProcessPoWSubmission`, from an empty one.
Whatever else happens to a node leaves the list alone and keeps the members of the committee; a change of
view rotates them. -/
inductive Collected (rules : PowRules P) : PeerServer P → Prop
  | clear (s : PeerServer P) : s.poWSubList = [] → Collected rules s
  | submission {s : PeerServer P} (msg : Message) : Collected rules s →
      Collected rules (processPoWSubmission rules msg s).2
  | sort {s : PeerServer P} {ranked : List PoWSubmission} : Collected rules s → Ranks s.poWSubList ranked →
      Collected rules {s with poWSubList := ranked}
  | other {s t : PeerServer P} : Collected rules s → t.poWSubList = s.poWSubList →
      t.committee.Perm s.committee → Collected rules t

/-- The DS blocks of consecutive epochs, each with the leader that composed it. The committee of a block is
the committee of the next epoch. -/
inductive Epochs (rules : PowRules P) : List PeerEndpoint → List (PeerServer P × DSBlock) → Prop
  | nil (committee : List PeerEndpoint) : Epochs rules committee []
  | cons {committee : List PeerEndpoint} {s : PeerServer P} {b : DSBlock}
      {rest : List (PeerServer P × DSBlock)} : Collected rules s → s.committee.Perm committee →
      composeDSBlock s = .ok b → Epochs rules b.body.committee rest → Epochs rules committee ((s, b) :: rest)

def pubkeys (peers : List PeerEndpoint) : List Bytes := peers.map (·.pubkey)

structure WellPopulated (size : Nat) (b : DSBlock) : Prop where
  size : b.body.committee.length = size
  distinct : (pubkeys b.body.committee).Nodup
  disjoint : (pubkeys b.body.committee).Disjoint (pubkeys b.body.shardingNodes)

/-- The winner is not in the committee, and of its members none but the one who leaves is among the other
submitters a block is made of. -/
structure OutsideSubmitters (s : PeerServer P) : Prop where
  winner : ∀ pow ∈ s.poWSubList.head?, ∀ p ∈ pow.peer, p.pubkey ∉ pubkeys s.committee
  recruits : (pubkeys s.committee.dropLast).Disjoint (pubkeys (recruits s))

/-! ### Submissions have distinct keys -/

section Submissions
variable {rules : PowRules P} {s : PeerServer P}

theorem hasSubmission_false {peer : PeerEndpoint} {pows : List PoWSubmission}
    (h : hasSubmission peer pows = .ok false) : peer.pubkey ∉ pubkeys (pows.filterMap (·.peer)) := by
  induction pows with
  | nil => simp [pubkeys]
  | cons pow pows ih =>
    obtain ⟨known, hknown, h⟩ := except_bind_ok.mp h
    split at h
    · exact nomatch Except.ok.inj h
    · rename_i hne
      rw [filterMap_cons_some (deref_ok.mp hknown), pubkeys, map_cons, mem_cons, not_or]
      exact ⟨Ne.symm hne, ih h⟩

theorem msgVerify_ok {E : Env} {msg : Message} {hash : Bytes} {u : Unit} (h : msgVerify E msg hash = .ok u) :
    ∃ sender, msg.peer = some sender ∧ verifyHash E hash msg.signature sender.pubkey = .ok true := by
  obtain ⟨sender, hsender, h⟩ := except_bind_ok.mp h
  obtain ⟨ret, hret, -⟩ := except_bind_ok.mp h
  cases ret with
  | true => exact ⟨sender, deref_ok.mp hsender, hret⟩
  | false => exact absurd hret Server.verifyHash_ne_false

variable {msg : Message} {pow : PoWMessage}

/-- A submission is refused and leaves the node as it was, or it is admissible and listed. -/
theorem acceptPoWSubmission_cases {Q : Except Err Unit × PeerServer P → Prop} (herror : ∀ e, Q (.error e, s))
    (hok : ∀ peer sender hash, Admissible rules s msg pow peer sender hash →
      Q (.ok ⟨⟩, s.listing pow.toPoWSubmission msg.peer)) : Q (acceptPoWSubmission rules msg pow s) := by
  refine run_lift herror fun peer hpeer => ?_
  rw [bind_read]
  refine run_lift herror fun known hknown => run_ensure herror fun hfresh => ?_
  refine run_lift herror fun dsRand hds => run_ensure herror fun hrand1 => ?_
  refine run_lift herror fun txRand htx => run_ensure herror fun hrand2 => ?_
  refine run_lift herror fun hash hhash => run_lift herror fun _ hverify => ?_
  refine run_lift herror fun pub hpub => run_lift herror fun valid hvalid => ?_
  obtain ⟨sender, hsender, hsigned⟩ := msgVerify_ok (orError_ok.mp hverify)
  refine hok peer sender hash
    ⟨deref_ok.mp hpeer, hfresh ▸ hknown, hrand1 ▸ hds, hrand2 ▸ htx, hhash, hsender, hsigned, valid, ?_⟩
  refine except_bind_ok.mpr ⟨peer, hpeer, except_bind_ok.mpr ⟨dsRand, hds, ?_⟩⟩
  exact except_bind_ok.mpr ⟨txRand, htx, except_bind_ok.mpr ⟨pub, orError_ok.mp hpub, orError_ok.mp hvalid⟩⟩

theorem processPoWSubmission_cases {Q : Except Err Unit × PeerServer P → Prop} (herror : ∀ e, Q (.error e, s))
    (hok : ∀ pow peer sender hash, rules.codec.decode msg.payload = .ok pow →
      Admissible rules s msg pow peer sender hash → Q (.ok ⟨⟩, s.listing pow.toPoWSubmission msg.peer)) :
    Q (processPoWSubmission rules msg s) :=
  run_lift herror fun pow hdecode => acceptPoWSubmission_cases herror fun peer sender hash => hok pow peer sender hash hdecode

theorem distinctSubmitters_listing {pow : PoWSubmission} {p : PeerEndpoint} {sender : Option PeerEndpoint}
    (hs : DistinctSubmitters s) (hpeer : pow.peer = some p)
    (hnew : p.pubkey ∉ pubkeys (s.poWSubList.filterMap (·.peer))) :
    DistinctSubmitters (s.listing pow sender) := by
  show (((s.poWSubList ++ [pow]).filterMap (·.peer)).map (·.pubkey)).Nodup
  rw [filterMap_append, filterMap_cons_some hpeer, filterMap_nil, map_append]
  refine hs.append (nodup_singleton _) ?_
  rw [map_singleton, disjoint_singleton]
  exact hnew

theorem Collected.distinctSubmitters (h : Collected rules s) : DistinctSubmitters s := by
  induction h with
  | clear s hempty =>
    unfold DistinctSubmitters
    rw [hempty]
    exact nodup_nil
  | submission msg _ ih =>
    refine processPoWSubmission_cases (Q := fun o => DistinctSubmitters o.2) (fun _ => ih) ?_
    exact fun pow peer _ _ _ h => distinctSubmitters_listing ih h.named (hasSubmission_false h.fresh)
  | sort _ hranks ih => exact ((hranks.perm.filterMap _).map _).nodup_iff.mpr ih
  | other _ hlist _ ih =>
    unfold DistinctSubmitters
    rw [hlist]
    exact ih

end Submissions

/-! ### One epoch, and a run -/

section Epoch
variable {s : PeerServer P} {b : DSBlock} {winner last : PeerEndpoint}

theorem enqueueAndDequeueTail_eq {nodes : List PeerEndpoint} (h : nodes ≠ []) (p : PeerEndpoint) :
    enqueueAndDequeueTail nodes p = p :: nodes.dropLast := by
  unfold enqueueAndDequeueTail
  split
  · rfl
  · have hpos := length_pos_of_ne_nil h
    obtain ⟨q, rfl⟩ := length_eq_one_iff.mp (show nodes.length = 1 by omega)
    rfl

section
variable (h : ComposedDSBlock s b winner last)
include h

theorem winner_not_mem_recruits (hdistinct : DistinctSubmitters s) : winner.pubkey ∉ pubkeys (recruits s) := by
  obtain ⟨pow, pows, hpows, hpeer⟩ := h.first
  unfold DistinctSubmitters at hdistinct
  rw [hpows, filterMap_cons_some hpeer, map_cons, nodup_cons] at hdistinct
  refine fun hmem => hdistinct.1 (List.Sublist.subset ?_ hmem)
  have hused := usedSubmissions_pos h
  obtain ⟨n, hn⟩ : ∃ n, usedSubmissions s = n + 1 := ⟨_, (Nat.succ_pred_eq_of_pos hused).symm⟩
  unfold recruits
  rw [hpows, hn]
  exact ((take_sublist _ _).filterMap _).map _

theorem committee_keys : pubkeys s.committee = pubkeys s.committee.dropLast ++ [last.pubkey] := by
  have hsplit : s.committee = s.committee.dropLast ++ [last] :=
    (dropLast_append_getLast? last h.last_mem).symm
  conv_lhs => rw [hsplit]
  exact map_append

theorem wellPopulated_iff (hdistinct : DistinctSubmitters s)
    (hkeys : (pubkeys s.committee).Nodup) : WellPopulated s.committee.length b ↔ OutsideSubmitters s := by
  obtain ⟨pow, pows, hpows, hpeer⟩ := h.first
  have hne : s.committee ≠ [] := getLast?_isSome.mp (by rw [h.last_mem]; rfl)
  have hcommittee := h.committee.trans (enqueueAndDequeueTail_eq hne winner)
  have hwinner := winner_not_mem_recruits h hdistinct
  have hsplit := committee_keys h
  rw [hsplit, nodup_append_comm, singleton_append, nodup_cons] at hkeys
  have hnodes : pubkeys b.body.shardingNodes = last.pubkey :: pubkeys (recruits s) := by
    rw [h.nodes]
    rfl
  have hmembers : pubkeys b.body.committee = winner.pubkey :: pubkeys s.committee.dropLast := by
    rw [hcommittee]
    rfl
  constructor
  · intro hpop
    have hd := hpop.distinct
    have hj := hpop.disjoint
    rw [hmembers, nodup_cons] at hd
    rw [hmembers, hnodes, disjoint_cons_left] at hj
    refine ⟨fun pow' hpow' p hp => ?_, (disjoint_cons_right.mp hj.2).2⟩
    obtain rfl : pow = pow' := Option.some.inj ((congrArg head? hpows).symm.trans hpow')
    obtain rfl : winner = p := Option.some.inj (hpeer.symm.trans hp)
    rw [hsplit, mem_append, mem_singleton]
    rintro (hrest | hlast)
    · exact hd.1 hrest
    · exact hj.1 (hlast ▸ mem_cons_self)
  · intro hout
    have hnew : winner.pubkey ∉ pubkeys s.committee := hout.winner pow (by rw [hpows]; rfl) winner hpeer
    rw [hsplit, mem_append, mem_singleton, not_or] at hnew
    refine ⟨?_, ?_, ?_⟩
    · rw [hcommittee, length_cons, length_dropLast]
      have := length_pos_of_ne_nil hne
      omega
    · rw [hmembers, nodup_cons]
      exact ⟨hnew.1, hkeys.2⟩
    · rw [hmembers, hnodes, disjoint_cons_left, disjoint_cons_right, mem_cons, not_or]
      exact ⟨⟨hnew.2, hwinner⟩, hkeys.1, hout.recruits⟩

end

end Epoch

/-- Over any number of epochs, the blocks are well populated as long as no leader has composed one from
submissions of the committee's own members, and only so long. -/
theorem wellPopulated_epochs_iff {rules : PowRules P} {committee : List PeerEndpoint}
    {epochs : List (PeerServer P × DSBlock)} (hkeys : (pubkeys committee).Nodup)
    (hrun : Epochs rules committee epochs) :
    (∀ e ∈ epochs, WellPopulated committee.length e.2) ↔ ∀ e ∈ epochs, OutsideSubmitters e.1 := by
  induction hrun with
  | nil => simp
  | @cons committee s b rest hcollected hperm hb _ ih =>
    obtain ⟨winner, last, hcomposed⟩ := composeDSBlock_composed hb
    have hstep := wellPopulated_iff hcomposed hcollected.distinctSubmitters ((hperm.map _).nodup_iff.mpr hkeys)
    rw [hperm.length_eq] at hstep
    rw [List.forall_mem_cons, List.forall_mem_cons, hstep]
    refine and_congr_right fun hout => ?_
    -- the next epoch starts from a committee of the same size
    have hpop := hstep.mpr hout
    rw [← ih hpop.distinct, hpop.size]

theorem Collected.accepted {rules : PowRules P} {msg : Message} {pow : PoWMessage} {s : PeerServer P}
    (hs : Collected rules s) (hdecode : rules.codec.decode msg.payload = .ok pow)
    (h : (acceptPoWSubmission rules msg pow s).1.isOk = true) :
    Collected rules (s.listing pow.toPoWSubmission msg.peer) := by
  have hstep := hs.submission msg
  have hprocess : processPoWSubmission rules msg s = acceptPoWSubmission rules msg pow s := bind_lift hdecode
  rw [hprocess] at hstep
  revert h hstep
  exact acceptPoWSubmission_cases (Q := fun o => o.1.isOk = true → Collected rules o.2 → _)
    (fun _ h => nomatch h) fun _ _ _ _ _ h => h

/-! ### An epoch with and one without a member's submission -/

deriving instance Encodable for MiningResult
deriving instance Encodable for PoWSubmission
deriving instance Encodable for PoWMessage

/-- The rules of the verifier that accepts everything. -/
def PowRules.dummy : PowRules Platform.sample where
  codec := .numbered _
  getHexString := MultiSig.natBytes
  verify := fun _ _ _ _ _ => .ok true

/-- A committee of two that has not received a submission. -/
def collector : PeerServer Platform.sample :=
  {sampleNode 1 [Chain.peerWithKey 1, Chain.peerWithKey 2] with poWSubList := []}

def submissionBy (key : Nat) : PoWMessage where
  nonce := 0
  difficulty := 1
  peer := some (Chain.peerWithKey key)
  publicKey := MultiSig.natBytes key
  blockNum := 0
  rand1 := (updateDSBlockRand collector).toOption.getD []
  rand2 := (updateTXBlockRand collector).toOption.getD []
  coinbase := []
  result := some ⟨0, [], [], [], []⟩

def signedSubmission (pow : PoWMessage) (key : Nat) : Message where
  type := .other 0
  timestamp := none
  payload := PowRules.dummy.codec.marshal pow
  signature := match pow.hash Platform.sample.toEnv with
    | .ok hash => Platform.sample.bls.serializeSig (Platform.sample.bls.sign key hash.bytes)
    | .error _ => []
  peer := some (Chain.peerWithKey key)

theorem signedSubmission_decode (pow : PoWMessage) (key : Nat) :
    PowRules.dummy.codec.decode (signedSubmission pow key).payload = .ok pow :=
  Codec.decode_ok.mpr (Codec.numbered_roundTrip _ pow)

def collectedBy (key : Nat) : PeerServer Platform.sample :=
  collector.listing (submissionBy key).toPoWSubmission (some (Chain.peerWithKey key))

theorem collected_seven : Collected PowRules.dummy (collectedBy 7) :=
  (Collected.clear collector rfl).accepted (signedSubmission_decode (submissionBy 7) 7) (by decide +kernel)

theorem collected_one : Collected PowRules.dummy (collectedBy 1) :=
  (Collected.clear collector rfl).accepted (signedSubmission_decode (submissionBy 1) 1) (by decide +kernel)

/-- An epoch with a submission from outside. -/
theorem wellPopulated_epoch_outside : ∃ b,
    Epochs PowRules.dummy collector.committee [(collectedBy 7, b)] ∧ WellPopulated 2 b := by
  obtain ⟨b, hb⟩ := exists_of_isOk (show (composeDSBlock (collectedBy 7)).isOk = true by decide +kernel)
  have hrun : Epochs PowRules.dummy collector.committee [(collectedBy 7, b)] :=
    .cons collected_seven (.refl _) hb (.nil _)
  have hout : OutsideSubmitters (collectedBy 7) := by
    refine ⟨?_, List.disjoint_nil_right _⟩
    decide +kernel
  exact ⟨b, hrun, (wellPopulated_epochs_iff (by decide +kernel) hrun).mpr
    (List.forall_mem_singleton.mpr hout) _ (List.mem_singleton_self _)⟩

/-- A member of the committee submits work, wins, and is in the committee twice. -/
theorem wellPopulated_fails_member : (pubkeys collector.committee).Nodup ∧
    ∃ b, Epochs PowRules.dummy collector.committee [(collectedBy 1, b)] ∧ ¬ WellPopulated 2 b := by
  obtain ⟨b, hb⟩ := exists_of_isOk (show (composeDSBlock (collectedBy 1)).isOk = true by decide +kernel)
  refine ⟨by decide +kernel, b, .cons collected_one (.refl _) hb (.nil _), fun hpop => ?_⟩
  have hsame : (composeDSBlock (collectedBy 1)).map (·.body.committee) =
      .ok [Chain.peerWithKey 1, Chain.peerWithKey 1] := by
    decide +kernel
  rw [hb] at hsame
  have hcommittee : b.body.committee = [Chain.peerWithKey 1, Chain.peerWithKey 1] := Except.ok.inj hsame
  have hdistinct := hpop.distinct
  rw [hcommittee] at hdistinct
  exact absurd hdistinct (by decide +kernel)

end Okchain.Consensus
