import Okchain.Consensus.Population
import Okchain.Consensus.Votes

/-! The list of submissions a DS block is made of.

`ProcessPoWSubmission` checks the two heads a submission was mined on and the signature of the message around it, with
the key of the sender, and refuses a second one of the same peer. The verdict of the verifier is only logged, and
nothing compares the nonce and the key that `ByNounce` ranks by with the nonce that was proved and the peer's key.
-/
namespace Okchain.Consensus
open Lib Proc Protos Option Except

variable {P : Platform}

/-- A submission that was accepted: the message it came in, and the node at that time. -/
structure Admission (P : Platform) where
  node : PeerServer P
  message : Message
  pow : PoWMessage

/-- The nodes that have come to their list by `ProcessPoWSubmission`, with the submissions they accepted. Between
two submissions anything may happen to the node but to this list. -/
inductive Gathered (rules : PowRules P) : PeerServer P → List (Admission P) → Prop
  | clear (s : PeerServer P) : s.poWSubList = [] → Gathered rules s []
  | accepted {s t : PeerServer P} {admitted : List (Admission P)} (msg : Message) (pow : PoWMessage) :
      Gathered rules s admitted → rules.codec.decode msg.payload = .ok pow →
      processPoWSubmission rules msg s = (.ok ⟨⟩, t) → Gathered rules t (admitted ++ [⟨s, msg, pow⟩])
  | refused {s t : PeerServer P} {admitted : List (Admission P)} (msg : Message) (e : Err) :
      Gathered rules s admitted → processPoWSubmission rules msg s = (.error e, t) → Gathered rules t admitted
  | sort {s : PeerServer P} {admitted : List (Admission P)} {ranked : List PoWSubmission} :
      Gathered rules s admitted → Ranks s.poWSubList ranked → Gathered rules {s with poWSubList := ranked} admitted
  | other {s t : PeerServer P} {admitted : List (Admission P)} : Gathered rules s admitted →
      t.poWSubList = s.poWSubList → Gathered rules t admitted

/-- What an entry should be: proved and signed by its peer, and ranked by the proved nonce and the peer's key. -/
structure SoundEntry (rules : PowRules P) (a : Admission P) : Prop where
  work : verdict rules a.node a.pow = .ok true
  signed : ∃ peer hash, a.pow.peer = some peer ∧ a.pow.hash P.toEnv = .ok hash ∧
    verifyHash P.toEnv hash.bytes a.message.signature peer.pubkey = .ok true
  nonce : ∃ result, a.pow.result = some result ∧ a.pow.nonce = result.nonce
  key : ∃ peer, a.pow.peer = some peer ∧ a.pow.publicKey = peer.pubkey

/-- Whatever submission the node accepts next, it is sound. -/
def AcceptsSound (rules : PowRules P) (s : PeerServer P) : Prop :=
  ∀ msg pow t, rules.codec.decode msg.payload = .ok pow → processPoWSubmission rules msg s = (.ok ⟨⟩, t) →
    SoundEntry rules ⟨s, msg, pow⟩

/-- Both heads of the node have a hash. -/
def HeadsHash (s : PeerServer P) : Prop :=
  (∃ ds, s.dsHead.hash P.toEnv = .ok ds) ∧ ∃ tx, s.txHead.hash P.toEnv = .ok tx

variable {rules : PowRules P} {s t : PeerServer P} {msg : Message} {pow : PoWMessage} {hash : Hash}
variable {peer sender : PeerEndpoint}

/-! ### What is accepted -/

theorem processPoWSubmission_ok {u : PUnit} (hdecode : rules.codec.decode msg.payload = .ok pow)
    (h : processPoWSubmission rules msg s = (.ok u, t)) :
    (∃ peer sender hash, Admissible rules s msg pow peer sender hash) ∧ t = s.listing pow.toPoWSubmission msg.peer := by
  suffices hrun : ∀ o, processPoWSubmission rules msg s = o → o.1.isOk = true →
      (∃ peer sender hash, Admissible rules s msg pow peer sender hash) ∧ o.2 = s.listing pow.toPoWSubmission msg.peer from
    hrun _ h rfl
  rintro _ rfl
  refine processPoWSubmission_cases (Q := fun o => o.1.isOk = true → _ ∧ o.2 = _) (fun _ h => nomatch h) ?_
  intro pow' peer sender hash hdecode' hadmissible _
  obtain rfl := ok.inj (hdecode.symm.trans hdecode')
  exact ⟨⟨peer, sender, hash, hadmissible⟩, rfl⟩

/-- A submission that is refused leaves the node as it was. -/
theorem processPoWSubmission_error {e : Err} (h : processPoWSubmission rules msg s = (.error e, t)) : t = s := by
  suffices hrun : ∀ o, processPoWSubmission rules msg s = o → o.1.isOk = false → o.2 = s from hrun _ h rfl
  rintro _ rfl
  exact processPoWSubmission_cases (Q := fun o => o.1.isOk = false → o.2 = s) (fun _ _ => rfl)
    fun _ _ _ _ _ _ h => nomatch h

theorem Admissible.accepted (h : Admissible rules s msg pow peer sender hash)
    (hdecode : rules.codec.decode msg.payload = .ok pow) :
    processPoWSubmission rules msg s = (.ok ⟨⟩, s.listing pow.toPoWSubmission msg.peer) := by
  obtain ⟨valid, hvalid⟩ := h.judged
  obtain ⟨peer', hpeer, hvalid⟩ := except_bind_ok.mp hvalid
  obtain rfl := some.inj (h.named.symm.trans (deref_ok.mp hpeer))
  obtain ⟨dsRand, hds, hvalid⟩ := except_bind_ok.mp hvalid
  obtain ⟨txRand, htx, hvalid⟩ := except_bind_ok.mp hvalid
  obtain ⟨pub, hpub, hvalid⟩ := except_bind_ok.mp hvalid
  have hverify : msgVerify P.toEnv msg hash.bytes = .ok ⟨⟩ :=
    except_bind_ok.mpr ⟨sender, deref_ok.mpr h.sent, except_bind_ok.mpr ⟨true, h.signed, rfl⟩⟩
  refine (bind_lift hdecode).trans ((bind_lift hpeer).trans (bind_read.trans ?_))
  refine (bind_lift h.fresh).trans ((bind_ensure rfl).trans ?_)
  refine (bind_lift hds).trans ((bind_ensure (ok.inj (h.rand1.symm.trans hds))).trans ?_)
  refine (bind_lift htx).trans ((bind_ensure (ok.inj (h.rand2.symm.trans htx))).trans ?_)
  refine (bind_lift h.hashed).trans ((bind_lift (orError_ok.mpr hverify)).trans ?_)
  exact (bind_lift (orError_ok.mpr hpub)).trans (bind_lift (orError_ok.mpr hvalid))

/-- The hash does not cover the nonce, so the same signature is good for any other. -/
theorem Admissible.renonce (h : Admissible rules s msg pow peer sender hash) (payload : Bytes) (nonce : UInt64) :
    Admissible rules s {msg with payload := payload} {pow with nonce := nonce} peer sender hash :=
  ⟨h.named, h.fresh, h.rand1, h.rand2, h.hashed, h.sent, h.signed, h.judged⟩

theorem Admissible.not_acceptsSound (hcodec : rules.codec.RoundTrip) (h : Admissible rules s msg pow peer sender hash) :
    ¬AcceptsSound rules s := by
  intro hsound
  obtain ⟨result, hresult, -⟩ := except_bind_ok.mp h.hashed
  have hnonce : ∃ nonce, nonce ≠ result.nonce := by
    by_cases hzero : result.nonce = 0
    · exact ⟨1, hzero ▸ by decide⟩
    · exact ⟨0, Ne.symm hzero⟩
  obtain ⟨nonce, hne⟩ := hnonce
  have hdecode := Codec.decode_ok.mpr (hcodec {pow with nonce := nonce})
  have hentry := hsound _ _ _ hdecode ((h.renonce _ nonce).accepted hdecode)
  obtain ⟨result', hresult', heq⟩ := hentry.nonce
  obtain rfl := some.inj ((deref_ok.mp hresult).symm.trans hresult')
  exact hne heq

/-! ### The list -/

variable {admitted : List (Admission P)}

/-- What a node has been through to come to its list: the entries are the accepted submissions, all with a peer
and no two of one. -/
structure ListOf (s : PeerServer P) (admitted : List (Admission P)) : Prop where
  entries : s.poWSubList.Perm (admitted.map (·.pow.toPoWSubmission))
  distinct : DistinctSubmitters s
  named : ∀ pow ∈ s.poWSubList, pow.peer.isSome = true

theorem ListOf.accepted (hs : ListOf s admitted) (hdecode : rules.codec.decode msg.payload = .ok pow)
    (h : processPoWSubmission rules msg s = (.ok ⟨⟩, t)) : ListOf t (admitted ++ [⟨s, msg, pow⟩]) := by
  obtain ⟨⟨peer, sender, hash, hadmissible⟩, rfl⟩ := processPoWSubmission_ok hdecode h
  have hnew := hasSubmission_false hadmissible.fresh
  refine ⟨?_, distinctSubmitters_listing hs.distinct hadmissible.named hnew, fun entry hentry => ?_⟩
  · rw [List.map_append]
    exact hs.entries.append_right _
  · rcases List.mem_append.mp hentry with hold | hlast
    · exact hs.named entry hold
    · rw [List.mem_singleton.mp hlast, hadmissible.named]
      rfl

theorem Gathered.listOf (h : Gathered rules s admitted) : ListOf s admitted := by
  induction h with
  | clear s hempty =>
    refine ⟨by rw [hempty]; exact .nil, ?_, ?_⟩
    · unfold DistinctSubmitters
      rw [hempty]
      exact List.nodup_nil
    · rw [hempty]
      exact fun pow hpow => nomatch hpow
  | accepted msg pow _ hdecode hrun ih => exact ih.accepted hdecode hrun
  | refused msg e _ hrun ih => exact processPoWSubmission_error hrun ▸ ih
  | sort _ hranks ih =>
    exact ⟨hranks.perm.trans ih.entries, ((hranks.perm.filterMap _).map _).nodup_iff.mpr ih.distinct,
      fun pow hpow => ih.named pow (hranks.perm.mem_iff.mp hpow)⟩
  | other _ hlist ih =>
    refine ⟨hlist ▸ ih.entries, ?_, hlist ▸ ih.named⟩
    unfold DistinctSubmitters
    rw [hlist]
    exact ih.distinct

theorem hasSubmission_of_fresh {pows : List PoWSubmission} (hnamed : ∀ pow ∈ pows, pow.peer.isSome = true)
    (hfresh : peer.pubkey ∉ pubkeys (pows.filterMap (·.peer))) : hasSubmission peer pows = .ok false := by
  induction pows with
  | nil => rfl
  | cons pow pows ih =>
    obtain ⟨hpow, hpows⟩ := List.forall_mem_cons.mp hnamed
    obtain ⟨known, hknown⟩ := isSome_iff_exists.mp hpow
    rw [List.filterMap_cons_some hknown, pubkeys, List.map_cons, List.mem_cons, not_or] at hfresh
    refine except_bind_ok.mpr ⟨known, deref_ok.mpr hknown, ?_⟩
    rw [if_neg (Ne.symm hfresh.1)]
    exact ih hpows hfresh.2

/-! ### A submission of a new peer -/

section
variable (hbls : P.bls.Complete) (k : P.bls.PriKey)
include hbls

theorem verifyHash_signed (h : Hash) :
    verifyHash P.toEnv h.bytes (P.bls.serializeSig (P.bls.sign k h.bytes)) (P.bls.serializePub (P.bls.pubOf k)) = .ok true := by
  have hverify := hbls.verify_sum [k] h.bytes (List.cons_ne_nil _ _)
  rw [List.map_singleton, List.map_singleton, List.sum_singleton, List.sum_singleton] at hverify
  refine except_bind_ok.mpr ⟨_, deserializeSig_serialize hbls _, except_bind_ok.mpr ⟨_, deserializePub_serialize hbls _, ?_⟩⟩
  exact except_bind_ok.mpr ⟨true, blsVerify_of (hash_ne_nil h) hverify, rfl⟩

/-- A node whose heads have a hash accepts work of a peer it does not know. -/
theorem exists_admissible (hverify : ∀ key seed number difficulty, ∃ result valid,
      rules.verify key seed number difficulty (some result) = .ok valid)
    (hnamed : ∀ pow ∈ s.poWSubList, pow.peer.isSome = true)
    (hfresh : P.bls.serializePub (P.bls.pubOf k) ∉ pubkeys (s.poWSubList.filterMap (·.peer))) (hheads : HeadsHash s) :
    ∃ msg pow peer sender hash, Admissible rules s msg pow peer sender hash := by
  obtain ⟨⟨ds, hds⟩, tx, htx⟩ := hheads
  have hrand1 : updateDSBlockRand s = .ok (hashString ds) := except_bind_ok.mpr ⟨ds, hds, rfl⟩
  have hrand2 : updateTXBlockRand s = .ok (hashString tx) := except_bind_ok.mpr ⟨tx, htx, rfl⟩
  let peer : PeerEndpoint := ⟨none, [], 0, P.bls.serializePub (P.bls.pubOf k), [], []⟩
  let key := rules.getHexString (P.bls.pubOf k)
  obtain ⟨result, valid, hvalid⟩ := hverify key (hashString ds ++ hashString tx ++ peer.address ++ key ++ hexEncode [])
    0 s.powDifficulty
  let pow : PoWMessage := ⟨⟨0, 0, some peer, []⟩, 0, hashString ds, hashString tx, [], some result⟩
  obtain ⟨hash, hhash⟩ : ∃ hash, pow.hash P.toEnv = .ok hash := ⟨_, rfl⟩
  let msg : Message := ⟨.other 0, none, [], P.bls.serializeSig (P.bls.sign k hash.bytes), some peer⟩
  refine ⟨msg, pow, peer, peer, hash, rfl, hasSubmission_of_fresh hnamed hfresh, hrand1, hrand2, hhash, rfl,
    verifyHash_signed hbls k hash, valid, ?_⟩
  refine except_bind_ok.mpr ⟨peer, rfl, except_bind_ok.mpr ⟨_, hrand1, except_bind_ok.mpr ⟨_, hrand2, ?_⟩⟩⟩
  exact except_bind_ok.mpr ⟨_, deserializePub_serialize hbls _, hvalid⟩

end

theorem Admissible.headsHash (h : Admissible rules s msg pow peer sender hash) : HeadsHash s := by
  obtain ⟨ds, hds, -⟩ := except_bind_ok.mp h.rand1
  obtain ⟨tx, htx, -⟩ := except_bind_ok.mp h.rand2
  exact ⟨⟨ds, hds⟩, tx, htx⟩

/-- **The list of submissions.** The entries of a node's list are the submissions it accepted, no two of one peer;
but what it accepts next is sound only if it can accept nothing, because one of its heads has no hash. -/
theorem powSubList_sound_iff (hbls : P.bls.Complete) (hcodec : rules.codec.RoundTrip)
    (hverify : ∀ key seed number difficulty, ∃ result valid, rules.verify key seed number difficulty (some result) = .ok valid)
    (h : Gathered rules s admitted)
    (hfresh : ∃ k, P.bls.serializePub (P.bls.pubOf k) ∉ pubkeys (s.poWSubList.filterMap (·.peer))) :
    s.poWSubList.Perm (admitted.map (·.pow.toPoWSubmission)) ∧ DistinctSubmitters s ∧
      (AcceptsSound rules s ↔ ¬HeadsHash s) := by
  have hlist := h.listOf
  obtain ⟨k, hk⟩ := hfresh
  refine ⟨hlist.entries, hlist.distinct, fun hsound hheads => ?_, fun hnot msg pow t hdecode hrun => ?_⟩
  · obtain ⟨msg, pow, peer, sender, hash, hadmissible⟩ := exists_admissible hbls k hverify hlist.named hk hheads
    exact hadmissible.not_acceptsSound hcodec hsound
  · obtain ⟨⟨_, _, _, hadmissible⟩, -⟩ := processPoWSubmission_ok hdecode hrun
    exact absurd hadmissible.headsHash hnot

/-! ### Two submissions -/

def PowRules.seven : PowRules Platform.sample :=
  {PowRules.dummy with verify := fun _ _ _ _ result => .ok (result.map (·.nonce) == some 7)}

/-- The collector with one submission in its list. -/
def collectorWith (pow : PoWMessage) (key : Nat) : PeerServer Platform.sample :=
  collector.listing pow.toPoWSubmission (some (Chain.peerWithKey key))

theorem gathered_one {pow : PoWMessage} {key : Nat}
    (h : (acceptPoWSubmission PowRules.seven (signedSubmission pow key) pow collector).1.isOk = true) :
    Gathered PowRules.seven (collectorWith pow key) [⟨collector, signedSubmission pow key, pow⟩] := by
  obtain ⟨_, t, hrun⟩ := isOk_iff.mp h
  have hdecode : PowRules.seven.codec.decode (signedSubmission pow key).payload = .ok pow := signedSubmission_decode pow key
  have hprocess := (bind_lift hdecode).trans hrun
  obtain rfl : t = collectorWith pow key := (processPoWSubmission_ok hdecode hprocess).2
  exact .accepted _ pow (.clear collector rfl) hdecode hprocess

/-- Work with the nonce 7, by the peer with the key 7. -/
def provedSeven : PoWMessage := {submissionBy 7 with nonce := 7, result := some ⟨7, [], [], [], []⟩}

theorem gathered_seven : Gathered PowRules.seven (collectorWith provedSeven 7)
    [⟨collector, signedSubmission provedSeven 7, provedSeven⟩] := gathered_one (by decide +kernel)

/-- The node has accepted it and then lost the leader of its DS head. -/
def headless : PeerServer Platform.sample :=
  {collectorWith provedSeven 7 with dsHead := {collector.dsHead with
    header := {collector.dsHead.header with newLeader := none}}}

theorem powSubList_sound_headless : DistinctSubmitters headless ∧ AcceptsSound PowRules.seven headless := by
  have hgathered : Gathered PowRules.seven headless _ := gathered_seven.other rfl
  have hnot : ¬HeadsHash headless := fun ⟨⟨ds, hds⟩, _⟩ => nomatch hds
  have hverify : ∀ key seed number difficulty, ∃ result valid,
      PowRules.seven.verify key seed number difficulty (some result) = .ok valid :=
    fun _ _ _ _ => ⟨⟨7, [], [], [], []⟩, true, rfl⟩
  have hsound := powSubList_sound_iff MultiSig.linear_complete (Codec.numbered_roundTrip _) hverify hgathered
    ⟨(8 : Nat), by decide +kernel⟩
  exact ⟨hsound.2.1, hsound.2.2.mpr hnot⟩

/-- Work that the verifier rejects, in the name of the peer with the key 8, ranked by a nonce and a key of its own. -/
def boasted : PoWMessage := {submissionBy 8 with nonce := 1000, publicKey := MultiSig.natBytes 9}

/-- The node with the key 7 sends it, and it is accepted. -/
theorem boasted_accepted :
    Gathered PowRules.seven (collectorWith boasted 7) [⟨collector, signedSubmission boasted 7, boasted⟩] ∧
      verdict PowRules.seven collector boasted = .ok false ∧
      ¬SoundEntry PowRules.seven ⟨collector, signedSubmission boasted 7, boasted⟩ := by
  have hverdict : verdict PowRules.seven collector boasted = .ok false := by decide +kernel
  exact ⟨gathered_one (by decide +kernel), hverdict, fun h => nomatch hverdict.symm.trans h.work⟩

end Okchain.Consensus
