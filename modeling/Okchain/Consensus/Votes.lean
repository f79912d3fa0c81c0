import Okchain.Consensus.Lead

/-! Honest votes add up.

Members hold the private keys of their endpoints. When the leader's maps hold exactly the signatures of
some voters on one text, the bool map it derives selects those voters, the sums it forms are the sums of
their signatures and keys, and whoever recomputes the key from the bool map finds the signature good.
-/
namespace Okchain.Consensus
open Lib Proc Protos List

variable {P : Platform} {key : PeerEndpoint → P.bls.PriKey}

/-- The endpoint carries the public half of its key. -/
def Keyed (key : PeerEndpoint → P.bls.PriKey) (p : PeerEndpoint) : Prop :=
  p.pubkey = P.bls.serializePub (P.bls.pubOf (key p))

/-- The keys of the members that voted, in the order of the members. -/
def voteKeys (key : PeerEndpoint → P.bls.PriKey) (ms : List PeerEndpoint) (voted : PeerEndpoint → Bool) :
    List P.bls.PriKey := (ms.filter voted).map key

def voteSig (key : PeerEndpoint → P.bls.PriKey) (ms : List PeerEndpoint) (voted : PeerEndpoint → Bool)
    (text : Bytes) : P.bls.Sig := ((voteKeys key ms voted).map (P.bls.sign · text)).sum

def votePub (key : PeerEndpoint → P.bls.PriKey) (ms : List PeerEndpoint) (voted : PeerEndpoint → Bool) :
    P.bls.PubKey := ((voteKeys key ms voted).map P.bls.pubOf).sum

section

variable {p : PeerEndpoint} {ms : List PeerEndpoint} {voted : PeerEndpoint → Bool} {text : Bytes}

theorem voteSig_cons (h : voted p = true) :
    voteSig key (p :: ms) voted text = P.bls.sign (key p) text + voteSig key ms voted text := by
  unfold voteSig voteKeys
  rw [filter_cons_of_pos h, map_cons, map_cons, sum_cons]

theorem voteSig_cons_neg (h : voted p = false) : voteSig key (p :: ms) voted text = voteSig key ms voted text := by
  unfold voteSig voteKeys
  rw [filter_cons_of_neg (by simp [h])]

theorem votePub_cons (h : voted p = true) :
    votePub key (p :: ms) voted = P.bls.pubOf (key p) + votePub key ms voted := by
  unfold votePub voteKeys
  rw [filter_cons_of_pos h, map_cons, map_cons, sum_cons]

theorem votePub_cons_neg (h : voted p = false) : votePub key (p :: ms) voted = votePub key ms voted := by
  unfold votePub voteKeys
  rw [filter_cons_of_neg (by simp [h])]

section
variable (hbls : P.bls.Complete)
include hbls

theorem verify_votes (h : ms.filter voted ≠ []) :
    P.bls.verify (voteSig key ms voted text) (votePub key ms voted) text = true :=
  hbls.verify_sum _ _ fun hnil => h (map_eq_nil_iff.mp hnil)

/-! ### Reading keys back -/

theorem deserializePub_keyed (hp : Keyed key p) : deserializePub P.toEnv p.pubkey = .ok (P.bls.pubOf (key p)) := by
  unfold deserializePub
  rw [hp, if_neg (hbls.pub_nonempty _), hbls.pub_roundtrip]

theorem readPub_keyed (hp : Keyed key p) : readPub P.toEnv p.pubkey = .ok (P.bls.pubOf (key p)) := by
  unfold readPub
  rw [hp, if_neg (hbls.pub_nonempty _), hbls.pub_roundtrip]
  rfl

theorem readPub_serialize (pub : P.bls.PubKey) : readPub P.toEnv (P.bls.serializePub pub) = .ok pub := by
  unfold readPub
  rw [if_neg (hbls.pub_nonempty _), hbls.pub_roundtrip]
  rfl

theorem readSig_serialize (sig : P.bls.Sig) : readSig P.toEnv (P.bls.serializeSig sig) = .ok sig := by
  unfold readSig
  rw [if_neg (hbls.sig_nonempty _), hbls.sig_roundtrip]
  rfl

theorem deserializePub_serialize (pub : P.bls.PubKey) : deserializePub P.toEnv (P.bls.serializePub pub) = .ok pub := by
  unfold deserializePub
  rw [if_neg (hbls.pub_nonempty _), hbls.pub_roundtrip]

theorem deserializeSig_serialize (sig : P.bls.Sig) : deserializeSig P.toEnv (P.bls.serializeSig sig) = .ok sig := by
  unfold deserializeSig
  rw [if_neg (hbls.sig_nonempty _), hbls.sig_roundtrip]

end

theorem blsVerify_of {sig : P.bls.Sig} {pub : P.bls.PubKey} (htext : text ≠ [])
    (h : P.bls.verify sig pub text = true) : blsVerify P.toEnv sig pub text = .ok true := by
  unfold blsVerify
  rw [if_neg htext, h]

/-! ### What a verifier recomputes -/

section
variable (hbls : P.bls.Complete) (hms : ∀ p ∈ ms, Keyed key p)
include hbls hms

theorem sumByBoolMap_votes :
    sumByBoolMap P.toEnv (ms.map voted) ms = .ok (votePub key ms voted, (ms.filter voted).length) := by
  induction ms with
  | nil => rfl
  | cons p ms ih =>
    have ih := ih fun q hq => hms q (mem_cons_of_mem p hq)
    cases hv : voted p with
    | false =>
      rw [map_cons, hv, votePub_cons_neg hv, filter_cons_of_neg (by simp [hv])]
      exact ih
    | true =>
      rw [map_cons, hv, votePub_cons hv, filter_cons_of_pos hv]
      unfold sumByBoolMap
      rw [readPub_keyed hbls (hms p mem_cons_self), ih]
      rfl

theorem sumSelected_votes : sumSelected P.toEnv (ms.map voted) ms = .ok (votePub key ms voted) := by
  induction ms with
  | nil => rfl
  | cons p ms ih =>
    have ih := ih fun q hq => hms q (mem_cons_of_mem p hq)
    cases hv : voted p with
    | false =>
      rw [map_cons, hv, votePub_cons_neg hv]
      exact ih
    | true =>
      rw [map_cons, hv]
      unfold sumSelected
      rw [deserializePub_keyed hbls (hms p mem_cons_self), ih, votePub_cons hv]
      rfl

theorem blsMultiPubkeyVerify_votes :
    blsMultiPubkeyVerify P.toEnv (ms.map voted) ms (P.bls.serializePub (votePub key ms voted)) = .ok () := by
  unfold blsMultiPubkeyVerify
  rw [sumSelected_votes hbls hms, deserializePub_serialize hbls]
  show (if votePub key ms voted = votePub key ms voted then _ else _) = _
  rw [if_pos rfl]
  rfl

end

theorem voteTickets_votes : voteTickets (ms.map voted) = (ms.filter voted).length := by
  unfold voteTickets
  rw [countP_map, ← countP_eq_length_filter]
  rfl

/-! ### What the leader adds up -/

/-- The leader's maps hold the signatures of the voters on a text, and no other member's. -/
structure Tally (key : PeerEndpoint → P.bls.PriKey) (ms : List PeerEndpoint) (voted : PeerEndpoint → Bool)
    (text : Bytes) (s : ConsensusLead P) : Prop where
  votes : ∀ p ∈ ms, s.publicKey2MsgMap (P.bls.pubOf (key p)) = voted p
  signs : ∀ p ∈ ms, voted p = true → s.signMap (P.bls.pubOf (key p)) = some (P.bls.sign (key p) text)
  pubs : ∀ p ∈ ms, voted p = true → s.pubKeyMap (P.bls.pubOf (key p)) = some (P.bls.pubOf (key p))

variable {s : ConsensusLead P}

theorem Tally.of_cons (h : Tally key (p :: ms) voted text s) : Tally key ms voted text s where
  votes q hq := h.votes q (mem_cons_of_mem p hq)
  signs q hq := h.signs q (mem_cons_of_mem p hq)
  pubs q hq := h.pubs q (mem_cons_of_mem p hq)

/-- The state `collect` leaves. -/
def ConsensusLead.added (s : ConsensusLead P) (sig : P.bls.Sig) (pub : P.bls.PubKey) : ConsensusLead P :=
  {s with finalBLSSign := s.finalBLSSign + sig, gPubkey := s.gPubkey + pub}

theorem pick_run {α : Type} {f : ConsensusLead P → Option α} {a : α}
    (h : f s = some a) : pick f s = (.ok a, s) := by
  unfold pick
  rw [h]
  rfl

theorem addVote_run {k : P.bls.PubKey} {sig : P.bls.Sig} {pub : P.bls.PubKey}
    (hsign : s.signMap k = some sig) (hpub : s.pubKeyMap k = some pub) :
    addVote k s = (.ok ⟨⟩, s.added sig pub) := by
  unfold addVote
  rw [bind_run (pick_run hsign)]
  exact bind_run (pick_run hpub)

theorem ConsensusLead.added_added (s : ConsensusLead P) (sig sig' : P.bls.Sig) (pub pub' : P.bls.PubKey) :
    (s.added sig pub).added sig' pub' = s.added (sig + sig') (pub + pub') := by
  unfold ConsensusLead.added
  rw [add_assoc, add_assoc]

theorem Tally.added (h : Tally key ms voted text s) (sig : P.bls.Sig)
    (pub : P.bls.PubKey) : Tally key ms voted text (s.added sig pub) :=
  ⟨h.votes, h.signs, h.pubs⟩

section
variable (hbls : P.bls.Complete) (hms : ∀ p ∈ ms, Keyed key p)
include hbls hms

theorem collect_run {s : ConsensusLead P} (h : Tally key ms voted text s) :
    collect ms s = (.ok (ms.map voted), s.added (voteSig key ms voted text) (votePub key ms voted)) := by
  induction ms generalizing s with
  | nil =>
    show ((.ok [], s) : Except Err (List Bool) × _) = (.ok [], s.added 0 0)
    unfold ConsensusLead.added
    rw [add_zero, add_zero]
  | cons p ms ih =>
    have ih := @ih fun q hq => hms q (mem_cons_of_mem p hq)
    have hmem : p ∈ p :: ms := mem_cons_self
    unfold collect
    rw [bind_lift (deserializePub_keyed hbls (hms p hmem)), bind_read, h.votes p hmem]
    cases hv : voted p with
    | false =>
      rw [voteSig_cons_neg hv, votePub_cons_neg hv, map_cons, hv]
      exact bind_run (ih h.of_cons)
    | true =>
      have hvote := addVote_run (h.signs p hmem hv) (h.pubs p hmem hv)
      have hrest := ih (h.of_cons.added (P.bls.sign (key p) text) (P.bls.pubOf (key p)))
      rw [ConsensusLead.added_added, ← voteSig_cons hv, ← votePub_cons hv] at hrest
      rw [map_cons, hv]
      exact bind_run (bind_run hvote ▸ hrest)

theorem collectSig2_run (h : Tally key ms voted text s) :
    collectSig2 ms s = (.ok (ms.map voted, voteSig key ms voted text), s) := by
  induction ms with
  | nil => rfl
  | cons p ms ih =>
    have ih := ih (fun q hq => hms q (mem_cons_of_mem p hq)) h.of_cons
    have hmem : p ∈ p :: ms := mem_cons_self
    unfold collectSig2
    rw [bind_lift (deserializePub_keyed hbls (hms p hmem)), bind_read, h.votes p hmem]
    cases hv : voted p with
    | false =>
      rw [voteSig_cons_neg hv, map_cons, hv]
      exact bind_run ih
    | true =>
      rw [voteSig_cons hv, map_cons, hv]
      exact (bind_run (pick_run (h.signs p hmem hv))).trans (bind_run ih)

end

theorem Tally.noting (h : Tally key ms voted text s)
    (hinj : ∀ q ∈ ms, P.bls.pubOf (key q) = P.bls.pubOf (key p) → q = p) :
    Tally key ms (fun q => decide (q = p) || voted q) text
      (s.noting (P.bls.pubOf (key p)) (P.bls.sign (key p) text)) := by
  have hother : ∀ q ∈ ms, q ≠ p → P.bls.pubOf (key q) ≠ P.bls.pubOf (key p) :=
    fun q hq hne heq => hne (hinj q hq heq)
  refine ⟨fun q hq => ?_, fun q hq hv => ?_, fun q hq hv => ?_⟩ <;> by_cases hqp : q = p
  · subst hqp
    simp [ConsensusLead.noting]
  · simp [ConsensusLead.noting, hother q hq hqp, hqp, h.votes q hq]
  · subst hqp
    simp [ConsensusLead.noting]
  · have hv : voted q = true := by simpa [hqp] using hv
    simp [ConsensusLead.noting, hother q hq hqp, h.signs q hq hv]
  · subst hqp
    simp [ConsensusLead.noting]
  · have hv : voted q = true := by simpa [hqp] using hv
    simp [ConsensusLead.noting, hother q hq hqp, h.pubs q hq hv]

theorem Tally.of_empty (h : s.publicKey2MsgMap = fun _ => false) :
    Tally key ms (fun _ => false) text s :=
  ⟨fun _ _ => by rw [h], fun _ _ hv => (nomatch hv), fun _ _ hv => (nomatch hv)⟩

end
end Okchain.Consensus
