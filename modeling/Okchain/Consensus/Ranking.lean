import Okchain.Consensus.PowList
import Okchain.Lib.Sorting

/-! The two orders that all nodes have to agree on, after `protos/peerendpoint.go`.

Submissions are ranked by `Nonce*10000` plus twelve bits of the key, where the product wraps; members are sorted by the
first eight bytes of the key. `sort.Sort` leaves entries that compare equal in any order.
-/
namespace Okchain.Consensus
open Lib Protos

/-! ### Submissions -/

/-- `Sort` returns, with one order for every order of arrival, and the larger nonce is first. -/
structure CanonicallyRanked (l : List PoWSubmission) : Prop where
  sorts : ∃ ranked, Ranks l ranked
  unique : ∀ arrived, arrived.Perm l → ∀ a b, Ranks l a → Ranks arrived b → b = a
  byNonce : ∀ ranked, Ranks l ranked → ranked.Pairwise fun a b => b.nonce ≤ a.nonce

/-- The numbers that are compared are those of different nonces in the same order, and of equal nonces different. -/
structure Separated (l : List PoWSubmission) : Prop where
  readable : 2 ≤ l.length → ∀ pow ∈ l, 8 ≤ pow.publicKey.length
  larger : ∀ a ∈ l, ∀ b ∈ l, a.nonce < b.nonce → a.rank < b.rank
  distinct : ∀ a ∈ l, ∀ b ∈ l, a ≠ b → a.nonce = b.nonce → a.rank ≠ b.rank

instance : Std.Total fun a b : PoWSubmission => b.rank ≤ a.rank := ⟨fun a b => UInt64.le_total b.rank a.rank⟩
instance : IsTrans PoWSubmission fun a b => b.rank ≤ a.rank := ⟨fun _ _ _ h h' => UInt64.le_trans h' h⟩

deriving instance DecidableEq for PoWSubmission

variable {l : List PoWSubmission}

theorem ranks_unique_iff (hnodup : l.Nodup) (hread : 2 ≤ l.length → ∀ pow ∈ l, 8 ≤ pow.publicKey.length) :
    (∀ arrived, arrived.Perm l → ∀ a b, Ranks l a → Ranks arrived b → b = a) ↔
      ∀ a ∈ l, ∀ b ∈ l, a.rank = b.rank → a = b := by
  have hsorted := sorted_unique_iff (r := fun a b : PoWSubmission => b.rank ≤ a.rank) hnodup
  constructor
  · intro h a ha b hb hrank
    refine hsorted.mp (fun a b hpa hpb ha hb => ?_) a ha b hb (UInt64.le_of_eq hrank.symm) (UInt64.le_of_eq hrank)
    exact h l (.refl l) b a ⟨hpb, hb, hread⟩ ⟨hpa, ha, hread⟩
  · intro h arrived harrived a b ha hb
    exact hsorted.mpr (fun a ha b hb hab hba => h a ha b hb (UInt64.le_antisymm hba hab)) b a (hb.perm.trans harrived)
      ha.perm hb.descending ha.descending

/-- **The ranking.** Submissions of distinct peers are ranked canonically, the larger nonce first, exactly if the
numbers that are compared separate them. -/
theorem ranked_canonically_iff (hpeers : (l.map (·.peer.map (·.pubkey))).Nodup) : CanonicallyRanked l ↔ Separated l := by
  have hnodup := hpeers.of_map
  constructor
  · intro h
    obtain ⟨ranked, hranks⟩ := h.sorts
    have hread := hranks.readable
    have hinj := (ranks_unique_iff hnodup hread).mp h.unique
    refine ⟨hread, fun a ha b hb hlt => ?_, fun a ha b hb hne _ hrank => hne (hinj a ha b hb hrank)⟩
    have hne : a ≠ b := fun heq => UInt64.lt_irrefl _ (heq ▸ hlt)
    have hboth := hranks.descending.and (h.byNonce ranked hranks)
    rcases rel_or_of_mem hboth (hranks.perm.mem_iff.mpr ha) (hranks.perm.mem_iff.mpr hb) hne with hab | hba
    · exact absurd hlt (UInt64.not_lt.mpr hab.2)
    · exact UInt64.lt_of_le_of_ne hba.1 fun hrank => hne (hinj a ha b hb hrank)
  · intro h
    have hinj : ∀ a ∈ l, ∀ b ∈ l, a.rank = b.rank → a = b := by
      intro a ha b hb hrank
      by_contra hne
      rcases UInt64.lt_or_lt_of_ne (fun heq => h.distinct a ha b hb hne heq hrank) with hlt | hlt
      · exact UInt64.ne_of_lt (h.larger a ha b hb hlt) hrank
      · exact UInt64.ne_of_lt (h.larger b hb a ha hlt) hrank.symm
    obtain ⟨ranked, hperm, hsorted⟩ := exists_sorted (r := fun a b : PoWSubmission => b.rank ≤ a.rank) l
    refine ⟨⟨ranked, hperm, hsorted, h.readable⟩, (ranks_unique_iff hnodup h.readable).mpr hinj, fun ranked hranks => ?_⟩
    refine hranks.descending.imp_of_mem fun {a b} ha hb hrank => ?_
    by_contra hlt
    exact UInt64.not_lt.mpr hrank (h.larger a (hranks.perm.mem_iff.mp ha) b (hranks.perm.mem_iff.mp hb) (UInt64.not_le.mp hlt))

/-- The submissions of two peers, with different nonces. -/
theorem ranked_canonically_two : CanonicallyRanked
    [provedSeven.toPoWSubmission, (submissionBy 8).toPoWSubmission] :=
  (ranked_canonically_iff (by decide +kernel)).mpr ⟨by decide +kernel, by decide +kernel, by decide +kernel⟩

/-- Two peers submit the same nonce, and the bits of their keys agree. -/
theorem ranked_either_way : ∃ s : PeerServer Platform.sample, Collected PowRules.dummy s ∧
    (s.poWSubList.map (·.peer.map (·.pubkey))).Nodup ∧ ¬CanonicallyRanked s.poWSubList := by
  have hs : Collected PowRules.dummy ((collectedBy 7).listing (submissionBy 8).toPoWSubmission (some (Chain.peerWithKey 8))) :=
    collected_seven.accepted (signedSubmission_decode (submissionBy 8) 8) (by decide +kernel)
  refine ⟨_, hs, by decide +kernel, fun h => ?_⟩
  obtain ⟨ranked, hranks⟩ := h.sorts
  have hinj := (ranks_unique_iff (by decide +kernel) hranks.readable).mp h.unique
  exact absurd (hinj _ List.mem_cons_self _ (List.mem_cons_of_mem _ List.mem_cons_self) (by decide +kernel)) (by decide +kernel)

/-! ### Members -/

/-- `sort.Sort(ByPubkey)` may leave this list. -/
structure SortsByPubkey (l sorted : List PeerEndpoint) : Prop where
  perm : sorted.Perm l
  ascending : sorted.Pairwise fun a b => a.sortKey ≤ b.sortKey

theorem sortByPubkey_sorts {E : Env} {l sorted : List PeerEndpoint} (h : sortByPubkey E l = .ok sorted) :
    SortsByPubkey l sorted := by
  refine ⟨sortByPubkey_perm h, ?_⟩
  unfold sortByPubkey at h
  split at h
  · exact nomatch h
  · exact Except.ok.inj h ▸ E.sortPeers_sorted l

/-- Whatever order the members come in, they are sorted into the same one, and a bool map names the same members. -/
def SameOrder (c : List PeerEndpoint) : Prop := ∀ l m, l.Perm c → m.Perm c → ∀ a b, SortsByPubkey l a →
  SortsByPubkey m b → a = b ∧ ∀ boolMap, selected boolMap a = selected boolMap b

instance : Std.Total fun a b : PeerEndpoint => a.sortKey ≤ b.sortKey := ⟨fun a b => Nat.le_total a.sortKey b.sortKey⟩
instance : IsTrans PeerEndpoint fun a b => a.sortKey ≤ b.sortKey := ⟨fun _ _ _ => Nat.le_trans⟩

/-- **The order of a committee.** Members with distinct keys are sorted canonically, by `sortByPubkey` as by any other
sort, exactly if the keys differ in their first eight bytes. -/
theorem same_order_iff {c : List PeerEndpoint} (hlong : ∀ p ∈ c, 8 ≤ p.pubkey.length)
    (hdistinct : (c.map (·.pubkey)).Nodup) :
    (∀ E l sorted, sortByPubkey E l = .ok sorted → SortsByPubkey l sorted) ∧
      (SameOrder c ↔ (c.map fun p => p.pubkey.take 8).Nodup) := by
  refine ⟨fun _ _ _ => sortByPubkey_sorts, ?_⟩
  have hsorted := sorted_unique_iff (r := fun a b : PeerEndpoint => a.sortKey ≤ b.sortKey) hdistinct.of_map
  have hkey : ∀ a ∈ c, ∀ b ∈ c, a.sortKey = b.sortKey → a.pubkey.take 8 = b.pubkey.take 8 := fun a ha b hb =>
    Lib.Rlp.ofBeBytes_inj (by simp [hlong a ha, hlong b hb])
  rw [List.nodup_map_iff_inj_on hdistinct.of_map]
  constructor
  · intro h a ha b hb hab
    have hle : a.sortKey = b.sortKey := congrArg Lib.Rlp.ofBeBytes hab
    exact hsorted.mp (fun a b hpa hpb ha hb => (h c c (.refl c) (.refl c) a b ⟨hpa, ha⟩ ⟨hpb, hb⟩).1) a ha b hb hle.le hle.ge
  · intro h l m hl hm a b ha hb
    obtain rfl := hsorted.mpr (fun a ha b hb hab hba => h a ha b hb (hkey a ha b hb (hab.antisymm hba))) a b
      (ha.perm.trans hl) (hb.perm.trans hm) ha.ascending hb.ascending
    exact ⟨rfl, fun _ => rfl⟩

/-- A member whose key begins with eight zeros. -/
def zeroMember (last : UInt8) : PeerEndpoint := {emptyEndpoint with pubkey := List.replicate 8 0 ++ [last]}

theorem same_order_pair : SameOrder [Chain.peerWithKey 1, Chain.peerWithKey 2] :=
  (same_order_iff (by decide +kernel) (by decide +kernel)).2.mpr (by decide +kernel)

theorem either_order_two : ∃ c : List PeerEndpoint, (∀ p ∈ c, 8 ≤ p.pubkey.length) ∧ (c.map (·.pubkey)).Nodup ∧
    ¬SameOrder c := by
  refine ⟨[zeroMember 1, zeroMember 2], by decide, by decide, fun h => ?_⟩
  have hsorts : ∀ l, l.Perm [zeroMember 1, zeroMember 2] → l.Pairwise (fun a b => a.sortKey ≤ b.sortKey) →
      SortsByPubkey [zeroMember 1, zeroMember 2] l := fun _ => .mk
  have hsame := (h _ _ (.refl _) (.refl _) _ _ (hsorts [zeroMember 1, zeroMember 2] (by decide) (by decide))
    (hsorts [zeroMember 2, zeroMember 1] (by decide) (by decide))).1
  exact absurd hsame (by decide)

end Okchain.Consensus
