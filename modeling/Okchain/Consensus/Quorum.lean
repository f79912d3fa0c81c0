import Mathlib.Tactic.IntervalCases
import Okchain.Chain.Base
import Okchain.Lib.Quorum

/-! The voting threshold as a Byzantine quorum.

A committee of `n` members is meant to stand `f = (n - 1) / 3` Byzantine ones. Then two quorums have to
share an honest member, and a quorum has to come together without the members that stay silent. The
threshold is the same for both, but the leader does not vote: the votes come from the other `n - 1`.
-/
namespace Okchain.Consensus
open Protos Lib
open Chain (getToleranceSize)

/-- The Byzantine members a committee of `n` is meant to stand. -/
def maxFaulty (n : Nat) : Nat := (n - 1) / 3

/-- The threshold of the committee serves: any two sets of that many members share an honest one, and
without any `f` of the backups that many are left to vote, whoever leads. -/
structure ByzantineQuorum (committee : List PeerEndpoint) : Prop where
  overlap : ∀ A ⊆ committee.toFinset, ∀ B ⊆ committee.toFinset,
    (A.card : Int) = getToleranceSize committee.length → (B.card : Int) = getToleranceSize committee.length →
    maxFaulty committee.length + 1 ≤ (A ∩ B).card
  available : ∀ leader ∈ committee, ∀ silent ⊆ committee.toFinset.erase leader,
    silent.card = maxFaulty committee.length →
    getToleranceSize committee.length ≤ ((committee.toFinset.erase leader \ silent).card : Int)

theorem exists_getToleranceSize {n : Nat} (hn : 1 ≤ n) :
    ∃ q : Nat, getToleranceSize n = q ∧ 1 ≤ q ∧ q ≤ n ∧ q = (n - 1) * 667 / 1000 + 1 := by
  refine ⟨(n - 1) * 667 / 1000 + 1, ?_, by omega, by omega, rfl⟩
  unfold getToleranceSize
  omega

/-- The sizes for which the threshold leaves two quorums an honest member and the backups a quorum. The
factor exceeds two thirds by a third of a thousandth, which tells from two thousand members on. -/
theorem threshold_fits_iff {n : Nat} (hn : 2 ≤ n) : n + (maxFaulty n + 1) ≤ 2 * ((n - 1) * 667 / 1000 + 1) ∧
      (n - 1) * 667 / 1000 + 1 + maxFaulty n ≤ n - 1 ↔ n % 3 = 0 ∧ n < 2000 := by
  obtain ⟨f, r, hr, rfl⟩ : ∃ f r, r < 3 ∧ n = 3 * f + r + 1 :=
    ⟨(n - 1) / 3, (n - 1) % 3, Nat.mod_lt _ (by omega), by omega⟩
  have hfaulty : maxFaulty (3 * f + r + 1) = f := by
    unfold maxFaulty
    omega
  rw [Nat.add_sub_cancel]
  interval_cases r <;> omega

/-- **The quorum theorem.** The threshold is a Byzantine quorum exactly for the committees whose size is a
multiple of three below two thousand. For the other sizes two quorums share too few members, or the honest
backups are too few for one. -/
theorem byzantineQuorum_iff (committee : List PeerEndpoint) (hdistinct : committee.Nodup)
    (hsize : 2 ≤ committee.length) :
    ByzantineQuorum committee ↔ committee.length % 3 = 0 ∧ committee.length < 2000 := by
  obtain ⟨q, hq, hpos, hle, hqval⟩ := exists_getToleranceSize (n := committee.length) (by omega)
  have hcard : committee.toFinset.card = committee.length := List.toFinset_card_of_nodup hdistinct
  have hbackups : ∀ leader ∈ committee, (committee.toFinset.erase leader).card = committee.length - 1 := by
    intro leader hleader
    rw [Finset.card_erase_of_mem (List.mem_toFinset.mpr hleader), hcard]
  have hoverlap : (∀ A ⊆ committee.toFinset, ∀ B ⊆ committee.toFinset, A.card = q → B.card = q →
      maxFaulty committee.length + 1 ≤ (A ∩ B).card) ↔
      committee.length + (maxFaulty committee.length + 1) ≤ 2 * q := by
    rw [← hcard]
    exact Quorum.share_iff (hle.trans_eq hcard.symm) (Nat.succ_pos _)
  have hfaulty : maxFaulty committee.length ≤ committee.length - 1 := Nat.div_le_self _ _
  obtain ⟨leader, hleader⟩ := List.exists_mem_of_length_pos (l := committee) (by omega)
  have havailable : ∀ leader ∈ committee, ((∀ silent ⊆ committee.toFinset.erase leader,
      silent.card = maxFaulty committee.length → q ≤ (committee.toFinset.erase leader \ silent).card) ↔
      q + maxFaulty committee.length ≤ committee.length - 1) := by
    intro leader hleader
    rw [← hbackups leader hleader]
    exact Quorum.remain_iff (hfaulty.trans_eq (hbackups leader hleader).symm)
  have hboth : ByzantineQuorum committee ↔
      committee.length + (maxFaulty committee.length + 1) ≤ 2 * q ∧
      q + maxFaulty committee.length ≤ committee.length - 1 := by
    rw [← hoverlap, ← havailable leader hleader]
    refine ⟨fun h => ⟨fun A hA B hB hAcard hBcard => ?_, fun silent hsilent hcount => ?_⟩, fun h => ⟨?_, ?_⟩⟩
    · exact h.overlap A hA B hB (by rw [hq, hAcard]) (by rw [hq, hBcard])
    · have := h.available leader hleader silent hsilent hcount
      rw [hq] at this
      exact_mod_cast this
    · intro A hA B hB hAcard hBcard
      rw [hq] at hAcard hBcard
      exact h.1 A hA B hB (by exact_mod_cast hAcard) (by exact_mod_cast hBcard)
    · intro other hother silent hsilent hcount
      have henough := (havailable leader hleader).mp h.2
      have := (havailable other hother).mpr henough silent hsilent hcount
      rw [hq]
      exact_mod_cast this
  rw [hboth, hqval]
  exact threshold_fits_iff hsize

def portPeers (n : Nat) : List PeerEndpoint :=
  (List.range n).map fun i => ⟨none, [], UInt32.ofNat i, [], [], []⟩

/-- A committee of three is served. -/
theorem byzantineQuorum_three : ByzantineQuorum (portPeers 3) :=
  (byzantineQuorum_iff (portPeers 3) (by decide) (by decide)).mpr (by decide)

/-- In a committee of four a silent backup leaves two votes where three are needed, and in one of five two
sets of three may share a single member. -/
theorem byzantineQuorum_fails : ¬ByzantineQuorum (portPeers 4) ∧ ¬ByzantineQuorum (portPeers 5) := by
  refine ⟨fun h => ?_, fun h => ?_⟩
  · have := h.available ⟨none, [], 0, [], [], []⟩ (by decide) {⟨none, [], 1, [], [], []⟩} (by decide) (by decide)
    exact absurd this (by decide)
  · have := h.overlap ((portPeers 5).take 3).toFinset (by decide) ((portPeers 5).drop 2).toFinset (by decide)
    exact absurd this (by decide)

end Okchain.Consensus
