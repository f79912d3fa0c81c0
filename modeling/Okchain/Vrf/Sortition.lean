import Mathlib.Algebra.Order.BigOperators.Ring.Finset
import Mathlib.Data.Nat.Choose.Sum
import Mathlib.Tactic.FieldSimp
import Mathlib.Tactic.Linarith
import Okchain.Common

/-! The votes of a stake, after `getVotes` in `crypto/vrf/sortition/sortition.go`, with `big.Float` read as rational
numbers.

The votes are the place of the hash fraction among the partial sums of a binomial distribution. The loop begins at one:
the sum up to the first term is looked at before it, and a stake of weight one has its vote whatever the hash.
-/
namespace Okchain.Vrf

/-! ### The model -/

/-- The second loop. `none` if there is not enough fuel. -/
def voteLoop (w : Int) (value t : ℚ) : Nat → Int → ℚ → ℚ → ℚ → ℚ → Option Int
  | 0, _, _, _, _, _ => none
  | fuel + 1, j, item, t1, t2, curr =>
    if j < w ∧ curr ≤ value then
      let item := item * t * t1 / t2
      let next := curr + item
      if value < next then some j else voteLoop w value t fuel (j + 1) item (t1 - 1) (t2 + 1) next
    else some (if j = w then j else 0)

/-- `getVotes` for a hash fraction. The index is one when the second loop begins. -/
def votesAt (value : ℚ) (w : Int) (p : ℚ) : Option Int :=
  let q := 1 - p
  let curr := (· * q)^[w.toNat] 1
  voteLoop w value (p / q) (w.toNat + 1) 1 curr w 1 curr

def hashFraction (hash : Hash) : ℚ := Lib.Rlp.ofBeBytes hash.bytes / (2 ^ 256 - 1)

theorem hashFraction_nonneg (hash : Hash) : 0 ≤ hashFraction hash := div_nonneg (Nat.cast_nonneg _) (by norm_num)

def getVotes (hash : Hash) (w : Int) (p : ℚ) : Option Int := votesAt (hashFraction hash) w p

/-! ### The distribution -/

/-- The probability of `k` votes. -/
def binomialKW (w : Nat) (p : ℚ) (k : Nat) : ℚ := w.choose k * p ^ k * (1 - p) ^ (w - k)

/-- The probability of less than `k` votes. -/
def below (w : Nat) (p : ℚ) (k : Nat) : ℚ := ∑ i ∈ Finset.range k, binomialKW w p i

/-- The number of votes for a hash fraction. -/
structure Counts (w : Nat) (p x : ℚ) (j : Nat) : Prop where
  le : j ≤ w
  low : below w p j ≤ x
  high : x < below w p (j + 1)

variable {w : Nat} {p x : ℚ} {j k : Nat}

theorem below_mono (hp : 0 < p) (hp1 : p < 1) : Monotone (below w p) := by
  refine monotone_nat_of_le_succ fun k => ?_
  have hq : (0 : ℚ) ≤ 1 - p := by linarith
  rw [below, below, Finset.sum_range_succ]
  exact le_add_of_nonneg_right (by unfold binomialKW; positivity)

theorem below_all : below w p (w + 1) = 1 := by
  have h := add_pow p (1 - p) w
  rw [add_sub_cancel, one_pow] at h
  rw [h]
  exact Finset.sum_congr rfl fun i _ => by rw [binomialKW]; ring

theorem binomialKW_succ (hp1 : p < 1) (hk : k < w) :
    binomialKW w p k * (p / (1 - p)) * (w - k) / (k + 1) = binomialKW w p (k + 1) := by
  have hq : 1 - p ≠ 0 := by linarith
  have hk1 : (k : ℚ) + 1 ≠ 0 := by positivity
  have hchoose : (w.choose (k + 1) : ℚ) * (k + 1) = w.choose k * (w - k) := by
    have h := Nat.choose_succ_right_eq w k
    rw [← Nat.cast_sub hk.le]
    exact_mod_cast h
  have hpow : (1 - p) ^ (w - k) = (1 - p) ^ (w - (k + 1)) * (1 - p) := by
    rw [← pow_succ]
    congr 1
    omega
  calc binomialKW w p k * (p / (1 - p)) * (w - k) / (k + 1)
      = w.choose k * (w - k) / (k + 1) * p ^ (k + 1) * (1 - p) ^ (w - (k + 1)) := by
        rw [binomialKW, hpow]
        field_simp
        ring
    _ = binomialKW w p (k + 1) := by rw [← hchoose, mul_div_cancel_right₀ _ hk1, binomialKW]

theorem Counts.unique (hp : 0 < p) (hp1 : p < 1) (hj : Counts w p x j) (hk : Counts w p x k) : k = j := by
  by_contra hne
  rcases Nat.lt_or_gt_of_ne hne with h | h
  · exact absurd (hk.high.trans_le (below_mono hp hp1 h)) (not_lt.mpr hj.low)
  · exact absurd (hj.high.trans_le (below_mono hp hp1 h)) (not_lt.mpr hk.low)

theorem voteLoop_counts {fuel : Nat} (hp1 : p < 1) (hx1 : x < 1) (hj : j < w) (hfuel : w ≤ fuel + j)
    (hlow : below w p (j + 1) ≤ x) : ∃ n : Nat, voteLoop w x (p / (1 - p)) (fuel + 1) (j + 1) (binomialKW w p j) (w - j)
      (j + 1) (below w p (j + 1)) = some (n : Int) ∧ Counts w p x n := by
  induction fuel generalizing j with
  | zero => omega
  | succ fuel ih =>
    have hnext : below w p (j + 1) + binomialKW w p (j + 1) = below w p (j + 2) := (Finset.sum_range_succ _ _).symm
    rw [voteLoop, binomialKW_succ hp1 hj]
    simp only [hnext]
    by_cases hend : j + 1 = w
    · refine ⟨w, ?_, le_rfl, hend ▸ hlow, below_all ▸ hx1⟩
      rw [if_neg (by omega), if_pos (by omega), ← hend]
      rfl
    · rw [if_pos ⟨by omega, hlow⟩]
      by_cases hhigh : x < below w p (j + 2)
      · exact ⟨j + 1, if_pos hhigh, hj, hlow, hhigh⟩
      · obtain ⟨n, hrun, hn⟩ := ih (j := j + 1) (by omega) (by omega) (not_lt.mp hhigh)
        refine ⟨n, ?_, hn⟩
        rw [if_neg hhigh, ← hrun]
        push_cast
        ring_nf

theorem below_one : below w p 1 = (1 - p) ^ w := by simp [below, binomialKW]

theorem votesAt_counts (hp1 : p < 1) (hx : 0 ≤ x) (hx1 : x < 1) (hw : 2 ≤ w) :
    ∃ n : Nat, votesAt x w p = some (n : Int) ∧ Counts w p x n := by
  have hcurr : (· * (1 - p))^[w] 1 = below w p 1 := by simp [mul_right_iterate, below_one]
  rcases lt_or_ge x (below w p 1) with hlow | hlow
  · have hne : (1 : Int) ≠ w := by omega
    exact ⟨0, by simp [votesAt, voteLoop, hcurr, not_le.mpr hlow, hne], Nat.zero_le w, by simpa [below] using hx, hlow⟩
  · obtain ⟨n, hrun, hn⟩ := voteLoop_counts hp1 hx1 (show 0 < w by omega) (Nat.le_add_right w 0) hlow
    refine ⟨n, ?_, hn⟩
    have hfirst : binomialKW w p 0 = below w p 1 := (Finset.sum_range_one _).symm
    simpa [votesAt, hcurr, hfirst] using hrun

theorem votesAt_counts_iff (hw : 1 ≤ w) (hp : 0 < p) (hp1 : p < 1) (hx : 0 ≤ x) (hx1 : x < 1) :
    (∃ j : Nat, votesAt x w p = some (j : Int) ∧ ∀ k, Counts w p x k ↔ k = j) ↔ 2 ≤ w ∨ 1 - p ≤ x := by
  rcases Nat.lt_or_ge w 2 with h | h
  · obtain rfl : w = 1 := by omega
    have hrun : votesAt x 1 p = some ((1 : Nat) : Int) := by simp [votesAt, voteLoop]
    have hlow : below 1 p 1 = 1 - p := by simp [below_one]
    constructor
    · rintro ⟨j, hj, hcounts⟩
      obtain rfl : 1 = j := by exact_mod_cast Option.some.inj (hrun.symm.trans hj)
      exact .inr (hlow ▸ ((hcounts 1).mpr rfl).low)
    · intro hq
      have hcounts : Counts 1 p x 1 := ⟨le_rfl, by rw [hlow]; simpa using hq, below_all ▸ hx1⟩
      exact ⟨1, hrun, fun k => ⟨hcounts.unique hp hp1, fun h => h ▸ hcounts⟩⟩
  · obtain ⟨n, hrun, hn⟩ := votesAt_counts hp1 hx hx1 h
    exact iff_of_true ⟨n, hrun, fun k => ⟨hn.unique hp hp1, fun h => h ▸ hn⟩⟩ (.inl h)

/-- **The votes of a stake.** `getVotes` returns the number of votes, which is unique, exactly if the weight is more
than one or the one vote is due. -/
theorem getVotes_counts_iff (hw : 1 ≤ w) (hp : 0 < p) (hp1 : p < 1) :
    (∀ x, 0 ≤ x → x < 1 →
      ((∃ j : Nat, votesAt x w p = some (j : Int) ∧ ∀ k, Counts w p x k ↔ k = j) ↔ 2 ≤ w ∨ 1 - p ≤ x)) ∧
    ∀ hash, hashFraction hash < 1 →
      ((∃ j : Nat, getVotes hash w p = some (j : Int) ∧ ∀ k, Counts w p (hashFraction hash) k ↔ k = j) ↔
        2 ≤ w ∨ 1 - p ≤ hashFraction hash) :=
  ⟨fun _ => votesAt_counts_iff hw hp hp1, fun _ => votesAt_counts_iff hw hp hp1 (hashFraction_nonneg _)⟩

/-- A stake of one has its vote when none is due. -/
theorem one_always_elected : ¬∃ j : Nat, getVotes default (1 : Nat) (1 / 2) = some (j : Int) ∧
    ∀ k, Counts 1 (1 / 2) (hashFraction default) k ↔ k = j := by
  rintro ⟨j, hj, hcounts⟩
  have hrun : getVotes default (1 : Nat) (1 / 2) = some 1 := by decide +kernel
  have hzero : hashFraction default = 0 := by decide +kernel
  rw [hzero] at hcounts
  have hnone : Counts 1 (1 / 2) 0 0 :=
    ⟨Nat.zero_le 1, by simp [below], by norm_num [below, binomialKW, Finset.sum_range_succ]⟩
  rw [hrun, ← (hcounts 0).mp hnone] at hj
  exact absurd hj (by decide)

/-- A stake of two, and a hash in the middle. -/
theorem getVotes_counts_two : ∃ j : Nat, getVotes (bytesToHash (128 :: List.replicate 31 0)) (2 : Nat) (1 / 2) = some (j : Int) ∧
    ∀ k, Counts 2 (1 / 2) (hashFraction (bytesToHash (128 :: List.replicate 31 0))) k ↔ k = j :=
  ((getVotes_counts_iff (w := 2) (by norm_num) (by norm_num) (by norm_num)).2 _ (by decide +kernel)).mpr (.inl le_rfl)

end Okchain.Vrf
