import Okchain.Consensus.FinalBlock

/-! The gas limit of the next block, after `calcGasLimit` in `role_ds_base.go`.

The floor and the ceiling of the range the limit is steered into are one number. Whatever the parent has used,
the next limit lies between the parent's and that number, and is closer to it by the step the code allows or
arrives. The step is at least three, so a chain of such limits gets there.
-/
namespace Okchain.Consensus.GasLimit
open Protos

def target : Nat := 8000000

def distance (limit : Nat) : Nat := (limit - target) + (target - limit)

def decay (limit : Nat) : Nat := limit / 1024 - 1

def contrib (used : Nat) : Nat := (used + used / 2) / 1024

/-- The limit is not below the minimum and leaves room for sums, and no more gas was used than it allows. -/
structure InRange (parent : TxBlock) : Prop where
  low : 5000 ≤ parent.header.gasLimit.toNat
  high : parent.header.gasLimit.toNat < 2 ^ 63
  used : parent.header.gasUsed.toNat ≤ parent.header.gasLimit.toNat

/-- None of the sums and differences in `calcGasLimit` leaves the range of a word. -/
structure Exact (limit used : Nat) : Prop where
  half : used + used / 2 < 2 ^ 64
  step : 1 ≤ limit / 1024
  lowered : decay limit ≤ limit
  proposed : limit - decay limit + contrib used < 2 ^ 64
  raised : limit + decay limit < 2 ^ 64

variable {limit next : Nat} {a b : UInt64} {parent : TxBlock}

theorem exact_of_range {used : Nat} (hlow : 5000 ≤ limit) (hhigh : limit < 2 ^ 63) (hused : used ≤ limit) :
    Exact limit used := by
  have hdecay : decay limit ≤ limit / 1024 := Nat.sub_le _ _
  have hcontrib : contrib used ≤ (limit + limit / 2) / 1024 := Nat.div_le_div_right (by omega)
  exact ⟨by omega, by omega, by omega, by omega, by omega⟩

/-! ### The words as numbers -/

theorem toNat_add_of_lt (h : a.toNat + b.toNat < 2 ^ 64) : (a + b).toNat = a.toNat + b.toNat := by
  rw [UInt64.toNat_add, Nat.mod_eq_of_lt h]

theorem toNat_sub_of_le (h : b.toNat ≤ a.toNat) : (a - b).toNat = a.toNat - b.toNat :=
  UInt64.toNat_sub_of_le a b (UInt64.le_iff_toNat_le.mpr h)

/-- The limit the code starts from, before it looks at the range. -/
def proposed (limit used : Nat) : Nat := max (limit - decay limit + contrib used) 5000

theorem toNat_calcGasLimit
    (h : Exact parent.header.gasLimit.toNat parent.header.gasUsed.toNat) : (calcGasLimit parent).toNat =
      if proposed parent.header.gasLimit.toNat parent.header.gasUsed.toNat < target then
        min (parent.header.gasLimit.toNat + decay parent.header.gasLimit.toNat) target
      else if target < proposed parent.header.gasLimit.toNat parent.header.gasUsed.toNat then
        max (parent.header.gasLimit.toNat - decay parent.header.gasLimit.toNat) target
      else proposed parent.header.gasLimit.toNat parent.header.gasUsed.toNat := by
  obtain ⟨hhalf, hstep, hlowered, hproposed, hraised⟩ := h
  have hdecay : (parent.header.gasLimit / gasLimitBoundDivisor - 1).toNat = decay parent.header.gasLimit.toNat := by
    have hdiv : (parent.header.gasLimit / gasLimitBoundDivisor).toNat = parent.header.gasLimit.toNat / 1024 :=
      UInt64.toNat_div _ _
    rw [toNat_sub_of_le (by rw [hdiv]; exact hstep)]
    rfl
  have hcontrib : ((parent.header.gasUsed + parent.header.gasUsed / 2) / gasLimitBoundDivisor).toNat =
      contrib parent.header.gasUsed.toNat := by
    have hsum : (parent.header.gasUsed + parent.header.gasUsed / 2).toNat =
        parent.header.gasUsed.toNat + parent.header.gasUsed.toNat / 2 := toNat_add_of_lt hhalf
    rw [UInt64.toNat_div, hsum]
    rfl
  unfold calcGasLimit
  generalize parent.header.gasLimit / gasLimitBoundDivisor - 1 = step at hdecay ⊢
  generalize (parent.header.gasUsed + parent.header.gasUsed / 2) / gasLimitBoundDivisor = extra at hcontrib ⊢
  have hlow : (parent.header.gasLimit - step).toNat = parent.header.gasLimit.toNat - decay parent.header.gasLimit.toNat := by
    rw [toNat_sub_of_le (by rw [hdecay]; exact hlowered), hdecay]
  have hlimit : (max (parent.header.gasLimit - step + extra) minGasLimit).toNat =
      proposed parent.header.gasLimit.toNat parent.header.gasUsed.toNat := by
    rw [UInt64.toNat_max, toNat_add_of_lt (by rw [hlow, hcontrib]; exact hproposed), hlow, hcontrib]
    rfl
  have hhigh : (parent.header.gasLimit + step).toNat = parent.header.gasLimit.toNat + decay parent.header.gasLimit.toNat := by
    rw [toNat_add_of_lt (by rw [hdecay]; exact hraised), hdecay]
  have hfloor : minerGasFloor.toNat = target := rfl
  have hceil : minerGasCeil.toNat = target := rfl
  simp only [UInt64.lt_iff_toNat_lt, hlimit, hfloor, hceil]
  split
  · rw [UInt64.toNat_min, hhigh, hfloor]
  · split
    · rw [UInt64.toNat_max, hlow, hceil]
    · exact hlimit

/-! ### One block -/

/-- The next limit is between the parent's and the target, and closer by the step or there. -/
structure Approaches (limit next : Nat) : Prop where
  between : (limit ≤ next ∧ next ≤ target) ∨ (target ≤ next ∧ next ≤ limit)
  closer : distance next + min (distance limit) (decay limit) ≤ distance limit

theorem approaches_target (limit : Nat) : Approaches limit target := by
  constructor
  · omega
  · unfold distance
    omega

theorem approaches_raised (limit : Nat) : Approaches limit (min (limit + decay limit) target) := by
  constructor
  · omega
  · unfold distance
    omega

theorem approaches_lowered (limit : Nat) : Approaches limit (max (limit - decay limit) target) := by
  constructor
  · omega
  · unfold distance
    omega

theorem InRange.exact (h : InRange parent) :
    Exact parent.header.gasLimit.toNat parent.header.gasUsed.toNat := exact_of_range h.low h.high h.used

theorem InRange.approaches (h : InRange parent) :
    Approaches parent.header.gasLimit.toNat (calcGasLimit parent).toNat := by
  rw [toNat_calcGasLimit h.exact]
  split
  · exact approaches_raised _
  · split
    · exact approaches_lowered _
    · next hfloor hceil =>
      rw [Nat.le_antisymm (Nat.not_lt.mp hceil) (Nat.not_lt.mp hfloor)]
      exact approaches_target _

/-! ### A chain of blocks -/

section
variable (h : Approaches limit next)
include h

theorem Approaches.low (hlow : 5000 ≤ limit) : 5000 ≤ next := by
  obtain ⟨hbetween, -⟩ := h
  unfold target at hbetween
  omega

theorem Approaches.high (hhigh : limit < 2 ^ 63) : next < 2 ^ 63 := by
  obtain ⟨hbetween, -⟩ := h
  unfold target at hbetween
  omega

/-- A limit that is not yet there comes closer. -/
theorem Approaches.distance_le (hlow : 5000 ≤ limit) : distance next ≤ distance limit - 1 := by
  have hcloser := h.closer
  have hdecay : 3 ≤ decay limit := Nat.le_sub_of_add_le ((Nat.le_div_iff_mul_le (by decide)).mpr (by omega))
  omega

end

/-- Blocks each of which has the limit that is calculated from the one before, whatever they use. -/
structure Chained (b : Nat → TxBlock) : Prop where
  start : InRange (b 0)
  used : ∀ k, (b k).header.gasUsed.toNat ≤ (b k).header.gasLimit.toNat
  next : ∀ k, (b (k + 1)).header.gasLimit = calcGasLimit (b k)

variable {b : Nat → TxBlock}

theorem Chained.inRange (h : Chained b) (k : Nat) : InRange (b k) := by
  induction k with
  | zero => exact h.start
  | succ k ih =>
    refine ⟨?_, ?_, h.used (k + 1)⟩
    · rw [h.next k]
      exact ih.approaches.low ih.low
    · rw [h.next k]
      exact ih.approaches.high ih.high

theorem Chained.distance_le (h : Chained b) (k : Nat) :
    distance (b k).header.gasLimit.toNat ≤ distance (b 0).header.gasLimit.toNat - k := by
  induction k with
  | zero => exact le_rfl
  | succ k ih =>
    have hstep := (h.inRange k).approaches.distance_le (h.inRange k).low
    rw [h.next k]
    omega

theorem eq_target_of_distance {limit : UInt64} (h : distance limit.toNat = 0) : limit = 8000000 := by
  refine UInt64.toNat_inj.mp ?_
  show limit.toNat = target
  unfold distance at h
  omega

/-- **The gas limit converges.** From every parent in range the next limit is calculated without a wraparound,
lies between the parent's and eight million and is closer by the step or there. A chain of such limits is at
eight million after as many blocks as the first was away from it, and stays there, whatever the blocks use. -/
theorem gasLimit_converges :
    (∀ parent : TxBlock, InRange parent →
      Exact parent.header.gasLimit.toNat parent.header.gasUsed.toNat ∧
      Approaches parent.header.gasLimit.toNat (calcGasLimit parent).toNat) ∧
    ∀ b : Nat → TxBlock, Chained b →
      ∃ reached, ∀ k, reached ≤ k → (b k).header.gasLimit = 8000000 := by
  refine ⟨fun parent h => ⟨h.exact, h.approaches⟩, fun b h => ?_⟩
  refine ⟨distance (b 0).header.gasLimit.toNat, fun k hk => ?_⟩
  have hdistance := h.distance_le k
  rw [Nat.sub_eq_zero_of_le hk] at hdistance
  exact eq_target_of_distance (Nat.le_zero.mp hdistance)

/-- Empty blocks, the first with the lowest limit. -/
def idle : Nat → TxBlock
  | 0 => {Core.sampleBlock 0 [] with header := {(Core.sampleBlock 0 []).header with gasLimit := 5000, gasUsed := 0}}
  | k + 1 => {idle k with header := {(idle k).header with gasLimit := calcGasLimit (idle k)}}

theorem gasUsed_idle (k : Nat) : (idle k).header.gasUsed = 0 := by
  induction k with
  | zero => rfl
  | succ k ih => exact ih

/-- Empty blocks raise the lowest limit to eight million. -/
theorem gasLimit_converges_idle : (idle 0).header.gasLimit = 5000 ∧ Chained idle ∧
    ∃ reached, ∀ k, reached ≤ k → (idle k).header.gasLimit = 8000000 := by
  have hchained : Chained idle := by
    refine ⟨⟨by decide, by decide, by decide⟩, fun k => ?_, fun _ => rfl⟩
    rw [gasUsed_idle]
    exact Nat.zero_le _
  exact ⟨rfl, hchained, gasLimit_converges.2 idle hchained⟩

end Okchain.Consensus.GasLimit
