import Okchain.Core.Rewards

/-! The rewards of a block, credit by credit.

`assignRwards` makes one `AddBalance` for each shard, each DS backup and the DS leader. All divisions round down, and
what a division loses goes to whoever is paid last: the shard with the highest fee, and the DS leader. So the credits
are never negative, add up to the fees and the yield, and the one paid last is not worse off than the others.
-/
variable {total : Int}

namespace Okchain.Core
open Lib State Protos

variable {M : Machine} {header : TxBlockHeader} {gasFeeTotal : Nat} {shards : List (UInt32 × Nat)}

/-- Two shards or more and no fees: a percentage of nothing. -/
theorem assignRwards_divisionByZero (h : 2 ≤ shards.length) (s : StateDB) :
    assignRwards M header 0 shards s = (.error (.panic .divisionByZero), s) := by
  rw [← (M.sortShards_perm shards).length_eq] at h
  have hshards : creditShards M header (shardsTotal header 0 shards.length) ((0 : Nat) : Int) (M.sortShards shards) 0 s =
      (.error (.panic .divisionByZero), s) := by
    match M.sortShards shards, h with
    | _ :: _ :: _, _ => rfl
  exact Proc.bind_fails _ hshards

/-! ### Bounds -/

/-- Whoever gets what `n` equal parts leave over gets at least eleven tenths of a part. -/
theorem part_le_rest (total : Int) {n : Int} (hn : 0 ≤ n) :
    11 * (total * 10 / (11 + 10 * n)) ≤ 10 * (total - n * (total * 10 / (11 + 10 * n))) := by
  have hfloor := Int.ediv_mul_le (total * 10) (show 11 + 10 * n ≠ 0 by omega)
  generalize total * 10 / (11 + 10 * n) = part at *
  have hexpand : part * (11 + 10 * n) = 11 * part + 10 * (n * part) := by ring
  omega

theorem part_nonneg {n : Int} (htotal : 0 ≤ total) (hn : 0 ≤ n) : 0 ≤ total * 10 / (11 + 10 * n) :=
  Int.ediv_nonneg (by omega) (by omega)

section
variable (header gasFeeTotal)

theorem totalReward_nonneg : 0 ≤ (gasFeeTotal : Int) + yieldReward header.blockNumber :=
  Int.add_nonneg (Int.natCast_nonneg _) (Int.natCast_nonneg _)

theorem shardsTotal_nonneg (n : Nat) : 0 ≤ shardsTotal header gasFeeTotal n :=
  Int.mul_nonneg (Int.natCast_nonneg _) (part_nonneg (totalReward_nonneg header gasFeeTotal) (Int.natCast_nonneg _))

theorem committeeTotal_nonneg (n : Nat) : 0 ≤ committeeTotal header gasFeeTotal n := by
  have hpart := part_nonneg (totalReward_nonneg header gasFeeTotal) (Int.natCast_nonneg n)
  have hrest : 11 * _ ≤ 10 * committeeTotal header gasFeeTotal n := part_le_rest _ (Int.natCast_nonneg n)
  omega

end

theorem backupReward_nonneg (hleader : header.dsCoinBase ≠ []) (gasFeeTotal n : Nat) :
    0 ≤ backupReward header gasFeeTotal n := by
  have hlen := List.length_pos_iff.mpr hleader
  exact part_nonneg (committeeTotal_nonneg header gasFeeTotal n) (by omega)

/-- The leader of the committee gets at least eleven tenths of what a backup gets. -/
theorem backupReward_le_leaderReward (hleader : header.dsCoinBase ≠ []) (gasFeeTotal n : Nat) :
    11 * backupReward header gasFeeTotal n ≤ 10 * leaderReward header gasFeeTotal n := by
  have hlen := List.length_pos_iff.mpr hleader
  have htail : (header.dsCoinBase.tail.length : Int) = (header.dsCoinBase.length : Int) - 1 := by
    rw [List.length_tail]
    omega
  unfold leaderReward
  rw [htail, Int.mul_comm (backupReward header gasFeeTotal n)]
  exact part_le_rest _ (by omega)

/-- Percentages are rounded down twice. -/
theorem shareOf_mul_le (htotal : 0 ≤ total) {fees : Nat} (hfees : 0 < fees) (shard : UInt32 × Nat) :
    shareOf total fees shard * fees ≤ total * shard.2 := by
  have hpercent := Int.ediv_mul_le ((shard.2 : Int) * 100) (show (fees : Int) ≠ 0 by omega)
  have hshare := Int.ediv_mul_le (total * ((shard.2 : Int) * 100 / fees)) (show (100 : Int) ≠ 0 by decide)
  unfold shareOf
  generalize (shard.2 : Int) * 100 / fees = percent at *
  generalize total * percent / 100 = share at *
  have hscaled : share * fees * 100 ≤ total * shard.2 * 100 :=
    calc share * fees * 100 = share * 100 * fees := by ring
      _ ≤ total * percent * fees := Int.mul_le_mul_of_nonneg_right hshare (Int.natCast_nonneg _)
      _ = total * (percent * fees) := by ring
      _ ≤ total * ((shard.2 : Int) * 100) := Int.mul_le_mul_of_nonneg_left hpercent htotal
      _ = total * shard.2 * 100 := by ring
  exact Int.le_of_mul_le_mul_right hscaled (by decide)

theorem shareOf_nonneg (htotal : 0 ≤ total) (fees : Nat) (shard : UInt32 × Nat) : 0 ≤ shareOf total fees shard := by
  have hpercent : 0 ≤ (shard.2 : Int) * 100 / fees :=
    Int.ediv_nonneg (Int.mul_nonneg (Int.natCast_nonneg _) (by decide)) (Int.natCast_nonneg _)
  exact Int.ediv_nonneg (Int.mul_nonneg htotal hpercent) (by decide)

theorem sortShards_sum (M : Machine) (shards : List (UInt32 × Nat)) :
    ((M.sortShards shards).map Prod.snd).sum = (shards.map Prod.snd).sum :=
  ((M.sortShards_perm shards).map _).sum_eq

/-- **The rewards of a block.** `assignRwards` makes the listed credits; none is negative, they add up to the fees and
the yield, no shard gets more than the last one in increasing order of the fees, and the leader of the DS committee
gets at least eleven tenths of what a backup gets. -/
theorem rewardCredits_exact (M : Machine) (hleader : header.dsCoinBase ≠ []) (hnamed : Named header shards)
    (hsum : (shards.map Prod.snd).sum = gasFeeTotal) (hpos : 0 < gasFeeTotal) (s : StateDB) :
    assignRwards M header gasFeeTotal shards s =
      (.ok ⟨⟩, creditAll M.toDatabase s (rewardCredits M header gasFeeTotal shards)) ∧
    (∀ c ∈ rewardCredits M header gasFeeTotal shards, 0 ≤ c.2) ∧
    ((rewardCredits M header gasFeeTotal shards).map Prod.snd).sum =
      (gasFeeTotal : Int) + yieldReward header.blockNumber ∧
    (shardRewards M header gasFeeTotal shards).map Prod.fst = M.sortShards shards ∧
    (∀ e ∈ shardRewards M header gasFeeTotal shards, ∀ last ∈ (shardRewards M header gasFeeTotal shards).getLast?,
      e.2 ≤ last.2) ∧
    11 * backupReward header gasFeeTotal shards.length ≤ 10 * leaderReward header gasFeeTotal shards.length := by
  have hkeys := (sortShards_sum M shards).trans hsum
  have hne : M.sortShards shards ≠ [] := by
    intro hnil
    rw [hnil] at hkeys
    exact absurd hkeys.symm (Nat.ne_of_gt hpos)
  have htotal := shardsTotal_nonneg header gasFeeTotal shards.length
  have hkeysPos : 0 < ((M.sortShards shards).map Prod.snd).sum := hkeys ▸ hpos
  have hshare : ∀ x ∈ M.sortShards shards, shareOf (shardsTotal header gasFeeTotal shards.length) gasFeeTotal x *
      (((M.sortShards shards).map Prod.snd).sum : Nat) ≤ shardsTotal header gasFeeTotal shards.length * (x.2 : Nat) :=
    fun x _ => hkeys.symm ▸ shareOf_mul_le htotal hpos x
  have hlead := backupReward_le_leaderReward hleader gasFeeTotal shards.length
  have hbackup := backupReward_nonneg hleader gasFeeTotal shards.length
  refine ⟨assignRwards_eq ⟨fun _ => Nat.ne_of_gt hpos, hnamed, hleader⟩ s, ?_, ?_, Shares.deal_fst _ _, ?_, hlead⟩
  · intro c hc
    rcases List.mem_append.mp hc with hc | hc
    · rcases List.mem_append.mp hc with hc | hc
      · obtain ⟨e, he, rfl⟩ := List.mem_map.mp hc
        exact Shares.deal_nonneg hkeysPos htotal hshare (fun x _ => shareOf_nonneg htotal _ x) he
      · obtain ⟨_, _, rfl⟩ := List.mem_map.mp hc
        exact hbackup
    · rw [List.mem_singleton.mp hc]
      omega
  · have hshards : ((shardRewards M header gasFeeTotal shards).map Prod.snd).sum =
        shardsTotal header gasFeeTotal shards.length := Shares.deal_sum hne _
    unfold rewardCredits
    simp only [List.map_append, List.map_map, List.sum_append, List.map_cons, List.map_nil, List.sum_cons, List.sum_nil]
    rw [show (Prod.snd ∘ fun e : (UInt32 × Nat) × Int => (leadOf header e.1, e.2)) = Prod.snd from rfl]
    rw [show (Prod.snd ∘ fun c : Bytes => (bytesToAddress c, backupReward header gasFeeTotal shards.length)) =
      Function.const Bytes (backupReward header gasFeeTotal shards.length) from rfl, List.map_const, List.sum_replicate]
    unfold leaderReward committeeTotal
    rw [nsmul_eq_mul, Int.mul_comm]
    omega
  · intro e he last hlast
    unfold shardRewards at hlast
    rw [Shares.getLast?_deal hne, Option.mem_some_iff] at hlast
    subst hlast
    exact Shares.deal_le_last (M.sortShards_sorted shards) hkeysPos htotal hshare he

/-- The theorem at three shards with different fees. -/
theorem rewardCredits_threeLeads :
    (∀ c ∈ rewardCredits Machine.sample threeLeads 6 [(0, 1), (1, 2), (2, 3)], 0 ≤ c.2) ∧
      ((rewardCredits Machine.sample threeLeads 6 [(0, 1), (1, 2), (2, 3)]).map Prod.snd).sum =
        6 + yieldReward threeLeads.blockNumber := by
  have hnamed : Named threeLeads [(0, 1), (1, 2), (2, 3)] := by
    unfold Named
    decide
  obtain ⟨-, hnonneg, hsum, -⟩ := rewardCredits_exact Machine.sample (by decide) hnamed rfl (by decide)
    (StateDB.new fun _ => none)
  exact ⟨hnonneg, hsum⟩

end Okchain.Core
