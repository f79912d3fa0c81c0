import Okchain.Core.Transfer
import Okchain.Lib.Shares

/-! Who gets the rewards of a block.

Go iterates over the map of fees in any order, and `sort.Sort` leaves shards with equal fees in any order. What
the leaders of the shards get by their percentages does not depend on it. Percentages are rounded down, though,
and what is missing goes to the shard that comes last: with equal highest fees that can be either of two.
-/
namespace Okchain.Core
open Lib Proc State Protos List

variable {M : Machine} {header : TxBlockHeader}
variable {s t : StateDB} {u : PUnit} {fees : List (UInt32 × Nat)}

/-! ### What each account is paid -/

theorem getBalance_putBalance (D : Database) (s : StateDB) (x : Address) {o : StateObject} (hdel : o.deleted = false) :
    ((s.getOrNewStateObject D x).2.put x o).getBalance = s.getBalance + Pi.single x (o.data.balance - s.getBalance x) := by
  rw [getBalance_put hdel, getBalance_getOrNew]
  funext a
  by_cases ha : a = x
  · subst ha
    rw [Function.update_self, Pi.add_apply, Pi.single_eq_same]
    omega
  · rw [Function.update_of_ne ha, Pi.add_apply, Pi.single_eq_of_ne ha, add_zero]

theorem getBalance_addBalance (D : Database) (s : StateDB) (x : Address) (v : Int) :
    (s.addBalance D x v).getBalance = s.getBalance + Pi.single x v := by
  have hdel := getStateObject_deleted (getStateObject_getOrNew D s x)
  have hbalance := balance_getOrNew D s x
  unfold StateDB.addBalance
  dsimp only
  by_cases hv : v = 0
  · rw [if_pos hv]
    split
    · refine (getBalance_putBalance D s x (o := {(s.getOrNewStateObject D x).1 with touched := true}) hdel).trans ?_
      rw [hbalance, Int.sub_self, hv]
    · rw [hv, Pi.single_zero, add_zero]
      exact getBalance_getOrNew D s x
  · rw [if_neg hv]
    refine (getBalance_putBalance D s x (o := {(s.getOrNewStateObject D x).1 with
      data := {(s.getOrNewStateObject D x).1.data with balance := (s.getOrNewStateObject D x).1.data.balance + v}})
      hdel).trans ?_
    rw [hbalance, add_sub_cancel_left]

def leadOf (header : TxBlockHeader) (shard : UInt32 × Nat) : Address :=
  bytesToAddress (header.shardingLeadCoinBase.getD shard.1.toNat [])

/-- What a shard gets by its percentage of the fees. -/
def shareOf (shardsRewardTotal gasFeeTotal : Int) (shard : UInt32 × Nat) : Int :=
  shardsRewardTotal * ((shard.2 : Int) * 100 / gasFeeTotal) / 100

/-- The header names a leader for each of the shards. -/
def Named (header : TxBlockHeader) (shards : List (UInt32 × Nat)) : Prop :=
  ∀ shard ∈ shards, shard.1.toNat < header.shardingLeadCoinBase.length

/-- One `AddBalance` after the other. -/
def creditAll (D : Database) (s : StateDB) (credits : List (Address × Int)) : StateDB :=
  credits.foldl (fun s c => s.addBalance D c.1 c.2) s

theorem getBalance_creditAll (D : Database) (s : StateDB) (credits : List (Address × Int)) :
    (creditAll D s credits).getBalance = s.getBalance + (credits.map fun c => Pi.single c.1 c.2).sum := by
  induction credits generalizing s with
  | nil => exact (add_zero _).symm
  | cons c rest ih =>
    show (creditAll D (s.addBalance D c.1 c.2) rest).getBalance = _
    rw [ih, getBalance_addBalance, add_assoc]
    rfl

theorem index_ok {l : List Bytes} {i : Nat} (h : i < l.length) : index l i = .ok (l.getD i []) := by
  unfold index
  rw [getD_eq_getElem?_getD, getElem?_eq_getElem h]
  rfl

theorem creditShard_eq {shard : UInt32 × Nat} (h : shard.1.toNat < header.shardingLeadCoinBase.length) (reward : Int)
    (s : StateDB) : creditShard M header shard.1 reward s =
      (.ok ⟨⟩, s.addBalance M.toDatabase (leadOf header shard) reward) :=
  bind_lift (index_ok h)

theorem creditShard_ok {shardId : UInt32} {reward : Int} (h : creditShard M header shardId reward s = (.ok u, t)) :
    shardId.toNat < header.shardingLeadCoinBase.length := by
  obtain ⟨coinbase, hindex, -⟩ := lift_bind_ok.mp h
  by_contra hlt
  unfold index at hindex
  rw [getElem?_eq_none (not_lt.mp hlt)] at hindex
  exact nomatch hindex

variable {l shards : List (UInt32 × Nat)} {gasFeeTotal : Nat}

theorem creditShards_eq {total fees : Int} (hfees : 2 ≤ l.length → fees ≠ 0)
    (hnamed : Named header l) (paid : Int) (s : StateDB) : creditShards M header total fees l paid s =
      (.ok ⟨⟩, creditAll M.toDatabase s
        ((Shares.deal (shareOf total fees) l (total - paid)).map fun e => (leadOf header e.1, e.2))) := by
  induction l generalizing paid s with
  | nil => rfl
  | cons shard rest ih =>
    have hshard := hnamed shard mem_cons_self
    cases rest with
    | nil => exact creditShard_eq hshard _ s
    | cons next rest =>
      refine (bind_ensure (hfees (by simp))).trans ((bind_run (creditShard_eq hshard _ s)).trans ?_)
      rw [ih (fun _ => hfees (by simp)) fun e he => hnamed e (mem_cons_of_mem _ he), Shares.deal, Int.sub_sub]
      rfl

theorem creditShards_ok {total fees paid : Int} (h : creditShards M header total fees shards paid s = (.ok u, t)) :
    (2 ≤ shards.length → fees ≠ 0) ∧ Named header shards := by
  induction shards generalizing paid s with
  | nil => exact ⟨fun h => absurd h (by simp), fun _ h => nomatch h⟩
  | cons shard rest ih =>
    cases rest with
    | nil =>
      refine ⟨fun h => absurd h (by simp), fun e he => ?_⟩
      rw [mem_singleton.mp he]
      exact creditShard_ok h
    | cons next rest =>
      obtain ⟨hfees, h⟩ := ensure_bind_ok.mp h
      obtain ⟨_, s₁, hshard, h⟩ := bind_ok.mp h
      refine ⟨fun _ => hfees, fun e he => ?_⟩
      rcases mem_cons.mp he with rfl | he
      · exact creditShard_ok hshard
      · exact (ih h).2 e he

theorem creditBackups_eq (reward : Int) (coinbases : List Bytes) (s : StateDB) : creditBackups M reward coinbases s =
      (.ok ⟨⟩, creditAll M.toDatabase s (coinbases.map fun c => (bytesToAddress c, reward))) := by
  induction coinbases generalizing s with
  | nil => rfl
  | cons c rest ih => exact ih _

/-- What `assignRwards` shares out among `n` shards. -/
def shardsTotal (header : TxBlockHeader) (gasFeeTotal : Nat) (n : Nat) : Int :=
  n * (((gasFeeTotal : Int) + yieldReward header.blockNumber) * 10 / (11 + 10 * n))

def committeeTotal (header : TxBlockHeader) (gasFeeTotal : Nat) (n : Nat) : Int :=
  (gasFeeTotal : Int) + yieldReward header.blockNumber - shardsTotal header gasFeeTotal n

def backupReward (header : TxBlockHeader) (gasFeeTotal : Nat) (n : Nat) : Int :=
  committeeTotal header gasFeeTotal n * 10 / (11 + 10 * ((header.dsCoinBase.length : Int) - 1))

def leaderReward (header : TxBlockHeader) (gasFeeTotal : Nat) (n : Nat) : Int :=
  committeeTotal header gasFeeTotal n - backupReward header gasFeeTotal n * header.dsCoinBase.tail.length

def committeePaid (header : TxBlockHeader) (gasFeeTotal : Nat) (n : Nat) : Address → Int :=
  (header.dsCoinBase.tail.map fun c => Pi.single (bytesToAddress c) (backupReward header gasFeeTotal n)).sum +
    Pi.single (bytesToAddress (header.dsCoinBase.getD 0 [])) (leaderReward header gasFeeTotal n)

/-- `assignRwards` comes to its end: there is a fee to take percentages of, and every account it credits is in
the header. -/
structure Payable (header : TxBlockHeader) (gasFeeTotal : Nat) (shards : List (UInt32 × Nat)) : Prop where
  fees : 2 ≤ shards.length → gasFeeTotal ≠ 0
  named : Named header shards
  leader : header.dsCoinBase ≠ []

theorem Payable.perm {shards' : List (UInt32 × Nat)} (h : Payable header gasFeeTotal shards)
    (hperm : shards'.Perm shards) : Payable header gasFeeTotal shards' where
  fees := hperm.length_eq ▸ h.fees
  named := fun e he => h.named e (hperm.mem_iff.mp he)
  leader := h.leader

section
variable (M : Machine) (header : TxBlockHeader) (gasFeeTotal : Nat) (shards : List (UInt32 × Nat))

/-- What the shards get, in increasing order of their fees. -/
def shardRewards : List ((UInt32 × Nat) × Int) :=
  Shares.deal (shareOf (shardsTotal header gasFeeTotal shards.length) gasFeeTotal) (M.sortShards shards)
    (shardsTotal header gasFeeTotal shards.length)

/-- The credits of `assignRwards` in their order. -/
def rewardCredits : List (Address × Int) :=
  (shardRewards M header gasFeeTotal shards).map (fun e => (leadOf header e.1, e.2)) ++
    header.dsCoinBase.tail.map (fun c => (bytesToAddress c, backupReward header gasFeeTotal shards.length)) ++
    [(bytesToAddress (header.dsCoinBase.getD 0 []), leaderReward header gasFeeTotal shards.length)]

end

section
variable {gasFeeTotal : Nat} {shards : List (UInt32 × Nat)}

/-- What the DS committee gets does not depend on the case distinction in the source. -/
theorem committeeTotal_eq : (if shards = [] then (gasFeeTotal : Int) + yieldReward header.blockNumber
    else (gasFeeTotal : Int) + yieldReward header.blockNumber - (shards.length : Int) *
      (((gasFeeTotal : Int) + yieldReward header.blockNumber) * 10 / (11 + 10 * (shards.length : Int)))) =
    committeeTotal header gasFeeTotal shards.length := by
  split
  · next hnil => simp [hnil, committeeTotal, shardsTotal]
  · rfl

theorem assignRwards_eq (h : Payable header gasFeeTotal shards) (s : StateDB) :
    assignRwards M header gasFeeTotal shards s =
      (.ok ⟨⟩, creditAll M.toDatabase s (rewardCredits M header gasFeeTotal shards)) := by
  have hsorted := h.perm (M.sortShards_perm shards)
  have hshards : creditShards M header (shardsTotal header gasFeeTotal shards.length) gasFeeTotal
      (M.sortShards shards) 0 s = _ :=
    creditShards_eq (fun hlen => Int.natCast_ne_zero.mpr (hsorted.fees hlen)) hsorted.named 0 s
  refine (bind_run hshards).trans ?_
  rw [committeeTotal_eq]
  refine (bind_run (creditBackups_eq (backupReward header gasFeeTotal shards.length) _ _)).trans ?_
  refine (bind_lift (index_ok (length_pos_iff.mpr h.leader))).trans ?_
  unfold rewardCredits creditAll
  rw [foldl_append, foldl_append]
  rfl

end

theorem assignRwards_run (h : Payable header gasFeeTotal shards)
    (s : StateDB) : ∃ t, assignRwards M header gasFeeTotal shards s = (.ok ⟨⟩, t) ∧
      t.getBalance = s.getBalance + Shares.pay (leadOf header)
        (shareOf (shardsTotal header gasFeeTotal shards.length) gasFeeTotal) (M.sortShards shards)
        (shardsTotal header gasFeeTotal shards.length) + committeePaid header gasFeeTotal shards.length := by
  refine ⟨_, assignRwards_eq h s, ?_⟩
  rw [getBalance_creditAll, Shares.pay_eq_sum]
  simp only [rewardCredits, map_append, sum_append, map_map, map_cons, map_nil, sum_cons, sum_nil, add_zero, add_assoc]
  rfl

theorem assignRwards_payable
    (h : assignRwards M header gasFeeTotal shards s = (.ok u, t)) : Payable header gasFeeTotal shards := by
  obtain ⟨_, s₁, hshards, h⟩ := bind_ok.mp h
  obtain ⟨_, s₂, -, h⟩ := bind_ok.mp h
  obtain ⟨leader, hleader, -⟩ := lift_bind_ok.mp h
  obtain ⟨hfees, hnamed⟩ := creditShards_ok hshards
  have hperm := M.sortShards_perm shards
  refine ⟨fun hlen => ?_, fun e he => hnamed e (hperm.mem_iff.mpr he), fun hnil => ?_⟩
  · exact Int.natCast_ne_zero.mp (hfees (hperm.length_eq.symm ▸ hlen))
  · rw [hnil] at hleader
    exact nomatch hleader

/-! ### Orders -/

/-- Two nodes that share out the same fees, each iterating over them and sorting them in its own way, come to
the same balances. -/
def OrderIndependent (M : Machine) (header : TxBlockHeader) (gasFeeTotal : Nat) (fees : List (UInt32 × Nat)) : Prop :=
  ∀ (o₁ o₂ : ShardOrder) (fees₁ fees₂ : List (UInt32 × Nat)), fees₁.Perm fees → fees₂.Perm fees → ∀ s t₁,
    assignRwards (M.ordered o₁) header gasFeeTotal fees₁ s = (.ok ⟨⟩, t₁) →
    ∃ t₂, assignRwards (M.ordered o₂) header gasFeeTotal fees₂ s = (.ok ⟨⟩, t₂) ∧ ∀ a, t₁.getBalance a = t₂.getBalance a

/-- What the percentages leave over for the last shard. -/
def leftOver (header : TxBlockHeader) (gasFeeTotal : Nat) (fees : List (UInt32 × Nat)) : Int :=
  Shares.remainder (shareOf (shardsTotal header gasFeeTotal fees.length) gasFeeTotal) fees
    (shardsTotal header gasFeeTotal fees.length)

abbrev TopShard (fees : List (UInt32 × Nat)) (shard : UInt32 × Nat) : Prop := Shares.Top Prod.snd fees shard

theorem ShardOrder.ordered (o : ShardOrder) {fees' : List (UInt32 × Nat)} (h : fees'.Perm fees) :
    Shares.Ordered Prod.snd fees (o.sort fees') := ⟨(o.perm fees').trans h, o.sorted fees'⟩

theorem exists_shardOrder (M : Machine) (h : Shares.Ordered Prod.snd fees l) : ∃ o : ShardOrder, o.sort fees = l := by
  refine ⟨⟨fun m => if m = fees then l else M.sortShards m, fun m => ?_, fun m => ?_⟩, if_pos rfl⟩
  · split
    · next hm => exact hm ▸ h.perm
    · exact M.sortShards_perm m
  · split
    · exact h.sorted
    · exact M.sortShards_sorted m

theorem orderIndependent_of (h : leftOver header gasFeeTotal fees = 0 ∨
    ∀ x y, TopShard fees x → TopShard fees y → leadOf header x = leadOf header y) :
    OrderIndependent M header gasFeeTotal fees := by
  intro o₁ o₂ fees₁ fees₂ h₁ h₂ s t₁ hrun
  have hpayable := assignRwards_payable hrun
  obtain ⟨t, ht, hbalance₁⟩ := assignRwards_run hpayable s
  obtain ⟨t₂, ht₂, hbalance₂⟩ := assignRwards_run (hpayable.perm (h₂.trans h₁.symm)) s
  obtain rfl : t₁ = t := congrArg Prod.snd (hrun.symm.trans ht)
  refine ⟨t₂, ht₂, fun a => congrFun ?_ a⟩
  rw [hbalance₁, hbalance₂, h₁.length_eq, h₂.length_eq]
  congr 2
  exact Shares.pay_ordered h (o₁.ordered h₁) (o₂.ordered h₂)

theorem not_orderIndependent (hpayable : Payable header gasFeeTotal fees)
    (hleft : leftOver header gasFeeTotal fees ≠ 0) {x y : UInt32 × Nat} (hx : TopShard fees x) (hy : TopShard fees y)
    (hlead : leadOf header x ≠ leadOf header y) : ¬OrderIndependent M header gasFeeTotal fees := by
  intro hsame
  obtain ⟨l₁, l₂, hl₁, hl₂, hpay⟩ := Shares.exists_pay_ne hleft hx hy hlead
  obtain ⟨o₁, ho₁⟩ := exists_shardOrder M hl₁
  obtain ⟨o₂, ho₂⟩ := exists_shardOrder M hl₂
  obtain ⟨t₁, ht₁, hbalance₁⟩ := assignRwards_run hpayable (StateDB.new fun _ => none)
  obtain ⟨t, ht, hbalance₂⟩ := assignRwards_run hpayable (StateDB.new fun _ => none)
  obtain ⟨t₂, ht₂, hequal⟩ := hsame o₁ o₂ fees fees (.refl _) (.refl _) _ t₁ ht₁
  obtain rfl : t₂ = t := congrArg Prod.snd (ht₂.symm.trans ht)
  have hlast := hequal (leadOf header x)
  rw [hbalance₁, hbalance₂] at hlast
  have hsort₁ : (M.ordered o₁).sortShards fees = l₁ := ho₁
  have hsort₂ : (M.ordered o₂).sortShards fees = l₂ := ho₂
  rw [hsort₁, hsort₂] at hlast
  simp only [Pi.add_apply] at hlast
  exact hpay (by omega)

/-- **The rewards and the order.** The balances do not depend on the order exactly when the percentages leave
nothing over or all shards with the highest fee have one account; or when `assignRwards` does not come to its
end. -/
theorem rewards_orderIndependent_iff (M : Machine) (header : TxBlockHeader) (gasFeeTotal : Nat)
    (fees : List (UInt32 × Nat)) : OrderIndependent M header gasFeeTotal fees ↔
      (Payable header gasFeeTotal fees → leftOver header gasFeeTotal fees = 0 ∨
        ∀ x y, TopShard fees x → TopShard fees y → leadOf header x = leadOf header y) := by
  constructor
  · intro hsame hpayable
    by_contra hnot
    rw [not_or] at hnot
    obtain ⟨hleft, htops⟩ := hnot
    push Not at htops
    obtain ⟨x, y, hx, hy, hlead⟩ := htops
    exact not_orderIndependent hpayable hleft hx hy hlead hsame
  · intro h o₁ o₂ fees₁ fees₂ h₁ h₂ s t₁ hrun
    exact orderIndependent_of (h ((assignRwards_payable hrun).perm h₁.symm)) o₁ o₂ fees₁ fees₂ h₁ h₂ s t₁ hrun

def threeLeads : TxBlockHeader := {(sampleBlock 0 []).header with shardingLeadCoinBase := [[1], [2], [3]]}

/-- Three shards with equal fees: a third is 33 per cent, and one per cent is left for whichever comes last. -/
theorem equal_fees_order_matters : ¬OrderIndependent Machine.sample threeLeads 3 [(0, 1), (1, 1), (2, 1)] := by
  refine not_orderIndependent ⟨fun _ => by decide, ?_, by decide⟩ (by decide +kernel)
    (x := (0, 1)) (y := (1, 1)) ⟨by decide, by decide⟩ ⟨by decide, by decide⟩ (by decide +kernel)
  unfold Named
  decide

end Okchain.Core
