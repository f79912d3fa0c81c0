import Okchain.Chain.Recovery

/-! The last common ancestor of two headers, after `FindCommonAncestor` in
`core/blockchain/txblockchain/accessors_chain.go`.

The higher header is followed down to the number of the other, then both in step until their hashes agree. A loop
gives up where a parent is not stored. A round is one execution of a loop's body.
-/
namespace Okchain.Chain
open Protos Chain.Storage

/-- The parent of a header, as far as it is stored. -/
def back (db : KvStore) (h : TxBlockHeader) : Option TxBlockHeader :=
  readHeader db (bytesToHash h.previousBlockHash) (h.blockNumber - 1)

/-- The first two loops: the header at the number, if it is found, and the rounds that are left. `none` if the rounds
do not suffice. -/
def catchUp (db : KvStore) (number : UInt64) : Nat → TxBlockHeader → Option (Nat × Option TxBlockHeader)
  | 0, h => if number < h.blockNumber then none else some (0, some h)
  | rounds + 1, h =>
    if number < h.blockNumber then
      match back db h with
      | none => some (rounds, none)
      | some parent => catchUp db number rounds parent
    else some (rounds + 1, some h)

/-- The third loop. -/
def lockStep (E : Env) (db : KvStore) : Nat → TxBlockHeader → TxBlockHeader → Except Err (Option (Option TxBlockHeader))
  | 0, a, b => do return if (← a.hash E) = (← b.hash E) then some (some a) else none
  | rounds + 1, a, b => do
    if (← a.hash E) = (← b.hash E) then return some (some a)
    else match back db a, back db b with
      | some a, some b => lockStep E db rounds a b
      | _, _ => return some none

def findCommonAncestor (E : Env) (db : KvStore) (rounds : Nat) (a b : TxBlockHeader) :
    Except Err (Option (Option TxBlockHeader)) :=
  match catchUp db b.blockNumber rounds a with
  | none => .ok none
  | some (_, none) => .ok (some none)
  | some (rounds, some a) =>
    match catchUp db a.blockNumber rounds b with
    | none => .ok none
    | some (_, none) => .ok (some none)
    | some (rounds, some b) => lockStep E db rounds a b

/-- A header with its ancestors down to genesis, all stored but the header itself, and with hashes. -/
structure Lineage (E : Env) (db : KvStore) where
  header : Nat → TxBlockHeader
  hash : Nat → Hash
  height : Nat
  number : ∀ i ≤ height, (header i).blockNumber.toNat = i
  hashed : ∀ i ≤ height, (header i).hash E = .ok (hash i)
  stored : ∀ i < height, readHeader db (bytesToHash (header (i + 1)).previousBlockHash) (header i).blockNumber =
    some (header i)

variable {E : Env} {db : KvStore} {c d : Lineage E db} {i k : Nat}

def Lineage.top (c : Lineage E db) : TxBlockHeader := c.header c.height

theorem Lineage.back (hi : i < c.height) : back db (c.header (i + 1)) = some (c.header i) := by
  have hpred : (c.header (i + 1)).blockNumber - 1 = (c.header i).blockNumber := by
    have hi' := c.number i hi.le
    have hsucc := c.number (i + 1) hi
    apply UInt64.toNat_inj.mp
    rw [UInt64.toNat_sub_of_le _ _ (UInt64.le_iff_toNat_le.mpr (by simp [hsucc])), hsucc, hi']
    simp
  rw [Chain.back, hpred]
  exact c.stored i hi

theorem catchUp_lineage {number : UInt64} {m : Nat} (hm : number.toNat = m) (hi : i ≤ c.height) (hk : i ≤ m + k) :
    catchUp db number k (c.header i) = some (k - (i - m), some (c.header (min i m))) := by
  have hnumber := c.number i hi
  induction i generalizing k with
  | zero =>
    have hnot : ¬number < (c.header 0).blockNumber := by simp [UInt64.lt_iff_toNat_lt, hnumber]
    cases k <;> simp [catchUp, hnot]
  | succ i ih =>
    by_cases hlt : number < (c.header (i + 1)).blockNumber
    · have hlevel := UInt64.lt_iff_toNat_lt.mp hlt
      cases k with
      | zero => omega
      | succ k =>
        rw [catchUp, if_pos hlt, c.back hi]
        have hmin : min (i + 1) m = min i m := by omega
        have hleft : k + 1 - (i + 1 - m) = k - (i - m) := by omega
        rw [hmin, hleft]
        exact ih (by omega) (by omega) (c.number i (by omega))
    · have hlevel := UInt64.le_iff_toNat_le.mp (UInt64.not_lt.mp hlt)
      have hzero : i + 1 - m = 0 := by omega
      have hmin : min (i + 1) m = i + 1 := by omega
      rw [hzero, hmin]
      cases k <;> simp [catchUp, hlt]

theorem lockStep_lineage (hgenesis : c.header 0 = d.header 0) (hc : i ≤ c.height) (hd : i ≤ d.height) (hk : i ≤ k) :
    ∃ n ≤ i, lockStep E db k (c.header i) (d.header i) = .ok (some (some (c.header n))) ∧ c.hash n = d.hash n ∧
      ∀ j ≤ i, c.hash j = d.hash j → j ≤ n := by
  induction i generalizing k with
  | zero =>
    have hsame : c.hash 0 = d.hash 0 := Except.ok.inj ((c.hashed 0 hc).symm.trans (hgenesis ▸ d.hashed 0 hd))
    refine ⟨0, le_rfl, ?_, hsame, fun j hj _ => hj⟩
    cases k <;> simp [lockStep, c.hashed 0 hc, d.hashed 0 hd, hsame, bind, Except.bind, pure, Except.pure]
  | succ i ih =>
    by_cases hsame : c.hash (i + 1) = d.hash (i + 1)
    · refine ⟨i + 1, le_rfl, ?_, hsame, fun j hj _ => hj⟩
      cases k <;> simp [lockStep, c.hashed _ hc, d.hashed _ hd, hsame, bind, Except.bind, pure, Except.pure]
    · cases k with
      | zero => omega
      | succ k =>
        obtain ⟨n, hn, hrun, hagree, hlast⟩ := ih (Nat.le_of_succ_le hc) (Nat.le_of_succ_le hd) (Nat.le_of_succ_le_succ hk)
        refine ⟨n, by omega, ?_, hagree, fun j hj hj' => ?_⟩
        · simp [lockStep, c.hashed _ hc, d.hashed _ hd, hsame, c.back hc, d.back hd, hrun, bind, Except.bind]
        · rcases Nat.lt_or_eq_of_le hj with hj | rfl
          · exact hlast j (Nat.le_of_lt_succ hj) hj'
          · exact absurd hj' hsame

/-- **The last common ancestor.** For two headers with a genesis in common, whose hashes tell numbers apart, it is found
in no more rounds than the larger height and one. It is the header itself if that is an ancestor of the other. -/
theorem findCommonAncestor_finds (c d : Lineage E db) (hgenesis : c.header 0 = d.header 0)
    (hcollision : ∀ i ≤ c.height, ∀ j ≤ d.height, c.hash i = d.hash j → i = j) :
    ∃ n, n ≤ c.height ∧ n ≤ d.height ∧
      findCommonAncestor E db (max c.height d.height + 1) c.top d.top = .ok (some (some (c.header n))) ∧
      c.hash n = d.hash n ∧ (∀ i ≤ c.height, ∀ j ≤ d.height, c.hash i = d.hash j → i ≤ n) ∧
      (∀ j ≤ d.height, c.hash c.height = d.hash j → n = c.height) ∧
      (∀ i ≤ c.height, c.hash i = d.hash d.height → n = d.height) := by
  have hdtop := d.number d.height le_rfl
  have hfirst : catchUp db d.top.blockNumber (max c.height d.height + 1) c.top = _ :=
    catchUp_lineage hdtop le_rfl (by omega)
  have hsecond : catchUp db (c.header (min c.height d.height)).blockNumber _ d.top = _ :=
    catchUp_lineage (k := max c.height d.height + 1 - (c.height - d.height)) (c.number _ (by omega)) le_rfl (by omega)
  rw [Nat.min_eq_right (Nat.min_le_right c.height d.height)] at hsecond
  obtain ⟨n, hn, hrun, hagree, hlast⟩ := lockStep_lineage (k := max c.height d.height + 1 - (c.height - d.height) -
    (d.height - min c.height d.height)) hgenesis (Nat.min_le_left c.height d.height) (Nat.min_le_right _ _) (by omega)
  have hgreatest : ∀ i ≤ c.height, ∀ j ≤ d.height, c.hash i = d.hash j → i ≤ n := by
    intro i hi j hj h
    obtain rfl := hcollision i hi j hj h
    exact hlast i (by omega) h
  refine ⟨n, by omega, by omega, ?_, hagree, hgreatest, fun j hj h => ?_, fun i hi h => ?_⟩
  · simp only [findCommonAncestor, hfirst, hsecond]
    exact hrun
  · have := hgreatest _ le_rfl j hj h
    omega
  · have := hgreatest i hi _ le_rfl h
    have := hcollision i hi _ le_rfl h
    omega

/-- Two branches on the genesis block of `lostState`: its first block with one more on it, and another first block. -/
def branch : Bool → List TxBlockHeader
  | true => [txGenesis.header, txFirst.header, (txSample (Core.sampleTrie 1) txFirst dsGenesis).header]
  | false => [txGenesis.header, {txFirst.header with timestamp := some ⟨2, 1⟩}]

def branchLineage (left : Bool) : Lineage Env.sample Recovery.lostState.kv where
  header i := (branch left).getD i txGenesis.header
  hash i := (((branch left).getD i txGenesis.header).hash Env.sample).toOption.getD default
  height := (branch left).length - 1
  number := by cases left <;> decide +kernel
  hashed := by cases left <;> decide +kernel
  stored := by cases left <;> decide +kernel

/-- The longer branch is followed down to the height of the other, and both from there to the genesis block. -/
theorem findCommonAncestor_branches : ∃ n, n ≤ 2 ∧ n ≤ 1 ∧
    findCommonAncestor Env.sample Recovery.lostState.kv 3 (branchLineage true).top (branchLineage false).top =
      .ok (some (some ((branchLineage true).header n))) ∧ (branchLineage true).hash n = (branchLineage false).hash n := by
  obtain ⟨n, hc, hd, hrun, hsame, -⟩ := findCommonAncestor_finds (branchLineage true) (branchLineage false) rfl
    (by decide +kernel)
  exact ⟨n, hc, hd, hrun, hsame⟩

end Okchain.Chain
