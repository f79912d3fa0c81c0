import Okchain.Chain.Base
import Okchain.Lib.Linked

/-! When a chain stays a chain.

`Linear` says what it is for: the accepted blocks, newest first, are linked by number and parent hash,
the head is the newest of them, and the canonical hashes are theirs. It is kept by every block whose
parent is stored and whose number is above the head, because only accepted blocks are ever stored and
there is one of them for each number.
-/
namespace Okchain.Chain
open Lib Proc Protos List

variable {B X Hot : Type} (I : IBlock B)

/-- `b` is the successor of `p`. -/
def Links (b p : B) : Prop :=
  (I.numberU64 b).toNat = (I.numberU64 p).toNat + 1 ∧ I.hash p = .ok (I.parentHash b)

/-- The accepted blocks form one chain from the genesis block `g` to the head. -/
structure Linear (g : B) (accepted : List B) (c : BlockChain B X) : Prop where
  head : accepted.head? = some c.currentBlock
  first : accepted.getLast? = some g
  linked : accepted.IsChain (Links I)
  canonical : ∀ b ∈ accepted, I.hash b = .ok (c.canonical (I.numberU64 b))

def StoredOnly (written : List B) (c : BlockChain B X) : Prop :=
  ∀ n h, (c.blocks n h).isSome → ∃ b ∈ written, I.numberU64 b = n ∧ I.hash b = .ok h

variable {I} {J : Impl B X Hot} {g : B} {accepted : List B} {c : BlockChain B X}
variable {b : B} {hot : Hot} {c' : BlockChain B X} {u : PUnit}

section
variable (h : Linear I g accepted c)
include h

theorem Linear.numbered : accepted.IsChain fun a b => (I.numberU64 a).toNat = (I.numberU64 b).toNat + 1 :=
  h.linked.imp fun _ _ hl => hl.1

theorem Linear.eq_cons : ∃ rest, accepted = c.currentBlock :: rest := by
  have := h.head
  cases accepted with
  | nil => exact nomatch this
  | cons b rest => exact ⟨rest, by rw [Option.some.inj this]⟩

theorem Linear.eq_currentBlock (hb : b ∈ accepted)
    (hn : I.numberU64 c.currentBlock ≤ I.numberU64 b) : b = c.currentBlock := by
  obtain ⟨rest, hacc⟩ := h.eq_cons
  have hnum := h.numbered
  rw [hacc] at hb hnum
  exact Linked.eq_head hnum hb (UInt64.le_iff_toNat_le.mp hn)

/-- **For every number up to the head the canonical hash names the accepted block with that number**,
and there is only one. -/
theorem Linear.exactly_one (hg : I.numberU64 g = 0) {n : UInt64} (hn : n ≤ I.numberU64 c.currentBlock) :
    ∃ b ∈ accepted, I.numberU64 b = n ∧ I.hash b = .ok (c.canonical n) ∧
      ∀ b' ∈ accepted, I.numberU64 b' = n → b' = b := by
  obtain ⟨rest, hacc⟩ := h.eq_cons
  have hnum := h.numbered
  have hlast := h.first
  rw [hacc] at hnum hlast
  obtain ⟨b, hb, hbn⟩ := Linked.exists_num hnum hlast (by rw [hg]; rfl) (UInt64.le_iff_toNat_le.mp hn)
  have hbn : I.numberU64 b = n := UInt64.toNat.inj hbn
  rw [← hacc] at hb
  refine ⟨b, hb, hbn, hbn ▸ h.canonical b hb, fun b' hb' hbn' => ?_⟩
  exact Linked.eq_of_num h.numbered hb' hb (by rw [hbn, hbn'])

theorem Linear.links (hstored : StoredOnly I accepted c)
    (hparent : (c.getBlock (I.parentHash b) (I.numberU64 b - 1)).isSome)
    (habove : I.numberU64 c.currentBlock < I.numberU64 b) : Links I b c.currentBlock := by
  obtain ⟨p, hp, hpn, hph⟩ := hstored _ _ hparent
  have hlt := UInt64.lt_iff_toNat_lt.mp habove
  have hpred : (I.numberU64 b - 1).toNat = (I.numberU64 b).toNat - 1 := by
    have hone : (1 : UInt64) ≤ I.numberU64 b := by
      exact Nat.one_le_of_lt hlt
    exact UInt64.toNat_sub_of_le _ _ hone
  have hle : I.numberU64 c.currentBlock ≤ I.numberU64 p := by
    rw [hpn, UInt64.le_iff_toNat_le]
    omega
  have hpc := h.eq_currentBlock hp hle
  subst hpc
  refine ⟨?_, hph⟩
  rw [hpn]
  omega

end

/-! ### Writing a block -/

theorem batchInsert_ok (h : batchInsert J b hot c = (.ok u, c')) : ∃ hash extra, J.hash b = .ok hash ∧
      c' = (c.write (J.numberU64 b) hash (J.readBack b) extra).removeFuture hash := by
  obtain ⟨hash, c₁, hlift, h₁⟩ := bind_ok.mp h
  obtain ⟨hhash, rfl⟩ := lift_ok.mp hlift
  obtain ⟨_, c₂, hread, h₂⟩ := bind_ok.mp h₁
  obtain ⟨-, rfl⟩ := read_ok.mp hread
  obtain ⟨extra, c₃, hcommit, h₃⟩ := bind_ok.mp h₂
  obtain ⟨-, rfl⟩ := lift_ok.mp hcommit
  exact ⟨hash, extra, hhash, update_ok.mp h₃⟩

theorem batchInsert_error {e : Err} (h : batchInsert J b hot c = (.error e, c')) : c' = c := by
  rcases bind_error h with hhash | ⟨hash, c₁, hhash, h₁⟩
  · exact (Prod.mk.inj hhash).2.symm
  obtain ⟨-, rfl⟩ := lift_ok.mp hhash
  rcases bind_error h₁ with hread | ⟨extra, c₂, hread, h₂⟩
  · exact nomatch congrArg Prod.fst hread
  obtain ⟨-, rfl⟩ := read_ok.mp hread
  rcases bind_error h₂ with hcommit | ⟨extra', c₃, hcommit, h₃⟩
  · exact (Prod.mk.inj hcommit).2.symm
  · exact nomatch congrArg Prod.fst h₃

/-- What is known between `batchInsert` and `currentBlock.Store`. -/
structure Written (I : IBlock B) (g : B) (accepted : List B) (b : B) (c : BlockChain B X) : Prop where
  linear : Linear I g accepted c
  links : Links I b c.currentBlock
  canonical : I.hash b = .ok (c.canonical (I.numberU64 b))
  stored : StoredOnly I (b :: accepted) c

theorem Linear.batchInsert (h : Linear J.toIBlock g accepted c) (hstored : StoredOnly J.toIBlock accepted c)
    (hlinks : Links J.toIBlock b c.currentBlock) (hrun : batchInsert J b hot c = (.ok u, c')) :
    Written J.toIBlock g accepted b c' := by
  obtain ⟨hash, extra, hhash, rfl⟩ := batchInsert_ok hrun
  -- the canonical hashes of the accepted blocks are further down
  have hne : ∀ p ∈ accepted, J.numberU64 p ≠ J.numberU64 b := by
    intro p hp heq
    have hpc := h.eq_currentBlock hp (by
      rw [heq, UInt64.le_iff_toNat_le, hlinks.1]
      exact Nat.le_succ _)
    have := hlinks.1
    rw [← heq, hpc] at this
    omega
  refine ⟨⟨h.head, h.first, h.linked, fun p hp => ?_⟩, hlinks, ?_, fun n k hsome => ?_⟩
  · show J.hash p = .ok (Function.update c.canonical (J.numberU64 b) hash (J.numberU64 p))
    rw [Function.update_of_ne (hne p hp)]
    exact h.canonical p hp
  · show J.hash b = .ok (Function.update c.canonical (J.numberU64 b) hash (J.numberU64 b))
    rw [Function.update_self]
    exact hhash
  · by_cases hnk : n = J.numberU64 b ∧ k = hash
    · exact ⟨b, mem_cons_self, hnk.1.symm, hnk.2 ▸ hhash⟩
    · have hold : (c.blocks n k).isSome := by
        have hblocks : ((c.write (J.numberU64 b) hash (J.readBack b) extra).removeFuture hash).blocks n k =
          c.blocks n k := if_neg hnk
        rwa [hblocks] at hsome
      obtain ⟨p, hp, hpn⟩ := hstored n k hold
      exact ⟨p, mem_cons_of_mem _ hp, hpn⟩

theorem Written.store (h : Written I g accepted b c) : Linear I g (b :: accepted) {c with currentBlock := b} ∧
      StoredOnly I (b :: accepted) {c with currentBlock := b} := by
  obtain ⟨rest, hacc⟩ := h.linear.eq_cons
  refine ⟨⟨rfl, ?_, ?_, fun p hp => ?_⟩, h.stored⟩
  · rw [hacc, getLast?_cons_cons, ← hacc]
    exact h.linear.first
  · rw [hacc, isChain_cons_cons, ← hacc]
    exact ⟨h.links, h.linear.linked⟩
  · rcases mem_cons.mp hp with rfl | hp
    · exact h.canonical
    · exact h.linear.canonical p hp

theorem validate_frame : (validate J b c).2.blocks = c.blocks ∧ (validate J b c).2.canonical = c.canonical ∧
      (validate J b c).2.currentBlock = c.currentBlock := by
  unfold validate
  cases J.validateBlock c b with
  | ok hot => exact ⟨rfl, rfl, rfl⟩
  | error e =>
    dsimp only
    split
    · cases J.hash b <;> exact ⟨rfl, rfl, rfl⟩
    · exact ⟨rfl, rfl, rfl⟩

theorem validate_ok (h : validate J b c = (.ok hot, c')) : J.validateBlock c b = .ok hot ∧ c' = c := by
  unfold validate at h
  cases hv : J.validateBlock c b with
  | ok hot' =>
    rw [hv] at h
    obtain ⟨hhot, hc⟩ := Prod.mk.inj h
    exact ⟨hhot, hc.symm⟩
  | error e =>
    rw [hv] at h
    dsimp only at h
    split at h
    · cases hh : J.hash b with
      | ok hash => rw [hh] at h; exact nomatch h
      | error p => rw [hh] at h; exact nomatch h
    · exact nomatch h

theorem Linear.of_frame (h : Linear I g accepted c) (hcanonical : c'.canonical = c.canonical)
    (hcurrent : c'.currentBlock = c.currentBlock) :
    Linear I g accepted c' :=
  ⟨hcurrent ▸ h.head, h.first, h.linked, hcanonical ▸ h.canonical⟩

theorem StoredOnly.of_frame (h : StoredOnly I accepted c) (hblocks : c'.blocks = c.blocks) :
    StoredOnly I accepted c' := by
  intro n k hsome
  rw [hblocks] at hsome
  exact h n k hsome

/-- **A whole insertion.** If an accepted block succeeds the head, the chain stays linear with the block
as its head. -/
theorem Linear.insertBlock_ok (h : Linear J.toIBlock g accepted c) (hstored : StoredOnly J.toIBlock accepted c)
    (hlinks : ∀ hot, J.validateBlock c b = .ok hot → Links J.toIBlock b c.currentBlock)
    (hrun : insertBlock J b c = (.ok u, c')) :
    Linear J.toIBlock g (b :: accepted) c' ∧ StoredOnly J.toIBlock (b :: accepted) c' ∧
      c'.currentBlock = b ∧ Links J.toIBlock b c.currentBlock := by
  obtain ⟨hot, c₁, hvalidate, hrest⟩ := bind_ok.mp hrun
  obtain ⟨hok, rfl⟩ := validate_ok hvalidate
  obtain ⟨_, c₂, hbatch, hstore⟩ := bind_ok.mp hrest
  obtain ⟨hlinear, hstored'⟩ := (h.batchInsert hstored (hlinks hot hok) hbatch).store
  rw [update_ok.mp hstore]
  exact ⟨hlinear, hstored', rfl, hlinks hot hok⟩

theorem insertBlock_error {e : Err} (hrun : insertBlock J b c = (.error e, c')) :
    c'.blocks = c.blocks ∧ c'.canonical = c.canonical ∧ c'.currentBlock = c.currentBlock := by
  have hframe := validate_frame (J := J) (c := c) (b := b)
  rcases bind_error hrun with hvalidate | ⟨hot, c₁, hvalidate, hrest⟩
  · rwa [hvalidate] at hframe
  obtain ⟨-, rfl⟩ := validate_ok hvalidate
  rcases bind_error hrest with hbatch | ⟨_, c₂, _, hstore⟩
  · rw [batchInsert_error hbatch]
    exact ⟨rfl, rfl, rfl⟩
  · exact nomatch congrArg Prod.fst hstore

theorem linear_genesis {hash : Hash} {extra : X} (hg : I.numberU64 g = 0) (hhash : I.hash g = .ok hash) :
    Linear I g [g] (.genesis g hash extra) ∧ StoredOnly I [g] (.genesis g hash extra) := by
  refine ⟨⟨rfl, rfl, isChain_singleton g, fun b hb => ?_⟩, fun n h hsome => ?_⟩
  · rw [mem_singleton.mp hb, hg]
    exact hhash
  · by_cases hnh : n = 0 ∧ h = hash
    · exact ⟨g, mem_singleton_self g, hg.trans hnh.1.symm, hnh.2 ▸ hhash⟩
    · have hnone : (BlockChain.genesis g hash extra).blocks n h = none := if_neg hnh
      rw [hnone] at hsome
      exact nomatch hsome

end Okchain.Chain
