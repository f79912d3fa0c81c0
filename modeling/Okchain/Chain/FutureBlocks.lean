import Okchain.Chain.DsLinear

/-! One pass over the future blocks, after `ProcFutureBlocks`.

The cached blocks are retried in the order of their numbers. A block that is refused in its turn stays refused: if no
later block of the pass is accepted the chain has not changed, and if one is, the head has a number at least as high.
-/
namespace Okchain.Chain
open Lib Proc Protos List

section

variable {B X Hot : Type} {I : Impl B X Hot} {b : B} {c c' : BlockChain B X} {hash : Hash}

/-- The blocks and the head are all that validation reads of a chain. -/
def ReadsBlocks (I : Impl B X Hot) : Prop :=
  ∀ (c c' : BlockChain B X) b, c'.blocks = c.blocks → c'.currentBlock = c.currentBlock →
    I.validateBlock c' b = I.validateBlock c b

/-- The future blocks are cached under their own hashes. -/
def OwnKeys (I : IBlock B) (c : BlockChain B X) : Prop := ∀ e ∈ c.futureBlocks, I.hash e.2 = .ok e.1

def Refuses (I : Impl B X Hot) (c : BlockChain B X) (b : B) : Prop := ∀ hot, I.validateBlock c b ≠ .ok hot

theorem insertBlock_inserts {u : PUnit} (hrun : insertBlock I b c = (.ok u, c')) :
    (∃ hot, I.validateBlock c b = .ok hot) ∧ (∃ hash, I.hash b = .ok hash) ∧ c'.currentBlock = b := by
  obtain ⟨hot, c₁, hvalidate, hrest⟩ := bind_ok.mp hrun
  obtain ⟨_, c₂, hbatch, hstore⟩ := bind_ok.mp hrest
  obtain ⟨hash, _, hhash, -⟩ := batchInsert_ok hbatch
  rw [update_ok.mp hstore]
  exact ⟨⟨hot, (validate_ok hvalidate).1⟩, ⟨hash, hhash⟩, rfl⟩

theorem Refuses.not_inserted (h : Refuses I c b) : ∃ e, (insertBlock I b c).1 = .error e := by
  cases hrun : insertBlock I b c with
  | mk result c' =>
    cases result with
    | error e => exact ⟨e, rfl⟩
    | ok u =>
      obtain ⟨⟨hot, hok⟩, -⟩ := insertBlock_inserts hrun
      exact absurd hok (h hot)

/-! ### One block of the pass -/

theorem mem_validate_futureBlocks (hhash : I.hash b = .ok hash) {e : Hash × B}
    (he : e ∈ (validate I b c).2.futureBlocks) : e = (hash, b) ∨ e ∈ c.futureBlocks := by
  unfold validate at he
  cases hv : I.validateBlock c b with
  | ok hot =>
    rw [hv] at he
    exact .inr he
  | error err =>
    rw [hv, hhash] at he
    dsimp only at he
    split at he
    · rcases mem_cons.mp (mem_of_mem_take he) with rfl | he
      · exact .inl rfl
      · exact .inr (mem_of_mem_filter he)
    · exact .inr he

/-- What an insertion can do to the chain: the block becomes the head and is not cached any more, or it is refused
and only the cache may change. -/
theorem insertBlock_cases (hhash : I.hash b = .ok hash) (hcommit : ∀ hot x, ∃ x', I.commit hot x = .ok x') :
    ((insertBlock I b c).1 = .ok ⟨⟩ ∧ (insertBlock I b c).2.currentBlock = b ∧
      ∀ e ∈ (insertBlock I b c).2.futureBlocks, e ∈ c.futureBlocks ∧ e.1 ≠ hash) ∨
    (Refuses I c b ∧ (insertBlock I b c).2.blocks = c.blocks ∧
      (insertBlock I b c).2.currentBlock = c.currentBlock ∧
      ∀ e ∈ (insertBlock I b c).2.futureBlocks, e = (hash, b) ∨ e ∈ c.futureBlocks) := by
  cases hrun : validate I b c with
  | mk result c₁ =>
    cases result with
    | ok hot =>
      obtain ⟨hok, rfl⟩ := validate_ok hrun
      obtain ⟨extra, hextra⟩ := hcommit hot c₁.extra
      have hwrite : batchInsert I b hot c₁ =
          (.ok ⟨⟩, (c₁.write (I.numberU64 b) hash (I.readBack b) extra).removeFuture hash) := by
        unfold batchInsert
        rw [bind_lift hhash, bind_read, bind_lift hextra]
        rfl
      have hstate : insertBlock I b c₁ = (.ok ⟨⟩,
          {(c₁.write (I.numberU64 b) hash (I.readBack b) extra).removeFuture hash with currentBlock := b}) := by
        unfold insertBlock
        rw [bind_run hrun, bind_run hwrite]
        rfl
      rw [hstate]
      refine .inl ⟨rfl, rfl, fun e he => ?_⟩
      obtain ⟨hmem, hne⟩ := mem_filter.mp he
      exact ⟨hmem, of_decide_eq_true hne⟩
    | error err =>
      have hstate : (insertBlock I b c).2 = (validate I b c).2 := by
        unfold insertBlock
        rw [bind_fails _ hrun, hrun]
      have hframe := validate_frame (J := I) (c := c) (b := b)
      rw [hstate]
      refine .inr ⟨fun hot hok => ?_, hframe.1, hframe.2.2, fun e he => mem_validate_futureBlocks hhash he⟩
      unfold validate at hrun
      rw [hok] at hrun
      exact nomatch hrun

theorem OwnKeys.step (h : OwnKeys I.toIBlock c) (hhash : I.hash b = .ok hash)
    (hcommit : ∀ hot x, ∃ x', I.commit hot x = .ok x') : OwnKeys I.toIBlock (insertBlock I b c).2 := by
  intro e he
  rcases insertBlock_cases hhash hcommit with ⟨-, -, hcache⟩ | ⟨-, -, -, hcache⟩
  · exact h e (hcache e he).1
  · rcases hcache e he with rfl | he
    · exact hhash
    · exact h e he

theorem Refuses.step (hchecks : ChecksParent I) (hreads : ReadsBlocks I) {b' : B} (h : Refuses I c b')
    (hhash : I.hash b = .ok hash) (hcommit : ∀ hot x, ∃ x', I.commit hot x = .ok x')
    (hle : I.numberU64 b' ≤ I.numberU64 b) : Refuses I (insertBlock I b c).2 b' := by
  intro hot hok
  rcases insertBlock_cases hhash hcommit with ⟨-, hhead, -⟩ | ⟨-, hblocks, hhead, -⟩
  · have hlt := (hchecks _ _ _ hok).2
    rw [hhead] at hlt
    exact absurd hle (UInt64.not_le.mpr hlt)
  · rw [hreads c _ b' hblocks hhead] at hok
    exact h hot hok

/-! ### The pass -/

/-- Every cached block has its turn yet, or is refused and was before those that have. -/
def Passing (I : Impl B X Hot) (order : List B) (c : BlockChain B X) : Prop :=
  ∀ e ∈ c.futureBlocks, e.2 ∈ order ∨ (Refuses I c e.2 ∧ ∀ b ∈ order, I.numberU64 e.2 ≤ I.numberU64 b)

section
variable (hchecks : ChecksParent I) (hreads : ReadsBlocks I) (hcommit : ∀ hot x, ∃ x', I.commit hot x = .ok x')
  (hkeys : OwnKeys I.toIBlock c)
include hchecks hreads hcommit hkeys

theorem Passing.step {order : List B}
    (hhash : I.hash b = .ok hash) (hsorted : ∀ b' ∈ order, I.numberU64 b ≤ I.numberU64 b')
    (h : Passing I (b :: order) c) : Passing I order (insertBlock I b c).2 := by
  intro e he
  -- a block that was refused before is refused still
  have hold : e ∈ c.futureBlocks → e.2 ≠ b →
      e.2 ∈ order ∨ (Refuses I (insertBlock I b c).2 e.2 ∧ ∀ b' ∈ order, I.numberU64 e.2 ≤ I.numberU64 b') := by
    intro hmem hne
    rcases h e hmem with hin | ⟨hrefused, hle⟩
    · exact .inl ((mem_cons.mp hin).resolve_left hne)
    · exact .inr ⟨hrefused.step hchecks hreads hhash hcommit (hle b mem_cons_self),
        fun b' hb' => hle b' (mem_cons_of_mem _ hb')⟩
  rcases insertBlock_cases hhash hcommit with ⟨-, -, hcache⟩ | ⟨hrefused, -, -, hcache⟩
  · obtain ⟨hmem, hne⟩ := hcache e he
    refine hold hmem fun heq => hne ?_
    have hkey := hkeys e hmem
    rw [heq, hhash] at hkey
    exact (Except.ok.inj hkey).symm
  · by_cases heq : e.2 = b
    · rw [heq]
      exact .inr ⟨hrefused.step hchecks hreads hhash hcommit (UInt64.le_refl _), hsorted⟩
    · rcases hcache e he with rfl | hmem
      · exact absurd rfl heq
      · exact hold hmem heq

theorem Passing.run {order : List B} (hhash : ∀ b ∈ order, ∃ hash, I.hash b = .ok hash)
    (hsorted : order.Pairwise fun a b => I.numberU64 a ≤ I.numberU64 b) (h : Passing I order c) :
    Passing I [] (procFutureBlocks I order c) := by
  induction order generalizing c with
  | nil => exact h
  | cons b order ih =>
    obtain ⟨hash, hb⟩ := hhash b mem_cons_self
    obtain ⟨hfirst, hrest⟩ := pairwise_cons.mp hsorted
    exact ih (hkeys.step hb hcommit) (fun b' hb' => hhash b' (mem_cons_of_mem _ hb')) hrest
      (h.step hchecks hreads hcommit hkeys hb hfirst)

end

end

/-! ### The DS chain -/

theorem dsImpl_readsBlocks (E : Env) (signer : Bool) : ReadsBlocks (dsImpl E signer) := by
  intro c c' b hblocks hhead
  show dsValidateBlock E signer c' b = dsValidateBlock E signer c b
  unfold dsValidateBlock BlockChain.getBlock
  rw [hblocks, hhead]

/-- **One pass is enough.** Whatever blocks are cached, each under its own hash, and in whatever order those of one
number are retried: no block that is left in the cache after the pass is accepted by a further insertion. -/
theorem procFutureBlocks_exhausts (E : Env) (signer : Bool) (c : DSBlockChain)
    (hkeys : OwnKeys (dsImpl E signer).toIBlock c) (order : List DSBlock)
    (horder : FutureOrder (dsImpl E signer).toIBlock c order) :
    ∀ e ∈ (procFutureBlocks (dsImpl E signer) order c).futureBlocks,
      ∃ err, (insertBlock (dsImpl E signer) e.2 (procFutureBlocks (dsImpl E signer) order c)).1 = .error err := by
  intro e he
  have hhash : ∀ b ∈ order, ∃ hash, (dsImpl E signer).hash b = .ok hash := by
    intro b hb
    obtain ⟨entry, hentry, rfl⟩ := List.mem_map.mp (horder.1.mem_iff.mp hb)
    exact ⟨entry.1, hkeys entry hentry⟩
  have hstart : Passing (dsImpl E signer) order c := fun entry hentry =>
    .inl (horder.1.mem_iff.mpr (List.mem_map.mpr ⟨entry, hentry, rfl⟩))
  have hend := hstart.run (dsImpl_checksParent E signer) (dsImpl_readsBlocks E signer) (fun _ x => ⟨x, rfl⟩) hkeys hhash
    horder.2
  exact ((hend e he).resolve_left List.not_mem_nil).1.not_inserted

/-- A chain that has the first block, and two second blocks that came before it. -/
def dsTwoWaiting : DSBlockChain :=
  (insertBlock (dsImpl Env.sample true) dsFirst
    (insertBlock (dsImpl Env.sample true) (dsSecond 1 [peerWithKey 5])
      (insertBlock (dsImpl Env.sample true) (dsSecond 0 [peerWithKey 5]) dsGenesisChain).2).2).2

/-- Of the two, one becomes the head and the other stays in the cache, refused. -/
theorem procFutureBlocks_exhausts_twoWaiting : ∃ c order,
    FutureOrder (dsImpl Env.sample true).toIBlock dsTwoWaiting order ∧
    c = procFutureBlocks (dsImpl Env.sample true) order dsTwoWaiting ∧
    c.currentBlock = dsSecond 0 [peerWithKey 5] ∧ c.futureBlocks.map Prod.snd = [dsSecond 1 [peerWithKey 5]] ∧
    ∀ e ∈ c.futureBlocks, ∃ err, (insertBlock (dsImpl Env.sample true) e.2 c).1 = .error err :=
  ⟨_, [dsSecond 0 [peerWithKey 5], dsSecond 1 [peerWithKey 5]], by decide +kernel, rfl, by decide +kernel,
    by decide +kernel, procFutureBlocks_exhausts Env.sample true dsTwoWaiting (by unfold OwnKeys; decide +kernel) _
      (by decide +kernel)⟩

end Okchain.Chain
