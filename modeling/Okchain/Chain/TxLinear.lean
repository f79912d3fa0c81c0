import Okchain.Chain.Linear
import Okchain.Chain.Seal

/-! The transaction chain over a sequence of calls.

The validator asks for a stored parent, but never compares a block with the head. A block on an older parent is
accepted, becomes the head and takes over the canonical hash of its number.
-/
namespace Okchain.Chain
open Lib Protos State Core

/-- A call, with the blocks it hands to `InsertBlock`. -/
inductive TxCall
  | insertBlock (b : TxBlock)
  | procFutureBlocks (order : List TxBlock)

def TxCall.blocks : TxCall → List TxBlock
  | .insertBlock b => [b]
  | .procFutureBlocks order => order

/-- A call at a time, when the DS chain has grown so far. -/
structure TxEvent where
  dsBC : Option DSBlockChain
  now : Int
  call : TxCall

/-- The chain and the blocks it has accepted, newest first. -/
structure TxState where
  chain : TxBlockChain
  accepted : List TxBlock

section

variable (M : Machine) (signer : Bool)

def TxEvent.impl (e : TxEvent) : Impl TxBlock (Hash → Option AccountTrie) StateDB :=
  txImpl ⟨M, e.dsBC, signer⟩ e.now

/-- What the chain asks of a block, whatever the DS chain and the time. -/
def txIBlock : IBlock TxBlock := ⟨TxBlock.numberU64, TxBlock.parentHash, TxBlock.hash M.toEnv⟩

/-- One `InsertBlock`. -/
def TxEvent.insert (e : TxEvent) (s : TxState) (b : TxBlock) : TxState :=
  match insertBlock (e.impl M signer) b s.chain with
  | (.ok _, c) => ⟨c, b :: s.accepted⟩
  | (.error _, c) => ⟨c, s.accepted⟩

def TxEvent.apply (e : TxEvent) (s : TxState) : TxState := e.call.blocks.foldl (e.insert M signer) s

/-- `ProcFutureBlocks` retries what is in the cache, sorted by number. -/
def TxCall.Possible (c : TxBlockChain) : TxCall → Prop
  | .insertBlock _ => True
  | .procFutureBlocks order => FutureOrder (txIBlock M) c order

/-- The block is above the head, or it is refused because its parent is unknown or it is known. -/
def InOrder (c : TxBlockChain) (b : TxBlock) : Prop :=
  c.currentBlock.numberU64 < b.numberU64 ∨ (c.getBlock b.parentHash (b.numberU64 - 1)).isNone ∨
    ∃ hash, b.hash M.toEnv = .ok hash ∧ (c.getBlock hash b.numberU64).isSome

/-- All blocks of a call are in order when it is their turn. -/
def TxEvent.InOrderFrom (e : TxEvent) : TxState → List TxBlock → Prop
  | _, [] => True
  | s, b :: bs => InOrder M s.chain b ∧ e.InOrderFrom (e.insert M signer s b) bs

/-- The sequences of calls that insert blocks in order. -/
inductive OrderlyRun : TxState → TxState → Prop
  | refl (s) : OrderlyRun s s
  | call {s t} (e : TxEvent) : OrderlyRun s t → e.call.Possible M t.chain →
      e.InOrderFrom M signer t e.call.blocks → OrderlyRun s (e.apply M signer t)

end

variable {M : Machine} {signer : Bool} {g : TxBlock} {s t : TxState} {e : TxEvent}

def TxState.Ok (M : Machine) (g : TxBlock) (s : TxState) : Prop :=
  Linear (txIBlock M) g s.accepted s.chain ∧ StoredOnly (txIBlock M) s.accepted s.chain

theorem TxState.Ok.links (h : s.Ok M g) {b : TxBlock} (horder : InOrder M s.chain b) {hot : StateDB}
    (hok : (e.impl M signer).validateBlock s.chain b = .ok hot) :
    Links (txIBlock M) b s.chain.currentBlock := by
  obtain ⟨hheader, -⟩ := txValidateBlock_ok hok
  obtain ⟨hash, parent, hhash, hnew, hparent, -⟩ := txVerifyHeader_ok hheader
  change s.chain.getBlock hash b.numberU64 = none at hnew
  change s.chain.getBlock b.parentHash (b.numberU64 - 1) = some parent at hparent
  have hsome := Option.isSome_iff_exists.mpr ⟨parent, hparent⟩
  rcases horder with habove | hnone | ⟨hash', hhash', hknown⟩
  · exact h.1.links h.2 hsome habove
  · rw [hparent] at hnone
    exact nomatch hnone
  · have : hash' = hash := Except.ok.inj (hhash'.symm.trans hhash)
    rw [this] at hknown
    exact absurd hknown (by rw [hnew]; exact nofun)

/-- **One insertion** in order keeps the chain linear, and the head does not go down. -/
theorem TxEvent.insert_ok (h : s.Ok M g) {b : TxBlock} (horder : InOrder M s.chain b) : (e.insert M signer s b).Ok M g ∧
      s.chain.currentBlock.numberU64 ≤ (e.insert M signer s b).chain.currentBlock.numberU64 := by
  unfold TxEvent.insert
  rcases hrun : insertBlock (e.impl M signer) b s.chain with ⟨err | u, c⟩
  · obtain ⟨hblocks, hcanonical, hcurrent⟩ := insertBlock_error hrun
    exact ⟨⟨h.1.of_frame hcanonical hcurrent, h.2.of_frame hblocks⟩, hcurrent ▸ UInt64.le_refl _⟩
  · obtain ⟨hlinear, hstored, hcurrent, hlinks⟩ := Linear.insertBlock_ok h.1 h.2
      (fun hot => h.links horder) hrun
    refine ⟨⟨hlinear, hstored⟩, ?_⟩
    rw [hcurrent, UInt64.le_iff_toNat_le]
    exact Nat.le_of_lt (hlinks.1 ▸ Nat.lt_succ_self _)

/-- **One call** in order. -/
theorem TxEvent.foldl_insert_ok {bs : List TxBlock} (h : s.Ok M g) (horder : e.InOrderFrom M signer s bs) :
    (bs.foldl (e.insert M signer) s).Ok M g ∧
      s.chain.currentBlock.numberU64 ≤ (bs.foldl (e.insert M signer) s).chain.currentBlock.numberU64 := by
  induction bs generalizing s with
  | nil => exact ⟨h, UInt64.le_refl _⟩
  | cons b bs ih =>
    have hinsert : (e.insert M signer s b).Ok M g ∧ _ := TxEvent.insert_ok h horder.1
    obtain ⟨hok, hle⟩ := hinsert
    obtain ⟨hok', hle'⟩ := ih hok horder.2
    exact ⟨hok', UInt64.le_trans hle hle'⟩

/-- **Every sequence of calls** in order. -/
theorem OrderlyRun.ok (hrun : OrderlyRun M signer s t) (h : s.Ok M g) : t.Ok M g := by
  induction hrun with
  | refl => exact h
  | call e _ _ horder ih => exact (TxEvent.foldl_insert_ok ih horder).1

/-- A transaction chain with its genesis block only. -/
def TxState.start (g : TxBlock) (hash : Hash) (states : Hash → Option AccountTrie) : TxState :=
  ⟨.genesis g hash states, [g]⟩

/-- **The transaction chain theorem.** After every sequence of calls from genesis that insert blocks in
order, the accepted blocks form one chain that ends in the head, the canonical hashes up to the head are
those of that chain, and no further call in order lowers the head. -/
theorem tx_chain_linear {hash : Hash} {states : Hash → Option AccountTrie} (hg : g.numberU64 = 0)
    (hhash : g.hash M.toEnv = .ok hash) (hrun : OrderlyRun M signer (TxState.start g hash states) t) :
    Linear (txIBlock M) g t.accepted t.chain ∧
    (∀ n ≤ t.chain.currentBlock.numberU64, ∃ b ∈ t.accepted, b.numberU64 = n ∧
      b.hash M.toEnv = .ok (t.chain.canonical n) ∧ ∀ b' ∈ t.accepted, b'.numberU64 = n → b' = b) ∧
    ∀ e : TxEvent, e.InOrderFrom M signer t e.call.blocks →
      t.chain.currentBlock.numberU64 ≤ (e.apply M signer t).chain.currentBlock.numberU64 := by
  have hstart : (TxState.start g hash states).Ok M g := linear_genesis hg hhash
  have hok := hrun.ok hstart
  refine ⟨hok.1, fun n hn => hok.1.exactly_one hg hn, fun e horder => ?_⟩
  exact (TxEvent.foldl_insert_ok hok horder).2

/-! ### Two sequences of calls -/

def txStart : TxState :=
  .start txGenesis (bytesToHash (hashBytes (txGenesis.hash Env.sample)))
    fun root => if root = default then some (sampleTrie 1) else none

def insertEvent (b : TxBlock) : TxEvent := ⟨some dsChainOfFirst, 100, .insertBlock b⟩

def txAfterFirst : TxState := (insertEvent txFirst).apply Machine.sample true txStart

def txAfterSecond : TxState := (insertEvent txUnsealed).apply Machine.sample true txAfterFirst

/-- The first and the second block in order. -/
theorem tx_chain_linear_afterSecond : txAfterSecond.accepted = [txUnsealed, txFirst, txGenesis] ∧
    Linear (txIBlock Machine.sample) txGenesis txAfterSecond.accepted txAfterSecond.chain := by
  have hfirst : InOrder Machine.sample txStart.chain txFirst := .inl (by decide +kernel)
  have hsecond : InOrder Machine.sample txAfterFirst.chain txUnsealed := .inl (by decide +kernel)
  have hrun : OrderlyRun Machine.sample true txStart txAfterSecond :=
    .call (insertEvent txUnsealed) (.call (insertEvent txFirst) (.refl _) trivial ⟨hfirst, trivial⟩) trivial
      ⟨hsecond, trivial⟩
  exact ⟨by decide +kernel, (tx_chain_linear rfl (by decide +kernel) hrun).1⟩

def txSibling : TxBlock :=
  withRoot (sampleTrie 1) {txFirst with header := {txFirst.header with version := 2}}

/-- Inserted after the second block it is accepted: the head falls back from 2 to 1, and the canonical
hash of 1 is no longer that of the second block's parent. -/
theorem tx_sibling_lowers_head :
    let after := (insertEvent txSibling).apply Machine.sample true txAfterSecond
    txAfterSecond.chain.currentBlock.numberU64 = 2 ∧ after.chain.currentBlock = txSibling ∧
      after.chain.currentBlock.numberU64 = 1 ∧
      txUnsealed.hash Env.sample = .ok (after.chain.canonical 2) ∧
      after.chain.canonical 1 ≠ txUnsealed.parentHash := by
  decide +kernel

end Okchain.Chain
