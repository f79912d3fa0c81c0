import Okchain.Core.Supply
import Okchain.Lib.Sorting

/-! The three state roots of a final block.

The leader of the DS committee puts the root of `CalStateRoot` into the block, every node recomputes a root in
`ValidateState`, and the state is then committed. All three execute the block on the parent's state with `Process`, but
they treat empty accounts differently, and the dirty set still holds every account the block has touched.
-/
namespace Okchain.Core
open Lib Proc State Vm Protos List
open StateDB (new)

variable (M : Machine)

def processedRoot (deleteEmptyObjects : Bool) (block : TxBlock) : Proc Err StateDB (Hash × UInt64) := do
  let (_, gasUsed) ← process M block
  let root ← StateDB.intermediateRoot M.toDatabase deleteEmptyObjects
  pure (root, gasUsed)

/-- `CalStateRoot`, on a copy of the parent's state. -/
def calStateRoot (trie : AccountTrie) (block : TxBlock) : Except Err (Hash × UInt64) :=
  (processedRoot M false block (StateDB.new trie).copy).1

/-- The root `ValidateState` compares with the header's. -/
def validatedRoot (trie : AccountTrie) (block : TxBlock) : Except Err (Hash × UInt64) :=
  (processedRoot M true block (StateDB.new trie)).1

variable {M : Machine} {trie : AccountTrie} {block : TxBlock}

theorem processedRoot_ok {del : Bool} {s t : StateDB} {root : Hash} {gas : UInt64} :
    processedRoot M del block s = (.ok (root, gas), t) ↔
      ∃ receipts u, process M block s = (.ok (receipts, gas), u) ∧ u.Finalisable M.toDatabase del ∧
        t = u.finalised M.toDatabase del ∧ root = M.accountRoot (u.finalisedTrie M.toDatabase del) := by
  simp only [processedRoot, bind_ok, StateDB.intermediateRoot_ok, pure_ok, Prod.mk.injEq]
  refine ⟨?_, fun ⟨receipts, u, hp, hf, ht, hr⟩ =>
    ⟨(receipts, gas), u, hp, root, t, ⟨hf, ht, hr⟩, ⟨rfl, rfl⟩, rfl⟩⟩
  rintro ⟨⟨receipts, used⟩, u, hp, _, _, ⟨hf, rfl, rfl⟩, ⟨rfl, rfl⟩, rfl⟩
  exact ⟨receipts, u, hp, hf, rfl, rfl⟩

instance fee_total : Std.Total fun a b : UInt32 × Nat => a.2 ≤ b.2 := ⟨fun a b => Nat.le_total a.2 b.2⟩
instance fee_trans : IsTrans (UInt32 × Nat) fun a b => a.2 ≤ b.2 := ⟨fun _ _ _ => Nat.le_trans⟩

def Machine.twoShards : Machine := {Machine.sample with shardingSum := fun _ => some 2}

def ShardOrder.own (M : Machine) : ShardOrder := ⟨M.sortShards, M.sortShards_perm, M.sortShards_sorted⟩

end Okchain.Core
