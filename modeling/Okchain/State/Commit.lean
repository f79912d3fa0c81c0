import Okchain.State.StateDB

/-! Finalising and committing the state.

`Finalise` writes the dirty accounts to the trie at the end of a transaction. It never clears the
dirty set, so an account it has deleted as empty is visited again the next time, and whether it is
deleted again or written back depends on the flag of that visit. `Commit` visits every live object.
-/
namespace Okchain.State
open Lib Proc

variable (D : Database)
variable {s : StateDB} {a : Address}

/-- RLP has no negative integers; `updateStateObject` panics on one. -/
def Account.Encodable (a : Account) : Prop :=
  0 ≤ a.balance ∧ 0 ≤ a.lastUpdatedHeight ∧ 0 ≤ a.weightAtLastUpdatedHeight

instance (a : Account) : Decidable a.Encodable := inferInstanceAs (Decidable (_ ∧ _ ∧ _))

/-- Whether `Finalise` deletes an object. -/
def StateObject.doomed (o : StateObject) (deleteEmptyObjects : Bool) : Bool :=
  o.suicided || (deleteEmptyObjects && o.empty D)

/-- A dirty object after `Finalise`. -/
def StateObject.finalised (o : StateObject) (deleteEmptyObjects : Bool) : StateObject :=
  if o.doomed D deleteEmptyObjects then {o with deleted := true} else o.updateRoot D

/-- What `Finalise` leaves in the trie for a dirty object. -/
def StateObject.written (o : StateObject) (deleteEmptyObjects : Bool) : Option Account :=
  if o.doomed D deleteEmptyObjects then none else some (o.updateRoot D).data

theorem StateObject.finalised_suicided (o : StateObject) (del : Bool) : (o.finalised D del).suicided = o.suicided := by
  unfold StateObject.finalised
  split <;> rfl

namespace StateDB

/-- `Finalise` can visit a dirty address: there is an object, and if it is kept it can be encoded. -/
def canFinalise (s : StateDB) (deleteEmptyObjects : Bool) (a : Address) : Bool :=
  match s.stateObjects a with
  | none => false
  | some o => o.doomed D deleteEmptyObjects || decide (o.updateRoot D).data.Encodable

def Finalisable (s : StateDB) (deleteEmptyObjects : Bool) : Prop :=
  ∀ a ∈ s.stateObjectsDirty, s.canFinalise D deleteEmptyObjects a = true

instance (s : StateDB) (del : Bool) : Decidable (s.Finalisable D del) :=
  inferInstanceAs (Decidable (∀ a ∈ s.stateObjectsDirty, s.canFinalise D del a = true))

/-- The trie after `Finalise`. -/
def finalisedTrie (s : StateDB) (deleteEmptyObjects : Bool) : AccountTrie := fun a =>
  if a ∈ s.stateObjectsDirty then
    match s.stateObjects a with
    | some o => o.written D deleteEmptyObjects
    | none => s.trie a
  else s.trie a

/-- The state after `Finalise`. The dirty set and the refund counter stay. -/
def finalised (s : StateDB) (deleteEmptyObjects : Bool) : StateDB :=
  {s with
    trie := s.finalisedTrie D deleteEmptyObjects
    stateObjects := fun a =>
      if a ∈ s.stateObjectsDirty then (s.stateObjects a).map (·.finalised D deleteEmptyObjects)
      else s.stateObjects a
    journal := []
    validRevisions := []}

def finalise (deleteEmptyObjects : Bool) : Proc Err StateDB PUnit := do
  .ensureState (fun s => s.Finalisable D deleteEmptyObjects) (.panic .nilDereference)
  .update fun s => s.finalised D deleteEmptyObjects

def intermediateRoot (deleteEmptyObjects : Bool) : Proc Err StateDB Hash := do
  finalise D deleteEmptyObjects
  .read fun s => D.accountRoot s.trie

/-- What `Commit` leaves in the trie at an address. -/
def committedTrie (s : StateDB) (deleteEmptyObjects : Bool) : AccountTrie := fun a =>
  match s.stateObjects a with
  | none => s.trie a
  | some o =>
    if o.suicided || (a ∈ s.stateObjectsDirty && deleteEmptyObjects && o.empty D) then none
    else if a ∈ s.stateObjectsDirty then some (o.updateRoot D).data
    else s.trie a

/-- The state after `Commit`. -/
def committed (s : StateDB) (deleteEmptyObjects : Bool) : StateDB :=
  {s with
    trie := s.committedTrie D deleteEmptyObjects
    stateObjects := fun a => (s.stateObjects a).map fun o =>
      if o.suicided || (a ∈ s.stateObjectsDirty && deleteEmptyObjects && o.empty D) then
        {o with deleted := true}
      else if a ∈ s.stateObjectsDirty then {o.updateRoot D with dirtyCode := false}
      else o
    stateObjectsDirty := s.stateObjectsDirty.filter fun a => (s.stateObjects a).isNone
    journal := []
    validRevisions := []}

/-- `Commit` can visit a dirty address. `CommitTrie` fails on an object whose storage trie could not
be opened. -/
def canCommit (s : StateDB) (deleteEmptyObjects : Bool) (a : Address) : Bool :=
  match s.stateObjects a with
  | none => true
  | some o => o.doomed D deleteEmptyObjects ||
      (!(o.updateTrie D).dbErr && decide (o.updateRoot D).data.Encodable)

def Committable (s : StateDB) (deleteEmptyObjects : Bool) : Prop :=
  ∀ a ∈ s.stateObjectsDirty, s.canCommit D deleteEmptyObjects a = true

instance (s : StateDB) (del : Bool) : Decidable (s.Committable D del) :=
  inferInstanceAs (Decidable (∀ a ∈ s.stateObjectsDirty, s.canCommit D del a = true))

def commit (deleteEmptyObjects : Bool) : Proc Err StateDB Hash := do
  .ensureState (fun s => s.Committable D deleteEmptyObjects) (.chain .missingTrieNode)
  .update fun s => s.committed D deleteEmptyObjects
  .read fun s => D.accountRoot s.trie

/-- `Copy`: only dirty objects are taken along, each with a fresh callback. -/
def copy (s : StateDB) : StateDB :=
  {StateDB.new s.trie with
    stateObjects := fun a =>
      if a ∈ s.stateObjectsDirty then (s.stateObjects a).map fun o =>
        {o with cachedStorage := o.dirtyStorage, touched := false, dbErr := false, onDirty := true}
      else none
    stateObjectsDirty := s.stateObjectsDirty
    logs := s.logs
    logSize := s.logSize
    preimages := s.preimages}

variable {del : Bool} {t : StateDB} {root : Hash} {o : StateObject}

theorem intermediateRoot_ok : intermediateRoot D del s = (.ok root, t) ↔
      s.Finalisable D del ∧ t = s.finalised D del ∧ root = D.accountRoot (s.finalisedTrie D del) := by
  simp only [intermediateRoot, finalise, bind_ok, ensureState_ok, update_ok, read_ok]
  refine ⟨?_, fun ⟨hf, ht, hr⟩ => ⟨⟨⟩, _, ⟨⟨⟩, _, ⟨hf, rfl⟩, rfl⟩, hr, ht⟩⟩
  rintro ⟨_, _, ⟨_, _, ⟨hf, rfl⟩, rfl⟩, hr, ht⟩
  exact ⟨hf, ht, hr⟩

theorem commit_ok : commit D del s = (.ok root, t) ↔
      s.Committable D del ∧ t = s.committed D del ∧ root = D.accountRoot (s.committedTrie D del) := by
  simp only [commit, bind_ok, ensureState_ok, update_ok, read_ok]
  refine ⟨?_, fun ⟨hc, ht, hr⟩ => ⟨⟨⟩, _, ⟨hc, rfl⟩, ⟨⟩, _, rfl, hr, ht⟩⟩
  rintro ⟨_, _, ⟨hc, rfl⟩, _, _, rfl, hr, ht⟩
  exact ⟨hc, ht, hr⟩

/-! ### The three tries of a block

The leader proposes the root it gets when empty accounts are kept, the validators check the root they
get when empty accounts are deleted, and then the state is committed with empty accounts kept. -/

theorem finalisedTrie_clean (ha : a ∉ s.stateObjectsDirty) (del : Bool) :
    s.finalisedTrie D del a = s.trie a := if_neg ha

theorem finalisedTrie_dirty (ha : a ∈ s.stateObjectsDirty) (ho : s.stateObjects a = some o) (del : Bool) :
    s.finalisedTrie D del a = o.written D del := by
  simp [finalisedTrie, ha, ho]

open StateObject (doomed written)

end StateDB

end Okchain.State
