import Okchain.Lib.Run
import Okchain.State.Inverse
import Okchain.State.Plain

/-! Which changes are written back.

An object reports its account to `stateObjectsDirty` when it is first changed, through a callback that is then dropped;
taking back a touch, or the creation of the account, takes the account out of the set again. After taking back a touch,
and after `Commit`, the object stays in memory without its callback, and its changes are not reported (`Orphan`).

The proof follows one account. An account that is not in the set holds what the trie holds, now and in every state that
can be rolled back to (`Steady`). The entries that make an account leave the set, or give an object its callback back,
were made when that was so (`Told`).
-/
namespace Okchain.State
open Lib Relation Function List

/-! ### What is written back -/

open StateDB (createObject each getStateObject new)

/-- The part of an account that is compared with the trie. -/
structure Holding where
  balance : Int
  nonce : UInt64
  codeHash : Hash
  storage : Hash → Hash

def StateObject.holding (D : Database) (o : StateObject) : Holding where
  balance := o.data.balance
  nonce := o.data.nonce
  codeHash := bytesToHash o.data.codeHash
  storage := o.getState D

open StateObject (getState getTrie holding updateTrie)

def stored (D : Database) (acc : Option Account) : Option Holding := acc.map fun acc => (newObject acc).holding D

def StateDB.held (D : Database) : StateDB → Address → Option Holding := StateDB.each (StateObject.holding D)

/-- An account, if there is one, holds what the trie holds. -/
def Agrees (D : Database) (acc : Option Account) (v : Option Holding) : Prop := ∀ h, v = some h → stored D acc = some h

/-- Cached slots are to be written, or are what the storage trie has. -/
def Coherent (D : Database) (o : StateObject) : Prop := ∀ k v, o.cachedStorage k = some v →
  match o.dirtyStorage k with
  | some w => w = v
  | none => ((o.getTrie D).1 k).getD default = v

section Objects
variable {D : Database} {a : Address} {o o' : StateObject} {e : JournalEntry} {acc : Option Account}

theorem agrees_stored (D : Database) (acc : Option Account) : Agrees D acc (stored D acc) := fun _ h => h

theorem coherent_newObject (D : Database) (acc : Account) : Coherent D (newObject acc) := fun _ _ h => (nomatch h)

theorem Coherent.congr (h : Coherent D o) (hcached : o'.cachedStorage = o.cachedStorage)
    (hdirty : o'.dirtyStorage = o.dirtyStorage) (htrie : o'.trie = o.trie) (hroot : o'.data.root = o.data.root) :
    Coherent D o' := by
  have hgetTrie : (o'.getTrie D).1 = (o.getTrie D).1 := by
    unfold getTrie
    rw [htrie, hroot]
    cases o.trie with
    | some t => rfl
    | none => cases D.openStorageTrie o.data.root <;> rfl
  unfold Coherent
  rw [hcached, hdirty, hgetTrie]
  exact h

theorem Coherent.set (h : Coherent D o) (k v : Hash) : Coherent D {o with
    cachedStorage := update o.cachedStorage k (some v)
    dirtyStorage := update o.dirtyStorage k (some v)} := by
  intro k' v' hcached
  by_cases hk : k' = k
  · subst hk
    dsimp only at hcached ⊢
    rw [update_self] at hcached ⊢
    exact Option.some.inj hcached
  · dsimp only at hcached ⊢
    rw [update_of_ne hk] at hcached ⊢
    exact h k' v' hcached

theorem Writes.coherent (h : Writes D a o o' e) (ho : Coherent D o) : Coherent D o' := by
  cases h with
  | storage k v => exact ho.set k v
  | _ => exact ho.congr rfl rfl rfl rfl

theorem Restores.coherent (h : Restores a o e o') (ho : Coherent D o) : Coherent D o' := by
  cases h with
  | storage k v => exact ho.set k v
  | _ => exact ho.congr rfl rfl rfl rfl

def StateObject.flushed (D : Database) (o : StateObject) : StorageTrie := ((o.updateRoot D).getTrie D).1

theorem flushed_getD (h : Coherent D o) {k v : Hash} (hcached : o.cachedStorage k = some v) :
    (o.flushed D k).getD default = v := by
  have hv := h k v hcached
  cases hdirty : o.dirtyStorage k with
  | none =>
    rw [hdirty] at hv
    simpa [StateObject.flushed, StateObject.updateRoot, updateTrie, getTrie, hdirty] using hv
  | some w =>
    rw [hdirty] at hv
    obtain rfl : w = v := hv
    by_cases hw : w = default <;>
      simp [StateObject.flushed, StateObject.updateRoot, updateTrie, getTrie, hdirty, hw]

theorem Coherent.updateRoot (h : Coherent D o) : Coherent D (o.updateRoot D) :=
  fun _ _ hcached => flushed_getD h hcached

/-- A flushed object reads like the account that is written for it, if its storage trie is found again. -/
theorem holding_updateRoot (h : Coherent D o)
    (hopen : D.openStorageTrie (o.updateRoot D).data.root = some (o.flushed D)) :
    (newObject (o.updateRoot D).data).holding D = (o.updateRoot D).holding D := by
  have hstorage : (newObject (o.updateRoot D).data).getState D = (o.updateRoot D).getState D := by
    funext k
    have hnew : (newObject (o.updateRoot D).data).getState D k = (o.flushed D k).getD default := by
      unfold getState getTrie
      simp only [newObject, hopen]
    rw [hnew]
    unfold getState
    cases hcached : o.cachedStorage k with
    | none =>
      have hcached' : (o.updateRoot D).cachedStorage k = none := hcached
      rw [hcached']
      rfl
    | some v =>
      have hcached' : (o.updateRoot D).cachedStorage k = some v := hcached
      rw [hcached']
      exact flushed_getD h hcached
  exact congrArg (Holding.mk _ _ _) hstorage

/-! ### Taking entries back, for one account -/

def JournalEntry.account : JournalEntry → Option Address
  | .createObject a | .resetObject a _ | .suicide a _ _ | .balance a _ | .nonce a _ | .storage a _ _ | .code a _ _
  | .touch a _ _ => some a
  | .refund _ | .addLog _ | .addPreimage _ => none

/-- What undoing an entry about the account does to what it holds. -/
def undoHeld (D : Database) (acc : Option Account) : JournalEntry → Option Holding → Option Holding
  | .createObject _, _ => stored D acc
  | .resetObject _ prev, _ => some (prev.holding D)
  | .suicide _ _ prevbalance, v => v.map fun h => {h with balance := prevbalance}
  | .balance _ prev, v => v.map fun h => {h with balance := prev}
  | .nonce _ prev, v => v.map fun h => {h with nonce := prev}
  | .storage _ key prevalue, v => v.map fun h => {h with storage := update h.storage key prevalue}
  | .code _ _ prevhash, v => v.map fun h => {h with codeHash := bytesToHash prevhash}
  | _, v => v

def backAt (D : Database) (a : Address) (acc : Option Account) (e : JournalEntry) (v : Option Holding) :
    Option Holding := if e.account = some a then undoHeld D acc e v else v

/-- The account agrees with the trie, now and after taking back any number of entries. -/
def Steady (D : Database) (a : Address) (acc : Option Account) : List JournalEntry → Option Holding → Prop
  | [], v => Agrees D acc v
  | e :: es, v => Agrees D acc v ∧ Steady D a acc es (backAt D a acc e v)

/-- Taking back the entry may take the account out of the dirty set, or bring back an object with its callback. -/
def JournalEntry.frees : JournalEntry → Prop
  | .createObject _ => True
  | .resetObject _ prev => prev.onDirty = true
  | .touch _ _ prevDirty => prevDirty = false
  | _ => False

/-- Entries that free the account were made when it agreed with the trie. -/
def Told (D : Database) (a : Address) (acc : Option Account) : List JournalEntry → Option Holding → Prop
  | [], _ => True
  | e :: es, v => (e.account = some a → e.frees → Steady D a acc es (backAt D a acc e v)) ∧
      Told D a acc es (backAt D a acc e v)

variable {es : List JournalEntry} {v : Option Holding}

theorem Steady.now (h : Steady D a acc es v) : Agrees D acc v := by
  cases es with
  | nil => exact h
  | cons e es => exact h.1

theorem backAt_other (he : e.account ≠ some a) : backAt D a acc e v = v := if_neg he

theorem backAt_self (he : e.account = some a) : backAt D a acc e v = undoHeld D acc e v := if_pos he

theorem steady_of_none (hes : ∀ e ∈ es, e.account ≠ some a) (hv : Agrees D acc v) : Steady D a acc es v := by
  induction es with
  | nil => exact hv
  | cons e es ih =>
    refine ⟨hv, ?_⟩
    rw [backAt_other (hes e (mem_cons_self ..))]
    exact ih fun e' he' => hes e' (mem_cons_of_mem e he')

theorem told_of_none (hes : ∀ e ∈ es, e.account ≠ some a) : Told D a acc es v := by
  induction es with
  | nil => exact trivial
  | cons e es ih =>
    have he := hes e (mem_cons_self ..)
    refine ⟨fun h => absurd h he, ?_⟩
    rw [backAt_other he]
    exact ih fun e' he' => hes e' (mem_cons_of_mem e he')

theorem Writes.account (h : Writes D a o o' e) : e.account = some a := by
  cases h <;> rfl

theorem Restores.account (h : Restores a o e o') : e.account = some a := by
  cases h <;> rfl

/-- The entry of a write takes its effect back. -/
theorem Writes.undoHeld (h : Writes D a o o' e) (acc : Option Account) :
    undoHeld D acc e (some (o'.holding D)) = some (o.holding D) := by
  cases h with
  | storage k v =>
    have hstorage : update (update (o.getState D) k v) k (o.getState D k) = o.getState D := by
      rw [update_idem, update_eq_self]
    refine congrArg some (congrArg (Holding.mk _ _ _) (Eq.trans ?_ hstorage))
    exact congrArg (update · k (o.getState D k)) (getState_update o k v _)
  | _ => rfl

theorem Restores.undoHeld (h : Restores a o e o') (acc : Option Account) :
    undoHeld D acc e (some (o.holding D)) = some (o'.holding D) := by
  cases h with
  | storage k v => exact congrArg some (congrArg (Holding.mk _ _ _) (getState_update o k v _).symm)
  | code c hash =>
    exact congrArg (fun h => some (Holding.mk _ _ h _)) (FixedBytes.ofBytes_bytes (bytesToHash hash)).symm
  | _ => rfl

end Objects

/-! ### The invariant of one account -/

structure Tracked (D : Database) (a : Address) (s : StateDB) : Prop where
  clean : a ∉ s.stateObjectsDirty → Steady D a (s.trie a) s.journal (s.held D a)
  pristine : ∀ o, s.getStateObject a = some o → o.onDirty = true → Steady D a (s.trie a) s.journal (s.held D a)
  absent : s.getStateObject a = none → ∀ e ∈ s.journal, e.account ≠ some a
  told : Told D a (s.trie a) s.journal (s.held D a)
  created : s.journal.Pairwise fun e e' => e = .createObject a → e'.account ≠ some a
  replaced : ∀ prev, .resetObject a prev ∈ s.journal → prev.deleted = false ∧ Coherent D prev
  coherent : ∀ o, s.stateObjects a = some o → Coherent D o

section Account
variable {D : Database} {a b : Address} {s t : StateDB} {o o' : StateObject} {e : JournalEntry}
  {es : List JournalEntry}

theorem SameAt.held (h : SameAt a s t) : t.held D a = s.held D a := by
  unfold StateDB.held each
  rw [h.getStateObject]

theorem held_eq (ho : s.getStateObject a = some o) : s.held D a = some (o.holding D) := by
  unfold StateDB.held each
  rw [ho]
  rfl

section
variable (h : Tracked D a s)
include h

theorem Tracked.of_sameAt (hsame : SameAt a s t) (hj : t.journal = s.journal) : Tracked D a t where
  clean ha := by
    rw [hsame.trie, hj, hsame.held]
    exact h.clean (mt hsame.dirty.mpr ha)
  pristine o ho hd := by
    rw [hsame.trie, hj, hsame.held]
    exact h.pristine o (hsame.getStateObject ▸ ho) hd
  absent hnone := by
    rw [hj]
    exact h.absent (hsame.getStateObject ▸ hnone)
  told := by
    rw [hsame.trie, hj, hsame.held]
    exact h.told
  created := hj ▸ h.created
  replaced := hj ▸ h.replaced
  coherent o ho := h.coherent o (hsame.object ▸ ho)

theorem Tracked.record (he : e.account ≠ some a) : Tracked D a (s.record e) where
  clean ha := by
    have hsteady := h.clean ha
    refine ⟨hsteady.now, ?_⟩
    rw [backAt_other he]
    exact hsteady
  pristine o ho hd := by
    have hsteady := h.pristine o ho hd
    refine ⟨hsteady.now, ?_⟩
    rw [backAt_other he]
    exact hsteady
  absent hnone e' he' := by
    rcases mem_cons.mp he' with rfl | he'
    · exact he
    · exact h.absent hnone e' he'
  told := by
    refine ⟨fun h => absurd h he, ?_⟩
    rw [backAt_other he]
    exact h.told
  created := by
    refine pairwise_cons.mpr ⟨fun e' he' hcreate => ?_, h.created⟩
    rw [hcreate] at he
    exact absurd rfl he
  replaced prev hmem := by
    rcases mem_cons.mp hmem with heq | hmem
    · rw [← heq] at he
      exact absurd rfl he
    · exact h.replaced prev hmem
  coherent := h.coherent

theorem Tracked.put_record (hdel : o.deleted = false) (hcoherent : Coherent D o) (he : e.account = some a)
    (hclean : a ∉ s.stateObjectsDirty → o.onDirty = false →
      Agrees D (s.trie a) (some (o.holding D)) ∧
        Steady D a (s.trie a) s.journal (undoHeld D (s.trie a) e (some (o.holding D))))
    (hfrees : e.frees → Steady D a (s.trie a) s.journal (undoHeld D (s.trie a) e (some (o.holding D))))
    (htold : Told D a (s.trie a) s.journal (undoHeld D (s.trie a) e (some (o.holding D))))
    (hcreated : e = .createObject a → ∀ e' ∈ s.journal, e'.account ≠ some a)
    (hreplaced : ∀ prev, e = .resetObject a prev → prev.deleted = false ∧ Coherent D prev) :
    Tracked D a ((s.put a o).record e) := by
  have hobject : ((s.put a o).record e).getStateObject a = some {o with onDirty := false} := getStateObject_put o hdel
  have hheld : ((s.put a o).record e).held D a = some (o.holding D) := by
    rw [held_eq hobject]
    rfl
  have hstate : ((s.put a o).record e).stateObjects a = some {o with onDirty := false} := update_self _ _ _
  refine ⟨fun ha => ?_, fun o' ho' hd => ?_, fun hnone => ?_, ?_, ?_, fun prev hmem => ?_, fun o' ho' => ?_⟩
  · rw [hheld]
    -- the callback would have put the account into the set
    replace ha : a ∉ (if o.onDirty then insert a s.stateObjectsDirty else s.stateObjectsDirty) := ha
    have hdirty : o.onDirty = false := by
      by_contra hd
      rw [if_pos (eq_true_of_ne_false hd)] at ha
      exact ha (Finset.mem_insert_self _ _)
    rw [if_neg (ne_true_of_eq_false hdirty)] at ha
    obtain ⟨hagrees, hsteady⟩ := hclean ha hdirty
    refine ⟨hagrees, ?_⟩
    rw [backAt_self he]
    exact hsteady
  · rw [hobject] at ho'
    cases ho'
    exact nomatch hd
  · rw [hobject] at hnone
    exact nomatch hnone
  · rw [hheld]
    refine ⟨fun _ hf => ?_, ?_⟩
    · rw [backAt_self he]
      exact hfrees hf
    · rw [backAt_self he]
      exact htold
  · exact pairwise_cons.mpr ⟨fun e' he' hcreate => hcreated hcreate e' he', h.created⟩
  · rcases mem_cons.mp hmem with heq | hmem
    · exact hreplaced prev heq.symm
    · exact h.replaced prev hmem
  · rw [hstate] at ho'
    cases ho'
    exact hcoherent.congr rfl rfl rfl rfl

theorem Tracked.tail (hj : s.journal = e :: es) (htrie : t.trie a = s.trie a)
    (hjournal : t.journal = es) (hheld : t.held D a = backAt D a (s.trie a) e (s.held D a))
    (hclean : a ∉ t.stateObjectsDirty → a ∉ s.stateObjectsDirty ∨ (e.account = some a ∧ e.frees))
    (hpristine : ∀ o, t.getStateObject a = some o → o.onDirty = true →
      (∃ o', s.getStateObject a = some o' ∧ o'.onDirty = true) ∨ (e.account = some a ∧ e.frees))
    (habsent : t.getStateObject a = none → s.getStateObject a = none ∨ e = .createObject a)
    (hcoherent : ∀ o, t.stateObjects a = some o → Coherent D o) : Tracked D a t := by
  have htold := h.told
  rw [hj] at htold
  have hsteady : Steady D a (s.trie a) s.journal (s.held D a) → Steady D a (t.trie a) t.journal (t.held D a) := by
    rw [hj, htrie, hjournal, hheld]
    exact fun hs => hs.2
  have hfreed : e.account = some a ∧ e.frees → Steady D a (t.trie a) t.journal (t.held D a) := by
    rw [htrie, hjournal, hheld]
    exact fun hf => htold.1 hf.1 hf.2
  refine ⟨fun ha => ?_, fun o ho hd => ?_, fun hnone => ?_, ?_, ?_, fun prev hmem => ?_, hcoherent⟩
  · exact (hclean ha).elim (fun ha => hsteady (h.clean ha)) hfreed
  · exact (hpristine o ho hd).elim (fun ⟨o', ho', hd'⟩ => hsteady (h.pristine o' ho' hd')) hfreed
  · rw [hjournal]
    rcases habsent hnone with hnone | hcreate
    · intro e' he'
      exact h.absent hnone e' (hj ▸ mem_cons_of_mem e he')
    · have hcreated := h.created
      rw [hj, pairwise_cons] at hcreated
      exact fun e' he' => hcreated.1 e' he' hcreate
  · rw [htrie, hjournal, hheld]
    exact htold.2
  · have hcreated := h.created
    rw [hj, pairwise_cons] at hcreated
    exact hjournal ▸ hcreated.2
  · rw [hjournal] at hmem
    exact h.replaced prev (hj ▸ mem_cons_of_mem e hmem)

theorem coherent_of_getStateObject (ho : s.getStateObject a = some o) : Coherent D o := by
  unfold getStateObject at ho
  cases hlive : s.stateObjects a with
  | some o' =>
    rw [hlive] at ho
    dsimp only at ho
    split at ho
    · exact nomatch ho
    · cases ho
      exact h.coherent o hlive
  | none =>
    rw [hlive] at ho
    obtain ⟨acc, -, rfl⟩ := Option.map_eq_some_iff.mp ho
    exact coherent_newObject D acc

/-! ### Undoing -/

theorem Tracked.tail_other (hj : s.journal = e :: es) (hsame : SameAt a s t)
    (hjournal : t.journal = es) (he : e.account ≠ some a) : Tracked D a t := by
  refine h.tail hj hsame.trie hjournal ?_ (fun ha => .inl (mt hsame.dirty.mpr ha)) (fun o ho hd => .inl ⟨o, ?_, hd⟩)
    (fun hnone => .inl ?_) (fun o ho => h.coherent o (hsame.object ▸ ho))
  · rw [backAt_other he]
    exact hsame.held
  · rw [← hsame.getStateObject]
    exact ho
  · rw [← hsame.getStateObject]
    exact hnone

end

theorem mem_erase_other (hb : b ≠ a) (d : Finset Address) : a ∈ d.erase b ↔ a ∈ d := by
  rw [Finset.mem_erase]
  exact and_iff_right (Ne.symm hb)

theorem subset_put (s : StateDB) (a : Address) (o : StateObject) :
    s.stateObjectsDirty ⊆ (s.put a o).stateObjectsDirty := by
  unfold StateDB.put
  dsimp only
  split
  · exact Finset.subset_insert _ _
  · exact Finset.Subset.refl _

theorem getStateObject_restored (js : List JournalEntry) (dirty : Finset Address) (hdel : o.deleted = false) :
    getStateObject {s with
      journal := js, stateObjects := update s.stateObjects b (some o), stateObjectsDirty := dirty} b = some o := by
  simp [getStateObject, hdel]

section
variable (h : Tracked D a s)
include h

theorem Tracked.undo_self (hj : s.journal = e :: es) (he : e.account = some a)
    (hundo : Undoes {s with journal := es} e t) : Tracked D a t := by
  have hmem : e ∈ s.journal := hj ▸ mem_cons_self ..
  cases hundo with
  | drop b =>
    obtain rfl : b = a := Option.some.inj he
    refine h.tail hj rfl rfl ?_ (fun _ => .inr ⟨rfl, trivial⟩) (fun _ _ _ => .inr ⟨rfl, trivial⟩) (fun _ => .inr rfl)
      fun o ho => ?_
    · rw [backAt_self rfl]
      refine (congrFun each_update b).trans ?_
      rw [update_self]
      exact Option.map_map _ _ _
    · exact nomatch (update_self b none s.stateObjects).symm.trans ho
  | reset b prev =>
    obtain rfl : b = a := Option.some.inj he
    obtain ⟨hdel, hcoherent⟩ := h.replaced prev hmem
    have hobject := getStateObject_restored (s := s) (b := b) es s.stateObjectsDirty hdel
    refine h.tail hj rfl rfl ?_ .inl (fun o ho hd => .inr ⟨rfl, ?_⟩) (fun hnone => ?_) fun o ho => ?_
    · rw [backAt_self rfl]
      exact held_eq hobject
    · cases hobject.symm.trans ho
      exact hd
    · exact nomatch hobject.symm.trans hnone
    · cases (update_self b (some prev) s.stateObjects).symm.trans ho
      exact hcoherent
  | @put b o o' e ho hrestores =>
    obtain rfl : b = a := Option.some.inj (hrestores.account.symm.trans he)
    have hdel := hrestores.deleted.trans (getStateObject_deleted ho)
    have hobject := getStateObject_put (s := {s with journal := es}) (x := b) o' hdel
    refine h.tail hj rfl rfl ?_ (fun ha => .inl fun hmem => ha (subset_put _ b o' hmem))
      (fun o'' ho'' hd => ?_) (fun hnone => ?_) fun o'' ho'' => ?_
    · have hheld : s.held D b = some (o.holding D) := held_eq (s := s) ho
      rw [backAt_self he, hheld, hrestores.undoHeld, held_eq hobject]
      rfl
    · cases hobject.symm.trans ho''
      exact nomatch hd
    · exact nomatch hobject.symm.trans hnone
    · have hput : (StateDB.put {s with journal := es} b o').stateObjects b = some {o' with onDirty := false} :=
        update_self _ _ _
      cases hput.symm.trans ho''
      exact (hrestores.coherent (coherent_of_getStateObject h ho)).congr rfl rfl rfl rfl
  | @untouch b o prevDirty ho =>
    obtain rfl : b = a := Option.some.inj he
    have hdel := getStateObject_deleted ho
    have hobject := getStateObject_restored (s := s) (b := b) (o := {o with touched := false}) es
      (if prevDirty then s.stateObjectsDirty else s.stateObjectsDirty.erase b) hdel
    refine h.tail hj rfl rfl ?_ (fun ha => ?_) (fun o' ho' hd => .inl ⟨o, ho, ?_⟩) (fun hnone => ?_) fun o' ho' => ?_
    · have hheld : s.held D b = some (o.holding D) := held_eq (s := s) ho
      rw [backAt_self rfl, hheld, held_eq hobject]
      rfl
    · cases prevDirty with
      | true => exact .inl ha
      | false => exact .inr ⟨rfl, rfl⟩
    · cases hobject.symm.trans ho'
      exact hd
    · exact nomatch hobject.symm.trans hnone
    · cases (update_self b (some {o with touched := false}) s.stateObjects).symm.trans ho'
      exact (coherent_of_getStateObject h ho).congr rfl rfl rfl rfl
  | @gone b prev prevbalance hnone =>
    obtain rfl : b = a := Option.some.inj he
    exact absurd rfl (h.absent hnone _ hmem)
  | @retouched b prev prevDirty hre =>
    obtain rfl : b = a := Option.some.inj he
    refine h.tail hj rfl rfl ?_ .inl (fun o ho hd => .inl ⟨o, ho, hd⟩) .inl h.coherent
    rw [backAt_self rfl]
    rfl
  | refund | log | preimage => exact nomatch he

theorem Tracked.undo (hj : s.journal = e :: es) (hundo : Undoes {s with journal := es} e t) : Tracked D a t := by
  by_cases he : e.account = some a
  · exact h.undo_self hj he hundo
  · refine h.tail_other hj ?_ hundo.undone.journal he
    cases hundo with
    | drop b =>
      have hb : b ≠ a := fun hba => he (congrArg some hba)
      exact ⟨rfl, update_of_ne (Ne.symm hb) _ _, mem_erase_other hb _⟩
    | reset b prev =>
      have hb : b ≠ a := fun hba => he (congrArg some hba)
      exact ⟨rfl, update_of_ne (Ne.symm hb) _ _, Iff.rfl⟩
    | @put b o o' e ho hrestores =>
      have hb : b ≠ a := fun hba => he (hba ▸ hrestores.account)
      have hsame := put_sameAt (s := {s with journal := es}) hb o'
      exact ⟨hsame.trie, hsame.object, hsame.dirty⟩
    | @untouch b o prevDirty ho =>
      have hb : b ≠ a := fun hba => he (congrArg some hba)
      refine ⟨rfl, update_of_ne (Ne.symm hb) _ _, ?_⟩
      cases prevDirty with
      | true => exact Iff.rfl
      | false => exact mem_erase_other hb _
    | gone | retouched | refund | log | preimage => exact ⟨rfl, rfl, Iff.rfl⟩

theorem Tracked.revert {id : Nat} (hrun : StateDB.revertToSnapshot id s = (.ok ⟨⟩, t)) : Tracked D a t := by
  obtain ⟨r, u, -, hundo, rfl⟩ := revertToSnapshot_ok.mp hrun
  have hu : Tracked D a u := by
    refine undoNewest_rule (P := fun _ u => Tracked D a u) ?_ _ s u (Nat.sub_le _ _) h hundo
    exact fun _ v e js w hv hj hrun => hv.undo hj (undo_undoes hrun)
  exact hu.of_sameAt ⟨rfl, rfl, Iff.rfl⟩ rfl

/-! ### Edits -/

/-- The account is in memory, without its callback and not in the dirty set. -/
def Orphan (s : StateDB) (a : Address) : Prop :=
  ∃ o, s.getStateObject a = some o ∧ o.onDirty = false ∧ a ∉ s.stateObjectsDirty

theorem Tracked.create (hnone : s.getStateObject b = none) :
    Tracked D a ((s.put b (newObject (newAccount D))).record (.createObject b)) := by
  by_cases hb : b = a
  · subst hb
    have hes := h.absent hnone
    refine h.put_record rfl (coherent_newObject D _) rfl (fun _ hd => (nomatch hd)) (fun _ => ?_) (told_of_none hes)
      (fun _ => hes) fun prev heq => (nomatch heq)
    exact steady_of_none hes (agrees_stored D _)
  · exact (h.of_sameAt (put_sameAt hb _) rfl).record fun he => hb (Option.some.inj he)

theorem Tracked.replace {prev : StateObject} (hprev : s.getStateObject b = some prev) (height : Int) :
    Tracked D a ((s.put b (newObject (replacement D prev.data.balance height))).record (.resetObject b prev)) := by
  by_cases hb : b = a
  · subst hb
    have hheld : some (prev.holding D) = s.held D b := (held_eq hprev).symm
    refine h.put_record rfl (coherent_newObject D _) rfl (fun _ hd => (nomatch hd)) (fun hf => ?_) ?_
      (fun heq => (nomatch heq)) fun p heq => ?_
    · show Steady D b (s.trie b) s.journal (some (prev.holding D))
      rw [hheld]
      exact h.pristine prev hprev hf
    · show Told D b (s.trie b) s.journal (some (prev.holding D))
      rw [hheld]
      exact h.told
    · cases heq
      exact ⟨getStateObject_deleted hprev, coherent_of_getStateObject h hprev⟩
  · exact (h.of_sameAt (put_sameAt hb _) rfl).record fun he => hb (Option.some.inj he)

end

theorem Writes.onDirty (h : Writes D b o o' e) : o'.onDirty = o.onDirty := by
  cases h <;> rfl

theorem Writes.frees (h : Writes D b o o' e) (hf : e.frees) : o.onDirty = true := by
  cases h with
  | touch => exact (Bool.not_eq_false' ..).mp hf
  | _ => exact hf.elim

theorem Tracked.write (h : Tracked D a s) (ho : s.getStateObject b = some o) (hwrites : Writes D b o o' e)
    (hspares : b = a → Orphan s a → o'.holding D = o.holding D) : Tracked D a ((s.put b o').record e) := by
  by_cases hb : b = a
  · subst hb
    have hback : undoHeld D (s.trie b) e (some (o'.holding D)) = s.held D b :=
      (hwrites.undoHeld _).trans (held_eq ho).symm
    refine h.put_record (hwrites.deleted.trans (getStateObject_deleted ho))
      (hwrites.coherent (coherent_of_getStateObject h ho)) hwrites.account (fun ha hd => ⟨?_, ?_⟩) (fun hf => ?_) ?_
      (fun heq => ?_) fun prev heq => (hwrites.not_reset heq).elim
    · rw [hspares rfl ⟨o, ho, hwrites.onDirty.symm.trans hd, ha⟩, ← held_eq ho]
      exact (h.clean ha).now
    · rw [hback]
      exact h.clean ha
    · rw [hback]
      exact h.pristine o ho (hwrites.frees hf)
    · rw [hback]
      exact h.told
    · subst heq
      exact nomatch hwrites
  · refine (h.of_sameAt (put_sameAt hb o') rfl).record fun he => hb ?_
    exact Option.some.inj (hwrites.account.symm.trans he)

theorem getStateObject_weigh (ho : s.getStateObject b = some o) (weight height : Int) :
    (s.setObjectWeight b o weight height).getStateObject b = some {o with
      data := {o.data with weightAtLastUpdatedHeight := weight, lastUpdatedHeight := height}, onDirty := false} := by
  have hdel := getStateObject_deleted ho
  exact getStateObject_put _ hdel

theorem held_weigh (ho : s.getStateObject b = some o) (weight height : Int) :
    (s.setObjectWeight b o weight height).held D b = s.held D b := by
  rw [held_eq ho, held_eq (getStateObject_weigh ho weight height)]
  rfl

/-- Writing what is not compared. -/
theorem Tracked.weigh (h : Tracked D a s) (ho : s.getStateObject b = some o) (weight height : Int) :
    Tracked D a (s.setObjectWeight b o weight height) := by
  by_cases hb : b = a
  · subst hb
    have hobject := getStateObject_weigh ho weight height
    have hheld := held_weigh (D := D) ho weight height
    refine ⟨fun ha => ?_, fun o' ho' hd => ?_, fun hnone => ?_, ?_, h.created, h.replaced, fun o' ho' => ?_⟩
    · rw [hheld]
      exact h.clean fun hmem => ha (subset_put s b _ hmem)
    · cases hobject.symm.trans ho'
      exact nomatch hd
    · exact nomatch hobject.symm.trans hnone
    · rw [hheld]
      exact h.told
    · have hput : (s.setObjectWeight b o weight height).stateObjects b = some _ := update_self _ _ _
      cases hput.symm.trans ho'
      exact (coherent_of_getStateObject h ho).congr rfl rfl rfl rfl
  · exact h.of_sameAt (put_sameAt hb _) rfl

theorem Tracked.getOrNew (h : Tracked D a s) (b : Address) : Tracked D a (s.getOrNewStateObject D b).2 := by
  unfold StateDB.getOrNewStateObject
  cases hb : s.getStateObject b with
  | some o => exact h
  | none =>
    show Tracked D a (s.createObject D b)
    unfold createObject
    rw [hb]
    exact h.create hb

/-! ### Between transactions -/

/-- The database finds the storage tries that are flushed again under their roots. -/
def Reopens (D : Database) (s : StateDB) : Prop := ∀ a ∈ s.stateObjectsDirty, ∀ o, s.stateObjects a = some o →
  D.openStorageTrie (o.updateRoot D).data.root = some (o.flushed D)

theorem held_of_object (hobject : s.stateObjects a = some o) :
    s.held D a = if o.deleted then none else some (o.holding D) := by
  unfold StateDB.held each getStateObject
  rw [hobject]
  dsimp only
  split <;> rfl

theorem agrees_unloaded (hobject : s.stateObjects a = none) : Agrees D (s.trie a) (s.held D a) := by
  unfold StateDB.held each getStateObject
  rw [hobject]
  dsimp only
  rw [Option.map_map]
  exact agrees_stored D (s.trie a)

theorem agrees_deleted (hobject : s.stateObjects a = some o) (hdel : o.deleted = true) (acc : Option Account) :
    Agrees D acc (s.held D a) := by
  rw [held_of_object hobject, if_pos hdel]
  exact fun _ h => (nomatch h)

theorem agrees_written (hobject : s.stateObjects a = some o) {acc : Account} (htrie : s.trie a = some acc)
    (hholding : (newObject acc).holding D = o.holding D) : Agrees D (s.trie a) (s.held D a) := by
  rw [held_of_object hobject, htrie]
  intro h hh
  split at hh
  · exact nomatch hh
  · cases hh
    exact congrArg some hholding

theorem tracked_of_agrees (hj : s.journal = []) (hagrees : Agrees D (s.trie a) (s.held D a))
    (hcoherent : ∀ o, s.stateObjects a = some o → Coherent D o) : Tracked D a s where
  clean _ := hj ▸ hagrees
  pristine _ _ _ := hj ▸ hagrees
  absent _ e he := by
    rw [hj] at he
    exact nomatch he
  told := by
    rw [hj]
    exact trivial
  created := hj ▸ .nil
  replaced prev hmem := by
    rw [hj] at hmem
    exact nomatch hmem
  coherent := hcoherent

theorem tracked_of_object (hj : s.journal = []) (hobject : s.stateObjects a = some o)
    (hagrees : Agrees D (s.trie a) (s.held D a)) (hcoherent : Coherent D o) : Tracked D a s := by
  refine tracked_of_agrees hj hagrees fun o' ho' => ?_
  cases hobject.symm.trans ho'
  exact hcoherent

theorem tracked_new (D : Database) (a : Address) (trie : AccountTrie) : Tracked D a (new trie) :=
  tracked_of_agrees rfl (agrees_unloaded rfl) fun _ ho => (nomatch ho)

theorem Tracked.finalised (h : Tracked D a s) (hopen : Reopens D s) (del : Bool) : Tracked D a (s.finalised D del) := by
  have hobject : (s.finalised D del).stateObjects a =
    if a ∈ s.stateObjectsDirty then (s.stateObjects a).map (·.finalised D del) else s.stateObjects a := rfl
  by_cases ha : a ∈ s.stateObjectsDirty
  · rw [if_pos ha] at hobject
    cases ho : s.stateObjects a with
    | none =>
      rw [ho] at hobject
      exact tracked_of_agrees rfl (agrees_unloaded hobject) fun o ho' => (nomatch hobject.symm.trans ho')
    | some o =>
      rw [ho] at hobject
      have htrie : (s.finalised D del).trie a = o.written D del := StateDB.finalisedTrie_dirty D ha ho del
      have hcoherent := h.coherent o ho
      cases hdoomed : o.doomed D del with
      | true =>
        have hfinal : (s.finalised D del).stateObjects a = some {o with deleted := true} := by
          rw [hobject]
          exact congrArg some (if_pos hdoomed)
        exact tracked_of_object rfl hfinal (agrees_deleted hfinal rfl _) (hcoherent.congr rfl rfl rfl rfl)
      | false =>
        have hfinal : (s.finalised D del).stateObjects a = some (o.updateRoot D) := by
          rw [hobject]
          exact congrArg some (if_neg (ne_true_of_eq_false hdoomed))
        have hwritten : (s.finalised D del).trie a = some (o.updateRoot D).data :=
          htrie.trans (if_neg (ne_true_of_eq_false hdoomed))
        exact tracked_of_object rfl hfinal
          (agrees_written hfinal hwritten (holding_updateRoot hcoherent (hopen a ha o ho))) hcoherent.updateRoot
  · rw [if_neg ha] at hobject
    have hsame : SameAt a s (s.finalised D del) := ⟨StateDB.finalisedTrie_clean D ha del, hobject, Iff.rfl⟩
    refine tracked_of_agrees rfl ?_ fun o ho => h.coherent o (hobject ▸ ho)
    rw [hsame.trie, hsame.held]
    exact (h.clean ha).now

theorem Tracked.committed (h : Tracked D a s) (hopen : Reopens D s) (del : Bool) : Tracked D a (s.committed D del) := by
  have hobject : (s.committed D del).stateObjects a = (s.stateObjects a).map fun o =>
      if o.suicided || (a ∈ s.stateObjectsDirty && del && o.empty D) then {o with deleted := true}
      else if a ∈ s.stateObjectsDirty then {o.updateRoot D with dirtyCode := false}
      else o := rfl
  have htrie : (s.committed D del).trie a = s.committedTrie D del a := rfl
  unfold StateDB.committedTrie at htrie
  cases ho : s.stateObjects a with
  | none =>
    rw [ho] at hobject
    exact tracked_of_agrees rfl (agrees_unloaded hobject) fun o ho' => (nomatch hobject.symm.trans ho')
  | some o =>
    rw [ho] at hobject htrie
    have hcoherent := h.coherent o ho
    dsimp only [Option.map_some] at hobject htrie
    by_cases hgone : (o.suicided || (a ∈ s.stateObjectsDirty && del && o.empty D)) = true
    · rw [if_pos hgone] at hobject
      exact tracked_of_object rfl hobject (agrees_deleted hobject rfl _) (hcoherent.congr rfl rfl rfl rfl)
    · rw [if_neg hgone] at hobject htrie
      by_cases ha : a ∈ s.stateObjectsDirty
      · rw [if_pos ha] at hobject htrie
        exact tracked_of_object rfl hobject
          (agrees_written hobject htrie (holding_updateRoot hcoherent (hopen a ha o ho)))
          (hcoherent.updateRoot.congr rfl rfl rfl rfl)
      · rw [if_neg ha] at hobject htrie
        refine tracked_of_object rfl hobject ?_ hcoherent
        rw [held_of_object hobject, htrie, ← held_of_object ho]
        exact (h.clean ha).now

/-! ### Operations -/

/-- The account an operation changes, and how it changes what the account holds. -/
def Op.effect (D : Database) : Op → Option (Address × (Holding → Holding))
  | .addBalance a v | .addBalanceAndWeight a v => some (a, fun h => {h with balance := h.balance + v})
  | .subBalance a v | .subBalanceAndWeight a v => some (a, fun h => {h with balance := h.balance - v})
  | .setBalance a v => some (a, fun h => {h with balance := v})
  | .setNonce a n => some (a, fun h => {h with nonce := n})
  | .setCode a c => some (a, fun h => {h with codeHash := D.keccak c})
  | .setState a k v => some (a, fun h => {h with storage := update h.storage k v})
  | .suicide a => some (a, fun h => {h with balance := 0})
  | _ => none

/-- The operation does not change what an orphan holds. -/
def Op.Spares (D : Database) (s : StateDB) (op : Op) : Prop :=
  ∀ b f, op.effect D = some (b, f) → Orphan s b → ∀ h, s.held D b = some h → f h = h

/-- What an operation does before it writes to its account: nothing that the account holds changes, and it makes no
orphan. -/
structure Readied (D : Database) (b : Address) (s u : StateDB) : Prop where
  tracked : ∀ a, Tracked D a s → Tracked D a u
  orphan : Orphan u b ↔ Orphan s b
  held : Orphan s b → u.held D b = s.held D b

/-- The account changes by `f`: the new value is written with its entry, or there is nothing to change. -/
inductive Alters (D : Database) (b : Address) (f : Holding → Holding) (u : StateDB) : StateDB → Prop
  | same (h : ∀ v, u.held D b = some v → f v = v) : Alters D b f u u
  | write {o o' : StateObject} {e : JournalEntry} (ho : u.getStateObject b = some o) (hwrites : Writes D b o o' e)
    (hf : o'.holding D = f (o.holding D)) : Alters D b f u ((u.put b o').record e)

theorem mem_put_dirty : b ∉ (s.put b o).stateObjectsDirty ↔ o.onDirty = false ∧ b ∉ s.stateObjectsDirty := by
  unfold StateDB.put
  cases o.onDirty <;> simp

theorem Readied.refl : Readied D b s s := ⟨fun _ h => h, Iff.rfl, fun _ => rfl⟩

theorem Readied.trans {u : StateDB} (h : Readied D b s t) (h' : Readied D b t u) : Readied D b s u where
  tracked a hs := h'.tracked a (h.tracked a hs)
  orphan := h'.orphan.trans h.orphan
  held hs := (h'.held (h.orphan.mpr hs)).trans (h.held hs)

theorem readied_getOrNew : Readied D b s (s.getOrNewStateObject D b).2 := by
  cases ho : s.getStateObject b with
  | some o =>
    rw [getOrNew_of_some ho]
    exact .refl
  | none =>
    have hs : ¬Orphan s b := fun ⟨o, ho', _⟩ => nomatch ho.symm.trans ho'
    refine ⟨fun _ h => h.getOrNew b, iff_of_false (fun ⟨_, _, _, hclean⟩ => ?_) hs, fun h => absurd h hs⟩
    -- a new object is in the dirty set
    unfold StateDB.getOrNewStateObject createObject at hclean
    rw [ho] at hclean
    exact nomatch (mem_put_dirty.mp hclean).1

theorem readied_weigh (ho : s.getStateObject b = some o) (weight height : Int) :
    Readied D b s (s.setObjectWeight b o weight height) where
  tracked _ h := h.weigh ho weight height
  orphan := by
    constructor
    · rintro ⟨-, -, -, hclean⟩
      exact ⟨o, ho, mem_put_dirty.mp hclean⟩
    · rintro ⟨o', ho', hclean⟩
      cases ho.symm.trans ho'
      exact ⟨_, getStateObject_weigh ho weight height, rfl, mem_put_dirty.mpr hclean⟩
  held _ := held_weigh ho weight height

theorem addBalance_alters (v : Int) :
    Alters D b (fun h => {h with balance := h.balance + v}) (s.getOrNewStateObject D b).2 (s.addBalance D b v) := by
  have ho := getStateObject_getOrNew D s b
  unfold StateDB.addBalance
  dsimp only
  split
  · rename_i hv
    subst hv
    split
    · exact .write ho .touch (by rw [Int.add_zero]; rfl)
    · exact .same fun v _ => by simp
  · exact .write ho (.balance _) rfl

theorem subBalance_alters (v : Int) :
    Alters D b (fun h => {h with balance := h.balance - v}) (s.getOrNewStateObject D b).2 (s.subBalance D b v) := by
  unfold StateDB.subBalance
  dsimp only
  split
  · rename_i hv
    exact .same fun v _ => by simp [hv]
  · exact .write (getStateObject_getOrNew D s b) (.balance _) rfl

variable {f : Holding → Holding} {v : Holding}

/-- An operation with an effect readies its account and alters it. -/
theorem Op.alters {op : Op} (hop : op.effect D = some (b, f)) (hrun : op.run D s = (.ok ⟨⟩, t)) :
    ∃ u, Readied D b s u ∧ Alters D b f u t := by
  have hnew := getStateObject_getOrNew D s b
  cases op with
  | addBalance c v =>
    cases hop
    exact ⟨_, readied_getOrNew, eq_of_update hrun rfl ▸ addBalance_alters v⟩
  | subBalance c v =>
    cases hop
    exact ⟨_, readied_getOrNew, eq_of_update hrun rfl ▸ subBalance_alters v⟩
  | addBalanceAndWeight c v =>
    cases hop
    obtain ⟨height, -, rfl⟩ := addBalanceAndWeight_ok hrun
    exact ⟨_, (readied_getOrNew.trans (readied_weigh hnew _ _)).trans readied_getOrNew, addBalance_alters v⟩
  | subBalanceAndWeight c v =>
    cases hop
    obtain ⟨height, -, -, rfl⟩ := subBalanceAndWeight_ok hrun
    exact ⟨_, (readied_getOrNew.trans (readied_weigh hnew _ _)).trans readied_getOrNew, subBalance_alters v⟩
  | setBalance c v =>
    cases hop
    exact ⟨_, readied_getOrNew, eq_of_update hrun rfl ▸ .write hnew (.balance v) rfl⟩
  | setNonce c n =>
    cases hop
    exact ⟨_, readied_getOrNew, eq_of_update hrun rfl ▸ .write hnew (.nonce n) rfl⟩
  | setCode c code =>
    cases hop
    refine ⟨_, readied_getOrNew, eq_of_update hrun rfl ▸ .write hnew (.code code) ?_⟩
    exact congrArg (fun hash => ({holding D _ with codeHash := hash} : Holding)) (FixedBytes.ofBytes_bytes _)
  | setState c k v =>
    cases hop
    refine ⟨_, readied_getOrNew, eq_of_update hrun rfl ▸ .write hnew (.storage k v) ?_⟩
    exact congrArg (Holding.mk _ _ _) (getState_update _ k v _)
  | suicide c =>
    cases hop
    refine ⟨s, .refl, ?_⟩
    rw [eq_of_update hrun rfl]
    unfold StateDB.suicide
    cases ho : s.getStateObject b with
    | none => exact .same fun v hv => nomatch (congrArg (Option.map _) ho).symm.trans hv
    | some o => exact .write ho .suicide rfl
  | _ => exact nomatch hop

theorem Alters.tracked (h : Tracked D a s) (halters : Alters D b f s t)
    (hspares : Orphan s b → ∀ v, s.held D b = some v → f v = v) : Tracked D a t := by
  cases halters with
  | same => exact h
  | write ho hwrites hf =>
    exact h.write ho hwrites fun hb horphan => hf.trans (hspares (hb ▸ horphan) _ (held_eq ho))

/-- **One operation.** -/
theorem Tracked.op (h : Tracked D a s) {op : Op} (hspares : op.Spares D s) (hrun : op.run D s = (.ok ⟨⟩, t)) :
    Tracked D a t := by
  cases heffect : op.effect D with
  | some effect =>
    obtain ⟨b, f⟩ := effect
    obtain ⟨u, hready, halters⟩ := Op.alters heffect hrun
    refine halters.tracked (hready.tracked a h) fun horphan v hv => ?_
    have horphan := hready.orphan.mp horphan
    exact hspares b f heffect horphan v ((hready.held horphan).symm.trans hv)
  | none =>
    cases op with
    | createAccount b =>
      rcases createAccount_run hrun with ⟨hnone, rfl⟩ | ⟨prev, height, hprev, -, rfl⟩
      · exact h.create hnone
      · exact h.replace hprev height
    | clearWeight b =>
      rcases clearWeight_run hrun with ⟨-, rfl⟩ | ⟨o, height, ho, -, rfl⟩
      · exact h
      · exact h.weigh ho 0 height
    | addRefund g =>
      rw [eq_of_update hrun rfl]
      exact (h.of_sameAt (t := {s with refund := s.refund + g}) ⟨rfl, rfl, Iff.rfl⟩ rfl).record fun he => (nomatch he)
    | addLog l =>
      rw [eq_of_update hrun rfl]
      exact (h.of_sameAt (t := {s with
        logs := update s.logs s.thash (s.logs s.thash ++ [_]), logSize := s.logSize + 1})
        ⟨rfl, rfl, Iff.rfl⟩ rfl).record fun he => (nomatch he)
    | addPreimage hash data =>
      rw [eq_of_update hrun rfl]
      unfold StateDB.addPreimage
      cases s.preimages hash with
      | some _ => exact h
      | none =>
        exact (h.of_sameAt (t := {s with preimages := update s.preimages hash (some data)})
          ⟨rfl, rfl, Iff.rfl⟩ rfl).record fun he => (nomatch he)
    | prepare | snapshot =>
      rw [eq_of_update hrun rfl]
      exact h.of_sameAt ⟨rfl, rfl, Iff.rfl⟩ rfl
    | revertToSnapshot id => exact h.revert hrun
    | _ => exact nomatch heffect

/-- The account is not reported, and does not hold what the trie holds. -/
def Lost (D : Database) (s : StateDB) (a : Address) : Prop :=
  a ∉ s.stateObjectsDirty ∧ ¬Agrees D (s.trie a) (s.held D a)

theorem Alters.lost (h : Tracked D b s) (halters : Alters D b f s t)
    (horphan : Orphan s b) (hv : s.held D b = some v) (hne : f v ≠ v) : Lost D t b := by
  cases halters with
  | same hsame => exact absurd (hsame v hv) hne
  | @write o o' e ho hwrites hf =>
    obtain ⟨o₁, ho₁, hdirty, hclean⟩ := horphan
    cases ho.symm.trans ho₁
    have hbefore := (held_eq ho).symm.trans hv
    refine ⟨mem_put_dirty.mpr ⟨hwrites.onDirty.trans hdirty, hclean⟩, fun hagrees => hne ?_⟩
    have hnow := (h.clean hclean).now _ (held_eq ho)
    have hafter := hagrees _ (held_eq (getStateObject_put o' (hwrites.deleted.trans (getStateObject_deleted ho))))
    rw [← Option.some.inj hbefore, ← hf]
    exact Option.some.inj (hafter.symm.trans hnow)

/-- **An operation that does not spare an orphan loses its account.** -/
theorem Op.loses {op : Op} (h : Tracked D b s) (hop : op.effect D = some (b, f))
    (horphan : Orphan s b) (hv : s.held D b = some v) (hne : f v ≠ v)
    (hrun : op.run D s = (.ok ⟨⟩, t)) : Lost D t b := by
  obtain ⟨u, hready, halters⟩ := Op.alters hop hrun
  exact halters.lost (hready.tracked b h) (hready.orphan.mpr horphan) ((hready.held horphan).trans hv) hne

end Account

/-! ### Runs -/

inductive Act
  | op (op : Op)
  | finalise (deleteEmptyObjects : Bool)
  | commit (deleteEmptyObjects : Bool)

/-- The tries that are flushed at the end of a transaction or a block are found again under their roots; this is what
the database is for. -/
def Act.Step (D : Database) (s : StateDB) : Act → StateDB → Prop
  | .op o, t => o.run D s = (.ok ⟨⟩, t)
  | .finalise del, t => Reopens D s ∧ StateDB.finalise D del s = (.ok PUnit.unit.{1}, t)
  | .commit del, t => Reopens D s ∧ ∃ root, StateDB.commit D del s = (.ok root, t)

/-- The account is live and its balance, nonce, code or storage is not what the trie holds. -/
def Unsaved (D : Database) (s : StateDB) (a : Address) : Prop :=
  ∃ o, s.getStateObject a = some o ∧ ¬∃ acc, s.trie a = some acc ∧ o.data.balance = acc.balance ∧
    o.data.nonce = acc.nonce ∧ bytesToHash o.data.codeHash = bytesToHash acc.codeHash ∧
    ∀ key, o.getState D key = (newObject acc).getState D key

/-- Every account that has to be written is in the dirty set. -/
def NothingLost (D : Database) (s : StateDB) : Prop := ∀ a, Unsaved D s a → a ∈ s.stateObjectsDirty

/-- The step does not change what an orphan holds. -/
def Act.Spares (D : Database) (s : StateDB) : Act → Prop
  | .op o => o.Spares D s
  | .finalise _ | .commit _ => True

section Acts
variable {D : Database} {s t : StateDB}

theorem unsaved_iff (a : Address) : Unsaved D s a ↔ ¬Agrees D (s.trie a) (s.held D a) := by
  unfold Unsaved Agrees StateDB.held each
  cases ho : s.getStateObject a with
  | none => simp
  | some o =>
    have hsaved : (∃ acc, s.trie a = some acc ∧ o.data.balance = acc.balance ∧ o.data.nonce = acc.nonce ∧
        bytesToHash o.data.codeHash = bytesToHash acc.codeHash ∧
        ∀ key, o.getState D key = (newObject acc).getState D key) ↔ stored D (s.trie a) = some (o.holding D) := by
      unfold stored
      rw [Option.map_eq_some_iff]
      refine exists_congr fun acc => and_congr_right fun _ => ?_
      rw [← funext_iff, eq_comm (b := o.holding D)]
      unfold holding
      rw [Holding.mk.injEq]
      rfl
    constructor
    · rintro ⟨o', ho', hnot⟩ hagrees
      cases ho'
      exact hnot (hsaved.mpr (hagrees _ rfl))
    · intro hnot
      refine ⟨o, rfl, fun h => hnot fun v hv => ?_⟩
      cases hv
      exact hsaved.mp h

theorem nothingLost_iff : NothingLost D s ↔ ∀ a, ¬Lost D s a := by
  refine forall_congr' fun a => ?_
  rw [unsaved_iff]
  unfold Lost
  tauto

/-- **Nothing is lost in a run exactly if every step spares the orphans.** -/
theorem nothingLost_throughout_iff (D : Database) (trie : AccountTrie) (acts : List Act) :
    Throughout (Act.Step D) (NothingLost D) acts (StateDB.new trie) ↔
      EachStep (Act.Step D) (Act.Spares D) acts (StateDB.new trie) := by
  refine throughout_iff (J := fun s => ∀ a, Tracked D a s) ?_ ?_ ?_ acts fun a => tracked_new D a trie
  · exact fun s hs => nothingLost_iff.mpr fun a hlost => hlost.2 ((hs a).clean hlost.1).now
  · intro s act t hs hstep hspares a
    cases act with
    | op op => exact (hs a).op hspares hstep
    | finalise del =>
      obtain ⟨hopen, hrun⟩ := hstep
      rw [(finalise_ok hrun).2]
      exact (hs a).finalised hopen del
    | commit del =>
      obtain ⟨hopen, root, hrun⟩ := hstep
      rw [(StateDB.commit_ok D).mp hrun |>.2.1]
      exact (hs a).committed hopen del
  · intro s act t hs hstep hspares hnothing
    cases act with
    | op op =>
      unfold Act.Spares Op.Spares at hspares
      push Not at hspares
      obtain ⟨b, f, hop, horphan, v, hv, hne⟩ := hspares
      exact nothingLost_iff.mp hnothing b (Op.loses (hs b) hop horphan hv hne hstep)
    | finalise | commit => exact hspares trivial

/-- A payment to an empty account after a touch of it was rolled back. -/
def touchAndPay : List Op :=
  [.snapshot, .addBalance (bytesToAddress [1]) 0, .revertToSnapshot 0, .addBalance (bytesToAddress [1]) 5]

def afterTouchAndPay : StateDB := (runOps .sample touchAndPay (StateDB.new (oneAccount (bytesToAddress [1]) 0))).2

/-- The payment is not reported, and `Finalise` does not write it. -/
theorem payment_lost :
    runOps .sample touchAndPay (StateDB.new (oneAccount (bytesToAddress [1]) 0)) = (.ok ⟨⟩, afterTouchAndPay) ∧
    Unsaved .sample afterTouchAndPay (bytesToAddress [1]) ∧
    bytesToAddress [1] ∉ afterTouchAndPay.stateObjectsDirty ∧
    afterTouchAndPay.getBalance (bytesToAddress [1]) = 5 ∧
    (afterTouchAndPay.finalisedTrie .sample true (bytesToAddress [1])).map Account.balance = some 0 := by
  have hok : (runOps .sample touchAndPay (StateDB.new (oneAccount (bytesToAddress [1]) 0))).1 = .ok ⟨⟩ := by
    decide +kernel
  have hlive : (afterTouchAndPay.getStateObject (bytesToAddress [1])).map (·.data.balance) = some 5 := by
    decide +kernel
  have htrie : (afterTouchAndPay.trie (bytesToAddress [1])).map Account.balance = some 0 := by decide +kernel
  refine ⟨Prod.ext hok rfl, ?_, by decide +kernel, by decide +kernel, by decide +kernel⟩
  obtain ⟨o, ho, hbalance⟩ := Option.map_eq_some_iff.mp hlive
  refine ⟨o, ho, ?_⟩
  rintro ⟨acc, hacc, hsame, -⟩
  rw [hacc, Option.map_some, ← hsame, hbalance] at htrie
  exact absurd (Option.some.inj htrie) (by decide)

end Acts

end Okchain.State
