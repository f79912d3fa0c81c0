import Okchain.Lib.Journal
import Okchain.State.Operations

/-! Rolling back to a snapshot restores the contents of all accounts.

`Ledger` is what can be read of a state, without the coin age. Undoing an entry of the journal is an operation on
ledgers (`undo_outcome`), so the rules for undo logs apply. An account deleted by `Finalise` stays in memory as a
deleted object. Creating it anew and undoing that drops the object, and the account is looked up in the trie again,
where `Finalise` has deleted it too (`Tidy`).
-/
namespace Okchain.State
open Lib Lib.Journal Relation Function List
open Proc hiding update

variable {o o' : StateObject} {e : JournalEntry} {id n : Nat}
/-! ### Ledgers -/

structure Contents where
  nonce : UInt64
  balance : Int
  code : Bytes
  codeHash : Hash
  storage : Hash → Hash
  suicided : Bool

structure Ledger where
  accounts : Address → Option Contents
  refund : UInt64
  logs : Hash → List Log
  logSize : Nat
  preimages : Hash → Option Bytes

/-- The code of an object with this code and this hash. -/
def codeOf (D : Database) (code : Option Bytes) (codeHash : Bytes) : Option Bytes :=
  match code with
  | some c => some c
  | none => if codeHash = D.emptyCodeHash then none else D.contractCode (bytesToHash codeHash)

def StateObject.contents (D : Database) (o : StateObject) : Contents where
  nonce := o.data.nonce
  balance := o.data.balance
  code := (codeOf D o.code o.data.codeHash).getD []
  codeHash := bytesToHash o.data.codeHash
  storage := o.getState D
  suicided := o.suicided

open StateObject (contents getState written)

def StateDB.ledger (D : Database) (s : StateDB) : Ledger where
  accounts := s.each (StateObject.contents D)
  refund := s.refund
  logs := s.logs
  logSize := s.logSize
  preimages := s.preimages

open StateDB (ledger liveObject revertToSnapshot ripemd undoNewest)

def Ledger.put (l : Ledger) (a : Address) (c : Contents) : Ledger :=
  {l with accounts := update l.accounts a (some c)}

/-- `undo` as an operation on ledgers over a given trie. -/
def Ledger.undo (D : Database) (trie : AccountTrie) : JournalEntry → Ledger → Option Ledger
  | .createObject a, l => some {l with
      accounts := update l.accounts a ((trie a).map fun acc => (newObject acc).contents D)}
  | .resetObject a prev, l => some {l with
      accounts := update l.accounts a (if prev.deleted then none else some (prev.contents D))}
  | .suicide a prev prevbalance, l => some (((l.accounts a).map fun c =>
      l.put a {c with suicided := prev, balance := prevbalance}).getD l)
  | .balance a prev, l => (l.accounts a).map fun c => l.put a {c with balance := prev}
  | .nonce a prev, l => (l.accounts a).map fun c => l.put a {c with nonce := prev}
  | .storage a key prevalue, l => (l.accounts a).map fun c =>
      l.put a {c with storage := update c.storage key prevalue}
  | .code a prevcode prevhash, l => (l.accounts a).map fun c => l.put a {c with
      code := (codeOf D prevcode (bytesToHash prevhash).bytes).getD []
      codeHash := bytesToHash prevhash}
  | .refund prev, l => some {l with refund := prev}
  | .addLog txhash, l => if l.logs txhash ≠ [] then some {l with
      logs := update l.logs txhash (l.logs txhash).dropLast
      logSize := l.logSize - 1} else none
  | .addPreimage hash, l => some {l with preimages := update l.preimages hash none}
  | .touch a prev _, l => if prev = false ∧ a ≠ StateDB.ripemd then (l.accounts a).map fun _ => l else some l

section Undo
variable {D : Database} {s t : StateDB} {a : Address}

theorem ledger_accounts (D : Database) (s : StateDB) (a : Address) :
    (s.ledger D).accounts a = (s.getStateObject a).map (·.contents D) := rfl

theorem ledger_put (hdel : o.deleted = false) : (s.put a o).ledger D = (s.ledger D).put a (o.contents D) :=
  congrArg (fun accounts => ({s.ledger D with accounts := accounts} : Ledger)) (each_put rfl hdel)

/-- The ledger an operation leaves, if it returns. -/
def outcome (D : Database) : Except Err PUnit × StateDB → Option Ledger
  | (.ok _, t) => some (t.ledger D)
  | (.error _, _) => none

theorem live_outcome {f : StateObject → StateDB → StateDB} {g : Contents → Ledger}
    (h : ∀ o, s.getStateObject a = some o → (f o s).ledger D = g (o.contents D)) :
    outcome D ((do
      let o ← liveObject a
      .update (f o)) s) = ((s.ledger D).accounts a).map g := by
  rw [ledger_accounts]
  cases ho : s.getStateObject a with
  | none =>
    have hrun : liveObject a s = (.error (.panic .nilDereference), s) := by
      unfold liveObject
      rw [ho]
      rfl
    rw [bind_eq_andThen, hrun]
    rfl
  | some o =>
    have hrun : liveObject a s = (.ok o, s) := by
      unfold liveObject
      rw [ho]
      rfl
    rw [bind_run hrun]
    exact congrArg some (h o ho)

theorem putBack_outcome {f : StateObject → StateObject} {g : Contents → Contents}
    (hdel : ∀ o, (f o).deleted = o.deleted) (hcontents : ∀ o, (f o).contents D = g (o.contents D)) :
    outcome D ((do
      let o ← liveObject a
      .update fun s => s.put a (f o)) s) = ((s.ledger D).accounts a).map fun c => (s.ledger D).put a (g c) := by
  refine live_outcome fun o ho => ?_
  rw [ledger_put ((hdel o).trans (getStateObject_deleted ho)), hcontents]

theorem getState_update (o : StateObject) (key value : Hash) (dirty : Storage) : getState D {o with
      cachedStorage := update o.cachedStorage key (some value), dirtyStorage := dirty} =
      update (o.getState D) key value := by
  funext k
  by_cases hk : k = key
  · subst hk
    simp [getState]
  · simp only [getState, update_of_ne hk]
    rfl

theorem ledger_update {o : Option StateObject} {dirty : Finset Address} {c : Option Contents} (hc : (match o with
      | some o => if o.deleted then none else some o
      | none => (s.trie a).map newObject).map (contents D) = c) :
    ({s with stateObjects := update s.stateObjects a o, stateObjectsDirty := dirty} : StateDB).ledger D =
      {s.ledger D with accounts := update (s.ledger D).accounts a c} := by
  rw [← hc]
  exact congrArg (fun accounts => ({s.ledger D with accounts := accounts} : Ledger)) each_update

/-- **Undoing an entry is an operation on the ledger.** -/
theorem undo_outcome (D : Database) (e : JournalEntry) (s : StateDB) :
    outcome D (StateDB.undo e s) = Ledger.undo D s.trie e (s.ledger D) := by
  cases e with
  | createObject a =>
    refine congrArg some (ledger_update ?_)
    cases s.trie a <;> rfl
  | resetObject a prev =>
    refine congrArg some (ledger_update ?_)
    dsimp only
    split <;> rfl
  | suicide a prev prevbalance =>
    rw [Ledger.undo, ledger_accounts, StateDB.undo, Proc.update]
    cases ho : s.getStateObject a with
    | none => rfl
    | some o =>
      have hdel : o.deleted = false := getStateObject_deleted ho
      exact congrArg some (ledger_put hdel)
  | balance a prev =>
    exact putBack_outcome
      (fun _ => rfl) fun _ => rfl
  | nonce a prev =>
    exact putBack_outcome
      (fun _ => rfl) fun _ => rfl
  | storage a key prevalue =>
    refine putBack_outcome
      (fun _ => rfl) fun o => ?_
    exact congrArg (fun storage => ({o.contents D with storage := storage} : Contents)) (getState_update o _ _ _)
  | code a prevcode prevhash =>
    refine putBack_outcome
      (g := fun c => {c with
        code := (codeOf D prevcode (bytesToHash prevhash).bytes).getD []
        codeHash := bytesToHash prevhash}) (fun _ => rfl) fun o => ?_
    exact congrArg (fun hash => ({o.contents D with
      code := (codeOf D prevcode (bytesToHash prevhash).bytes).getD [], codeHash := hash} : Contents))
      (FixedBytes.ofBytes_bytes _)
  | refund prev => rfl
  | addPreimage hash => rfl
  | addLog txhash =>
    by_cases hlogs : s.logs txhash ≠ []
    · refine (congrArg (outcome D) (bind_ensureState hlogs)).trans ?_
      exact (if_pos hlogs).symm
    · refine (congrArg (outcome D)
        (bind_ensureState_not hlogs)).trans ?_
      exact (if_neg hlogs).symm
  | touch a prev prevDirty =>
    by_cases hfirst : prev = false ∧ a ≠ ripemd
    · simp only [StateDB.undo, Ledger.undo, if_pos hfirst]
      refine live_outcome fun o ho => ?_
      have hsame : update (s.ledger D).accounts a (some (o.contents D)) = (s.ledger D).accounts := by
        refine update_eq_self_iff.mpr ?_
        rw [ledger_accounts, ho]
        rfl
      refine (ledger_update (c := some (o.contents D)) ?_).trans ?_
      · simp only [getStateObject_deleted ho]
        rfl
      · rw [hsame]
    · simp only [StateDB.undo, Ledger.undo, if_neg hfirst]
      rfl

end Undo

section Undoing
variable {D : Database} {s t : StateDB}

theorem undoNewest_outcome (D : Database) (n : Nat) (s : StateDB) (hn : n ≤ s.journal.length) :
    outcome D (undoNewest n s) = unwind (Ledger.undo D s.trie) (s.journal.take n) (s.ledger D) := by
  induction n generalizing s with
  | zero => rfl
  | succ n ih =>
    cases hj : s.journal with
    | nil =>
      rw [hj] at hn
      exact absurd hn (Nat.not_succ_le_zero n)
    | cons e js =>
      have hundo := undo_outcome D e {s with journal := js}
      rw [undoNewest_succ n hj, bind_eq_andThen]
      rcases hrun : StateDB.undo e {s with journal := js} with ⟨err | _, u⟩
      · rw [hrun] at hundo
        exact (congrArg (Option.bind · _) hundo)
      · rw [hrun] at hundo
        obtain ⟨htrie, hjournal, -, -⟩ := (undo_undoes hrun).undone
        have hlength : n ≤ u.journal.length := by
          rw [hjournal]
          rw [hj] at hn
          exact Nat.le_of_succ_le_succ hn
        refine (ih u hlength).trans ?_
        rw [htrie, hjournal]
        exact congrArg (Option.bind · (unwind (Ledger.undo D s.trie) (js.take n))) hundo

/-! ### Edits are moves of the undo log -/

def StateDB.book (s : StateDB) : Book JournalEntry where
  entries := s.journal
  marks := s.validRevisions.map fun r => (r.id, r.journalIndex)
  nextId := s.nextRevisionId

/-- What `Finalise` has deleted is not in the trie, and would be deleted again. The journal replaces live objects. -/
structure Tidy (D : Database) (s : StateDB) : Prop where
  deleted : ∀ a o, s.stateObjects a = some o → o.deleted = true → o.doomed D true = true ∧ s.trie a = none
  replaced : ∀ a prev, JournalEntry.resetObject a prev ∈ s.journal → prev.deleted = false

variable {a : Address} {l : Ledger} {c : Contents} {r : Revision}

section
variable (hs : Tidy D s)
include hs

theorem Tidy.absent (h : s.getStateObject a = none) : s.trie a = none := by
  unfold StateDB.getStateObject at h
  cases ho : s.stateObjects a with
  | none =>
    rw [ho] at h
    exact Option.map_eq_none_iff.mp h
  | some o =>
    rw [ho] at h
    dsimp only at h
    split at h
    · exact (hs.deleted a o ho ‹_›).2
    · exact nomatch h

theorem Tidy.update {o : Option StateObject} {dirty : Finset Address} (hdel : ∀ o', o = some o' → o'.deleted = false) :
    Tidy D {s with stateObjects := update s.stateObjects a o, stateObjectsDirty := dirty} := by
  refine ⟨fun b o' hb hdeleted => ?_, hs.replaced⟩
  by_cases hba : b = a
  · subst hba
    have ho : o = some o' := (update_self b o s.stateObjects).symm.trans hb
    exact absurd ((hdel o' ho).symm.trans hdeleted) Bool.false_ne_true
  · exact hs.deleted b o' ((update_of_ne hba o s.stateObjects).symm.trans hb) hdeleted

theorem Tidy.put (hdel : o.deleted = false) : Tidy D (s.put a o) := by
  refine hs.update fun o' ho' => ?_
  cases ho'
  exact hdel

theorem Tidy.of_objects (hobjects : t.stateObjects = s.stateObjects) (htrie : t.trie = s.trie)
    (hjournal : t.journal = e :: s.journal) (he : ∀ a prev, e = .resetObject a prev → prev.deleted = false) :
    Tidy D t := by
  refine ⟨?_, fun a prev hmem => ?_⟩
  · rw [hobjects, htrie]
    exact hs.deleted
  · rw [hjournal] at hmem
    rcases mem_cons.mp hmem with heq | hmem
    · exact he a prev heq.symm
    · exact hs.replaced a prev hmem

theorem Tidy.record (he : ∀ a prev, e = .resetObject a prev → prev.deleted = false) : Tidy D (s.record e) :=
  hs.of_objects rfl rfl rfl he

end

theorem Writes.deleted (h : Writes D a o o' e) : o'.deleted = o.deleted := by
  cases h <;> rfl

theorem Writes.not_reset {b : Address} {prev : StateObject} (h : Writes D a o o' e) : e ≠ .resetObject b prev := by
  cases h <;> exact fun heq => (nomatch heq)

theorem Restores.deleted (h : Restores a o e o') : o'.deleted = o.deleted := by
  cases h <;> rfl

theorem Undoes.tidy (h : Undoes s e t) (hs : Tidy D s) (he : ∀ a prev, e = .resetObject a prev → prev.deleted = false) :
    Tidy D t := by
  cases h with
  | drop a => exact hs.update fun o ho => (nomatch ho)
  | reset a prev =>
    refine hs.update fun o ho => ?_
    cases ho
    exact he a prev rfl
  | put ho hrestores => exact hs.put (hrestores.deleted.trans (getStateObject_deleted ho))
  | untouch prevDirty ho =>
    have hdel := getStateObject_deleted ho
    refine hs.update fun o' ho' => ?_
    cases ho'
    exact hdel
  | gone | retouched | refund | log | preimage => exact ⟨hs.deleted, hs.replaced⟩

theorem undoNewest_tidy (hn : n ≤ s.journal.length) (hs : Tidy D s) (h : undoNewest n s = (.ok ⟨⟩, t)) : Tidy D t := by
  refine undoNewest_rule (P := fun _ u => Tidy D u) ?_ n s t hn hs h
  intro _ u e js v hu hj hundo
  refine (undo_undoes hundo).tidy ⟨hu.deleted, fun a prev hmem => hu.replaced a prev ?_⟩ fun a prev he => hu.replaced a prev ?_
  · rw [hj]
    exact mem_cons_of_mem e hmem
  · rw [hj, he]
    exact mem_cons_self ..

theorem Ledger.put_back {c' : Contents} {f : Contents → Contents} (h : l.accounts a = some c) (hf : f c' = c) :
    ((l.put a c').accounts a).map (fun c => (l.put a c').put a (f c)) = some l := by
  have hput : (l.put a c').accounts a = some c' := update_self _ _ _
  rw [hput, Option.map_some, hf]
  unfold Ledger.put
  simp only [update_idem]
  rw [← h, update_eq_self]

theorem Ledger.put_self (h : l.accounts a = some c) : l.put a c = l := by
  unfold Ledger.put
  rw [← h, update_eq_self]

theorem codeOf_codeOf (D : Database) (code : Option Bytes) (codeHash : Bytes) :
    codeOf D (codeOf D code codeHash) (bytesToHash codeHash).bytes = codeOf D code codeHash := by
  cases code with
  | some c => rfl
  | none =>
    by_cases hempty : codeHash = D.emptyCodeHash
    · have hbytes : (bytesToHash codeHash).bytes = D.emptyCodeHash := by
        rw [hempty]
        exact congrArg FixedBytes.bytes (FixedBytes.ofBytes_bytes _)
      simp only [codeOf, if_pos hempty, if_pos hbytes]
    · have hhash : bytesToHash (bytesToHash codeHash).bytes = bytesToHash codeHash := FixedBytes.ofBytes_bytes _
      simp only [codeOf, if_neg hempty]
      cases hcode : D.contractCode (bytesToHash codeHash) with
      | some c => rfl
      | none =>
        dsimp only
        split
        · rfl
        · rw [hhash, hcode]

theorem Writes.undo (h : Writes D a o o' e) (hl : l.accounts a = some (o.contents D)) (trie : AccountTrie) :
    Ledger.undo D trie e (l.put a (o'.contents D)) = some l := by
  cases h with
  | balance v => exact Ledger.put_back hl rfl
  | nonce n => exact Ledger.put_back hl rfl
  | code c =>
    refine Ledger.put_back (f := fun c => {c with
      code := (codeOf D (o.getCode D) (bytesToHash o.data.codeHash).bytes).getD []
      codeHash := bytesToHash o.data.codeHash}) hl ?_
    have hcode : (codeOf D (o.getCode D) (bytesToHash o.data.codeHash).bytes).getD [] = (o.contents D).code :=
      congrArg (Option.getD · []) (codeOf_codeOf D o.code o.data.codeHash)
    exact congrArg (fun code => ({o.contents D with code := code} : Contents)) hcode
  | storage k v =>
    refine Ledger.put_back hl ?_
    have hstorage : update (update (o.getState D) k v) k (o.getState D k) = o.getState D := by
      rw [update_idem, update_eq_self]
    refine congrArg (fun storage => ({o.contents D with storage := storage} : Contents)) (Eq.trans ?_ hstorage)
    exact congrArg (update · k (o.getState D k)) (getState_update o k v _)
  | suicide =>
    refine congrArg some (congrArg (Option.getD · _) (Ledger.put_back
      hl ?_))
    rfl
  | touch =>
    have hsame : l.put a (contents D {o with touched := true}) = l := Ledger.put_self hl
    rw [hsame]
    show (if o.touched = false ∧ a ≠ ripemd then (l.accounts a).map fun _ => l else some l) = some l
    rw [hl]
    split <;> rfl

theorem found_id (h : s.validRevisions.find? (fun r => r.id == id) = some r) : r.id = id := by
  simpa using find?_some h

theorem mem_marks (hr : r ∈ s.validRevisions) : (r.id, r.journalIndex) ∈ s.book.marks :=
  mem_map.mpr ⟨r, hr, rfl⟩

section Views
variable {α : Type} {V : StateDB → α} {U : AccountTrie → JournalEntry → α → Option α}

section
variable (hundo : ∀ {e s t}, StateDB.undo e s = (.ok ⟨⟩, t) → U s.trie e (V s) = some (V t))
  (hV : ∀ s js rs, V {s with journal := js, validRevisions := rs} = V s)
include hundo hV

theorem undoNewest_unwind (hn : n ≤ s.journal.length)
    (h : undoNewest n s = (.ok ⟨⟩, t)) : unwind (U s.trie) (s.journal.take n) (V s) = some (V t) := by
  refine (undoNewest_rule (P := fun k u => u.trie = s.trie ∧
    unwind (U s.trie) (s.journal.take n) (V s) = unwind (U s.trie) (u.journal.take k) (V u)) ?_
    n s t hn ⟨rfl, rfl⟩ h).2
  rintro k u e js v ⟨htrie, heq⟩ hj hrun
  have hv := (undo_undoes hrun).undone
  refine ⟨hv.trie.trans htrie, heq.trans ?_⟩
  have hstep : U s.trie e (V u) = some (V v) := by
    rw [← hV u js u.validRevisions, ← htrie]
    exact hundo hrun
  rw [hj, hv.journal]
  show (U s.trie e (V u)).bind (unwind (U s.trie) (js.take k)) = _
  rw [hstep]
  rfl

/-- Rolling back is going back to a mark. -/
theorem revertToSnapshot_moves
    (h : revertToSnapshot id s = (.ok ⟨⟩, t)) : Moves (U s.trie) (V s) s.book (V t) t.book := by
  obtain ⟨r, u, hfound, hrun, rfl⟩ := revertToSnapshot_ok.mp h
  have hid := found_id hfound
  have hlength := Nat.sub_le s.journal.length r.journalIndex
  have hframe := undoNewest_undone hlength hrun
  have hbook : (s.book.back id r.journalIndex) = StateDB.book {u with
      validRevisions := u.validRevisions.filter (fun r => r.id < id)} := by
    unfold StateDB.book Book.back
    rw [hframe.journal, hframe.revisions, hframe.nextId]
    simp only [filter_map]
    rfl
  rw [← hbook, hV u u.journal]
  refine .back ?_ (undoNewest_unwind hundo hV hlength hrun)
  rw [← hid]
  exact mem_marks (mem_of_find?_eq_some hfound)

theorem revertToSnapshot_restored (hs : s.book.Sound)
    (hmark : (id, n) ∈ s.book.marks) (h : revertToSnapshot id s = (.ok ⟨⟩, t)) :
    restored (U s.trie) n (V s) s.book = some (V t) := by
  obtain ⟨r, u, hfound, hrun, rfl⟩ := revertToSnapshot_ok.mp h
  have hn : r.journalIndex = n := congrArg Prod.snd
    (hs.eq_of_id (mem_marks (mem_of_find?_eq_some hfound)) hmark (found_id hfound))
  rw [hV u u.journal, ← hn]
  exact undoNewest_unwind hundo hV (Nat.sub_le _ _) hrun

end

theorem moves_record (hV : ∀ s js rs, V {s with journal := js, validRevisions := rs} = V s) (hbook : t.book = s.book)
    (hundo : U s.trie e (V t) = some (V s)) :
    Moves (U s.trie) (V s) s.book (V (t.record e)) (t.record e).book := by
  have hrecord : (t.record e).book = {s.book with entries := [e] ++ s.book.entries} := by
    rw [← hbook]
    rfl
  rw [hrecord]
  refine .write [e] ((unwind_singleton _ e _).trans ?_)
  rw [← hundo]
  exact congrArg (U s.trie e) (hV t (e :: t.journal) t.validRevisions)

end Views

theorem ledger_undo (D : Database) {s t : StateDB} (h : StateDB.undo e s = (.ok ⟨⟩, t)) :
    Ledger.undo D s.trie e (s.ledger D) = some (t.ledger D) := by
  rw [← undo_outcome, h]
  rfl

theorem revertToSnapshot_tidy (hs : Tidy D s) (h : revertToSnapshot id s = (.ok ⟨⟩, t)) : Tidy D t := by
  obtain ⟨r, u, -, hundo, rfl⟩ := revertToSnapshot_ok.mp h
  have hu := undoNewest_tidy (Nat.sub_le _ _) hs hundo
  exact ⟨hu.deleted, hu.replaced⟩

theorem revertToSnapshot_trie (h : revertToSnapshot id s = (.ok ⟨⟩, t)) : t.trie = s.trie := by
  obtain ⟨r, u, -, hundo, rfl⟩ := revertToSnapshot_ok.mp h
  exact (undoNewest_undone (Nat.sub_le _ _) hundo).trie

theorem Logged.trie (h : Logged D s t) : t.trie = s.trie := by
  cases h with
  | revert hrevert => exact revertToSnapshot_trie hrevert
  | preimage hnone data =>
    unfold StateDB.addPreimage
    rw [hnone]
    rfl
  | create | replace | write | refund | log | prepare | snapshot => rfl

theorem Edit.trie (h : Edit D s t) : t.trie = s.trie := by
  cases h with
  | logged h => exact h.trie
  | weigh => rfl

theorem Logged.tidy (h : Logged D s t) (hs : Tidy D s) : Tidy D t := by
  cases h with
  | create habsent => exact (hs.put rfl).record fun _ _ he => (nomatch he)
  | replace hprev height =>
    refine Tidy.record (hs.put rfl) fun _ _ he => ?_
    cases he
    exact getStateObject_deleted hprev
  | write ho hwrites =>
    exact (hs.put (hwrites.deleted.trans (getStateObject_deleted ho))).record fun _ _ he => (hwrites.not_reset he).elim
  | refund gas => exact Tidy.of_objects hs rfl rfl rfl fun _ _ he => (nomatch he)
  | log l => exact Tidy.of_objects hs rfl rfl rfl fun _ _ he => (nomatch he)
  | @preimage hash hnone data =>
    unfold StateDB.addPreimage
    rw [hnone]
    exact Tidy.of_objects hs rfl rfl rfl fun _ _ he => (nomatch he)
  | prepare | snapshot => exact ⟨hs.deleted, hs.replaced⟩
  | revert hrevert => exact revertToSnapshot_tidy hs hrevert

theorem Edit.tidy (h : Edit D s t) (hs : Tidy D s) : Tidy D t := by
  cases h with
  | logged h => exact h.tidy hs
  | weigh ho weight height =>
    have hdel := getStateObject_deleted ho
    exact hs.put hdel

theorem ledger_moves (hbook : t.book = s.book) (hundo : Ledger.undo D s.trie e (t.ledger D) = some (s.ledger D)) :
    Moves (Ledger.undo D s.trie) (s.ledger D) s.book ((t.record e).ledger D) (t.record e).book :=
  moves_record (fun _ _ _ => rfl) hbook hundo

theorem Logged.moves (h : Logged D s t) (hs : Tidy D s) :
    Moves (Ledger.undo D s.trie) (s.ledger D) s.book (t.ledger D) t.book := by
  cases h with
  | @create a habsent =>
    refine ledger_moves (t := s.put a (newObject (newAccount D))) rfl ?_
    have hnone : (s.ledger D).accounts a = (s.trie a).map fun acc => (newObject acc).contents D := by
      rw [ledger_accounts, habsent, hs.absent habsent]
      rfl
    rw [ledger_put rfl]
    show some ({s.ledger D with accounts := update (update _ a _) a _} : Ledger) = _
    rw [update_idem, ← hnone, update_eq_self]
  | @replace a prev hprev height =>
    refine ledger_moves (t := s.put a (newObject (replacement D prev.data.balance height))) rfl ?_
    have hsome : (s.ledger D).accounts a = if prev.deleted then none else some (prev.contents D) := by
      rw [ledger_accounts, hprev, getStateObject_deleted hprev]
      rfl
    rw [ledger_put rfl]
    show some ({s.ledger D with accounts := update (update _ a _) a _} : Ledger) = _
    rw [update_idem, ← hsome, update_eq_self]
  | @write a o o' e ho hwrites =>
    refine ledger_moves rfl ?_
    rw [ledger_put (hwrites.deleted.trans (getStateObject_deleted ho))]
    refine hwrites.undo ?_ s.trie
    rw [ledger_accounts, ho]
    rfl
  | refund gas => exact ledger_moves rfl rfl
  | log l =>
    refine ledger_moves rfl ?_
    simp [Ledger.undo, ledger]
    rfl
  | @preimage hash hnone data =>
    unfold StateDB.addPreimage
    rw [hnone]
    refine ledger_moves rfl ?_
    show some ({s.ledger D with preimages := update (update _ hash _) hash _} : Ledger) = _
    rw [update_idem, ← hnone, update_eq_self]
    rfl
  | prepare => exact .write [] rfl
  | snapshot => exact .mark
  | revert hrevert => exact revertToSnapshot_moves (ledger_undo D) (fun _ _ _ => rfl) hrevert

/-- **Every edit is a move of the undo log.** -/
theorem Edit.moves (h : Edit D s t) (hs : Tidy D s) :
    Moves (Ledger.undo D s.trie) (s.ledger D) s.book (t.ledger D) t.book := by
  cases h with
  | logged h => exact h.moves hs
  | @weigh a o ho weight height =>
    have hdel := getStateObject_deleted ho
    have hsame : (s.setObjectWeight a o weight height).ledger D = s.ledger D := by
      refine (ledger_put (o := {o with data := {o.data with
        weightAtLastUpdatedHeight := weight, lastUpdatedHeight := height}}) hdel).trans (Ledger.put_self ?_)
      rw [ledger_accounts, ho]
      rfl
    rw [hsame]
    exact .write [] rfl

/-- A sequence of edits is a run of the undo log. -/
theorem edits_run (h : ReflTransGen (Edit D) s t) (hs : Tidy D s) :
    t.trie = s.trie ∧ Tidy D t ∧ Runs (Ledger.undo D s.trie) (s.ledger D, s.book) (t.ledger D, t.book) := by
  induction h with
  | refl => exact ⟨rfl, hs, .refl⟩
  | tail _ hedit ih =>
    obtain ⟨htrie, htidy, hrun⟩ := ih
    have hmoves := hedit.moves htidy
    rw [htrie] at hmoves
    exact ⟨hedit.trie.trans htrie, hedit.tidy htidy, hrun.tail hmoves⟩

end Undoing

/-! ### States between transactions -/

/-- A state opened on a trie, changed by operations, with `Finalise(true)` at the end of transactions. -/
inductive Opened (D : Database) : StateDB → Prop
  | new (trie : AccountTrie) : Opened D (StateDB.new trie)
  | op {s t : StateDB} {op : Op} (hs : Opened D s) (hrun : op.run D s = (.ok ⟨⟩, t)) : Opened D t
  | finalise {s t : StateDB} (hs : Opened D s) (hrun : StateDB.finalise D true s = (.ok PUnit.unit.{1}, t)) : Opened D t

section Opened
variable {D : Database} {s t : StateDB}

theorem finalise_ok {del : Bool} (h : StateDB.finalise D del s = (.ok PUnit.unit.{1}, t)) :
    s.Finalisable D del ∧ t = s.finalised D del := by
  obtain ⟨_, u, hensure, hupdate⟩ := bind_ok.mp h
  obtain ⟨hfin, rfl⟩ := ensureState_ok.mp hensure
  exact ⟨hfin, update_ok.mp hupdate⟩

theorem Tidy.finalised (hs : Tidy D s) : Tidy D (s.finalised D true) := by
  refine ⟨fun a o ho hdel => ?_, fun _ _ hmem => (nomatch hmem)⟩
  show _ ∧ s.finalisedTrie D true a = none
  replace ho : (if a ∈ s.stateObjectsDirty then (s.stateObjects a).map (·.finalised D true) else s.stateObjects a) =
    some o := ho
  by_cases ha : a ∈ s.stateObjectsDirty
  · rw [if_pos ha] at ho
    obtain ⟨o₀, ho₀, rfl⟩ := Option.map_eq_some_iff.mp ho
    rw [StateDB.finalisedTrie_dirty D ha ho₀]
    unfold StateObject.finalised at hdel ⊢
    unfold written
    by_cases hdoomed : o₀.doomed D true = true
    · simp only [if_pos hdoomed]
      exact ⟨hdoomed, trivial⟩
    · rw [if_neg hdoomed] at hdel
      exact absurd (hs.deleted a o₀ ho₀ hdel).1 hdoomed
  · rw [if_neg ha] at ho
    rw [StateDB.finalisedTrie_clean D ha]
    exact hs.deleted a o ho hdel

theorem Opened.tidy (h : Opened D s) : Tidy D s ∧ s.book.Sound := by
  induction h with
  | new trie => exact ⟨⟨fun _ _ ho => (nomatch ho), fun _ _ hmem => (nomatch hmem)⟩,
      ⟨.nil, fun _ hmem => (nomatch hmem)⟩⟩
  | op _ hrun ih =>
    obtain ⟨-, htidy, hruns⟩ := edits_run (Op.edits hrun) ih.1
    exact ⟨htidy, hruns.sound ih.2⟩
  | finalise _ hrun ih =>
    obtain ⟨-, rfl⟩ := finalise_ok hrun
    exact ⟨ih.1.finalised, ⟨.nil, fun _ hmem => (nomatch hmem)⟩⟩

end Opened

/-- Two states in which everything that can be read of accounts, refunds, logs and preimages is the same. -/
structure SameContents (D : Database) (s t : StateDB) : Prop where
  exist : ∀ a, t.exist a = s.exist a
  balance : ∀ a, t.getBalance a = s.getBalance a
  nonce : ∀ a, t.getNonce a = s.getNonce a
  code : ∀ a, t.getCode D a = s.getCode D a
  codeHash : ∀ a, t.getCodeHash a = s.getCodeHash a
  storage : ∀ a key, t.getState D a key = s.getState D a key
  suicided : ∀ a, t.hasSuicided a = s.hasSuicided a
  refund : t.refund = s.refund
  logs : t.logs = s.logs
  logSize : t.logSize = s.logSize
  preimages : t.preimages = s.preimages

section Contents
variable {D : Database} {s t : StateDB}

theorem read_same {β : Type} {f : StateObject → β} {g : Contents → β} {d : β} (h : t.ledger D = s.ledger D)
    (hf : ∀ o, f o = g (o.contents D)) (a : Address) : (match t.getStateObject a with
      | some o => f o
      | none => d) = (match s.getStateObject a with
      | some o => f o
      | none => d) := by
  have hread : ∀ s : StateDB, (match s.getStateObject a with
      | some o => f o
      | none => d) = ((s.ledger D).accounts a).elim d g := fun s => by
    rw [ledger_accounts]
    cases s.getStateObject a with
    | none => rfl
    | some o => exact hf o
  rw [hread, hread, h]

theorem SameContents.of_ledger (h : t.ledger D = s.ledger D) : SameContents D s t where
  exist a := by
    have hexist : ∀ s : StateDB, s.exist a = ((s.ledger D).accounts a).isSome := fun s => by
      rw [ledger_accounts, Option.isSome_map]
      rfl
    rw [hexist, hexist, h]
  balance a := read_same h (g := Contents.balance) (fun _ => rfl) a
  nonce a := read_same h (g := Contents.nonce) (fun _ => rfl) a
  code a := read_same h (g := Contents.code) (fun _ => rfl) a
  codeHash a := read_same h (g := Contents.codeHash) (fun _ => rfl) a
  storage a key := read_same h (g := (Contents.storage · key)) (fun _ => rfl) a
  suicided a := read_same h (g := Contents.suicided) (fun _ => rfl) a
  refund := congrArg Ledger.refund h
  logs := congrArg Ledger.logs h
  logSize := congrArg Ledger.logSize h
  preimages := congrArg Ledger.preimages h

def StateDB.Valid (s : StateDB) (id : Nat) : Prop := ∃ r ∈ s.validRevisions, r.id = id

section
variable (hs : Tidy D s) (hb : s.book.Sound) (h : ReflTransGen (Edit D) s.snapshot.2 t)
include hs hb h

/-- A snapshot that is valid keeps its place in the journal. -/
theorem snapshot_mark (hmark : (s.snapshot.1, n) ∈ t.book.marks) : n = s.journal.length := by
  obtain ⟨-, -, hruns⟩ := edits_run h (Logged.snapshot.tidy hs)
  have hold := (hruns.restored_eq hb.marked (Nat.lt_succ_self _) hmark).1
  exact congrArg Prod.snd (hb.marked.eq_of_id hold (mem_cons_self ..) rfl)

theorem revertToSnapshot_returns (hvalid : t.Valid s.snapshot.1) :
    ∃ u, revertToSnapshot s.snapshot.1 t = (.ok ⟨⟩, u) ∧ u.ledger D = s.ledger D := by
  obtain ⟨htrie, -, hruns⟩ := edits_run h (Logged.snapshot.tidy hs)
  -- the first revision with this identifier is found
  have hfind : (t.validRevisions.find? fun r => r.id == s.snapshot.1).isSome := by
    rw [find?_isSome]
    obtain ⟨r, hr, hid⟩ := hvalid
    exact ⟨r, hr, beq_iff_eq.mpr hid⟩
  obtain ⟨r, hfound⟩ := Option.isSome_iff_exists.mp hfind
  have hid : r.id = s.nextRevisionId := found_id hfound
  have hmark : (s.book.nextId, r.journalIndex) ∈ t.book.marks := by
    show (s.nextRevisionId, r.journalIndex) ∈ t.book.marks
    rw [← hid]
    exact mem_marks (mem_of_find?_eq_some hfound)
  have hrestored : restored (Ledger.undo D s.trie) r.journalIndex (t.ledger D) t.book = some (s.ledger D) :=
    restored_mark hb hruns hmark
  have houtcome := undoNewest_outcome D _ t (Nat.sub_le t.journal.length r.journalIndex)
  rw [htrie] at houtcome
  replace houtcome := houtcome.trans hrestored
  rcases hundo : undoNewest (t.journal.length - r.journalIndex) t with ⟨err | ⟨⟩, u⟩
  · rw [hundo] at houtcome
    exact nomatch houtcome
  · rw [hundo] at houtcome
    exact ⟨_, revertToSnapshot_ok.mpr ⟨r, u, hfound, hundo, rfl⟩, Option.some.inj houtcome⟩

end

/-- **Snapshot and revert are inverse on contents.** -/
theorem revertToSnapshot_snapshot {ops : List Op} (hopened : Opened D s)
    (hrun : runOps D ops s.snapshot.2 = (.ok ⟨⟩, t)) (hvalid : t.Valid s.snapshot.1) :
    ∃ u, StateDB.revertToSnapshot s.snapshot.1 t = (.ok ⟨⟩, u) ∧ SameContents D s u := by
  obtain ⟨htidy, hsound⟩ := hopened.tidy
  obtain ⟨u, hrevert, hledger⟩ := revertToSnapshot_returns htidy hsound (runOps_edits hrun) hvalid
  exact ⟨u, hrevert, .of_ledger hledger⟩

/-- A transfer, an inner snapshot that is rolled back to, and a suicide. -/
def innerRevert : List Op :=
  [.addBalance (bytesToAddress [1]) 5, .snapshot, .setNonce (bytesToAddress [2]) 1, .revertToSnapshot 1,
    .suicide (bytesToAddress [1])]

def atSnapshot : StateDB := StateDB.new (oneAccount (bytesToAddress [1]) 3)

def afterInnerRevert : Except Err PUnit × StateDB := runOps .sample innerRevert atSnapshot.snapshot.2

theorem revertToSnapshot_innerRevert : afterInnerRevert.1 = .ok ⟨⟩ ∧
    ∃ u, StateDB.revertToSnapshot atSnapshot.snapshot.1 afterInnerRevert.2 = (.ok ⟨⟩, u) ∧
      SameContents .sample atSnapshot u := by
  have hok : afterInnerRevert.1 = .ok ⟨⟩ := by decide +kernel
  have hrun : runOps .sample innerRevert atSnapshot.snapshot.2 = (.ok ⟨⟩, afterInnerRevert.2) := Prod.ext hok rfl
  have hvalid : atSnapshot.snapshot.1 ∈ afterInnerRevert.2.validRevisions.map Revision.id := by decide +kernel
  exact ⟨hok, revertToSnapshot_snapshot (.new _) hrun (List.mem_map.mp hvalid)⟩

end Contents

end Okchain.State
