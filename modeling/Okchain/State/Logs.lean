import Okchain.Lib.Relate
import Okchain.State.Commit

/-! Logs do not reach the accounts.

Logs are kept under the hash of the running transaction, and the journal remembers that hash to undo
them. Two states that differ in nothing else behave alike. The one thing to look at is undoing a log: it
would panic if there was none left, so the relation also says that every journaled log is still there.
-/
namespace Okchain.State
open Lib Function List
open Proc (Respects Relates)

variable {s t : StateDB} {e : JournalEntry} {f : StateDB → StateDB} {js : List JournalEntry}
/-- The entry without the hash it was logged under. -/
def JournalEntry.unlogged : JournalEntry → JournalEntry
  | .addLog _ => .addLog default
  | e => e

/-- The hash the entry was logged under, if it is a log. -/
def JournalEntry.loggedAt : JournalEntry → Option Hash
  | .addLog h => some h
  | _ => none

@[simp] theorem loggedAt_addLog (h : Hash) : (JournalEntry.addLog h).loggedAt = some h := rfl

/-- The state without its logs and the hash they are kept under. -/
def StateDB.unlogged (s : StateDB) : StateDB :=
  {s with thash := default, logs := fun _ => [], journal := s.journal.map JournalEntry.unlogged}

def LogsOk (s : StateDB) : Prop :=
  ∀ h, s.journal.countP (fun e => e.loggedAt = some h) ≤ (s.logs h).length

structure SameButLogs (s t : StateDB) : Prop where
  same : s.unlogged = t.unlogged
  left : LogsOk s
  right : LogsOk t

/-- `t` comes from `s` without touching a log. -/
structure LogFree (s t : StateDB) : Prop where
  logs : t.logs = s.logs
  journal : ∃ es, t.journal = es ++ s.journal ∧ ∀ e ∈ es, e.loggedAt = none

/-- An operation that neither sees nor touches logs. -/
structure Blind (f : StateDB → StateDB) : Prop where
  commutes : ∀ s, (f s).unlogged = f s.unlogged
  free : ∀ s, LogFree s (f s)

theorem LogFree.refl (s : StateDB) : LogFree s s := ⟨rfl, [], rfl, fun _ h => (nomatch h)⟩

theorem LogFree.trans {u : StateDB} (h₁ : LogFree s t) (h₂ : LogFree t u) : LogFree s u := by
  obtain ⟨es₁, hj₁, he₁⟩ := h₁.journal
  obtain ⟨es₂, hj₂, he₂⟩ := h₂.journal
  refine ⟨h₂.logs.trans h₁.logs, es₂ ++ es₁, ?_, fun e he => ?_⟩
  · rw [hj₂, hj₁, append_assoc]
  · exact (List.mem_append.mp he).elim (he₂ e) (he₁ e)

theorem LogFree.record (h : LogFree s t) (he : e.loggedAt = none) : LogFree s (t.record e) :=
  h.trans ⟨rfl, [e], rfl, fun _ hm => List.mem_singleton.mp hm ▸ he⟩

theorem LogFree.put (h : LogFree s t) (x : Address) (o : StateObject) : LogFree s (t.put x o) :=
  h.trans ⟨rfl, [], rfl, fun _ h => (nomatch h)⟩

theorem LogsOk.of_free (hs : LogsOk s) (h : LogFree s t) : LogsOk t := by
  intro k
  obtain ⟨es, hj, he⟩ := h.journal
  have hes : es.countP (fun e => e.loggedAt = some k) = 0 :=
    List.countP_eq_zero.mpr fun e hm => by simp [he e hm]
  rw [hj, countP_append, hes, Nat.zero_add, h.logs]
  exact hs k

theorem SameButLogs.of_blind (h : SameButLogs s t) (hf : Blind f) : SameButLogs (f s) (f t) := by
  refine ⟨?_, h.left.of_free (hf.free s), h.right.of_free (hf.free t)⟩
  rw [hf.commutes, hf.commutes, h.same]

/-- What does not look at logs reads the same. -/
theorem SameButLogs.reads {α : Type} (h : SameButLogs s t) {f : StateDB → α} (hf : ∀ s, f s = f s.unlogged) :
    f s = f t := by
  rw [hf s, hf t, h.same]

theorem update_respects (hf : Blind f) : Respects SameButLogs (.update f : Proc Err StateDB PUnit) :=
  .update fun _ _ h => h.of_blind hf

theorem read_respects {α : Type} {f : StateDB → α} (hf : ∀ s, f s = f s.unlogged) :
    Respects SameButLogs (.read f : Proc Err StateDB α) :=
  .read fun _ _ h => h.reads hf

/-! ### The operations -/

section

variable (D : Database) (x : Address)

theorem put_blind (o : StateObject) : Blind (fun s => s.put x o) :=
  ⟨fun _ => rfl, fun s => (LogFree.refl s).put x o⟩

theorem createObject_commutes (s : StateDB) : (s.createObject D x).unlogged = s.unlogged.createObject D x := by
  have hread : s.unlogged.getStateObject x = s.getStateObject x := rfl
  unfold StateDB.createObject
  rw [hread]
  cases s.getStateObject x <;> rfl

theorem createObject_blind : Blind (fun s => s.createObject D x) := by
  refine ⟨createObject_commutes D x, fun s => ?_⟩
  unfold StateDB.createObject
  cases s.getStateObject x with
  | none => exact ((LogFree.refl s).put x _).record rfl
  | some o => exact ((LogFree.refl s).put x _).record rfl

theorem getOrNewStateObject_blind (s : StateDB) :
    (s.unlogged.getOrNewStateObject D x).1 = (s.getOrNewStateObject D x).1 ∧
    (s.unlogged.getOrNewStateObject D x).2 = (s.getOrNewStateObject D x).2.unlogged ∧
    LogFree s (s.getOrNewStateObject D x).2 := by
  have hread : s.unlogged.getStateObject x = s.getStateObject x := rfl
  unfold StateDB.getOrNewStateObject
  rw [hread]
  cases s.getStateObject x with
  | some o => exact ⟨rfl, rfl, .refl s⟩
  | none => exact ⟨rfl, (createObject_commutes D x s).symm, (createObject_blind D x).free s⟩

theorem blind_of_object {f : StateObject → StateDB → StateDB} (hf : ∀ o, Blind (f o)) :
    Blind (fun s => f (s.getOrNewStateObject D x).1 (s.getOrNewStateObject D x).2) := by
  refine ⟨fun s => ?_, fun s => ?_⟩
  · obtain ⟨ho, hs, -⟩ := getOrNewStateObject_blind D x s
    rw [(hf _).commutes, ho, hs]
  · exact (getOrNewStateObject_blind D x s).2.2.trans ((hf _).free _)

theorem put_record_blind (o : StateObject) (he : e.loggedAt = none) (hu : e.unlogged = e) :
    Blind (fun s => (s.put x o).record e) := by
  refine ⟨fun s => ?_, fun s => ((LogFree.refl s).put x o).record he⟩
  show (s.put x o).unlogged.record e.unlogged = _
  rw [hu]
  rfl

theorem id_blind : Blind (fun s => s) := ⟨fun _ => rfl, .refl⟩

theorem ite_blind {c : Prop} [Decidable c] {g : StateDB → StateDB} (hf : Blind f) (hg : Blind g) :
    Blind (fun s => if c then f s else g s) := by
  by_cases hc : c
  · simpa [hc] using hf
  · simpa [hc] using hg

theorem addBalance_blind (amount : Int) : Blind (fun s => s.addBalance D x amount) :=
  blind_of_object D x (f := fun o s => if amount = 0 then if o.empty D then s.touch x o else s
    else s.setObjectBalance x o (o.data.balance + amount)) fun _ =>
    ite_blind (ite_blind (put_record_blind x _ rfl rfl) id_blind) (put_record_blind x _ rfl rfl)

theorem subBalance_blind (amount : Int) : Blind (fun s => s.subBalance D x amount) :=
  blind_of_object D x (f := fun o s => if amount = 0 then s
    else s.setObjectBalance x o (o.data.balance - amount)) fun _ =>
    ite_blind id_blind (put_record_blind x _ rfl rfl)

theorem setNonce_blind (nonce : StateDB → UInt64) (hn : ∀ s, nonce s = nonce s.unlogged) :
    Blind (fun s => s.setNonce D x (nonce s)) := by
  have hfixed : ∀ n, Blind (fun s => s.setNonce D x n) := fun n =>
    blind_of_object D x (f := fun o s => (s.put x {o with data := {o.data with nonce := n}}).record
      (.nonce x o.data.nonce)) fun o => put_record_blind x _ rfl rfl
  refine ⟨fun s => ?_, fun s => (hfixed _).free s⟩
  rw [(hfixed _).commutes, hn s]

theorem setCode_blind (code : Bytes) : Blind (fun s => s.setCode D x code) :=
  blind_of_object D x (f := fun o s => (s.put x {o with
    code := some code, dirtyCode := true
    data := {o.data with codeHash := (D.keccak code).bytes}}).record
      (.code x (o.getCode D) o.data.codeHash)) fun _ => put_record_blind x _ rfl rfl

theorem setState_blind (key value : Hash) : Blind (fun s => s.setState D x key value) :=
  blind_of_object D x (f := fun o s => (s.put x {o with
    cachedStorage := update o.cachedStorage key (some value)
    dirtyStorage := update o.dirtyStorage key (some value)}).record
      (.storage x key (o.getState D key))) fun _ => put_record_blind x _ rfl rfl

theorem suicide_blind : Blind (fun s => s.suicide x) := by
  refine ⟨fun s => ?_, fun s => ?_⟩
  · have hread : s.unlogged.getStateObject x = s.getStateObject x := rfl
    unfold StateDB.suicide
    rw [hread]
    cases s.getStateObject x <;> rfl
  · unfold StateDB.suicide
    cases s.getStateObject x with
    | none => exact .refl s
    | some o => exact ((LogFree.refl s).put x _).record rfl

theorem addRefund_blind (gas : UInt64) : Blind (fun s => s.addRefund gas) :=
  ⟨fun _ => rfl, fun s => ⟨rfl, [.refund s.refund], rfl, fun _ hm => List.mem_singleton.mp hm ▸ rfl⟩⟩

theorem addPreimage_blind (hash : Hash) (data : Bytes) : Blind (fun s => s.addPreimage hash data) := by
  refine ⟨fun s => ?_, fun s => ?_⟩
  · have hread : s.unlogged.preimages hash = s.preimages hash := rfl
    unfold StateDB.addPreimage
    rw [hread]
    cases s.preimages hash <;> rfl
  · unfold StateDB.addPreimage
    cases s.preimages hash with
    | some _ => exact .refl s
    | none => exact ⟨rfl, [.addPreimage hash], rfl, fun _ hm => List.mem_singleton.mp hm ▸ rfl⟩

end

/-! ### Computations that can panic -/

section

variable (D : Database)

theorem height_respects : Respects SameButLogs StateDB.height :=
  .check fun _ _ h => h.reads (f := fun s => deref s.bheight) fun _ => rfl

open StateDB (liveObject snapshot undo undoNewest unlogged)

theorem liveObject_respects (x : Address) : Respects SameButLogs (liveObject x) :=
  .check fun _ _ h => h.reads (f := fun s => deref (s.getStateObject x)) fun _ => rfl

theorem snapshot_respects : Respects SameButLogs (.step snapshot : Proc Err StateDB Nat) := by
  have hunlogged : ∀ s : StateDB, s.snapshot.2.unlogged = s.unlogged.snapshot.2 := fun s => by
    simp [snapshot, unlogged]
  refine .step fun s t h => ⟨h.reads (f := fun s => s.nextRevisionId) fun _ => rfl, ?_, h.left, h.right⟩
  rw [hunlogged, hunlogged, h.same]

theorem addWeight_respects (x : Address) : Respects SameButLogs (StateDB.addWeight D x) := by
  refine .bind height_respects fun height => update_respects ?_
  exact blind_of_object D x (f := fun o s => s.setObjectWeight x o (o.weight height) height)
    fun _ => put_blind x _

theorem subWeight_respects (x : Address) (v : Int) : Respects SameButLogs (StateDB.subWeight D x v) := by
  refine .bind (.step fun s t h => ?_) fun o => .bind .ensure fun _ => .bind height_respects fun _ =>
    update_respects (put_blind x _)
  obtain ⟨hos, hs, hfs⟩ := getOrNewStateObject_blind D x s
  obtain ⟨hot, ht, hft⟩ := getOrNewStateObject_blind D x t
  refine ⟨?_, ?_, h.left.of_free hfs, h.right.of_free hft⟩
  · rw [← hos, ← hot, h.same]
  · rw [← hs, ← ht, h.same]

theorem createAccount_respects (x : Address) : Respects SameButLogs (StateDB.createAccount D x) := by
  refine .bind (read_respects fun _ => rfl) fun prev => ?_
  refine .bind (update_respects (createObject_blind D x)) fun _ => ?_
  cases prev with
  | none => exact .pure
  | some prev => exact .bind height_respects fun _ => update_respects (put_blind x _)

theorem addLog_respects (l : Log) : Respects SameButLogs (.update (fun s => s.addLog l) : Proc Err StateDB PUnit) := by
  have hok : ∀ s : StateDB, LogsOk s → LogsOk (s.addLog l) := by
    intro s hs k
    show (JournalEntry.addLog s.thash :: s.journal).countP (fun e => e.loggedAt = some k) ≤
      (update s.logs s.thash _ k).length
    have hk := hs k
    by_cases hthash : s.thash = k
    · subst hthash
      simpa using hk
    · simpa [hthash, update_of_ne (Ne.symm hthash)] using hk
  have hunlogged : ∀ s : StateDB, (s.addLog l).unlogged =
      {s.unlogged with logSize := s.unlogged.logSize + 1}.record (.addLog default) := fun _ => rfl
  refine .update fun s t h => ⟨?_, hok s h.left, hok t h.right⟩
  rw [hunlogged, hunlogged, h.same]

/-! ### Undoing -/

theorem undo_respects (he : e.loggedAt = none) : Respects SameButLogs (undo e) := by
  have hrestore : ∀ (x : Address) (f : StateObject → StateObject), Respects SameButLogs (do
      let o ← liveObject x
      .update fun s => s.put x (f o)) := fun x f =>
    .bind (liveObject_respects x) fun _ => update_respects (put_blind x _)
  cases e with
  | addLog h => exact nomatch he
  | createObject x | resetObject x _ | refund _ | addPreimage _ =>
    exact update_respects ⟨fun _ => rfl, fun _ => ⟨rfl, [], rfl, fun _ h => (nomatch h)⟩⟩
  | suicide x prev prevbalance =>
    refine update_respects ⟨fun s => ?_, fun s => ?_⟩
    · have hget : s.unlogged.getStateObject x = s.getStateObject x := rfl
      rw [hget]
      cases s.getStateObject x <;> rfl
    · cases s.getStateObject x with
      | none => exact .refl s
      | some o => exact (LogFree.refl s).put x _
  | balance x _ => exact hrestore x _
  | nonce x _ => exact hrestore x _
  | storage x _ _ => exact hrestore x _
  | code x _ _ => exact hrestore x _
  | touch x prev prevDirty =>
    refine .ite ?_ .pure
    exact .bind (liveObject_respects x) fun _ => update_respects
      ⟨fun _ => rfl, fun _ => ⟨rfl, [], rfl, fun _ h => (nomatch h)⟩⟩

theorem undo_addLog {k : Hash} (hs : LogsOk s) (hj : s.journal = .addLog k :: js) :
    ∃ t, undo (.addLog k) {s with journal := js} = (.ok ⟨⟩, t) ∧ LogsOk t ∧
      t.unlogged = {s.unlogged with journal := s.unlogged.journal.tail, logSize := s.unlogged.logSize - 1} := by
  have hcount : ∀ h, js.countP (fun e => e.loggedAt = some h) + (if k = h then 1 else 0) ≤ (s.logs h).length := by
    intro h
    have := hs h
    rw [hj, countP_cons] at this
    simpa using this
  have hne : s.logs k ≠ [] := fun hnil => by
    have := hcount k
    rw [hnil, if_pos rfl] at this
    exact Nat.not_succ_le_zero _ this
  refine ⟨{s with
    journal := js
    logs := update s.logs k (s.logs k).dropLast
    logSize := s.logSize - 1}, ?_, fun h => ?_, ?_⟩
  · exact Proc.bind_ok.mpr ⟨⟨⟩, _, Proc.ensureState_ok.mpr ⟨hne, rfl⟩, rfl⟩
  · show js.countP _ ≤ (update s.logs k _ h).length
    have := hcount h
    by_cases hk : k = h
    · subst hk
      rw [if_pos rfl] at this
      rw [update_self, length_dropLast]
      omega
    · rw [if_neg hk] at this
      rw [update_of_ne (Ne.symm hk)]
      exact this
  · simp only [unlogged, hj, map_cons, tail_cons]

theorem JournalEntry.eq_of_unlogged {e' : JournalEntry} (h : e.unlogged = e'.unlogged) :
    e = e' ∧ e.loggedAt = none ∨ ∃ k k', e = .addLog k ∧ e' = .addLog k' := by
  cases e with
  | addLog k =>
    cases e' with
    | addLog k' => exact .inr ⟨k, k', rfl, rfl⟩
    | _ => exact nomatch h
  | _ =>
    cases e' with
    | addLog k' => exact nomatch h
    | _ => exact .inl ⟨h, rfl⟩

theorem LogsOk.tail (hs : LogsOk s) (hj : s.journal = e :: js) : LogsOk {s with journal := js} := by
  intro h
  have := hs h
  rw [hj, countP_cons] at this
  exact Nat.le_of_add_right_le this

theorem undoNewest_succ (n : Nat) (hj : s.journal = e :: js) : undoNewest (n + 1) s =
      (undo e >>= fun _ => undoNewest n) {s with journal := js} := by
  rw [undoNewest, Proc.bind_step, hj]
  rfl

/-- The two journals are undone in step: they differ in the hashes of logs only. -/
theorem undoNewest_respects (n : Nat) : Respects SameButLogs (undoNewest n) := by
  induction n with
  | zero => exact .pure
  | succ n ih =>
    intro s t h
    have hmap : s.journal.map JournalEntry.unlogged = t.journal.map JournalEntry.unlogged :=
      congrArg StateDB.journal h.same
    cases hj : s.journal with
    | nil =>
      have hj' : t.journal = [] := by simpa [hj] using hmap.symm
      have hstop : ∀ s : StateDB, s.journal = [] → undoNewest (n + 1) s = (.ok ⟨⟩, s) := by
        intro s hs
        rw [undoNewest, Proc.bind_step, hs]
        exact congrArg (fun j => (Except.ok PUnit.unit, {s with journal := j})) hs.symm
      rw [hstop s hj, hstop t hj']
      exact ⟨rfl, h⟩
    | cons e js =>
      rw [hj] at hmap
      obtain ⟨e', js', hj', he, htail⟩ := List.map_eq_cons_iff.mp hmap.symm
      rw [undoNewest_succ n hj, undoNewest_succ n hj']
      rcases JournalEntry.eq_of_unlogged he.symm with ⟨rfl, hlog⟩ | ⟨k, k', rfl, rfl⟩
      · refine (Respects.bind (undo_respects hlog) fun _ => ih) _ _
          ⟨?_, h.left.tail hj, h.right.tail hj'⟩
        have hunlogged : ∀ (s : StateDB) (js : List JournalEntry), {s with journal := js}.unlogged =
            {s.unlogged with journal := js.map JournalEntry.unlogged} := fun _ _ => rfl
        rw [hunlogged s, hunlogged t, h.same, htail]
      · obtain ⟨s', hs', hleft, hsame⟩ := undo_addLog h.left hj
        obtain ⟨t', ht', hright, hsame'⟩ := undo_addLog h.right hj'
        rw [Proc.bind_run hs', Proc.bind_run ht']
        exact ih s' t' ⟨by rw [hsame, hsame', h.same], hleft, hright⟩

theorem revertToSnapshot_respects (id : Nat) : Respects SameButLogs (StateDB.revertToSnapshot id) := by
  refine .bind (read_respects fun _ => rfl) fun found => ?_
  cases found with
  | none => exact .throw
  | some r =>
    refine .bind (read_respects fun s => ?_) fun n => ?_
    · show s.journal.length - _ = (s.journal.map _).length - _
      rw [length_map]
    · exact .bind (undoNewest_respects n) fun _ => update_respects
        ⟨fun _ => rfl, fun _ => ⟨rfl, [], rfl, fun _ h => (nomatch h)⟩⟩

/-! ### Between transactions -/

theorem finalise_respects (del : Bool) : Respects SameButLogs (StateDB.finalise D del) := by
  refine .bind (.ensureState fun s t h => ?_) fun _ => .update fun s t h => ⟨?_, ?_, ?_⟩
  · exact iff_of_eq (h.reads (f := fun s => s.Finalisable D del) fun _ => rfl)
  · have hunlogged : ∀ s : StateDB, (s.finalised D del).unlogged = s.unlogged.finalised D del := fun _ => rfl
    rw [hunlogged, hunlogged, h.same]
  · exact fun k => Nat.zero_le _
  · exact fun k => Nat.zero_le _

/-- `Prepare` may be given different hashes of the transaction. -/
theorem prepare_relates (thash thash' bhash : Hash) (bheight : UInt64) (i : Nat) :
    Relates SameButLogs Eq (.update fun s => s.prepare thash bhash bheight i : Proc Err StateDB PUnit)
      (.update fun s => s.prepare thash' bhash bheight i) := by
  intro s t h
  have hunlogged : ∀ (s : StateDB) (thash : Hash), (s.prepare thash bhash bheight i).unlogged =
      s.unlogged.prepare default bhash bheight i := fun _ _ => rfl
  refine ⟨rfl, ?_, h.left, h.right⟩
  rw [hunlogged, hunlogged, h.same]

end

end Okchain.State
