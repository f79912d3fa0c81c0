import Okchain.State.Plain

/-! Rolling back keeps a plain account plain.

The journal since a point in time holds calm entries only, so undoing any number of them leaves the
nonce alone. `Watched` collects what has to be known to roll back to any snapshot taken since then.
-/
variable {s : StateDB}

namespace Okchain.State
open Lib Function List
open Proc (Keeps)

variable {D : Database} {a : Address} {sends : Prop} {nonce : UInt64} {acc : Option Account}

/-! ### Undoing one entry -/

theorem uncreate_plain (hs : Plain D a sends 0 none s) : Plain D a sends 0 none {s with
    stateObjects := update s.stateObjects a none
    stateObjectsDirty := s.stateObjectsDirty.erase a} := by
  have hlive : update s.stateObjects a none a = none := update_self _ _ _
  refine ⟨hs.trie, hs.stored, fun _ => rfl, ?_, fun ha => ?_, fun o ho => ?_⟩
  · unfold StateDB.getNonce StateDB.getStateObject
    simp only [hlive, hs.trie, Option.map_none]
  · exact absurd rfl (Finset.mem_erase.mp ha).1
  · exact nomatch hlive.symm.trans ho

/-- Taking back a touch. The mark goes only if the account was not marked before. -/
theorem untouch_plain (hs : Plain D a sends nonce acc s) {o : StateObject}
    (ho : s.getStateObject a = some o) {prev prevDirty : Bool} (hd : sends → prevDirty = true) :
    Plain D a sends nonce acc {s with
      stateObjects := update s.stateObjects a (some {o with touched := prev})
      stateObjectsDirty := if prevDirty then s.stateObjectsDirty else s.stateObjectsDirty.erase a} := by
  have hlive : update s.stateObjects a (some {o with touched := prev}) a =
    some {o with touched := prev} := update_self _ _ _
  obtain ⟨hobj, hdel, hn⟩ := hs.getStateObject ho
  refine ⟨hs.trie, hs.stored, hs.quiet, ?_, fun _ => ?_, fun o' ho' => ?_⟩
  · simp [StateDB.getNonce, StateDB.getStateObject, hdel, hn]
  · exact Option.isSome_iff_exists.mpr ⟨_, hlive⟩
  · have := hlive.symm.trans ho'
    rw [Option.some.injEq] at this
    subst this
    refine ⟨hobj.suicided, hobj.codeHash, hobj.code, hobj.pristine, fun hsend h => ?_, hobj.deleted⟩
    rw [hd hsend]
    exact hobj.changed hsend h

theorem Plain.update_other (hs : Plain D a sends nonce acc s) {x : Address} (hx : x ≠ a)
    (o : Option StateObject) {dirty : Finset Address} (hd : a ∈ dirty ↔ a ∈ s.stateObjectsDirty) :
    Plain D a sends nonce acc {s with
      stateObjects := update s.stateObjects x o, stateObjectsDirty := dirty} :=
  hs.of_sameAt ⟨rfl, update_of_ne (Ne.symm hx) _ _, hd⟩

/-- **One step back.** Undoing a calm entry keeps the account plain. -/
theorem undo_keeps {e : JournalEntry} (he : Calm a sends nonce acc e) :
    Keeps (Plain D a sends nonce acc) (StateDB.undo e) := by
  intro s hs u t h
  cases undo_undoes h with
  | drop x =>
    by_cases hx : x = a
    · subst hx
      obtain ⟨rfl, rfl⟩ := he rfl
      exact uncreate_plain hs
    · refine hs.update_other hx none ?_
      rw [Finset.mem_erase]
      exact and_iff_right (Ne.symm hx)
  | reset x prev => exact hs.update_other he (some prev) Iff.rfl
  | put ho hrestores =>
    refine (put_advance hs ho fun hx => ?_).plain
    cases hrestores with
    | balance => exact ⟨rfl, rfl, rfl, rfl, rfl, rfl⟩
    | nonce | code | storage | suicide => exact absurd hx he
  | @untouch x o prevDirty ho =>
    by_cases hx : x = a
    · subst hx
      exact untouch_plain hs ho fun hsend => he hsend rfl
    · refine hs.update_other hx _ ?_
      cases prevDirty with
      | true => exact Iff.rfl
      | false =>
        rw [if_neg (by decide), Finset.mem_erase]
        exact and_iff_right (Ne.symm hx)
  | gone | retouched => exact hs
  | refund | log | preimage => exact hs.of_sameAt ⟨rfl, rfl, Iff.rfl⟩

/-! ### Undoing many -/

/-- The account is plain, and what was journaled since the journal had length `start` is calm. -/
structure PlainSince (D : Database) (a : Address) (sends : Prop) (nonce : UInt64) (acc : Option Account) (start : Nat)
    (s : StateDB) : Prop where
  plain : Plain D a sends nonce acc s
  calm : ∃ recent old, s.journal = recent ++ old ∧ old.length = start ∧ ∀ e ∈ recent, Calm a sends nonce acc e

/-- **A whole way back.** Undoing entries that were all journaled since `start`. -/
theorem undoNewest_keeps {start n : Nat} {t : StateDB} (hs : PlainSince D a sends nonce acc start s)
    (hn : start + n ≤ s.journal.length) (h : StateDB.undoNewest n s = (.ok ⟨⟩, t)) :
    PlainSince D a sends nonce acc start t := by
  refine (undoNewest_rule (P := fun k s => PlainSince D a sends nonce acc start s ∧ start + k ≤ s.journal.length) ?_
    n s t (by omega) ⟨hs, hn⟩ h).1
  rintro k s e js t ⟨⟨hplain, recent, old, hj, hold, hcalm⟩, hk⟩ hjs hundo
  cases recent with
  | nil =>
    rw [hj, nil_append, hold] at hk
    omega
  | cons e' recent =>
    obtain ⟨rfl, rfl⟩ := cons.inj (hjs.symm.trans hj)
    have hplain₁ : Plain D a sends nonce acc {s with journal := recent ++ old} :=
      hplain.of_sameAt ⟨rfl, rfl, Iff.rfl⟩
    have hjournal : t.journal = recent ++ old := (undo_undoes hundo).undone.journal
    refine ⟨⟨undo_keeps (hcalm e mem_cons_self) _ hplain₁ _ _ hundo, recent, old, hjournal, hold, fun e' he' =>
      hcalm e' (mem_cons_of_mem _ he')⟩, ?_⟩
    rw [hj, cons_append, length_cons] at hk
    rw [hjournal]
    omega

/-! ### Rolling back to a snapshot -/

/-- A plain account during an execution that started when the journal had length `start` and the next
snapshot's identifier was `base`. Snapshots since then point behind `start`. -/
structure Watched (D : Database) (a : Address) (sends : Prop) (nonce : UInt64) (acc : Option Account) (start base : Nat)
    (s : StateDB) : Prop where
  since : PlainSince D a sends nonce acc start s
  revisions : ∀ r ∈ s.validRevisions, base ≤ r.id → start ≤ r.journalIndex
  base_le : base ≤ s.nextRevisionId

variable {start base : Nat} {s t : StateDB}

section
variable (hs : Watched D a sends nonce acc start base s)
include hs

theorem Watched.advance (h : Advance D a sends nonce acc s t) : Watched D a sends nonce acc start base t := by
  obtain ⟨⟨_, recent, old, hj, hold, hcalm⟩, hrev, hbase⟩ := hs
  obtain ⟨es, hes, hcalm'⟩ := h.journal
  refine ⟨⟨h.plain, es ++ recent, old, ?_, hold, fun e he => ?_⟩, h.revisions ▸ hrev, h.nextId ▸ hbase⟩
  · rw [hes, hj, append_assoc]
  · exact (mem_append.mp he).elim (hcalm' e) (hcalm e)

theorem Watched.snapshot : Watched D a sends nonce acc start base s.snapshot.2 ∧ base ≤ s.nextRevisionId := by
  obtain ⟨⟨hplain, recent, old, hj, hold, hcalm⟩, hrev, hbase⟩ := hs
  refine ⟨⟨⟨hplain.of_sameAt ⟨rfl, rfl, Iff.rfl⟩, recent, old, hj, hold, hcalm⟩, fun r hr hid => ?_,
    Nat.le_succ_of_le hbase⟩, hbase⟩
  rcases mem_cons.mp hr with rfl | hr
  · rw [hj, length_append, hold]
    exact Nat.le_add_left _ _
  · exact hrev r hr hid

end

/-- **The rollback theorem.** Reverting to a snapshot taken since the execution started. -/
theorem Watched.revert {id : Nat} (hid : base ≤ id) :
    Keeps (Watched D a sends nonce acc start base) (StateDB.revertToSnapshot id) := by
  intro s hs u t h
  obtain ⟨r, u, hfound, hundo, rfl⟩ := revertToSnapshot_ok.mp h
  have hr : start ≤ r.journalIndex := by
    have hrid := find?_some hfound
    rw [beq_iff_eq] at hrid
    exact hs.revisions r (mem_of_find?_eq_some hfound) (hrid ▸ hid)
  have hlen : start + (s.journal.length - r.journalIndex) ≤ s.journal.length := by
    obtain ⟨_, recent, old, hj, hold, _⟩ := hs.since
    rw [hj, length_append, hold]
    omega
  have hsince := undoNewest_keeps hs.since hlen hundo
  have hundone := undoNewest_undone (Nat.sub_le _ _) hundo
  refine ⟨⟨hsince.plain.of_sameAt ⟨rfl, rfl, Iff.rfl⟩, hsince.calm⟩, fun r' hr' => ?_, ?_⟩
  · exact hs.revisions r' (hundone.revisions ▸ (mem_filter.mp hr').1)
  · exact hs.base_le.trans hundone.nextId.ge

end Okchain.State
