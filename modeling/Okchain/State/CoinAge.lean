import Okchain.Lib.Run
import Okchain.State.Inverse

/-! Rolling back and the coin age.

The weight of an account and the height it was computed at are written without a journal entry. Rolling back gives them
back only where the whole account is put back: an account created since the snapshot is dropped, and one that was
replaced is restored as an object. For any other account the weight stays as it was last written.
-/
variable {trie : AccountTrie} {es : List JournalEntry}

namespace Okchain.State
open Lib Lib.Journal Relation Function Option

variable {o' : StateObject} {id n : Nat} {op : Op}

/-- The weight of an account, and when it was last updated. -/
def StateObject.age (o : StateObject) : Int × Int := (o.data.weightAtLastUpdatedHeight, o.data.lastUpdatedHeight)

def StateDB.ages : StateDB → Address → Option (Int × Int) := StateDB.each StateObject.age

def JournalEntry.renews (a : Address) : JournalEntry → Prop
  | .createObject b => b = a
  | .resetObject b _ => b = a
  | _ => False

def agesUndo (trie : AccountTrie) :
    JournalEntry → (Address → Option (Int × Int)) → Option (Address → Option (Int × Int))
  | .createObject a, c => some (update c a ((trie a).map fun acc => (newObject acc).age))
  | .resetObject a prev, c => some (update c a (if prev.deleted then none else some prev.age))
  | _, c => some c

section Ages
variable {D : Database} {s t u : StateDB} {a : Address} {o : StateObject} {e : JournalEntry}

theorem ages_eq (ho : s.getStateObject a = some o) : s.ages a = some o.age := by
  unfold StateDB.ages StateDB.each
  rw [ho]
  rfl

theorem ages_put (ho : s.getStateObject a = some o) (hdel : o'.deleted = o.deleted) (hage : o'.age = o.age) :
    (s.put a o').ages = s.ages := by
  refine (each_put rfl (hdel.trans (getStateObject_deleted ho))).trans ?_
  rw [hage, ← ages_eq ho]
  exact update_eq_self a _

theorem Restores.age (h : Restores a o e o') : o'.age = o.age := by
  cases h <;> rfl

theorem Restores.agesUndo (h : Restores a o e o') (trie : AccountTrie) (c : Address → Option (Int × Int)) :
    agesUndo trie e c = some c := by
  cases h <;> rfl

theorem Writes.age (h : Writes D a o o' e) : o'.age = o.age := by
  cases h <;> rfl

theorem Writes.agesUndo (h : Writes D a o o' e) (trie : AccountTrie) (c : Address → Option (Int × Int)) :
    agesUndo trie e c = some c := by
  cases h <;> rfl

theorem ages_undo (h : StateDB.undo e s = (.ok ⟨⟩, t)) : agesUndo s.trie e s.ages = some t.ages := by
  cases undo_undoes h with
  | drop a =>
    refine congrArg some (Eq.trans ?_ each_update.symm)
    cases s.trie a <;> rfl
  | reset a prev =>
    refine congrArg some (Eq.trans ?_ each_update.symm)
    dsimp only
    split <;> rfl
  | put ho hrestores =>
    rw [hrestores.agesUndo, ages_put ho hrestores.deleted hrestores.age]
  | @untouch a o prevDirty ho =>
    have hdel := getStateObject_deleted ho
    refine congrArg some (Eq.trans ?_ each_update.symm)
    rw [hdel]
    exact (update_eq_self_iff.mpr (ages_eq ho).symm).symm
  | gone | retouched | refund | log | preimage => rfl

theorem ages_moves (hbook : t.book = s.book) (hundo : agesUndo s.trie e t.ages = some s.ages) :
    Moves (agesUndo s.trie) s.ages s.book (t.record e).ages (t.record e).book :=
  moves_record (fun _ _ _ => rfl) hbook hundo

theorem Logged.ages_moves (h : Logged D s t) (hs : Tidy D s) : Moves (agesUndo s.trie) s.ages s.book t.ages t.book := by
  cases h with
  | @create a habsent =>
    refine State.ages_moves (t := s.put a (newObject (newAccount D))) rfl ?_
    have hnone : s.ages a = (s.trie a).map fun acc => (newObject acc).age := by
      unfold StateDB.ages StateDB.each
      rw [habsent, hs.absent habsent]
      rfl
    rw [show (s.put a (newObject (newAccount D))).ages = _ from each_put rfl rfl]
    show some (update (update s.ages a _) a _) = _
    rw [update_idem, ← hnone, update_eq_self]
  | @replace a prev hprev height =>
    refine State.ages_moves (t := s.put a (newObject (replacement D prev.data.balance height))) rfl ?_
    have hsome : s.ages a = if prev.deleted then none else some prev.age := by
      rw [ages_eq hprev, getStateObject_deleted hprev]
      rfl
    rw [show (s.put a (newObject (replacement D prev.data.balance height))).ages = _ from each_put rfl rfl]
    show some (update (update s.ages a _) a _) = _
    rw [update_idem, ← hsome, update_eq_self]
  | @write a o o' e ho hwrites =>
    refine State.ages_moves rfl ?_
    rw [hwrites.agesUndo, ages_put ho hwrites.deleted hwrites.age]
  | refund gas => exact State.ages_moves rfl rfl
  | log l =>
    exact State.ages_moves rfl rfl
  | @preimage hash hnone data =>
    unfold StateDB.addPreimage
    rw [hnone]
    exact State.ages_moves rfl rfl
  | prepare => exact .write [] rfl
  | snapshot => exact .mark
  | revert hrevert => exact revertToSnapshot_moves ages_undo (fun _ _ _ => rfl) hrevert

theorem logged_run (h : ReflTransGen (Logged D) s t) (hs : Tidy D s) :
    Runs (agesUndo s.trie) (s.ages, s.book) (t.ages, t.book) := by
  suffices hall : Runs (agesUndo s.trie) (s.ages, s.book) (t.ages, t.book) ∧ t.trie = s.trie ∧ Tidy D t from hall.1
  induction h with
  | refl => exact ⟨.refl, rfl, hs⟩
  | tail _ hlogged ih =>
    obtain ⟨hrun, htrie, htidy⟩ := ih
    have hmoves := hlogged.ages_moves htidy
    rw [htrie] at hmoves
    exact ⟨hrun.tail hmoves, hlogged.trie.trans htrie, hlogged.tidy htidy⟩

/-! ### Writing the age -/

/-- The account was created or replaced since the journal had length `n`. -/
def Sheltered (n : Nat) (s : StateDB) (a : Address) : Prop := ∃ e ∈ s.book.since n, e.renews a

theorem agesUndo_total (trie : AccountTrie) (e : JournalEntry) (c : Address → Option (Int × Int)) :
    ∃ c', agesUndo trie e c = some c' := by
  cases e <;> exact ⟨_, rfl⟩

theorem agesUndo_other {c c' : Address → Option (Int × Int)} (he : ¬e.renews a)
    (h : agesUndo trie e c = some c') : c' a = c a := by
  cases e with
  | createObject b | resetObject b _ =>
    rw [← some.inj h]
    exact update_of_ne (fun hab => he hab.symm) _ _
  | _ => rw [← some.inj h]

theorem unwind_not_renewed (trie : AccountTrie) (hes : ∀ e ∈ es, ¬e.renews a)
    (c : Address → Option (Int × Int)) : ∃ c', unwind (agesUndo trie) es c = some c' ∧ c' a = c a := by
  induction es generalizing c with
  | nil => exact ⟨c, rfl, rfl⟩
  | cons e es ih =>
    obtain ⟨c₁, hundo⟩ := agesUndo_total trie e c
    obtain ⟨c', hunwind, ha⟩ := ih (fun e' he' => hes e' (List.mem_cons_of_mem e he')) c₁
    refine ⟨c', ?_, ha.trans (agesUndo_other (hes e (List.mem_cons_self ..)) hundo)⟩
    show (agesUndo trie e c).bind (unwind (agesUndo trie) es) = some c'
    rw [hundo]
    exact hunwind

/-- With one, the age now does not matter. -/
theorem unwind_renewed (hes : ∃ e ∈ es, e.renews a) (c : Address → Option (Int × Int)) (v : Option (Int × Int)) :
    unwind (agesUndo trie) es (update c a v) = unwind (agesUndo trie) es c := by
  induction es generalizing c with
  | nil =>
    obtain ⟨_, he, -⟩ := hes
    exact nomatch he
  | cons e es ih =>
    show (agesUndo trie e (update c a v)).bind _ = (agesUndo trie e c).bind _
    by_cases hrenews : e.renews a
    · have hsame : agesUndo trie e (update c a v) = agesUndo trie e c := by
        cases e with
        | createObject b | resetObject b _ =>
          cases hrenews
          exact congrArg some (update_idem _ _ _)
        | _ => exact hrenews.elim
      rw [hsame]
    · have hrest : ∃ e' ∈ es, e'.renews a := by
        obtain ⟨e', he', hr⟩ := hes
        rcases List.mem_cons.mp he' with rfl | he'
        · exact absurd hr hrenews
        · exact ⟨e', he', hr⟩
      obtain ⟨c', hundo⟩ := agesUndo_total trie e c
      have hupdate : agesUndo trie e (update c a v) = some (update c' a v) := by
        cases e with
        | createObject b | resetObject b _ =>
          rw [← some.inj hundo]
          exact congrArg some (update_comm (fun hab => hrenews hab.symm) _ _ _)
        | _ =>
          rw [← some.inj hundo]
          rfl
      rw [hupdate, hundo]
      exact ih hrest c'

/-- **Writing an age.** What rolling back gives stays the same only if the account has been renewed, or the age is
the one it has. -/
theorem restored_weigh (ho : s.getStateObject a = some o) (n : Nat) (weight height : Int) :
    restored (agesUndo s.trie) n (s.setObjectWeight a o weight height).ages s.book =
      restored (agesUndo s.trie) n s.ages s.book ↔ Sheltered n s a ∨ o.age = (weight, height) := by
  have hages : (s.setObjectWeight a o weight height).ages = update s.ages a (some (weight, height)) := by
    have hdel := getStateObject_deleted ho
    exact each_put rfl hdel
  rw [hages]
  by_cases hsheltered : Sheltered n s a
  · exact iff_of_true (unwind_renewed hsheltered _ _) (.inl hsheltered)
  · have hnone : ∀ e ∈ s.book.since n, ¬e.renews a := fun e he hr => hsheltered ⟨e, he, hr⟩
    constructor
    · intro heq
      obtain ⟨c, hc, hca⟩ := unwind_not_renewed s.trie hnone s.ages
      obtain ⟨c', hc', hca'⟩ := unwind_not_renewed s.trie hnone
        (update s.ages a (some (weight, height)))
      have hcc : c' = c := some.inj (hc'.symm.trans (heq.trans hc))
      rw [hcc, hca, ages_eq ho, update_self] at hca'
      exact .inr (some.inj hca')
    · rintro (h | hage)
      · exact absurd h hsheltered
      · rw [← hage, ← ages_eq ho, update_eq_self]

/-! ### Operations -/

/-- The operation writes no age that rolling back to journal length `n` would not give back. -/
def KeepsAge (n : Nat) (s : StateDB) : Op → Prop
  | .addBalanceAndWeight a _ => ∀ o, s.getStateObject a = some o →
      Sheltered n s a ∨ s.bheight = some o.data.lastUpdatedHeight
  | .subBalanceAndWeight a v => ∀ o, s.getStateObject a = some o → Sheltered n s a ∨
      (o.data.weightAtLastUpdatedHeight * (o.data.balance - v) / o.data.balance = o.data.weightAtLastUpdatedHeight ∧
        s.bheight = some o.data.lastUpdatedHeight)
  | .clearWeight a => ∀ o, s.getStateObject a = some o → Sheltered n s a ∨
      (o.data.weightAtLastUpdatedHeight = 0 ∧ s.bheight = some o.data.lastUpdatedHeight)
  | _ => True

theorem logged_restored (h : ReflTransGen (Logged D) s t) (hs : Tidy D s) (hb : s.book.Sound)
    (hid : id < s.nextRevisionId) (hmark : (id, n) ∈ t.book.marks) :
    (id, n) ∈ s.book.marks ∧
      restored (agesUndo s.trie) n t.ages t.book = restored (agesUndo s.trie) n s.ages s.book :=
  (logged_run h hs).restored_eq hb hid hmark

/-- An account created just now is sheltered. -/
theorem sheltered_getOrNew (habsent : s.getStateObject a = none) (hn : n ≤ s.journal.length) :
    Sheltered n (s.getOrNewStateObject D a).2 a := by
  have hstate : (s.getOrNewStateObject D a).2 = (s.put a (newObject (newAccount D))).record (.createObject a) := by
    unfold StateDB.getOrNewStateObject StateDB.createObject
    rw [habsent]
  refine ⟨.createObject a, ?_, rfl⟩
  rw [hstate]
  show _ ∈ (JournalEntry.createObject a :: s.journal).take (s.journal.length + 1 - n)
  rw [Nat.succ_sub hn]
  exact List.mem_cons_self ..

/-- An operation that gets or makes an account, writes its age and goes on with journaled edits. -/
theorem weighed_restored (hs : Tidy D s) (hb : s.book.Sound) {w : StateObject → Int} {height : Int}
    (h : ReflTransGen (Logged D) ((s.getOrNewStateObject D a).2.setObjectWeight a (s.getOrNewStateObject D a).1
      (w (s.getOrNewStateObject D a).1) height) t) (hid : id < s.nextRevisionId) (hmark : (id, n) ∈ t.book.marks) :
    restored (agesUndo s.trie) n t.ages t.book = restored (agesUndo s.trie) n s.ages s.book ↔
      ∀ o, s.getStateObject a = some o → Sheltered n s a ∨ o.age = (w o, height) := by
  have hnew := getOrNew_logged D s a
  have hruns := logged_run hnew hs
  obtain ⟨htrie, htidy, -⟩ := edits_run (edits_of_logged hnew) hs
  have ho := getStateObject_getOrNew D s a
  set s₁ := (s.getOrNewStateObject D a).2 with hs₁
  set o₁ := (s.getOrNewStateObject D a).1 with ho₁
  have hb₁ : s₁.book.Sound := hruns.sound hb
  have hid₁ : id < s₁.nextRevisionId := Nat.lt_of_lt_of_le hid hruns.nextId_le
  -- the age is written between two journaled parts
  obtain ⟨hmark₁, hafter⟩ := logged_restored h ((Edit.weigh ho _ height).tidy htidy) hb₁ hid₁ hmark
  obtain ⟨hmark₀, hbefore⟩ := logged_restored hnew hs hb hid hmark₁
  replace hafter : restored (agesUndo s₁.trie) n t.ages t.book = restored (agesUndo s₁.trie) n
    (s₁.setObjectWeight a o₁ (w o₁) height).ages s₁.book := hafter
  rw [← hbefore, ← htrie, hafter]
  refine (restored_weigh ho n (w o₁) height).trans ?_
  cases hlive : s.getStateObject a with
  | none =>
    have hsheltered : Sheltered n s₁ a := sheltered_getOrNew hlive (hb.within _ hmark₀).2
    exact iff_of_true (.inl hsheltered) fun o hsome => (nomatch hsome)
  | some o =>
    have hpair := getOrNew_of_some (D := D) hlive
    have hsame : s₁ = s := congrArg Prod.snd hpair
    have hobject : o₁ = o := congrArg Prod.fst hpair
    rw [hsame, hobject]
    constructor
    · intro hkeeps o' ho'
      cases ho'
      exact hkeeps
    · exact fun hall => hall o rfl

theorem keepsAge_of_not_weighs (hop : op.weighs = false) (n : Nat) (s : StateDB) : KeepsAge n s op := by
  cases op with
  | addBalanceAndWeight | subBalanceAndWeight | clearWeight => exact nomatch hop
  | _ => exact trivial

theorem age_eq_weight (o : StateObject) (h : Int) : o.age = (o.weight h, h) ↔ h = o.data.lastUpdatedHeight := by
  unfold StateObject.age StateObject.weight
  rw [Prod.mk.injEq]
  constructor
  · rintro ⟨-, rfl⟩
    rfl
  · rintro rfl
    simp

/-- **One operation.** A snapshot is restored as before exactly if the operation keeps the ages. -/
theorem Op.restored_iff (hrun : op.run D s = (.ok ⟨⟩, t)) (hs : Tidy D s) (hb : s.book.Sound)
    (hid : id < s.nextRevisionId) (hmark : (id, n) ∈ t.book.marks) :
    restored (agesUndo s.trie) n t.ages t.book = restored (agesUndo s.trie) n s.ages s.book ↔ KeepsAge n s op := by
  cases hop : op.weighs with
  | false =>
    exact iff_of_true (logged_restored (Op.logged hop hrun) hs hb hid hmark).2 (keepsAge_of_not_weighs hop n s)
  | true =>
    cases op with
    | addBalanceAndWeight a v =>
      obtain ⟨h, hheight, rfl⟩ := addBalanceAndWeight_ok hrun
      refine (weighed_restored hs hb (w := fun o => o.weight h) (addBalance_logged v) hid hmark).trans ?_
      refine forall₂_congr fun o ho => or_congr_right ?_
      rw [age_eq_weight, hheight, some.injEq]
    | subBalanceAndWeight a v =>
      obtain ⟨h, hheight, -, rfl⟩ := subBalanceAndWeight_ok hrun
      refine (weighed_restored hs hb (w := fun o =>
        o.data.weightAtLastUpdatedHeight * (o.data.balance - v) / o.data.balance)
        (subBalance_logged v) hid hmark).trans ?_
      refine forall₂_congr fun o ho => or_congr_right ?_
      rw [getOrNew_of_some ho] at hheight
      rw [hheight, some.injEq]
      unfold StateObject.age
      rw [Prod.mk.injEq, eq_comm, eq_comm (b := h)]
    | clearWeight a =>
      rcases clearWeight_run hrun with ⟨habsent, rfl⟩ | ⟨o, h, ho, hheight, rfl⟩
      · refine iff_of_true rfl fun o ho => ?_
        rw [habsent] at ho
        exact nomatch ho
      · refine (restored_weigh ho n 0 h).trans ?_
        constructor
        · intro hkeeps o' ho'
          cases ho.symm.trans ho'
          rw [hheight]
          exact hkeeps.imp_right fun hage => ⟨congrArg Prod.fst hage, congrArg (fun p => some p.2) hage.symm⟩
        · intro hall
          have hkeeps := hall o ho
          rw [hheight] at hkeeps
          exact hkeeps.imp_right fun ⟨hweight, hh⟩ => Prod.ext hweight (some.inj hh).symm
    | _ => exact nomatch hop

end Ages

/-! ### Runs -/

section Runs
variable {D : Database} {s t u : StateDB}

def Op.Step (D : Database) (s : StateDB) (op : Op) (t : StateDB) : Prop := op.run D s = (.ok ⟨⟩, t)

/-- Rolling back from `t` to the snapshot taken in `s`, if it is still valid, gives all coin ages back. -/
def RestoresAges (s t : StateDB) : Prop := t.Valid s.snapshot.1 →
  ∃ u, StateDB.revertToSnapshot s.snapshot.1 t = (.ok ⟨⟩, u) ∧ u.ages = s.ages

structure Since (D : Database) (s t : StateDB) : Prop where
  edits : ReflTransGen (Edit D) s.snapshot.2 t
  trie : t.trie = s.trie
  tidy : Tidy D t
  sound : t.book.Sound
  nextId : s.snapshot.1 < t.nextRevisionId

theorem Since.start (hs : Tidy D s) (hb : s.book.Sound) : Since D s s.snapshot.2 where
  edits := .refl
  trie := rfl
  tidy := Logged.snapshot.tidy hs
  sound := hb.marked
  nextId := Nat.lt_succ_self _

theorem Since.step (h : Since D s t) (hstep : op.Step D t u) : Since D s u := by
  have hedits := Op.edits hstep
  obtain ⟨htrie, htidy, hruns⟩ := edits_run hedits h.tidy
  exact ⟨h.edits.trans hedits, htrie.trans h.trie, htidy, hruns.sound h.sound, Nat.lt_of_lt_of_le h.nextId hruns.nextId_le⟩

theorem Valid.mark (h : t.Valid id) : ∃ n, (id, n) ∈ t.book.marks := by
  obtain ⟨r, hr, rfl⟩ := h
  exact ⟨r.journalIndex, mem_marks hr⟩

theorem valid_of_mark (h : (id, n) ∈ t.book.marks) : t.Valid id := by
  obtain ⟨r, hr, heq⟩ := List.mem_map.mp h
  exact ⟨r, hr, congrArg Prod.fst heq⟩

theorem restoresAges_iff (hs : Tidy D s) (hb : s.book.Sound) (h : Since D s t) : RestoresAges s t ↔
    (t.Valid s.snapshot.1 → restored (agesUndo s.trie) s.journal.length t.ages t.book = some s.ages) := by
  refine forall_congr' fun hvalid => ?_
  obtain ⟨n, hmark⟩ := Valid.mark hvalid
  have hn := snapshot_mark hs hb h.edits hmark
  obtain ⟨u, hrevert, -⟩ := revertToSnapshot_returns hs hb h.edits hvalid
  have hrestored := revertToSnapshot_restored ages_undo (fun _ _ _ => rfl) h.sound hmark hrevert
  rw [h.trie, hn] at hrestored
  rw [hrestored, some.injEq]
  constructor
  · rintro ⟨v, hv, hages⟩
    rw [hrevert] at hv
    exact (congrArg (fun p => StateDB.ages p.2) hv).trans hages
  · exact fun hages => ⟨u, hrevert, hages⟩

section
variable (D s a)

theorem getOrNew_revisions : (s.getOrNewStateObject D a).2.validRevisions = s.validRevisions := by
  unfold StateDB.getOrNewStateObject StateDB.createObject
  cases s.getStateObject a <;> rfl

theorem addBalance_revisions (v : Int) : (s.addBalance D a v).validRevisions = s.validRevisions := by
  unfold StateDB.addBalance
  dsimp only
  split
  · split <;> exact getOrNew_revisions D s a
  · exact getOrNew_revisions D s a

theorem subBalance_revisions (v : Int) : (s.subBalance D a v).validRevisions = s.validRevisions := by
  unfold StateDB.subBalance
  dsimp only
  split <;> exact getOrNew_revisions D s a

end

theorem valid_of_weighs (hop : op.weighs = true) (hrun : op.run D s = (.ok ⟨⟩, t)) :
    t.validRevisions = s.validRevisions := by
  cases op with
  | addBalanceAndWeight a v =>
    obtain ⟨h, -, rfl⟩ := addBalanceAndWeight_ok hrun
    exact (addBalance_revisions D _ a v).trans (getOrNew_revisions D s a)
  | subBalanceAndWeight a v =>
    obtain ⟨h, -, -, rfl⟩ := subBalanceAndWeight_ok hrun
    exact (subBalance_revisions D _ a v).trans (getOrNew_revisions D s a)
  | clearWeight a =>
    rcases clearWeight_run hrun with ⟨-, rfl⟩ | ⟨o, h, -, -, rfl⟩ <;> rfl
  | _ => exact nomatch hop

/-- **Coin age and snapshots.** After an operation sequence every valid snapshot still gives the coin ages back
exactly if each operation kept them. -/
theorem restoresAges_throughout_iff (hopened : Opened D s) (ops : List Op) :
    Throughout (Op.Step D) (RestoresAges s) ops s.snapshot.2 ↔
      EachStep (Op.Step D) (fun t op => t.Valid s.snapshot.1 → KeepsAge s.journal.length t op) ops s.snapshot.2 := by
  obtain ⟨hs, hb⟩ := hopened.tidy
  have hstart := Since.start hs hb
  refine throughout_iff (J := fun t => Since D s t ∧ RestoresAges s t) (fun t ht => ht.2) ?_ ?_ ops ⟨hstart, ?_⟩
  · rintro t op u ⟨hsince, hrestores⟩ hstep hkeeps
    have hafter := hsince.step hstep
    refine ⟨hafter, (restoresAges_iff hs hb hafter).mpr fun hvalid => ?_⟩
    obtain ⟨n, hmark⟩ := Valid.mark hvalid
    obtain rfl := snapshot_mark hs hb hafter.edits hmark
    obtain ⟨-, -, hruns⟩ := edits_run (Op.edits hstep) hsince.tidy
    have hvalid' := valid_of_mark (hruns.restored_eq hsince.sound hsince.nextId hmark).1
    have hsame := (Op.restored_iff hstep hsince.tidy hsince.sound hsince.nextId hmark).mpr (hkeeps hvalid')
    rw [hsince.trie] at hsame
    exact hsame.trans ((restoresAges_iff hs hb hsince).mp hrestores hvalid')
  · rintro t op u ⟨hsince, hrestores⟩ hstep hbreaks hrestores'
    obtain ⟨hvalid, hkeeps⟩ := Classical.not_imp.mp hbreaks
    -- only operations that write ages break the ages, and they leave the snapshot valid
    have hop : op.weighs = true := by
      by_contra hop
      exact hkeeps (keepsAge_of_not_weighs (eq_false_of_ne_true hop) _ t)
    have hafter := hsince.step hstep
    have hvalid' : u.Valid s.snapshot.1 := by
      unfold StateDB.Valid
      rw [valid_of_weighs hop hstep]
      exact hvalid
    obtain ⟨n, hmark⟩ := Valid.mark hvalid'
    obtain rfl := snapshot_mark hs hb hafter.edits hmark
    refine hkeeps ((Op.restored_iff hstep hsince.tidy hsince.sound hsince.nextId hmark).mp ?_)
    rw [hsince.trie, (restoresAges_iff hs hb hsince).mp hrestores hvalid,
      (restoresAges_iff hs hb hafter).mp hrestores' hvalid']
  · refine (restoresAges_iff hs hb hstart).mpr fun _ => ?_
    show unwind (agesUndo s.trie) (s.journal.take (s.journal.length - s.journal.length)) s.ages = some s.ages
    rw [Nat.sub_self]
    rfl

/-- At height 5, with one account of balance 3 that was last updated at height 0. -/
def aged : StateDB := (StateDB.new (oneAccount (bytesToAddress [1]) 3)).prepare default default 5 0

theorem aged_opened : Opened .sample aged :=
  .op (.new _) (show Op.run .sample (.prepare default default 5 0) _ = _ from rfl)

/-- A transfer to a new account keeps the ages. -/
theorem restoresAges_newAccount :
    Throughout (Op.Step .sample) (RestoresAges aged) [.addBalanceAndWeight (bytesToAddress [2]) 5] aged.snapshot.2 := by
  refine (restoresAges_throughout_iff aged_opened _).mpr fun t _ => ⟨fun _ o ho => ?_, trivial⟩
  have habsent : (aged.snapshot.2.getStateObject (bytesToAddress [2])).isNone := by decide +kernel
  rw [ho] at habsent
  exact nomatch habsent

def agedAfterTransfer : StateDB :=
  (runOps .sample [.addBalanceAndWeight (bytesToAddress [1]) 1] aged.snapshot.2).2

def agedAfterRevert : StateDB := (StateDB.revertToSnapshot aged.snapshot.1 agedAfterTransfer).2

/-- A transfer to an account that was there is rolled back, but its weight and height stay. -/
theorem age_not_restored :
    runOps .sample [.addBalanceAndWeight (bytesToAddress [1]) 1] aged.snapshot.2 = (.ok ⟨⟩, agedAfterTransfer) ∧
    StateDB.revertToSnapshot aged.snapshot.1 agedAfterTransfer = (.ok ⟨⟩, agedAfterRevert) ∧
    aged.ages (bytesToAddress [1]) = some (0, 0) ∧ agedAfterRevert.ages (bytesToAddress [1]) = some (15, 5) := by
  have hrun : (runOps .sample [.addBalanceAndWeight (bytesToAddress [1]) 1] aged.snapshot.2).1 = .ok ⟨⟩ := by
    decide +kernel
  have hrevert : (StateDB.revertToSnapshot aged.snapshot.1 agedAfterTransfer).1 = .ok ⟨⟩ := by
    decide +kernel
  refine ⟨Prod.ext hrun rfl, Prod.ext hrevert rfl, ?_, ?_⟩
  · decide +kernel
  · decide +kernel

end Runs

end Okchain.State
