import Okchain.State.Operations

/-! Accounts without code, and what happens to their nonce.

Fix an address at which no contract is ever created. Other accounts can send it coins and touch it, and all of that can
be rolled back, but nothing they do reaches its nonce. The argument is local: only the live object, the trie's entry and
the dirty mark at that address matter.

Undoing a touch unmarks the account but does not bring back the callback, and later changes are no longer seen by
`Commit`. For an account that sends transactions the invariant therefore asks that the stored account is not empty, and
knows in return that every change is marked. For one that does not, the nonce stays what is stored.
-/
variable {e : JournalEntry} {o' : StateObject}

namespace Okchain.State
open Lib Option

variable {o : StateObject}

def storedNonce (acc : Option Account) : UInt64 := (acc.map (·.nonce)).getD 0

/-- Entries that can be undone without reaching the nonce of `a`. `nonce` and `acc` are its nonce and
its entry in the trie. -/
def Calm (a : Address) (sends : Prop) (nonce : UInt64) (acc : Option Account) : JournalEntry → Prop
  | .createObject x => x = a → nonce = 0 ∧ acc = none
  | .resetObject x _ | .suicide x _ _ | .nonce x _ | .storage x _ _ | .code x _ _ => x ≠ a
  | .touch x _ prevDirty => sends → x = a → prevDirty = true
  | .balance _ _ | .refund _ | .addLog _ | .addPreimage _ => True

structure PlainObject (D : Database) (sends : Prop) (acc : Option Account) (dirty : Prop)
    (o : StateObject) : Prop where
  suicided : o.suicided = false
  codeHash : o.data.codeHash = D.emptyCodeHash
  code : o.code = none
  pristine : sends → o.onDirty = true → acc = some o.data
  changed : sends → o.onDirty = false → dirty
  deleted : o.deleted = true → acc = none ∧ o.empty D = true

/-- The account at `a` has no code, its nonce is `nonce` and its entry in the trie is `acc`; `sends` tells
whether it sends transactions in the block. -/
structure Plain (D : Database) (a : Address) (sends : Prop) (nonce : UInt64) (acc : Option Account) (s : StateDB) :
    Prop where
  trie : s.trie a = acc
  stored : ∀ d, acc = some d → d.codeHash = D.emptyCodeHash ∧ (sends → d.empty D = false)
  quiet : ¬sends → nonce = storedNonce acc
  nonce : s.getNonce a = nonce
  live : a ∈ s.stateObjectsDirty → (s.stateObjects a).isSome
  object : ∀ o, s.stateObjects a = some o → PlainObject D sends acc (a ∈ s.stateObjectsDirty) o

/-- Two states agree on everything that is kept about `a`. -/
structure SameAt (a : Address) (s t : StateDB) : Prop where
  trie : t.trie a = s.trie a
  object : t.stateObjects a = s.stateObjects a
  dirty : a ∈ t.stateObjectsDirty ↔ a ∈ s.stateObjectsDirty

section

variable {D : Database} {a x : Address} {sends : Prop} {nonce : UInt64} {acc : Option Account} {s t : StateDB}

theorem SameAt.getStateObject (h : SameAt a s t) : t.getStateObject a = s.getStateObject a := by
  unfold StateDB.getStateObject
  rw [h.object, h.trie]

open StateDB (getNonce new)

theorem Plain.of_sameAt (hs : Plain D a sends nonce acc s) (h : SameAt a s t) : Plain D a sends nonce acc t where
  trie := h.trie.trans hs.trie
  stored := hs.stored
  nonce := by
    rw [← hs.nonce]
    unfold getNonce
    rw [h.getStateObject]
  quiet := hs.quiet
  live ha := by
    rw [h.object]
    exact hs.live (h.dirty.mp ha)
  object o ho := by
    rw [h.object] at ho
    have hobj := hs.object o ho
    exact {hobj with changed := fun hsend hd => h.dirty.mpr (hobj.changed hsend hd)}

theorem put_sameAt (hx : x ≠ a) (o : StateObject) : SameAt a s (s.put x o) where
  trie := rfl
  object := Function.update_of_ne (Ne.symm hx) _ _
  dirty := by
    unfold StateDB.put
    split
    · rw [Finset.mem_insert]
      exact or_iff_right (Ne.symm hx)
    · exact Iff.rfl

theorem record_sameAt (e : JournalEntry) : SameAt a s (s.record e) := ⟨rfl, rfl, Iff.rfl⟩

section
variable (hs : Plain D a sends nonce acc s)
include hs

theorem Plain.getStateObject (ho : s.getStateObject a = some o) :
    PlainObject D sends acc (a ∈ s.stateObjectsDirty) o ∧ o.deleted = false ∧ o.data.nonce = nonce := by
  have hn : o.data.nonce = nonce := by
    rw [← hs.nonce]
    unfold getNonce
    rw [ho]
  unfold StateDB.getStateObject at ho
  cases hlive : s.stateObjects a with
  | some o' =>
    rw [hlive] at ho
    cases hdel : o'.deleted with
    | true => simp [hdel] at ho
    | false =>
      simp only [hdel, Bool.false_eq_true, if_false, some.injEq] at ho
      subst ho
      exact ⟨hs.object _ hlive, hdel, hn⟩
  | none =>
    rw [hlive, hs.trie] at ho
    cases hacc : acc with
    | none => simp [hacc] at ho
    | some d =>
      simp only [hacc, map_some, some.injEq] at ho
      subst ho
      refine ⟨⟨rfl, (hs.stored d hacc).1, rfl, fun _ _ => rfl, fun _ h => ?_, fun h => ?_⟩, rfl, hn⟩
      · cases h
      · cases h

theorem Plain.of_absent (ho : s.getStateObject a = none) : nonce = 0 ∧ acc = none := by
  have hn : nonce = 0 := by
    rw [← hs.nonce]
    unfold getNonce
    rw [ho]
  refine ⟨hn, ?_⟩
  unfold StateDB.getStateObject at ho
  cases hlive : s.stateObjects a with
  | some o =>
    rw [hlive] at ho
    refine ((hs.object o hlive).deleted ?_).1
    cases hdel : o.deleted with
    | true => rfl
    | false => simp [hdel] at ho
  | none =>
    rw [hlive, hs.trie] at ho
    exact map_eq_none_iff.mp ho

theorem Plain.put (hsui : o.suicided = false)
    (hhash : o.data.codeHash = D.emptyCodeHash) (hcode : o.code = none) (hdel : o.deleted = false)
    (hdirty : sends → o.onDirty = false → a ∈ s.stateObjectsDirty) (hquiet : ¬sends → o.data.nonce = storedNonce acc) :
    Plain D a sends o.data.nonce acc (s.put a o) := by
  have hlive : (s.put a o).stateObjects a = some {o with onDirty := false} := Function.update_self _ _ _
  have hmem : sends → a ∈ (s.put a o).stateObjectsDirty := by
    intro hsend
    unfold StateDB.put
    cases hd : o.onDirty with
    | true => exact Finset.mem_insert_self _ _
    | false => exact hdirty hsend hd
  refine ⟨hs.trie, hs.stored, hquiet, ?_, fun _ => ?_, fun o' ho' => ?_⟩
  · unfold getNonce StateDB.getStateObject
    rw [hlive]
    simp [hdel]
  · rw [hlive]
    rfl
  · rw [hlive, some.injEq] at ho'
    subst ho'
    refine ⟨hsui, hhash, hcode, fun _ h => ?_, fun hsend _ => hmem hsend, fun h => ?_⟩
    · cases h
    · exact absurd (hdel.symm.trans h) (by decide)

/-! ### What one operation may do -/

/-- `t` comes from `s` by an operation that leaves the account plain and journals calm entries only. -/
structure Advance (D : Database) (a : Address) (sends : Prop) (nonce : UInt64) (acc : Option Account)
    (s t : StateDB) : Prop where
  plain : Plain D a sends nonce acc t
  journal : ∃ es, t.journal = es ++ s.journal ∧ ∀ e ∈ es, Calm a sends nonce acc e
  revisions : t.validRevisions = s.validRevisions
  nextId : t.nextRevisionId = s.nextRevisionId

theorem Advance.refl : Advance D a sends nonce acc s s :=
  ⟨hs, ⟨[], rfl, fun _ h => (nomatch h)⟩, rfl, rfl⟩

end

theorem Advance.trans {u : StateDB} (h₁ : Advance D a sends nonce acc s t) (h₂ : Advance D a sends nonce acc t u) :
    Advance D a sends nonce acc s u := by
  obtain ⟨es₁, hj₁, hc₁⟩ := h₁.journal
  obtain ⟨es₂, hj₂, hc₂⟩ := h₂.journal
  refine ⟨h₂.plain, ⟨es₂ ++ es₁, ?_, fun e he => ?_⟩, h₂.revisions.trans h₁.revisions,
    h₂.nextId.trans h₁.nextId⟩
  · rw [hj₂, hj₁, List.append_assoc]
  · exact (List.mem_append.mp he).elim (hc₂ e) (hc₁ e)

theorem Advance.record (h : Advance D a sends nonce acc s t) (he : Calm a sends nonce acc e) :
    Advance D a sends nonce acc s (t.record e) :=
  h.trans ⟨h.plain.of_sameAt (record_sameAt e),
    ⟨[e], rfl, fun _ hm => List.mem_singleton.mp hm ▸ he⟩, rfl, rfl⟩

/-- A changed object differs from the one it replaces in nothing that concerns the nonce. -/
structure Mild (o o' : StateObject) : Prop where
  nonce : o'.data.nonce = o.data.nonce
  codeHash : o'.data.codeHash = o.data.codeHash
  code : o'.code = o.code
  suicided : o'.suicided = o.suicided
  deleted : o'.deleted = o.deleted
  onDirty : o'.onDirty = o.onDirty

theorem Plain.put_mild (hs : Plain D a sends nonce acc s) (ho : s.getStateObject a = some o)
    (hm : Mild o o') : Plain D a sends nonce acc (s.put a o') := by
  obtain ⟨hobj, hdel, rfl⟩ := hs.getStateObject ho
  rw [← hm.nonce]
  exact hs.put (hm.suicided.trans hobj.suicided) (hm.codeHash.trans hobj.codeHash)
    (hm.code.trans hobj.code) (hm.deleted.trans hdel) (fun hsend h => hobj.changed hsend (hm.onDirty ▸ h))
    fun hsend => hm.nonce.trans (hs.quiet hsend)

theorem Advance.of_plain_put (h : Plain D a sends nonce acc (s.put x o)) : Advance D a sends nonce acc s (s.put x o) :=
  ⟨h, ⟨[], rfl, fun _ h => (nomatch h)⟩, rfl, rfl⟩

section
variable (hs : Plain D a sends nonce acc s)
include hs

theorem put_other_advance (hx : x ≠ a) (o : StateObject) : Advance D a sends nonce acc s (s.put x o) :=
  .of_plain_put (hs.of_sameAt (put_sameAt hx o))

theorem put_advance (ho : s.getStateObject x = some o) (hm : x = a → Mild o o') :
    Advance D a sends nonce acc s (s.put x o') := by
  by_cases hx : x = a
  · subst hx
    exact .of_plain_put (hs.put_mild ho (hm rfl))
  · exact put_other_advance hs hx o'

theorem createObject_advance (hx : s.getStateObject x = none ∨ x ≠ a) :
    Advance D a sends nonce acc s (s.createObject D x) := by
  have hput : Plain D a sends nonce acc (s.put x (newObject (newAccount D))) := by
    by_cases hxa : x = a
    · subst hxa
      obtain ⟨hzero, hacc⟩ := hs.of_absent (hx.resolve_right fun h => h rfl)
      subst hzero
      exact hs.put (o := newObject (newAccount D)) rfl rfl rfl rfl (fun _ h => (nomatch h))
        fun _ => by rw [hacc]; rfl
    · exact hs.of_sameAt (put_sameAt hxa _)
  have hadv := Advance.of_plain_put hput
  unfold StateDB.createObject
  cases ho : s.getStateObject x with
  | none => exact hadv.record fun hxa => hs.of_absent (hxa ▸ ho)
  | some prev => exact hadv.record (hx.resolve_left fun h => (nomatch ho.symm.trans h))

end

section
variable (hs : Plain D a sends nonce acc s)
include hs

theorem getOrNewStateObject_advance (x : Address) : Advance D a sends nonce acc s (s.getOrNewStateObject D x).2 ∧
      (s.getOrNewStateObject D x).2.getStateObject x = some (s.getOrNewStateObject D x).1 := by
  refine ⟨?_, getStateObject_getOrNew D s x⟩
  unfold StateDB.getOrNewStateObject
  cases ho : s.getStateObject x with
  | some o => exact .refl hs
  | none => exact createObject_advance hs (.inl ho)

theorem write_advance (ho : s.getStateObject x = some o) (hwrites : Writes D x o o' e)
    (he : Calm a sends nonce acc e) : Advance D a sends nonce acc s ((s.put x o').record e) := by
  refine (put_advance hs ho fun hx => ?_).record he
  cases hwrites with
  | balance | touch => exact ⟨rfl, rfl, rfl, rfl, rfl, rfl⟩
  | nonce | code | storage | suicide => exact absurd hx he

/-- Every setter: get the object or make one, put the changed one in place, journal the change. -/
theorem set_advance {f : StateObject → StateObject} {e : StateObject → JournalEntry}
    (hwrites : ∀ o, Writes D x o (f o) (e o)) (he : ∀ o, Calm a sends nonce acc (e o)) :
    Advance D a sends nonce acc s (((s.getOrNewStateObject D x).2.put x
      (f (s.getOrNewStateObject D x).1)).record (e (s.getOrNewStateObject D x).1)) := by
  obtain ⟨hadv, ho⟩ := getOrNewStateObject_advance hs x
  exact hadv.trans (write_advance hadv.plain ho (hwrites _) (he _))

/-- `touch` meets empty objects only. A clean object is the stored account, which is not empty. -/
theorem touch_advance (ho : s.getStateObject x = some o) (hempty : o.empty D = true) :
    Advance D a sends nonce acc s (s.touch x o) := by
  refine write_advance hs ho .touch fun hsend hx => ?_
  subst hx
  obtain ⟨hobj, _, _⟩ := hs.getStateObject ho
  cases hd : o.onDirty with
  | false => rfl
  | true =>
    have hstored := (hs.stored _ (hobj.pristine hsend hd)).2 hsend
    exact absurd (hstored.symm.trans hempty) (by decide)

theorem addBalance_advance (x : Address) (amount : Int) : Advance D a sends nonce acc s (s.addBalance D x amount) := by
  obtain ⟨hadv, ho⟩ := getOrNewStateObject_advance hs x
  unfold StateDB.addBalance
  dsimp only
  by_cases hv : amount = 0
  · rw [if_pos hv]
    by_cases hempty : (s.getOrNewStateObject D x).1.empty D = true
    · rw [if_pos hempty]
      exact hadv.trans (touch_advance hadv.plain ho hempty)
    · rw [if_neg hempty]
      exact hadv
  · rw [if_neg hv]
    exact hadv.trans (write_advance hadv.plain ho (.balance _) trivial)

theorem subBalance_advance (x : Address) (amount : Int) : Advance D a sends nonce acc s (s.subBalance D x amount) := by
  obtain ⟨hadv, ho⟩ := getOrNewStateObject_advance hs x
  unfold StateDB.subBalance
  dsimp only
  by_cases hv : amount = 0
  · rw [if_pos hv]
    exact hadv
  · rw [if_neg hv]
    exact hadv.trans (write_advance hadv.plain ho (.balance _) trivial)

theorem setNonce_advance (hx : x ≠ a) (n : UInt64) : Advance D a sends nonce acc s (s.setNonce D x n) :=
  set_advance hs (fun _ => .nonce n) fun _ => hx

theorem Plain.setNonce (hsend : sends) (n : UInt64) : Plain D a sends n acc (s.setNonce D a n) := by
  obtain ⟨hadv, ho⟩ := getOrNewStateObject_advance hs a
  obtain ⟨hobj, hdel, _⟩ := hadv.plain.getStateObject ho
  have hput := hadv.plain.put
    (o := {(s.getOrNewStateObject D a).1 with data := {(s.getOrNewStateObject D a).1.data with nonce := n}})
    hobj.suicided hobj.codeHash hobj.code hdel hobj.changed fun h => absurd hsend h
  exact hput.of_sameAt (record_sameAt _)

theorem setCode_advance (hx : x ≠ a) (code : Bytes) : Advance D a sends nonce acc s (s.setCode D x code) :=
  set_advance hs (fun _ => .code code) fun _ => hx

theorem setState_advance (hx : x ≠ a) (key value : Hash) : Advance D a sends nonce acc s (s.setState D x key value) :=
  set_advance hs (fun _ => .storage key value) fun _ => hx

theorem suicide_advance (hx : x ≠ a) : Advance D a sends nonce acc s (s.suicide x) := by
  unfold StateDB.suicide
  cases ho : s.getStateObject x with
  | none => exact .refl hs
  | some o => exact write_advance hs ho .suicide hx

theorem addRefund_advance (gas : UInt64) : Advance D a sends nonce acc s (s.addRefund gas) :=
  ⟨hs.of_sameAt ⟨rfl, rfl, Iff.rfl⟩, ⟨[.refund s.refund], rfl, fun _ hm => List.mem_singleton.mp hm ▸ trivial⟩,
    rfl, rfl⟩

theorem addLog_advance (l : Log) : Advance D a sends nonce acc s (s.addLog l) :=
  ⟨hs.of_sameAt ⟨rfl, rfl, Iff.rfl⟩, ⟨[.addLog s.thash], rfl, fun _ hm => List.mem_singleton.mp hm ▸ trivial⟩,
    rfl, rfl⟩

theorem addPreimage_advance (hash : Hash) (data : Bytes) : Advance D a sends nonce acc s (s.addPreimage hash data) := by
  unfold StateDB.addPreimage
  cases s.preimages hash with
  | some _ => exact .refl hs
  | none =>
    exact ⟨hs.of_sameAt ⟨rfl, rfl, Iff.rfl⟩,
      ⟨[.addPreimage hash], rfl, fun _ hm => List.mem_singleton.mp hm ▸ trivial⟩, rfl, rfl⟩

theorem setObjectWeight_advance (ho : s.getStateObject x = some o) (weight height : Int) :
    Advance D a sends nonce acc s (s.setObjectWeight x o weight height) :=
  put_advance hs ho fun _ => ⟨rfl, rfl, rfl, rfl, rfl, rfl⟩

end

/-! ### Between transactions and between blocks -/

theorem getNonce_new (trie : AccountTrie) (a : Address) : (new trie).getNonce a = storedNonce (trie a) := by
  unfold getNonce StateDB.getStateObject storedNonce
  cases h : trie a with
  | none => simp [new, h]
  | some d => simp [new, h, newObject]

theorem plain_new {trie : AccountTrie}
    (hstored : ∀ d, trie a = some d → d.codeHash = D.emptyCodeHash ∧ (sends → d.empty D = false)) :
    Plain D a sends (storedNonce (trie a)) (trie a) (new trie) :=
  ⟨rfl, hstored, fun _ => rfl, getNonce_new trie a, fun h => absurd h (Finset.notMem_empty a),
    fun _ h => (nomatch h)⟩

theorem doomed_eq_empty (h : o.suicided = false) : o.doomed D true = o.empty D := by
  simp [StateObject.doomed, h]

theorem nonce_of_empty (h : o.empty D = true) : o.data.nonce = 0 := by
  simp only [StateObject.empty, Account.empty, Bool.and_eq_true, beq_iff_eq] at h
  exact h.1.1

section
variable (hs : Plain D a sends nonce acc s)
include hs

theorem Plain.live_nonce (ho : s.stateObjects a = some o) : o.data.nonce = nonce := by
  have hn := hs.nonce
  unfold getNonce StateDB.getStateObject at hn
  rw [ho] at hn
  cases hdel : o.deleted with
  | false => simpa [hdel] using hn
  | true =>
    rw [nonce_of_empty ((hs.object o ho).deleted hdel).2]
    simpa [hdel] using hn

theorem Plain.finalised : Plain D a sends nonce ((s.finalised D true).trie a) (s.finalised D true) := by
  by_cases ha : a ∈ s.stateObjectsDirty
  · obtain ⟨o, ho⟩ := isSome_iff_exists.mp (hs.live ha)
    have hobj := hs.object o ho
    have hn := hs.live_nonce ho
    have htrie : (s.finalised D true).trie a = o.written D true := StateDB.finalisedTrie_dirty D ha ho true
    have hlive : (s.finalised D true).stateObjects a = some (o.finalised D true) := by
      simp [StateDB.finalised, ha, ho]
    have hempty := doomed_eq_empty (D := D) hobj.suicided
    unfold StateObject.written at htrie
    unfold StateObject.finalised at hlive
    cases he : o.empty D with
    | true =>
      rw [hempty, he] at htrie hlive
      have hzero : nonce = 0 := hn ▸ nonce_of_empty he
      refine ⟨rfl, fun d hd => absurd (htrie.symm.trans hd) (some_ne_none d).symm, fun _ => ?_, ?_, fun _ => ?_,
        fun o' ho' => ?_⟩
      · rw [htrie, hzero]
        rfl
      · unfold getNonce StateDB.getStateObject
        rw [hlive, hzero]
        rfl
      · rw [hlive]
        rfl
      · rw [hlive, some.injEq] at ho'
        subst ho'
        refine ⟨hobj.suicided, hobj.codeHash, hobj.code, fun hsend h => ?_, fun _ _ => ha,
          fun _ => ⟨htrie, he⟩⟩
        -- a clean object is the stored account, which is not empty
        have hstored := (hs.stored _ (hobj.pristine hsend h)).2 hsend
        exact absurd (hstored.symm.trans he) (by decide)
    | false =>
      rw [hempty, he] at htrie hlive
      have hdel : o.deleted = false := by
        cases hdel : o.deleted with
        | false => rfl
        | true => exact absurd (he.symm.trans (hobj.deleted hdel).2) (by decide)
      refine ⟨rfl, fun d hd => ?_, fun _ => ?_, ?_, fun _ => ?_, fun o' ho' => ?_⟩
      · have hd := some.inj (htrie.symm.trans hd)
        subst hd
        exact ⟨hobj.codeHash, fun _ => he⟩
      · rw [htrie]
        exact hn.symm
      · unfold getNonce StateDB.getStateObject
        rw [hlive]
        simp [StateObject.updateRoot, StateObject.updateTrie, hdel, hn]
      · rw [hlive]
        rfl
      · rw [hlive, some.injEq] at ho'
        subst ho'
        exact ⟨hobj.suicided, hobj.codeHash, hobj.code, fun _ _ => htrie, fun _ _ => ha,
          fun h => absurd (hdel.symm.trans h) (by decide)⟩
  · have htrie : (s.finalised D true).trie a = s.trie a := StateDB.finalisedTrie_clean D ha true
    rw [htrie, hs.trie]
    exact hs.of_sameAt ⟨htrie, if_neg ha, Iff.rfl⟩

/-- What `Commit(false)` leaves in the trie for the account has no code and the same nonce. -/
theorem Plain.committedTrie : (∀ d, s.committedTrie D false a = some d → d.codeHash = D.emptyCodeHash) ∧
      storedNonce (s.committedTrie D false a) = nonce := by
  have hstored : ∀ d, s.trie a = some d → d.codeHash = D.emptyCodeHash :=
    fun d hd => (hs.stored d (hs.trie ▸ hd)).1
  cases ho : s.stateObjects a with
  | none =>
    have htrie : s.committedTrie D false a = s.trie a := by simp [StateDB.committedTrie, ho]
    rw [htrie]
    refine ⟨hstored, ?_⟩
    rw [← hs.nonce]
    unfold getNonce StateDB.getStateObject
    rw [ho]
    cases s.trie a <;> rfl
  | some o =>
    have hobj := hs.object o ho
    have hn := hs.live_nonce ho
    by_cases ha : a ∈ s.stateObjectsDirty
    · have htrie : s.committedTrie D false a = some (o.updateRoot D).data := by
        simp [StateDB.committedTrie, ho, ha, hobj.suicided]
      rw [htrie]
      refine ⟨fun d hd => ?_, hn⟩
      rw [← some.inj hd]
      exact hobj.codeHash
    · have htrie : s.committedTrie D false a = s.trie a := by
        simp [StateDB.committedTrie, ho, ha, hobj.suicided]
      rw [htrie]
      refine ⟨hstored, ?_⟩
      rw [hs.trie]
      by_cases hsend : sends
      · have hclean : acc = some o.data := by
          cases hd : o.onDirty with
          | true => exact hobj.pristine hsend hd
          | false => exact absurd (hobj.changed hsend hd) ha
        rw [hclean]
        exact hn
      · exact (hs.quiet hsend).symm

end

end

end Okchain.State
