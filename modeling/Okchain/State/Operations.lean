import Mathlib.Logic.Relation
import Okchain.State.Logs
import Okchain.Protos.Crypto

/-! Sequences of operations on a state, and the edits they consist of.

The operations of `StateDB` share a few edits: an object is created, replaced by a new one, or written with a journal
entry that undoes the write; the coin age is written without an entry; logs, refunds and preimages come and go;
snapshots are taken and rolled back to. What is to hold after every sequence of operations is shown for the edits.
-/
variable {o : StateObject}

namespace Okchain.State
open Lib Relation Function
open Proc hiding update

open StateDB (getOrNewStateObject getStateObject liveObject record ripemd undo undoNewest)

/-- The operations that change a state during a transaction. -/
inductive Op
  | createAccount (addr : Address)
  | addBalance (addr : Address) (amount : Int)
  | subBalance (addr : Address) (amount : Int)
  | setBalance (addr : Address) (amount : Int)
  | addBalanceAndWeight (addr : Address) (amount : Int)
  | subBalanceAndWeight (addr : Address) (amount : Int)
  | clearWeight (addr : Address)
  | setNonce (addr : Address) (nonce : UInt64)
  | setCode (addr : Address) (code : Bytes)
  | setState (addr : Address) (key value : Hash)
  | suicide (addr : Address)
  | addRefund (gas : UInt64)
  | addLog (log : Log)
  | addPreimage (hash : Hash) (preimage : Bytes)
  | prepare (thash bhash : Hash) (bheight : UInt64) (ti : Nat)
  | snapshot
  | revertToSnapshot (revid : Nat)

def Op.run (D : Database) : Op → Proc Err StateDB PUnit
  | .createAccount a => StateDB.createAccount D a
  | .addBalance a v => .update fun s => s.addBalance D a v
  | .subBalance a v => .update fun s => s.subBalance D a v
  | .setBalance a v => .update fun s => s.setBalance D a v
  | .addBalanceAndWeight a v => StateDB.addBalanceAndWeight D a v
  | .subBalanceAndWeight a v => StateDB.subBalanceAndWeight D a v
  | .clearWeight a => StateDB.clearWeight a
  | .setNonce a n => .update fun s => s.setNonce D a n
  | .setCode a c => .update fun s => s.setCode D a c
  | .setState a k v => .update fun s => s.setState D a k v
  | .suicide a => .update fun s => s.suicide a
  | .addRefund g => .update fun s => s.addRefund g
  | .addLog l => .update fun s => s.addLog l
  | .addPreimage h p => .update fun s => s.addPreimage h p
  | .prepare th bh n i => .update fun s => s.prepare th bh n i
  | .snapshot => .update fun s => s.snapshot.2
  | .revertToSnapshot id => StateDB.revertToSnapshot id

def runOps (D : Database) : List Op → Proc Err StateDB PUnit
  | [] => pure ⟨⟩
  | op :: ops => do
    op.run D
    runOps D ops

/-! ### Objects -/

section
variable {s : StateDB} {x : Address} {o : StateObject}

theorem getStateObject_deleted (ho : s.getStateObject x = some o) : o.deleted = false := by
  unfold getStateObject at ho
  cases hlive : s.stateObjects x with
  | some o' =>
    cases hdel : o'.deleted with
    | true => simp [hlive, hdel] at ho
    | false =>
      simp only [hlive, hdel, Bool.false_eq_true, if_false, Option.some.injEq] at ho
      exact ho ▸ hdel
  | none =>
    simp only [hlive, Option.map_eq_some_iff] at ho
    obtain ⟨d, _, rfl⟩ := ho
    rfl

theorem getStateObject_put (o : StateObject) (hdel : o.deleted = false) :
    (s.put x o).getStateObject x = some {o with onDirty := false} := by
  have hlive : (s.put x o).stateObjects x = some {o with onDirty := false} := Function.update_self _ _ _
  unfold getStateObject
  rw [hlive]
  simp [hdel]

theorem getStateObject_getOrNew (D : Database) (s : StateDB) (x : Address) :
    (s.getOrNewStateObject D x).2.getStateObject x = some (s.getOrNewStateObject D x).1 := by
  unfold getOrNewStateObject
  cases ho : s.getStateObject x with
  | some o => exact ho
  | none =>
    unfold StateDB.createObject
    rw [ho]
    exact getStateObject_put _ rfl

theorem liveObject_ensures (P : StateDB → Prop) (x : Address) :
    Proc.Ensures P (liveObject x) (fun o s => P s ∧ s.getStateObject x = some o) := by
  intro s hs o t h
  obtain ⟨hlive, rfl⟩ := Prod.mk.inj h
  exact ⟨hs, deref_ok.mp hlive⟩

end

/-! ### Reading all accounts -/

def StateDB.each {β : Type} (f : StateObject → β) (s : StateDB) (a : Address) : Option β := (s.getStateObject a).map f

section Each
variable {β : Type} {f : StateObject → β} {s : StateDB} {a : Address}

theorem each_update {o : Option StateObject} {dirty : Finset Address} :
    ({s with stateObjects := update s.stateObjects a o, stateObjectsDirty := dirty} : StateDB).each f =
      update (s.each f) a ((match o with
        | some o => if o.deleted then none else some o
        | none => (s.trie a).map newObject).map f) := by
  funext b
  unfold StateDB.each getStateObject
  by_cases hb : b = a
  · subst hb
    cases o <;> simp only [update_self]
  · simp only [update_of_ne hb]

theorem each_put (hf : f {o with onDirty := false} = f o) (hdel : o.deleted = false) :
    (s.put a o).each f = update (s.each f) a (some (f o)) := by
  refine each_update.trans (congrArg (update (s.each f) a) ?_)
  have hlive : ({o with onDirty := false} : StateObject).deleted = false := hdel
  dsimp only
  rw [if_neg (ne_true_of_eq_false hlive)]
  exact congrArg some hf

end Each

/-! ### Edits -/

/-- A journaled write to the object of an account, and its entry. -/
inductive Writes (D : Database) (a : Address) (o : StateObject) : StateObject → JournalEntry → Prop
  | balance (v : Int) : Writes D a o {o with data := {o.data with balance := v}} (.balance a o.data.balance)
  | nonce (n : UInt64) : Writes D a o {o with data := {o.data with nonce := n}} (.nonce a o.data.nonce)
  | code (c : Bytes) : Writes D a o
      {o with code := some c, dirtyCode := true, data := {o.data with codeHash := (D.keccak c).bytes}}
      (.code a (o.getCode D) o.data.codeHash)
  | storage (k v : Hash) : Writes D a o
      {o with
        cachedStorage := update o.cachedStorage k (some v)
        dirtyStorage := update o.dirtyStorage k (some v)}
      (.storage a k (o.getState D k))
  | suicide : Writes D a o {o with suicided := true, data := {o.data with balance := 0}}
      (.suicide a o.suicided o.data.balance)
  | touch : Writes D a o {o with touched := true} (.touch a o.touched !o.onDirty)

/-- The account that takes the place of one with this balance. -/
def replacement (D : Database) (balance height : Int) : Account :=
  {newAccount D with balance := balance, lastUpdatedHeight := height}

/-- The edits the journal can take back, and those that do not touch an account. -/
inductive Logged (D : Database) (s : StateDB) : StateDB → Prop
  | create {a : Address} (h : s.getStateObject a = none) :
    Logged D s ((s.put a (newObject (newAccount D))).record (.createObject a))
  | replace {a : Address} {prev : StateObject} (h : s.getStateObject a = some prev) (height : Int) :
    Logged D s ((s.put a (newObject (replacement D prev.data.balance height))).record (.resetObject a prev))
  | write {a : Address} {o o' : StateObject} {e : JournalEntry} (h : s.getStateObject a = some o)
    (hwrites : Writes D a o o' e) : Logged D s ((s.put a o').record e)
  | refund (gas : UInt64) : Logged D s (s.addRefund gas)
  | log (l : Log) : Logged D s (s.addLog l)
  | preimage {hash : Hash} (h : s.preimages hash = none) (data : Bytes) : Logged D s (s.addPreimage hash data)
  | prepare (thash bhash : Hash) (bheight : UInt64) (ti : Nat) : Logged D s (s.prepare thash bhash bheight ti)
  | snapshot : Logged D s s.snapshot.2
  | revert {id : Nat} {t : StateDB} (h : StateDB.revertToSnapshot id s = (.ok ⟨⟩, t)) : Logged D s t

inductive Edit (D : Database) (s : StateDB) : StateDB → Prop
  | logged {t : StateDB} (h : Logged D s t) : Edit D s t
  | weigh {a : Address} {o : StateObject} (h : s.getStateObject a = some o) (weight height : Int) :
    Edit D s (s.setObjectWeight a o weight height)

variable {D : Database} {s t : StateDB} {a : Address}

theorem getOrNew_logged (D : Database) (s : StateDB) (a : Address) :
    ReflTransGen (Logged D) s (s.getOrNewStateObject D a).2 := by
  unfold getOrNewStateObject
  cases h : s.getStateObject a with
  | some o => exact .refl
  | none =>
    refine .single ?_
    unfold StateDB.createObject
    rw [h]
    exact .create h

theorem getOrNew_of_some (ho : s.getStateObject a = some o) : s.getOrNewStateObject D a = (o, s) := by
  unfold getOrNewStateObject
  rw [ho]

theorem set_logged {f : StateObject → StateObject} {e : StateObject → JournalEntry}
    (hwrites : ∀ o, Writes D a o (f o) (e o)) : ReflTransGen (Logged D) s
      (((s.getOrNewStateObject D a).2.put a (f (s.getOrNewStateObject D a).1)).record
        (e (s.getOrNewStateObject D a).1)) :=
  (getOrNew_logged D s a).tail (.write (getStateObject_getOrNew D s a) (hwrites _))

theorem addBalance_logged (v : Int) : ReflTransGen (Logged D) s (s.addBalance D a v) := by
  unfold StateDB.addBalance
  dsimp only
  split
  · split
    · exact set_logged fun _ => .touch
    · exact getOrNew_logged D s a
  · exact set_logged (f := fun o => {o with data := {o.data with balance := o.data.balance + v}}) fun _ => .balance _

theorem subBalance_logged (v : Int) : ReflTransGen (Logged D) s (s.subBalance D a v) := by
  unfold StateDB.subBalance
  dsimp only
  split
  · exact getOrNew_logged D s a
  · exact set_logged (f := fun o => {o with data := {o.data with balance := o.data.balance - v}}) fun _ => .balance _

theorem setBalance_logged (v : Int) : ReflTransGen (Logged D) s (s.setBalance D a v) :=
  set_logged fun _ => .balance v

theorem setNonce_logged (n : UInt64) : ReflTransGen (Logged D) s (s.setNonce D a n) := set_logged fun _ => .nonce n

theorem setCode_logged (c : Bytes) : ReflTransGen (Logged D) s (s.setCode D a c) := set_logged fun _ => .code c

theorem setState_logged (k v : Hash) :
    ReflTransGen (Logged D) s (s.setState D a k v) := set_logged fun _ => .storage k v

theorem suicide_logged : ReflTransGen (Logged D) s (s.suicide a) := by
  unfold StateDB.suicide
  cases h : s.getStateObject a with
  | none => exact .refl
  | some o => exact .single (.write h .suicide)

theorem addPreimage_logged (hash : Hash) (data : Bytes) : ReflTransGen (Logged D) s (s.addPreimage hash data) := by
  cases h : s.preimages hash with
  | none => exact .single (.preimage h data)
  | some _ =>
    unfold StateDB.addPreimage
    rw [h]

theorem height_ok {h : Int} (hrun : StateDB.height s = (.ok h, t)) : s.bheight = some h ∧ t = s :=
  ⟨deref_ok.mp (congrArg Prod.fst hrun), (congrArg Prod.snd hrun).symm⟩

theorem addWeight_ok (hrun : StateDB.addWeight D a s = (.ok ⟨⟩, t)) : ∃ h, s.bheight = some h ∧
    t = (s.getOrNewStateObject D a).2.setObjectWeight a (s.getOrNewStateObject D a).1
      ((s.getOrNewStateObject D a).1.weight h) h := by
  obtain ⟨h, u, hheight, hupdate⟩ := bind_ok.mp hrun
  obtain ⟨hbheight, rfl⟩ := height_ok hheight
  exact ⟨h, hbheight, update_ok.mp hupdate⟩

variable {v : Int} {op : Op} {e : JournalEntry}

theorem subWeight_ok (hrun : StateDB.subWeight D a v s = (.ok ⟨⟩, t)) :
    ∃ h, (s.getOrNewStateObject D a).2.bheight = some h ∧ (s.getOrNewStateObject D a).1.data.balance ≠ 0 ∧
      t = (s.getOrNewStateObject D a).2.setObjectWeight a (s.getOrNewStateObject D a).1
        ((s.getOrNewStateObject D a).1.data.weightAtLastUpdatedHeight *
          ((s.getOrNewStateObject D a).1.data.balance - v) / (s.getOrNewStateObject D a).1.data.balance) h := by
  obtain ⟨o, u, hstep, hrun⟩ := bind_ok.mp hrun
  obtain ⟨rfl, rfl⟩ := Prod.mk.inj (step_ok.mp hstep)
  obtain ⟨hbalance, hrun⟩ := ensure_bind_ok.mp hrun
  obtain ⟨h, u, hheight, hrun⟩ := bind_ok.mp hrun
  obtain ⟨hbheight, rfl⟩ := height_ok hheight
  exact ⟨h, hbheight, hbalance, update_ok.mp hrun⟩

theorem edits_of_logged (h : ReflTransGen (Logged D) s t) : ReflTransGen (Edit D) s t :=
  ReflTransGen.lift id (fun _ _ hstep => Edit.logged hstep) _ _ h

theorem weigh_getOrNew_edits (D : Database) (s : StateDB) (a : Address) (weight height : Int) :
    ReflTransGen (Edit D) s ((s.getOrNewStateObject D a).2.setObjectWeight a (s.getOrNewStateObject D a).1
      weight height) :=
  (edits_of_logged (getOrNew_logged D s a)).tail (.weigh (getStateObject_getOrNew D s a) weight height)

/-- Writing the balance and the height into the new object is like having created it with them. -/
theorem createAccount_run (hrun : StateDB.createAccount D a s = (.ok ⟨⟩, t)) :
    (s.getStateObject a = none ∧ t = (s.put a (newObject (newAccount D))).record (.createObject a)) ∨
    ∃ prev h, s.getStateObject a = some prev ∧ s.bheight = some h ∧
      t = (s.put a (newObject (replacement D prev.data.balance h))).record (.resetObject a prev) := by
  unfold StateDB.createAccount at hrun
  rw [bind_read, bind_update] at hrun
  cases hprev : s.getStateObject a with
  | none =>
    rw [hprev] at hrun
    obtain ⟨-, rfl⟩ := pure_ok.mp hrun
    refine .inl ⟨rfl, ?_⟩
    unfold StateDB.createObject
    rw [hprev]
  | some prev =>
    have hcreate : s.createObject D a = (s.put a (newObject (newAccount D))).record (.resetObject a prev) := by
      unfold StateDB.createObject
      rw [hprev]
    rw [hprev, hcreate] at hrun
    obtain ⟨h, u, hheight, hrun⟩ := bind_ok.mp hrun
    obtain ⟨hbheight, rfl⟩ := height_ok hheight
    refine .inr ⟨prev, h, rfl, hbheight, ?_⟩
    rw [update_ok.mp hrun]
    simp [StateDB.put, record, replacement, newObject]

theorem clearWeight_run (hrun : StateDB.clearWeight a s = (.ok ⟨⟩, t)) : (s.getStateObject a = none ∧ t = s) ∨
    ∃ o h, s.getStateObject a = some o ∧ s.bheight = some h ∧ t = s.setObjectWeight a o 0 h := by
  unfold StateDB.clearWeight at hrun
  rw [bind_read] at hrun
  cases ho : s.getStateObject a with
  | none =>
    rw [ho] at hrun
    exact .inl ⟨rfl, (pure_ok.mp hrun).2⟩
  | some o =>
    rw [ho] at hrun
    obtain ⟨h, u, hheight, hupdate⟩ := bind_ok.mp hrun
    obtain ⟨hbheight, rfl⟩ := height_ok hheight
    exact .inr ⟨o, h, rfl, hbheight, update_ok.mp hupdate⟩

theorem eq_of_update {x : Proc Err StateDB PUnit} {f : StateDB → StateDB}
    (hrun : x s = (.ok ⟨⟩, t)) (hx : x = .update f) : t = f s := by
  rw [hx] at hrun
  exact update_ok.mp hrun

def Op.weighs : Op → Bool
  | .addBalanceAndWeight .. | .subBalanceAndWeight .. | .clearWeight .. => true
  | _ => false

theorem Op.logged (hop : op.weighs = false) (hrun : op.run D s = (.ok ⟨⟩, t)) : ReflTransGen (Logged D) s t := by
  cases op with
  | addBalanceAndWeight | subBalanceAndWeight | clearWeight => exact nomatch hop
  | createAccount a =>
    rcases createAccount_run hrun with ⟨habsent, rfl⟩ | ⟨prev, h, hprev, -, rfl⟩
    · exact .single (.create habsent)
    · exact .single (.replace hprev h)
  | revertToSnapshot id => exact .single (.revert hrun)
  | addBalance a v => exact eq_of_update hrun rfl ▸ addBalance_logged v
  | subBalance a v => exact eq_of_update hrun rfl ▸ subBalance_logged v
  | setBalance a v => exact eq_of_update hrun rfl ▸ setBalance_logged v
  | setNonce a n => exact eq_of_update hrun rfl ▸ setNonce_logged n
  | setCode a c => exact eq_of_update hrun rfl ▸ setCode_logged c
  | setState a k v => exact eq_of_update hrun rfl ▸ setState_logged k v
  | suicide a => exact eq_of_update hrun rfl ▸ suicide_logged
  | addRefund g => exact eq_of_update hrun rfl ▸ .single (.refund g)
  | addLog l => exact eq_of_update hrun rfl ▸ .single (.log l)
  | addPreimage h p => exact eq_of_update hrun rfl ▸ addPreimage_logged h p
  | prepare th bh n i => exact eq_of_update hrun rfl ▸ .single (.prepare th bh n i)
  | snapshot => exact eq_of_update hrun rfl ▸ .single .snapshot

theorem addBalanceAndWeight_ok (hrun : StateDB.addBalanceAndWeight D a v s = (.ok ⟨⟩, t)) :
    ∃ h, s.bheight = some h ∧ t = ((s.getOrNewStateObject D a).2.setObjectWeight a (s.getOrNewStateObject D a).1
      ((s.getOrNewStateObject D a).1.weight h) h).addBalance D a v := by
  obtain ⟨_, u, hweight, hrun⟩ := bind_ok.mp hrun
  obtain ⟨h, hheight, rfl⟩ := addWeight_ok hweight
  exact ⟨h, hheight, update_ok.mp hrun⟩

theorem subBalanceAndWeight_ok (hrun : StateDB.subBalanceAndWeight D a v s = (.ok ⟨⟩, t)) :
    ∃ h, (s.getOrNewStateObject D a).2.bheight = some h ∧ (s.getOrNewStateObject D a).1.data.balance ≠ 0 ∧
      t = ((s.getOrNewStateObject D a).2.setObjectWeight a (s.getOrNewStateObject D a).1
        ((s.getOrNewStateObject D a).1.data.weightAtLastUpdatedHeight *
          ((s.getOrNewStateObject D a).1.data.balance - v) / (s.getOrNewStateObject D a).1.data.balance)
        h).subBalance D a v := by
  obtain ⟨_, u, hweight, hrun⟩ := bind_ok.mp hrun
  obtain ⟨h, hheight, hbalance, rfl⟩ := subWeight_ok hweight
  exact ⟨h, hheight, hbalance, update_ok.mp hrun⟩

/-- Every operation consists of edits. -/
theorem Op.edits (hrun : op.run D s = (.ok ⟨⟩, t)) : ReflTransGen (Edit D) s t := by
  cases hop : op.weighs with
  | false => exact edits_of_logged (Op.logged hop hrun)
  | true =>
    cases op with
    | addBalanceAndWeight a v =>
      obtain ⟨h, -, rfl⟩ := addBalanceAndWeight_ok hrun
      exact (weigh_getOrNew_edits D s a _ h).trans (edits_of_logged (addBalance_logged v))
    | subBalanceAndWeight a v =>
      obtain ⟨h, -, -, rfl⟩ := subBalanceAndWeight_ok hrun
      exact (weigh_getOrNew_edits D s a _ h).trans (edits_of_logged (subBalance_logged v))
    | clearWeight a =>
      rcases clearWeight_run hrun with ⟨-, rfl⟩ | ⟨o, h, ho, -, rfl⟩
      · exact .refl
      · exact .single (.weigh ho 0 h)
    | _ => exact nomatch hop

theorem runOps_edits {ops : List Op} (hrun : runOps D ops s = (.ok ⟨⟩, t)) : ReflTransGen (Edit D) s t := by
  induction ops generalizing s with
  | nil =>
    rw [(pure_ok.mp hrun).2]
  | cons op ops ih =>
    obtain ⟨_, u, hop, hrun⟩ := bind_ok.mp hrun
    exact (Op.edits hop).trans (ih hrun)

/-! ### Undoing -/

inductive Restores (a : Address) (o : StateObject) : JournalEntry → StateObject → Prop
  | balance (prev : Int) : Restores a o (.balance a prev) {o with data := {o.data with balance := prev}}
  | nonce (prev : UInt64) : Restores a o (.nonce a prev) {o with data := {o.data with nonce := prev}}
  | code (prevcode : Option Bytes) (prevhash : Bytes) : Restores a o (.code a prevcode prevhash)
      {o with code := prevcode, dirtyCode := true, data := {o.data with codeHash := (bytesToHash prevhash).bytes}}
  | storage (k prevalue : Hash) : Restores a o (.storage a k prevalue)
      {o with
        cachedStorage := update o.cachedStorage k (some prevalue)
        dirtyStorage := update o.dirtyStorage k (some prevalue)}
  | suicide (prev : Bool) (prevbalance : Int) : Restores a o (.suicide a prev prevbalance)
      {o with suicided := prev, data := {o.data with balance := prevbalance}}

inductive Undoes (s : StateDB) : JournalEntry → StateDB → Prop
  | drop (a : Address) : Undoes s (.createObject a) {s with
      stateObjects := update s.stateObjects a none
      stateObjectsDirty := s.stateObjectsDirty.erase a}
  | reset (a : Address) (prev : StateObject) : Undoes s (.resetObject a prev) {s with
      stateObjects := update s.stateObjects a (some prev)}
  | put {a : Address} {o o' : StateObject} {e : JournalEntry} (h : s.getStateObject a = some o)
    (hrestores : Restores a o e o') : Undoes s e (s.put a o')
  | untouch {a : Address} {o : StateObject} (prevDirty : Bool) (h : s.getStateObject a = some o) :
    Undoes s (.touch a false prevDirty) {s with
      stateObjects := update s.stateObjects a (some {o with touched := false})
      stateObjectsDirty := if prevDirty then s.stateObjectsDirty else s.stateObjectsDirty.erase a}
  | gone {a : Address} (prev : Bool) (prevbalance : Int) (h : s.getStateObject a = none) :
    Undoes s (.suicide a prev prevbalance) s
  | retouched {a : Address} {prev : Bool} (prevDirty : Bool) (h : ¬(prev = false ∧ a ≠ StateDB.ripemd)) :
    Undoes s (.touch a prev prevDirty) s
  | refund (prev : UInt64) : Undoes s (.refund prev) {s with refund := prev}
  | log {txhash : Hash} (h : s.logs txhash ≠ []) : Undoes s (.addLog txhash) {s with
      logs := update s.logs txhash (s.logs txhash).dropLast
      logSize := s.logSize - 1}
  | preimage (hash : Hash) : Undoes s (.addPreimage hash) {s with
      preimages := update s.preimages hash none}

theorem live_undo {f : StateObject → StateDB → StateDB} (hundo : undo e = (do
      let o ← liveObject a
      .update (f o))) (h : undo e s = (.ok ⟨⟩, t)) :
    ∃ o, s.getStateObject a = some o ∧ t = f o s := by
  rw [hundo] at h
  obtain ⟨o, u, hlive, hupdate⟩ := bind_ok.mp h
  obtain ⟨rfl, ho⟩ := liveObject_ensures (fun u => u = s) a s rfl o u hlive
  exact ⟨o, ho, update_ok.mp hupdate⟩

theorem undo_undoes (h : undo e s = (.ok ⟨⟩, t)) : Undoes s e t := by
  cases e with
  | createObject a =>
    rw [eq_of_update h rfl]
    exact .drop a
  | resetObject a prev =>
    rw [eq_of_update h rfl]
    exact .reset a prev
  | suicide a prev prevbalance =>
    rw [eq_of_update h rfl]
    cases ho : s.getStateObject a with
    | none => exact .gone prev prevbalance ho
    | some o => exact .put ho (.suicide prev prevbalance)
  | balance a prev =>
    obtain ⟨o, ho, rfl⟩ := live_undo rfl h
    exact .put ho (.balance prev)
  | nonce a prev =>
    obtain ⟨o, ho, rfl⟩ := live_undo rfl h
    exact .put ho (.nonce prev)
  | storage a key prevalue =>
    obtain ⟨o, ho, rfl⟩ := live_undo rfl h
    exact .put ho (.storage key prevalue)
  | code a prevcode prevhash =>
    obtain ⟨o, ho, rfl⟩ := live_undo rfl h
    exact .put ho (.code prevcode prevhash)
  | refund prev =>
    rw [eq_of_update h rfl]
    exact .refund prev
  | addLog txhash =>
    obtain ⟨_, u, hensure, hupdate⟩ := bind_ok.mp h
    obtain ⟨hlogs, rfl⟩ := ensureState_ok.mp hensure
    rw [update_ok.mp hupdate]
    exact .log hlogs
  | addPreimage hash =>
    rw [eq_of_update h rfl]
    exact .preimage hash
  | touch a prev prevDirty =>
    by_cases hfirst : prev = false ∧ a ≠ ripemd
    · have hundo : undo (.touch a prev prevDirty) = _ := if_pos hfirst
      obtain ⟨o, ho, rfl⟩ := live_undo hundo h
      obtain ⟨rfl, -⟩ := hfirst
      exact .untouch prevDirty ho
    · simp only [undo, if_neg hfirst] at h
      rw [(pure_ok.mp h).2]
      exact .retouched prevDirty hfirst

structure Undone (s t : StateDB) : Prop where
  trie : t.trie = s.trie
  journal : t.journal = s.journal
  revisions : t.validRevisions = s.validRevisions
  nextId : t.nextRevisionId = s.nextRevisionId

theorem Undoes.undone (h : Undoes s e t) : Undone s t := by
  cases h <;> exact ⟨rfl, rfl, rfl, rfl⟩

theorem undoNewest_rule {P : Nat → StateDB → Prop} (hstep : ∀ n s e js t, P (n + 1) s → s.journal = e :: js →
      undo e {s with journal := js} = (.ok ⟨⟩, t) → P n t) :
    ∀ n s t, n ≤ s.journal.length → P n s → undoNewest n s = (.ok ⟨⟩, t) → P 0 t := by
  intro n
  induction n with
  | zero =>
    intro s t _ hs h
    rw [(pure_ok.mp h).2]
    exact hs
  | succ n ih =>
    intro s t hn hs h
    cases hj : s.journal with
    | nil =>
      rw [hj] at hn
      exact absurd hn (Nat.not_succ_le_zero n)
    | cons e js =>
      rw [undoNewest_succ n hj] at h
      obtain ⟨_, u, hundo, hrest⟩ := bind_ok.mp h
      refine ih u t ?_ (hstep n s e js u hs hj hundo) hrest
      rw [(undo_undoes hundo).undone.journal]
      rw [hj] at hn
      exact Nat.le_of_succ_le_succ hn

theorem undoNewest_undone {n : Nat} (hn : n ≤ s.journal.length) (h : undoNewest n s = (.ok ⟨⟩, t)) :
    Undone {s with journal := s.journal.drop n} t := by
  refine undoNewest_rule (P := fun k u => Undone {s with journal := s.journal.drop n} {u with
    journal := u.journal.drop k}) ?_ n s t hn ⟨rfl, rfl, rfl, rfl⟩ h
  intro k u e js v hu hj hundo
  have hv := (undo_undoes hundo).undone
  refine ⟨hv.trie.trans hu.trie, ?_, hv.revisions.trans hu.revisions, hv.nextId.trans hu.nextId⟩
  rw [hv.journal, ← hu.journal]
  rw [hj]
  rfl

/-- `RevertToSnapshot` undoes what came after a revision with this identifier and drops the later ones. -/
theorem revertToSnapshot_ok {id : Nat} : StateDB.revertToSnapshot id s = (.ok ⟨⟩, t) ↔
    ∃ r u, s.validRevisions.find? (fun r => r.id == id) = some r ∧
      undoNewest (s.journal.length - r.journalIndex) s = (.ok ⟨⟩, u) ∧
      t = {u with validRevisions := u.validRevisions.filter (fun r => r.id < id)} := by
  unfold StateDB.revertToSnapshot
  rw [bind_read]
  cases hfound : s.validRevisions.find? (fun r => r.id == id) with
  | none =>
    constructor
    · exact fun h => (throw_ok.mp h).elim
    · rintro ⟨_, _, h, -⟩
      exact nomatch h
  | some r =>
    dsimp only
    rw [bind_read]
    constructor
    · intro h
      obtain ⟨_, u, hundo, hupdate⟩ := bind_ok.mp h
      exact ⟨r, u, rfl, hundo, update_ok.mp hupdate⟩
    · rintro ⟨r', u, hr, hundo, rfl⟩
      cases hr
      exact bind_ok.mpr ⟨⟨⟩, u, hundo, rfl⟩

/-! ### A small database -/

/-- Accounts without code and storage, over the checksum. -/
def Database.sample : Database where
  toEnv := Env.sample
  openStorageTrie _ := some fun _ => none
  contractCode _ := none
  accountRoot _ := default
  storageRoot _ := default

def oneAccount (addr : Address) (balance : Int) : AccountTrie := fun a =>
  if a = addr then some {newAccount Database.sample with balance := balance} else none

end Okchain.State
