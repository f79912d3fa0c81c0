import Okchain.Core.Processor
import Okchain.State.Supply

/-! When a transfer completes.

`Transfer` first takes the value, and the weight in proportion to it, from the sender, and so divides by the sender's
balance. `CanTransfer` lets a transfer of nothing from an empty account pass, and then the division panics. The weights
are kept at a block height, which a state has once `Prepare` was called.
-/
namespace Okchain.Core
open Lib Lib.Proc Protos State Vm
open StateDB (createAccount createObject exist getBalance getOrNewStateObject)
open Prod (fst snd)

variable {D : Database} {s t : StateDB} {x caller addr : Address} {value : Nat}

/-! ### What the operations leave alone -/

section
variable (D s x)

theorem bheight_createObject : (s.createObject D x).bheight = s.bheight := by
  unfold createObject
  cases s.getStateObject x <;> rfl

theorem bheight_getOrNew : (s.getOrNewStateObject D x).2.bheight = s.bheight := by
  unfold getOrNewStateObject
  cases s.getStateObject x with
  | some o => rfl
  | none => exact bheight_createObject D s x

theorem bheight_subBalance (v : Int) : (s.subBalance D x v).bheight = s.bheight := by
  unfold StateDB.subBalance
  dsimp only
  split
  · exact bheight_getOrNew D s x
  · exact bheight_getOrNew D s x

theorem bheight_setNonce (n : UInt64) : (s.setNonce D x n).bheight = s.bheight := bheight_getOrNew D s x

theorem balance_getOrNew : (s.getOrNewStateObject D x).1.data.balance = s.getBalance x := by
  unfold getOrNewStateObject getBalance
  cases s.getStateObject x <;> rfl

end

theorem getBalance_createObject_absent (h : s.getStateObject x = none) :
    (s.createObject D x).getBalance = s.getBalance := by
  have hzero : s.getBalance x = 0 := by
    unfold getBalance
    rw [h]
  unfold createObject
  rw [h]
  show (s.put x (newObject (newAccount D))).getBalance = _
  rw [getBalance_put rfl]
  exact Function.update_eq_self_iff.mpr hzero.symm

section
variable (D s x)

theorem getBalance_getOrNew : (s.getOrNewStateObject D x).2.getBalance = s.getBalance := by
  unfold getOrNewStateObject
  cases h : s.getStateObject x with
  | some o => rfl
  | none => exact getBalance_createObject_absent h

theorem getBalance_setNonce (n : UInt64) : (s.setNonce D x n).getBalance = s.getBalance := by
  have hdel := getStateObject_deleted (getStateObject_getOrNew D s x)
  have hput : (s.setNonce D x n).getBalance =
      Function.update (s.getOrNewStateObject D x).2.getBalance x (s.getOrNewStateObject D x).1.data.balance :=
    getBalance_put hdel
  rw [hput, getBalance_getOrNew, balance_getOrNew]
  exact Function.update_eq_self _ _

end

theorem getBalance_recreate {prev : StateObject} (hprev : s.getStateObject x = some prev) {h : Int} :
    ((s.createObject D x).put x {newObject {newAccount D with
      balance := prev.data.balance, lastUpdatedHeight := h} with onDirty := false}).getBalance = s.getBalance := by
  have hcreated : (s.createObject D x).getBalance = Function.update s.getBalance x 0 := by
    unfold createObject
    rw [hprev]
    exact getBalance_put rfl
  rw [getBalance_put rfl, hcreated, Function.update_idem]
  exact Function.update_eq_self_iff.mpr (getBalance_of_getStateObject hprev).symm

theorem isSome_of_deref {α : Type} {o : Option α} {a : α} (h : deref o = .ok a) : o.isSome := by
  cases o with
  | none => exact nomatch h
  | some _ => rfl

theorem createAccount_ok (h : createAccount D x s = (.ok ⟨⟩, t)) :
    t.getBalance = s.getBalance ∧ t.bheight = s.bheight ∧ (s.exist x → s.bheight.isSome) := by
  unfold createAccount at h
  rw [bind_read, bind_update] at h
  cases hprev : s.getStateObject x with
  | none =>
    rw [hprev] at h
    obtain ⟨-, rfl⟩ := pure_ok.mp h
    refine ⟨getBalance_createObject_absent hprev, bheight_createObject D s x, fun hexist => ?_⟩
    unfold exist at hexist
    rw [hprev] at hexist
    exact nomatch hexist
  | some prev =>
    rw [hprev] at h
    obtain ⟨height, u, hheight, h⟩ := bind_ok.mp h
    obtain rfl : u = s.createObject D x := (congrArg snd hheight).symm
    rw [update_ok.mp h]
    refine ⟨?_, bheight_createObject D s x, fun _ => ?_⟩
    · exact getBalance_recreate hprev
    · exact isSome_of_deref ((congrArg deref (bheight_createObject D s x)).symm.trans (congrArg fst hheight))

/-! ### Transfers -/

theorem height_completes : Completes (·.bheight.isSome) StateDB.height fun _ t => t.bheight.isSome := by
  intro s hs
  obtain ⟨h, hh⟩ := Option.isSome_iff_exists.mp hs
  refine ⟨h, s, ?_, hs⟩
  unfold StateDB.height
  rw [hh]
  rfl

theorem subBalanceAndWeight_completes {v : Int} :
    Completes (fun s => s.getBalance x ≠ 0 ∧ s.bheight.isSome) (StateDB.subBalanceAndWeight D x v)
      fun _ t => t.bheight.isSome := by
  refine .bind ?_ fun _ => .update fun s hs => by rwa [bheight_subBalance]
  refine .bind (R := fun o t => o.data.balance ≠ 0 ∧ t.bheight.isSome) (.step fun s hs => ?_) fun o => ?_
  · rwa [balance_getOrNew, bheight_getOrNew]
  refine .bind (R := fun _ t => t.bheight.isSome) (.ensure (fun _ hs => hs.1) fun _ hs => hs.2) fun _ => ?_
  exact height_completes.bind fun _ => .update fun _ hs => hs

theorem addBalanceAndWeight_completes {v : Int} :
    Completes (·.bheight.isSome) (StateDB.addBalanceAndWeight D x v) fun _ _ => True := by
  refine .bind (R := fun _ _ => True) ?_ fun _ => .update fun _ _ => trivial
  exact height_completes.bind fun _ => .update fun _ _ => trivial

/-- **When `Transfer` completes**, on any state. -/
theorem transfer_isOk_iff (sender recipient : Address) (amount : Nat) (s : StateDB) :
    (transfer D sender recipient amount s).1.isOk ↔ s.getBalance sender ≠ 0 ∧ s.bheight.isSome := by
  constructor
  · intro h
    obtain ⟨u, t, h⟩ := isOk_iff.mp h
    -- the first step of the first half divides, the next reads the height
    obtain ⟨_, _, hsub, -⟩ := bind_ok.mp h
    obtain ⟨_, _, hweight, -⟩ := bind_ok.mp hsub
    obtain ⟨o, v, ho, hdivide⟩ := bind_ok.mp hweight
    obtain ⟨_, v', hensure, hrest⟩ := bind_ok.mp hdivide
    obtain ⟨hne, hv⟩ := ensure_ok.mp hensure
    obtain ⟨height, _, hheight, -⟩ := bind_ok.mp hrest
    rw [hv] at hheight
    have hbalance := balance_getOrNew D s sender
    have hkept := bheight_getOrNew D s sender
    rw [step_ok.mp ho] at hbalance hkept
    have hread : deref v.bheight = .ok height := congrArg fst hheight
    exact ⟨hbalance ▸ hne, isSome_of_deref (hkept ▸ hread)⟩
  · exact (subBalanceAndWeight_completes.bind fun _ => addBalanceAndWeight_completes).isOk

/-! ### Calls and creations up to the transfer -/

section
variable (D)

/-- The part of `Call` between `CanTransfer` and `Transfer`. It ends with the snapshot, or with nothing when
nothing is sent to an account that does not exist. -/
def enterCall (addr : Address) (value : Nat) : Proc Err StateDB (Option Nat) := do
  let snapshot ← .step StateDB.snapshot
  let present ← .read fun s => s.exist addr
  if !present && !precompiled addr && value == 0 then pure none
  else do
    createIfAbsent D present addr
    pure (some snapshot)

/-- The part of `Create` between `CanTransfer` and `Transfer`. It ends with the snapshot and the address of the
contract, or with nothing when the address is taken. -/
def enterCreate (caller : Address) : Proc Err StateDB (Option (Nat × Address)) := do
  let nonce ← .read fun s => s.getNonce caller
  .update fun s => s.setNonce D caller (nonce + 1)
  let contractAddr := createAddress D.toEnv caller nonce
  let collides ← .read fun s => s.getNonce contractAddr != 0 ||
    (s.getCodeHash contractAddr != default && (s.getCodeHash contractAddr).bytes != D.emptyCodeHash)
  if collides then pure none
  else do
    let snapshot ← .step StateDB.snapshot
    StateDB.createAccount D contractAddr
    .update fun s => s.setNonce D contractAddr 1
    pure (some (snapshot, contractAddr))

end

theorem call_eq {depth : Nat} (hdepth : depth ≤ callCreateDepth) (hcan : canTransfer s caller value = true) (gas : UInt64)
    (builtin : RunResult) (interpret : Proc Err StateDB RunResult) :
    call D depth caller addr gas value builtin interpret s = (do
      match ← enterCall D addr value with
      | none => pure ⟨[], gas, none⟩
      | some snapshot => do
        transfer D caller addr value
        runCode D snapshot addr gas builtin interpret : Proc Err StateDB RunResult) s := by
  unfold call checked enterCall
  rw [bind_read, hcan, if_neg (Nat.not_lt.mpr hdepth)]
  simp only [bind_assoc]
  refine congrFun (congrArg (_ >>= ·) (funext fun snapshot => congrArg (_ >>= ·) (funext fun present => ?_))) s
  split
  · rfl
  · rw [bind_assoc]
    rfl

theorem create_eq {depth : Nat} (hdepth : depth ≤ callCreateDepth) (hcan : canTransfer s caller value = true)
    (code : Bytes) (gas : UInt64) (builtin : RunResult) (interpret : Address → Proc Err StateDB RunResult) :
    create D depth caller code gas value builtin interpret s = (do
      match ← enterCreate D caller with
      | none => pure ⟨[], 0, some .contractAddressCollision⟩
      | some (snapshot, contractAddr) => do
        transfer D caller contractAddr value
        let r ← run contractAddr code gas builtin (interpret contractAddr)
        settleCreate D contractAddr snapshot r : Proc Err StateDB RunResult) s := by
  unfold create checked enterCreate
  rw [bind_read, hcan, if_neg (Nat.not_lt.mpr hdepth)]
  simp only [bind_assoc]
  refine congrFun (congrArg (_ >>= ·) (funext fun nonce => congrArg (_ >>= ·) (funext fun _ =>
    congrArg (_ >>= ·) (funext fun collides => ?_)))) s
  split
  · rfl
  · simp only [bind_assoc]
    rfl

def Calls (s : StateDB) (addr : Address) (value : Nat) : Prop := s.exist addr ∨ precompiled addr ∨ value ≠ 0

theorem createAccount_absent (h : s.getStateObject x = none) : createAccount D x s = (.ok ⟨⟩, s.createObject D x) := by
  unfold createAccount
  rw [bind_read, h]
  rfl

theorem enterCall_eq (D : Database) (s : StateDB) (addr : Address) (value : Nat) : enterCall D addr value s =
      if !s.exist addr && !precompiled addr && value == 0 then (.ok none, s.snapshot.2)
      else (createIfAbsent D (s.exist addr) addr >>= fun _ => pure (some s.snapshot.1)) s.snapshot.2 := by
  show (if !s.exist addr && !precompiled addr && value == 0 then pure none else _ : Proc Err StateDB (Option Nat)) _ = _
  split <;> rfl

theorem calls_iff : Calls s addr value ↔ (!s.exist addr && !precompiled addr && value == 0) = false := by
  unfold Calls
  cases s.exist addr <;> cases precompiled addr <;> simp

theorem enterCall_reaches (h : Calls s addr value) :
    ∃ snapshot t, enterCall D addr value s = (.ok (some snapshot), t) := by
  rw [enterCall_eq, calls_iff.mp h]
  by_cases hpresent : s.exist addr = true
  · refine ⟨s.snapshot.1, s.snapshot.2, ?_⟩
    unfold createIfAbsent
    rw [if_pos hpresent]
    rfl
  · have habsent : s.snapshot.2.getStateObject addr = none := Option.not_isSome_iff_eq_none.mp hpresent
    refine ⟨s.snapshot.1, s.snapshot.2.createObject D addr, ?_⟩
    unfold createIfAbsent
    rw [if_neg hpresent, bind_run (createAccount_absent habsent)]
    rfl

theorem enterCall_ok {snapshot : Nat} (h : enterCall D addr value s = (.ok (some snapshot), t)) :
    Calls s addr value ∧ t.getBalance = s.getBalance ∧ t.bheight = s.bheight := by
  rw [enterCall_eq] at h
  split at h
  case isTrue => exact nomatch congrArg fst h
  case isFalse hcalls =>
    refine ⟨calls_iff.mpr (Bool.not_eq_true _ ▸ hcalls), ?_⟩
    obtain ⟨_, u, hcreate, h⟩ := bind_ok.mp h
    obtain ⟨-, rfl⟩ := pure_ok.mp h
    unfold createIfAbsent at hcreate
    split at hcreate
    · obtain ⟨-, rfl⟩ := pure_ok.mp hcreate
      exact ⟨rfl, rfl⟩
    · have hkept := createAccount_ok hcreate
      exact ⟨hkept.1.trans rfl, hkept.2.1.trans rfl⟩

/-- The check for a collision in `Create`. -/
def taken (D : Database) (s : StateDB) (addr : Address) : Bool :=
  s.getNonce addr != 0 || (s.getCodeHash addr != default && (s.getCodeHash addr).bytes != D.emptyCodeHash)

/-- The state once the nonce of the creator is raised. -/
def raised (D : Database) (s : StateDB) (caller : Address) : StateDB := s.setNonce D caller (s.getNonce caller + 1)

section
variable (D s caller)

theorem bheight_raised : (raised D s caller).bheight = s.bheight :=
  bheight_setNonce D s caller _

theorem getBalance_raised : (raised D s caller).getBalance = s.getBalance := getBalance_setNonce D s caller _

end

/-- The address of the next contract of the caller is free, and the account can be created: an account that
exists already is created anew at the block height. -/
def Creates (D : Database) (s : StateDB) (caller : Address) : Prop :=
  let contractAddr := createAddress D.toEnv caller (s.getNonce caller)
  taken D (raised D s caller) contractAddr = false ∧ ((raised D s caller).exist contractAddr → s.bheight.isSome)

theorem enterCreate_eq (D : Database) (s : StateDB) (caller : Address) : enterCreate D caller s =
      let contractAddr := createAddress D.toEnv caller (s.getNonce caller)
      if taken D (raised D s caller) contractAddr then (.ok none, raised D s caller)
      else (createAccount D contractAddr >>= fun _ => .update (fun s => s.setNonce D contractAddr 1) >>= fun _ =>
        pure (some ((raised D s caller).snapshot.1, contractAddr))) (raised D s caller).snapshot.2 := by
  show (if taken D (raised D s caller) (createAddress D.toEnv caller (s.getNonce caller)) then pure none
    else _ : Proc Err StateDB (Option (Nat × Address))) _ = _
  split
  case isTrue h => exact (if_pos h).symm
  case isFalse h => exact (if_neg h).symm

theorem createAccount_completes (h : s.exist x → s.bheight.isSome) : ∃ t, createAccount D x s = (.ok ⟨⟩, t) := by
  cases hprev : s.getStateObject x with
  | none => exact ⟨_, createAccount_absent hprev⟩
  | some prev =>
    have hheight : (s.createObject D x).bheight.isSome := by
      rw [bheight_createObject]
      exact h (by unfold exist; rw [hprev]; rfl)
    obtain ⟨height, t, hread, -⟩ := height_completes _ hheight
    unfold createAccount
    rw [bind_read, hprev]
    exact ⟨_, (bind_run hread).trans rfl⟩

theorem enterCreate_reaches (h : Creates D s caller) : ∃ r t, enterCreate D caller s = (.ok (some r), t) := by
  obtain ⟨hfree, hheight⟩ := h
  have hkept : (raised D s caller).snapshot.2.bheight = s.bheight := bheight_raised D s caller
  obtain ⟨t, ht⟩ := createAccount_completes fun hexist => by
    rw [hkept]
    exact hheight hexist
  rw [enterCreate_eq]
  dsimp only
  rw [hfree, bind_run ht]
  exact ⟨_, _, rfl⟩

theorem enterCreate_ok {r : Nat × Address} (h : enterCreate D caller s = (.ok (some r), t)) :
    Creates D s caller ∧ t.getBalance = s.getBalance ∧ t.bheight = s.bheight := by
  rw [enterCreate_eq] at h
  dsimp only at h
  split at h
  case isTrue => exact nomatch congrArg fst h
  case isFalse hfree =>
    obtain ⟨_, u, hcreate, h⟩ := bind_ok.mp h
    obtain ⟨_, v, hset, h⟩ := bind_ok.mp h
    obtain ⟨-, rfl⟩ := pure_ok.mp h
    obtain rfl := update_ok.mp hset
    obtain ⟨hbalance, hheight, hneeds⟩ := createAccount_ok hcreate
    rw [getBalance_setNonce, bheight_setNonce, hbalance, hheight, ← bheight_raised D s caller, ← getBalance_raised D s caller]
    refine ⟨⟨Bool.not_eq_true _ ▸ hfree, fun hexist => ?_⟩, rfl, rfl⟩
    rw [← bheight_raised D s caller]
    exact hneeds hexist

/-! ### When the transfer of a call or a creation completes -/

/-- A call whose check passes and that gets to `Transfer` gets past it. -/
def CallTransfers (D : Database) (s : StateDB) (caller addr : Address) (value : Nat) : Prop :=
  canTransfer s caller value = true → ∀ snapshot t, enterCall D addr value s = (.ok (some snapshot), t) →
    (transfer D caller addr value t).1.isOk

/-- A creation whose check passes and that gets to `Transfer` gets past it. -/
def CreateTransfers (D : Database) (s : StateDB) (caller : Address) (value : Nat) : Prop :=
  canTransfer s caller value = true → ∀ snapshot contractAddr t,
    enterCreate D caller s = (.ok (some (snapshot, contractAddr)), t) →
      (transfer D caller contractAddr value t).1.isOk

section
variable {depth : Nat} (hdepth : depth ≤ callCreateDepth)
include hdepth

/-- A call that returns has got past its transfer. -/
theorem callTransfers_of_call {gas : UInt64} {builtin : RunResult} {interpret : Proc Err StateDB RunResult}
    (h : (call D depth caller addr gas value builtin interpret s).1.isOk = true) : CallTransfers D s caller addr value := by
  intro hcan snapshot t ht
  obtain ⟨_, _, hrun⟩ := isOk_iff.mp h
  rw [call_eq hdepth hcan, bind_run ht] at hrun
  obtain ⟨_, u, htransfer, -⟩ := bind_ok.mp hrun
  exact isOk_iff.mpr ⟨_, u, htransfer⟩

theorem createTransfers_of_create {code : Bytes} {gas : UInt64} {builtin : RunResult}
    {interpret : Address → Proc Err StateDB RunResult}
    (h : (create D depth caller code gas value builtin interpret s).1.isOk = true) : CreateTransfers D s caller value := by
  intro hcan snapshot contractAddr t ht
  obtain ⟨_, _, hrun⟩ := isOk_iff.mp h
  rw [create_eq hdepth hcan, bind_run ht] at hrun
  obtain ⟨_, u, htransfer, -⟩ := bind_ok.mp hrun
  exact isOk_iff.mpr ⟨_, u, htransfer⟩

end

/-- **The transfer of a call or a creation completes exactly when the caller has a balance** and the state a
height, whatever the value. A call or creation whose transfer does not complete does not return. -/
theorem transfers_complete_iff (D : Database) (s : StateDB) (caller addr : Address) (value : Nat) :
    (CallTransfers D s caller addr value ↔
      (canTransfer s caller value = true → Calls s addr value → s.getBalance caller ≠ 0 ∧ s.bheight.isSome)) ∧
    (CreateTransfers D s caller value ↔
      (canTransfer s caller value = true → Creates D s caller → s.getBalance caller ≠ 0 ∧ s.bheight.isSome)) ∧
    ∀ depth ≤ callCreateDepth, ∀ gas builtin,
      (∀ interpret, (call D depth caller addr gas value builtin interpret s).1.isOk = true →
        CallTransfers D s caller addr value) ∧
      ∀ code interpret, (create D depth caller code gas value builtin interpret s).1.isOk = true →
        CreateTransfers D s caller value := by
  refine ⟨⟨fun h hcan hcalls => ?_, fun h hcan snapshot t ht => ?_⟩,
    ⟨fun h hcan hcreates => ?_, fun h hcan snapshot contractAddr t ht => ?_⟩,
    fun _ hdepth _ _ => ⟨fun _ => callTransfers_of_call hdepth, fun _ _ => createTransfers_of_create hdepth⟩⟩
  · obtain ⟨snapshot, t, ht⟩ := enterCall_reaches hcalls
    obtain ⟨-, hbalance, hheight⟩ := enterCall_ok ht
    have hok := (transfer_isOk_iff caller addr value t).mp (h hcan snapshot t ht)
    rwa [hbalance, hheight] at hok
  · obtain ⟨hcalls, hbalance, hheight⟩ := enterCall_ok ht
    refine (transfer_isOk_iff caller addr value t).mpr ?_
    rw [hbalance, hheight]
    exact h hcan hcalls
  · obtain ⟨⟨snapshot, contractAddr⟩, t, ht⟩ := enterCreate_reaches hcreates
    obtain ⟨-, hbalance, hheight⟩ := enterCreate_ok ht
    have hok := (transfer_isOk_iff caller contractAddr value t).mp (h hcan snapshot contractAddr t ht)
    rwa [hbalance, hheight] at hok
  · obtain ⟨hcreates, hbalance, hheight⟩ := enterCreate_ok ht
    refine (transfer_isOk_iff caller contractAddr value t).mpr ?_
    rw [hbalance, hheight]
    exact h hcan hcreates

/-- A block is being executed, and the sender is the only account with a balance. -/
def preparedState : StateDB := (StateDB.new (sampleTrie 5)).prepare default default 1 0

/-- **A call of nothing from an empty account to one that exists passes the check and divides by zero.** -/
theorem empty_call_panics : canTransfer preparedState (bytesToAddress [1]) 0 = true ∧
    Calls preparedState sampleSender 0 ∧
    (call Machine.sample.toDatabase 0 (bytesToAddress [1]) sampleSender 100 0 ⟨[], 100, none⟩
      (pure ⟨[], 100, none⟩) preparedState).1 = .error (.panic .divisionByZero) ∧
    ¬CallTransfers Machine.sample.toDatabase preparedState (bytesToAddress [1]) sampleSender 0 := by
  have hcan : canTransfer preparedState (bytesToAddress [1]) 0 = true := by decide +kernel
  have hcalls : Calls preparedState sampleSender 0 := .inl (by decide +kernel)
  refine ⟨hcan, hcalls, by decide +kernel, fun h => ?_⟩
  obtain ⟨snapshot, t, ht⟩ := enterCall_reaches hcalls
  have hbalance := ((transfer_isOk_iff _ _ _ t).mp (h hcan snapshot t ht)).1
  rw [(enterCall_ok ht).2.1] at hbalance
  exact hbalance (by decide +kernel)

end Okchain.Core
