import Okchain.Vm.Evm

/-! Invariants of contract execution.

A property of the world state survives every contract call if it survives the few state operations calls are made of,
which `FrameInvariant` lists. Some need to hold only for the accounts `Q` that can run code. Rolling back is asked for
only for snapshots that were taken since execution started, whose identifiers are at least `base`.
-/
namespace Okchain.Vm
open Lib State

/-- What a property of the state has to survive to survive contract execution. -/
structure FrameInvariant (D : Database) (base : Nat) (Q : Address → Prop) (P : StateDB → Prop) :
    Prop where
  setState : ∀ {s self}, Q self → P s → ∀ key value, P (s.setState D self key value)
  addRefund : ∀ {s}, P s → ∀ gas, P (s.addRefund gas)
  addLog : ∀ {s}, P s → ∀ l, P (s.addLog l)
  addPreimage : ∀ {s}, P s → ∀ hash data, P (s.addPreimage hash data)
  addBalance : ∀ {s}, P s → ∀ addr amount, P (s.addBalance D addr amount)
  suicide : ∀ {s self}, Q self → P s → P (s.suicide self)
  setNonce : ∀ {s self}, Q self → P s → ∀ nonce, P (s.setNonce D self nonce)
  setCode : ∀ {s self}, Q self → P s → ∀ code, P (s.setCode D self code)
  transfer : ∀ {s t u sender recipient amount}, P s →
    transfer D sender recipient amount s = (.ok u, t) → P t
  createAccount : ∀ {s t u addr}, P s → (s.exist addr = false ∨ Q addr) →
    StateDB.createAccount D addr s = (.ok u, t) → P t
  snapshot : ∀ {s}, P s → P s.snapshot.2 ∧ base ≤ s.nextRevisionId
  revert : ∀ {s t u id}, P s → base ≤ id → StateDB.revertToSnapshot id s = (.ok u, t) → P t
  runs : ∀ {s addr}, P s → s.getCode D addr ≠ [] → Q addr
  creates : ∀ {addr}, Q addr → ∀ nonce, Q (createAddress D.toEnv addr nonce)

namespace FrameInvariant
open Proc (Keeps Ensures)

variable {D : Database} {base : Nat} {Q : Address → Prop} {P : StateDB → Prop}
variable {depth id value : Nat} {addr caller : Address} {code : Bytes} {gas : UInt64} {builtin : RunResult}
  {interpret : Proc Err StateDB RunResult}

section
variable (hP : FrameInvariant D base Q P) (hid : base ≤ id)
include hP hid

theorem settle_keeps (r : RunResult) : Keeps P (settle id r) := by
  unfold settle
  cases r.err with
  | none => exact .pure fun _ hs => hs
  | some e => exact .bind (fun s hs _ t h => hP.revert hs hid h) fun _ => .pure fun _ hs => hs

theorem settleCreate_keeps (hq : Q addr) (r : RunResult) : Keeps P (settleCreate D addr id r) := by
  refine .ite (fun _ => ?_) fun _ => ?_
  · exact .bind (fun s hs _ t h => hP.revert hs hid h) fun _ => .pure fun _ hs => hs
  · cases r.err with
    | none =>
      refine .ite (fun _ => ?_) fun _ => .pure fun _ hs => hs
      exact .bind (.update fun s hs => hP.setCode hq hs _) fun _ => .pure fun _ hs => hs
    | some e =>
      cases e with
      | codeStoreOutOfGas => exact .pure fun _ hs => hs
      | _ => exact hP.settle_keeps hid _

end

theorem run_keeps {codeAddr : Address} (hi : code ≠ [] → Keeps P interpret) :
    Keeps P (run codeAddr code gas builtin interpret) :=
  .ite (fun _ => .pure fun _ hs => hs) fun _ => .ite (fun _ => .pure fun _ hs => hs) hi

theorem checked_keeps {rest : Proc Err StateDB RunResult} (h : Keeps P rest) :
    Keeps P (checked depth caller gas value rest) := by
  refine .bind (R := fun _ => P) (.read fun _ hs => hs) fun can => ?_
  refine .ite (fun _ => .pure fun _ hs => hs) fun _ => ?_
  exact .ite (fun _ => .pure fun _ hs => hs) fun _ => h

section
variable (hP : FrameInvariant D base Q P)
include hP

theorem runCode_keeps (hid : base ≤ id) (hi : Q addr → Keeps P interpret) :
    Keeps P (runCode D id addr gas builtin interpret) := by
  refine .bind (R := fun code s => P s ∧ (code ≠ [] → Q addr))
    (.read fun s hs => ⟨hs, hP.runs hs⟩) fun code => ?_
  intro s ⟨hs, hq⟩
  exact Ensures.bind (run_keeps fun hne => hi (hq hne)) (hP.settle_keeps hid) s hs

/-- Taking a snapshot keeps the property and yields an identifier that may be reverted to. -/
theorem snapshot_ensures : Ensures P (.step StateDB.snapshot : Proc Err StateDB Nat) (fun id s => P s ∧ base ≤ id) :=
  .step fun _ hs => hP.snapshot hs

/-- A computation that keeps `P` may be run after a snapshot, knowing that its identifier may be
reverted to. -/
theorem after_snapshot {β : Type} {f : Nat → Proc Err StateDB β}
    (hf : ∀ id, base ≤ id → Keeps P (f id)) : Keeps P (.step StateDB.snapshot >>= f) :=
  .bind hP.snapshot_ensures fun id s hs => hf id hs.2 s hs.1

section
variable (hi : Q addr → Keeps P interpret)
include hi

theorem plainCall_keeps : Keeps P (plainCall D depth addr gas builtin interpret) :=
  .ite (fun _ => .pure fun _ hs => hs) fun _ =>
    hP.after_snapshot fun _ hid => hP.runCode_keeps hid hi

theorem callCode_keeps : Keeps P (callCode D depth caller addr gas value builtin interpret) :=
  checked_keeps (hP.after_snapshot fun _ hid => hP.runCode_keeps hid hi)

theorem call_keeps : Keeps P (call D depth caller addr gas value builtin interpret) := by
  refine checked_keeps (hP.after_snapshot fun id hid => ?_)
  refine .bind (R := fun present s => P s ∧ present = s.exist addr)
    (.read fun _ hs => ⟨hs, rfl⟩) fun present => ?_
  refine .ite (fun _ => .pure fun _ hs => hs.1) fun _ => ?_
  -- an account is created only where there is none
  refine .bind (R := fun _ => P) ?_ fun _ => ?_
  · refine .ite (fun _ => .pure fun _ hs => hs.1) fun habsent => ?_
    intro s hs _ t h
    exact hP.createAccount hs.1 (.inl (by rw [← hs.2]; exact Bool.eq_false_iff.mpr habsent)) h
  · exact .bind (fun s hs _ t h => hP.transfer hs h) fun _ => hP.runCode_keeps hid hi

end

theorem createContract_keeps {contractAddr : Address} (hq : Q contractAddr) (hi : Keeps P interpret) :
    Keeps P (createContract D caller contractAddr code gas value builtin interpret) := by
  refine hP.after_snapshot fun id hid => ?_
  refine .bind (fun s hs _ t h => hP.createAccount hs (.inr hq) h) fun _ => ?_
  refine .bind (R := fun _ => P) (.update fun _ hs => hP.setNonce hq hs 1) fun _ => ?_
  refine .bind (fun s hs _ t h => hP.transfer hs h) fun _ => ?_
  exact .bind (run_keeps fun _ => hi) (hP.settleCreate_keeps hid hq)

theorem create_keeps (hq : Q caller)
    {interpret : Address → Proc Err StateDB RunResult} (hi : ∀ addr, Q addr → Keeps P (interpret addr)) :
    Keeps P (create D depth caller code gas value builtin interpret) := by
  refine checked_keeps (.bind (R := fun _ => P) (.read fun _ hs => hs) fun nonce => ?_)
  refine .bind (R := fun _ => P) (.update fun _ hs => hP.setNonce hq hs _) fun _ => ?_
  refine .bind (R := fun _ => P) (.read fun _ hs => hs) fun collides => ?_
  refine .ite (fun _ => .pure fun _ hs => hs) fun _ => ?_
  exact hP.createContract_keeps (hP.creates hq nonce) (hi _ (hP.creates hq nonce))

/-- **The frame theorem.** A property that survives the state operations survives every run of the
interpreter, with all the calls and creations inside it. -/
theorem exec_keeps (t : Trace) (depth : Nat) {self : Address} (hq : Q self) : Keeps P (exec D t depth self) := by
  induction t generalizing depth self with
  | halt r => exact .pure fun _ hs => hs
  | sstore key value next ih =>
    exact .bind (.update fun _ hs => hP.setState hq hs key value) fun _ => ih depth hq
  | refund gas next ih => exact .bind (.update fun _ hs => hP.addRefund hs gas) fun _ => ih depth hq
  | log l next ih => exact .bind (.update fun _ hs => hP.addLog hs l) fun _ => ih depth hq
  | preimage hash data next ih =>
    exact .bind (.update fun _ hs => hP.addPreimage hs hash data) fun _ => ih depth hq
  | selfdestruct beneficiary next ih =>
    exact .bind (.update fun _ hs => hP.suicide hq (hP.addBalance hs _ _)) fun _ => ih depth hq
  | call addr gas value sub next ihsub ihnext =>
    exact .bind (hP.call_keeps fun hq' => ihsub (depth + 1) hq') fun _ => ihnext depth hq
  | callCode addr gas value sub next ihsub ihnext =>
    exact .bind (hP.callCode_keeps fun _ => ihsub (depth + 1) hq) fun _ => ihnext depth hq
  | delegateCall addr gas sub next ihsub ihnext =>
    exact .bind (hP.plainCall_keeps fun _ => ihsub (depth + 1) hq) fun _ => ihnext depth hq
  | staticCall addr gas sub next ihsub ihnext =>
    exact .bind (hP.plainCall_keeps fun hq' => ihsub (depth + 1) hq') fun _ => ihnext depth hq
  | create code gas value sub next ihsub ihnext =>
    exact .bind (hP.create_keeps hq fun addr hq' => ihsub (depth + 1) hq') fun _ => ihnext depth hq

end

end FrameInvariant

end Okchain.Vm
