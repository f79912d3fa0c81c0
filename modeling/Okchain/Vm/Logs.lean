import Okchain.State.Logs
import Okchain.Vm.Evm

/-! Contracts cannot read logs.

Every call and creation treats two states that differ in their logs alike: they fail together, or they
succeed with the same result in states that again differ in their logs alone.
-/
namespace Okchain.Vm
open Lib State
open Proc (Respects)

section

variable (D : Database)

theorem transfer_respects (sender recipient : Address) (amount : Nat) :
    Respects SameButLogs (transfer D sender recipient amount) := by
  refine .bind (.bind (subWeight_respects D sender amount) fun _ => ?_) fun _ => ?_
  · exact update_respects (subBalance_blind D sender amount)
  · exact .bind (addWeight_respects D recipient) fun _ => update_respects (addBalance_blind D recipient amount)

theorem settle_respects (id : Nat) (r : RunResult) : Respects SameButLogs (settle id r) := by
  unfold settle
  cases r.err with
  | none => exact .pure
  | some e => exact .bind (revertToSnapshot_respects id) fun _ => .pure

theorem settleCreate_respects (addr : Address) (id : Nat) (r : RunResult) :
    Respects SameButLogs (settleCreate D addr id r) := by
  refine .ite ?_ ?_
  · exact .bind (revertToSnapshot_respects id) fun _ => .pure
  · cases r.err with
    | none => exact .ite (.bind (update_respects (setCode_blind D addr _)) fun _ => .pure) .pure
    | some e =>
      cases e with
      | codeStoreOutOfGas => exact .pure
      | _ => exact settle_respects id _

variable {codeAddr caller addr : Address} {code : Bytes} {gas : UInt64} {value depth : Nat}
  {builtin : RunResult} {interpret : Proc Err StateDB RunResult}

theorem run_respects (hi : Respects SameButLogs interpret) :
    Respects SameButLogs (run codeAddr code gas builtin interpret) :=
  .ite .pure (.ite .pure hi)

theorem checked_respects {rest : Proc Err StateDB RunResult} (h : Respects SameButLogs rest) :
    Respects SameButLogs (checked depth caller gas value rest) :=
  .bind (read_respects fun _ => rfl) fun _ => .ite .pure (.ite .pure h)

theorem runCode_respects (id : Nat) (hi : Respects SameButLogs interpret) :
    Respects SameButLogs (runCode D id addr gas builtin interpret) :=
  .bind (read_respects fun _ => rfl) fun _ => .bind (run_respects hi) (settle_respects id)

section
variable (hi : Respects SameButLogs interpret)
include hi

theorem plainCall_respects : Respects SameButLogs (plainCall D depth addr gas builtin interpret) :=
  .ite .pure (.bind snapshot_respects fun id => runCode_respects D id hi)

theorem callCode_respects : Respects SameButLogs (callCode D depth caller addr gas value builtin interpret) :=
  checked_respects (.bind snapshot_respects fun id => runCode_respects D id hi)

theorem call_respects : Respects SameButLogs (call D depth caller addr gas value builtin interpret) := by
  refine checked_respects (.bind snapshot_respects fun id => ?_)
  refine .bind (read_respects fun _ => rfl) fun present => .ite .pure ?_
  refine .bind (.ite .pure (createAccount_respects D addr)) fun _ => ?_
  exact .bind (transfer_respects D caller addr value) fun _ => runCode_respects D id hi

theorem createContract_respects :
    Respects SameButLogs (createContract D caller addr code gas value builtin interpret) := by
  refine .bind snapshot_respects fun id => .bind (createAccount_respects D addr) fun _ => ?_
  refine .bind (update_respects (setNonce_blind D addr (fun _ => 1) fun _ => rfl)) fun _ => ?_
  refine .bind (transfer_respects D caller addr value) fun _ => ?_
  exact .bind (run_respects hi) (settleCreate_respects D addr id)

end

theorem create_respects {interpret : Address → Proc Err StateDB RunResult}
    (hi : ∀ addr, Respects SameButLogs (interpret addr)) :
    Respects SameButLogs (create D depth caller code gas value builtin interpret) := by
  refine checked_respects (.bind (read_respects fun _ => rfl) fun nonce => ?_)
  refine .bind (update_respects (setNonce_blind D caller (fun _ => nonce + 1) fun _ => rfl)) fun _ => ?_
  exact .bind (read_respects fun _ => rfl) fun collides => .ite .pure (createContract_respects D (hi _))

theorem selfdestruct_blind (beneficiary self : Address) :
    Blind (fun s => (s.addBalance D beneficiary (s.getBalance self)).suicide self) := by
  refine ⟨fun s => ?_, fun s => ?_⟩
  · rw [(suicide_blind self).commutes, (addBalance_blind D beneficiary _).commutes]
    rfl
  · exact ((addBalance_blind D beneficiary _).free s).trans ((suicide_blind self).free _)

/-- **Logs are write-only.** A run of the interpreter cannot tell states apart that differ in their
logs. -/
theorem exec_respects (t : Trace) (depth : Nat) (self : Address) : Respects SameButLogs (exec D t depth self) := by
  induction t generalizing depth self with
  | halt r => exact .pure
  | sstore key value next ih =>
    exact .bind (update_respects (setState_blind D self key value)) fun _ => ih depth self
  | refund gas next ih => exact .bind (update_respects (addRefund_blind gas)) fun _ => ih depth self
  | log l next ih => exact .bind (addLog_respects l) fun _ => ih depth self
  | preimage hash data next ih =>
    exact .bind (update_respects (addPreimage_blind hash data)) fun _ => ih depth self
  | selfdestruct beneficiary next ih =>
    exact .bind (update_respects (selfdestruct_blind D beneficiary self)) fun _ => ih depth self
  | call addr gas value sub next ihsub ihnext =>
    exact .bind (call_respects D (ihsub (depth + 1) addr)) fun _ => ihnext depth self
  | callCode addr gas value sub next ihsub ihnext =>
    exact .bind (callCode_respects D (ihsub (depth + 1) self)) fun _ => ihnext depth self
  | delegateCall addr gas sub next ihsub ihnext =>
    exact .bind (plainCall_respects D (ihsub (depth + 1) self)) fun _ => ihnext depth self
  | staticCall addr gas sub next ihsub ihnext =>
    exact .bind (plainCall_respects D (ihsub (depth + 1) addr)) fun _ => ihnext depth self
  | create code gas value sub next ihsub ihnext =>
    exact .bind (create_respects D (ihsub (depth + 1))) fun _ => ihnext depth self

end

end Okchain.Vm
