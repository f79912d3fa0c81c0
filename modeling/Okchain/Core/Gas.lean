import Okchain.Lib.Run
import Okchain.Core.Replay
import Okchain.Core.Fees

/-! The gas of one transaction, and the refund counter of a block.

A message buys its whole gas limit, pays the intrinsic gas, runs, gets a refund of at most half of what it used, and
sells the rest back. The refund is taken from a counter of the state that contracts add to and that is never reset:
`clearJournalAndRefund` leaves it as it is.
-/
namespace Okchain.Core
open Lib State Vm Protos Except
open Proc hiding throw
open UInt64 (le_iff_toNat_le le_of_lt le_refl le_trans not_le sub_zero zero_le)

section
variable (M : Machine)

/-- `TransitionDb` until the gas is sold back: what the EVM returned, and the gas pool after the purchase. -/
def untilRefund (ctx : Context) (m : Msg) (gp : UInt64) : Proc Err StateDB (RunResult × UInt64) := do
  let gp ← preCheck M m gp
  let intrinsic ← .lift (intrinsicGas m.data m.recipient.isNone)
  .ensure (intrinsic ≤ m.gasLimit) (.vm .outOfGas)
  let r ← execute M ctx m (m.gasLimit - intrinsic)
  let vmerr : Option Err := r.err.map .vm
  .ensure (vmerr ≠ some (.core .insufficientBalance)) (.core .insufficientBalance)
  pure (r, gp)

/-- The refund `refundGas` grants. -/
def refundGiven (m : Msg) (r : RunResult) (s : StateDB) : UInt64 := min ((m.gasLimit - r.gas) / 2) s.refund

end

section Inversion
variable {M : Machine} {ctx : Context} {m : Msg} {gp : UInt64} {s t u : StateDB} {r : RunResult} {gp' : UInt64}

theorem preCheck_ok (h : preCheck M m gp s = (.ok gp', t)) :
    m.gasLimit ≤ gp ∧ gp' = gp - m.gasLimit ∧ (m.gasCost : Int) ≤ s.getBalance m.sender ∧
      t = s.subBalance M.toDatabase m.sender m.gasCost := by
  obtain ⟨-, h₁⟩ := ensure_bind_ok.mp h
  obtain ⟨-, h₂⟩ := ensure_bind_ok.mp h₁
  obtain ⟨_, v, hstate, h₃⟩ := bind_ok.mp h₂
  obtain ⟨hfunds, rfl⟩ := ensureState_ok.mp hstate
  obtain ⟨hpool, h₄⟩ := ensure_bind_ok.mp h₃
  obtain ⟨rfl, rfl⟩ := pure_ok.mp h₄
  exact ⟨hpool, rfl, hfunds, rfl⟩

theorem untilRefund_ok (h : untilRefund M ctx m gp s = (.ok (r, gp'), u)) :
    ∃ intrinsic, preCheck M m gp s = (.ok gp', s.subBalance M.toDatabase m.sender m.gasCost) ∧
      intrinsicGas m.data m.recipient.isNone = .ok intrinsic ∧ intrinsic ≤ m.gasLimit ∧
      execute M ctx m (m.gasLimit - intrinsic) (s.subBalance M.toDatabase m.sender m.gasCost) = (.ok r, u) := by
  obtain ⟨gp₁, s₁, hcheck, h⟩ := bind_ok.mp h
  obtain ⟨intrinsic, hintrinsic, h⟩ := lift_bind_ok.mp h
  obtain ⟨hle, h⟩ := ensure_bind_ok.mp h
  obtain ⟨r', u', hexec, h⟩ := bind_ok.mp h
  obtain ⟨-, h⟩ := ensure_bind_ok.mp h
  obtain ⟨heq, rfl⟩ := pure_ok.mp h
  obtain ⟨rfl, rfl⟩ := Prod.mk.inj heq
  obtain rfl := (preCheck_ok hcheck).2.2.2
  exact ⟨intrinsic, hcheck, hintrinsic, hle, hexec⟩

theorem transitionDb_ok {applied : Applied} (h : transitionDb M ctx m gp s = (.ok applied, t)) :
    ∃ r gp' u, untilRefund M ctx m gp s = (.ok (r, gp'), u) ∧
      applied.gasUsed = m.gasLimit - (r.gas + refundGiven m r u) ∧
      applied.gasPool = gp' + (r.gas + refundGiven m r u) ∧
      t = u.addBalance M.toDatabase m.sender ((r.gas + refundGiven m r u).toNat * m.gasPrice : Nat) := by
  obtain ⟨gp', s₁, hcheck, h⟩ := bind_ok.mp h
  obtain ⟨intrinsic, hintrinsic, h⟩ := lift_bind_ok.mp h
  obtain ⟨hle, h⟩ := ensure_bind_ok.mp h
  obtain ⟨r, u, hexec, h⟩ := bind_ok.mp h
  obtain ⟨hvm, h⟩ := ensure_bind_ok.mp h
  refine ⟨r, gp', u, ?_, ?_⟩
  · unfold untilRefund
    rw [bind_run hcheck, bind_lift hintrinsic, bind_ensure hle, bind_run hexec]
    exact bind_ensure hvm
  · obtain ⟨-, h⟩ := ensure_bind_ok.mp h
    obtain ⟨rfl, rfl⟩ := pure_ok.mp h
    exact ⟨rfl, rfl, rfl⟩

end Inversion

/-! ### Gas returned by the EVM -/

def ReturnsWithin (gas : UInt64) (x : Proc Err StateDB RunResult) : Prop :=
  Proc.Ensures (fun _ => True) x (fun r _ => r.gas ≤ gas)

/-- The interpreter and the precompiled contracts return at most the gas they are given. -/
structure Frugal (M : Machine) : Prop where
  interpret : ∀ ctx v f, (M.interpret ctx v f).result.gas ≤ f.gas
  precompile : ∀ a input gas, (M.precompile a input gas).gas ≤ gas

section Evm
open Proc (Ensures)
variable {D : Database} {gas : UInt64}

theorem ensures_true {α : Type} (x : Proc Err StateDB α) : Ensures (fun _ => True) x fun _ _ => True :=
  fun _ _ _ _ _ => trivial

/-- The state operations of a run do not change how it ends. -/
theorem exec_result (t : Trace) (depth : Nat) (self : Address) :
    Ensures (fun _ => True) (exec D t depth self) fun r _ => r = t.result := by
  induction t generalizing depth self with
  | halt r => exact .pure fun _ _ => rfl
  | sstore _ _ _ ih | refund _ _ ih | log _ _ ih | preimage _ _ _ ih | selfdestruct _ _ ih =>
    exact .bind (ensures_true _) fun _ => ih depth self
  | call _ _ _ _ _ _ ih | callCode _ _ _ _ _ _ ih | delegateCall _ _ _ _ _ ih | staticCall _ _ _ _ _ ih
  | create _ _ _ _ _ _ ih => exact .bind (ensures_true _) fun _ => ih depth self

theorem exec_returnsWithin {t : Trace} (ht : t.result.gas ≤ gas) (depth : Nat) (self : Address) :
    ReturnsWithin gas (exec D t depth self) := by
  intro s hs r u h
  rw [exec_result t depth self s hs r u h]
  exact ht

variable {builtin : RunResult} {interpret : Proc Err StateDB RunResult}

theorem run_returnsWithin (hbuiltin : builtin.gas ≤ gas) (hinterpret : ReturnsWithin gas interpret) (addr : Address)
    (code : Bytes) : ReturnsWithin gas (run addr code gas builtin interpret) := by
  refine .ite (fun _ => .pure fun _ _ => hbuiltin) fun _ => ?_
  exact .ite (fun _ => .pure fun _ _ => le_refl _) fun _ => hinterpret

/-- An error takes all gas or leaves it. -/
theorem settle_returnsWithin (snapshot : Nat) {r : RunResult} (hr : r.gas ≤ gas) :
    ReturnsWithin gas (settle snapshot r) := by
  unfold settle
  split
  · exact .pure fun _ _ => hr
  · refine .bind (ensures_true _) fun _ => .pure fun _ _ => ?_
    split
    · exact hr
    · exact zero_le

theorem checked_returnsWithin {depth value : Nat} {caller : Address} {rest : Proc Err StateDB RunResult}
    (h : ReturnsWithin gas rest) : ReturnsWithin gas (checked depth caller gas value rest) := by
  refine .bind (ensures_true _) fun _ => .ite (fun _ => .pure fun _ _ => le_refl _) fun _ => ?_
  exact .ite (fun _ => .pure fun _ _ => le_refl _) fun _ => h

section
variable (hbuiltin : builtin.gas ≤ gas) (hinterpret : ReturnsWithin gas interpret)
include hbuiltin hinterpret

theorem runCode_returnsWithin (addr : Address) (snapshot : Nat) :
    ReturnsWithin gas (runCode D snapshot addr gas builtin interpret) := by
  refine .bind (ensures_true _) fun code => .bind (run_returnsWithin hbuiltin hinterpret addr code) fun r s hr => ?_
  exact settle_returnsWithin snapshot hr s trivial

theorem call_returnsWithin (depth : Nat) (caller addr : Address) (value : Nat) :
    ReturnsWithin gas (call D depth caller addr gas value builtin interpret) := by
  refine checked_returnsWithin (.bind (ensures_true _) fun snapshot => .bind (ensures_true _) fun _ => ?_)
  refine .ite (fun _ => .pure fun _ _ => le_refl _) fun _ => ?_
  refine .bind (ensures_true _) fun _ => .bind (ensures_true _) fun _ => ?_
  exact runCode_returnsWithin hbuiltin hinterpret addr snapshot

end

theorem settleCreate_returnsWithin (contractAddr : Address) (snapshot : Nat) {r : RunResult} (hr : r.gas ≤ gas) :
    ReturnsWithin gas (settleCreate D contractAddr snapshot r) := by
  unfold settleCreate
  split
  · refine .bind (ensures_true _) fun _ => .pure fun _ _ => ?_
    split
    · exact hr
    · exact zero_le
  · split
    · dsimp only
      split
      · refine .bind (ensures_true _) fun _ => .pure fun _ _ => ?_
        exact le_trans (UInt64.sub_le ‹_›) hr
      · exact .pure fun _ _ => hr
    · exact .pure fun _ _ => hr
    · exact settle_returnsWithin snapshot hr

theorem create_returnsWithin {interpret : Address → Proc Err StateDB RunResult} (hbuiltin : builtin.gas ≤ gas)
    (hinterpret : ∀ self, ReturnsWithin gas (interpret self)) (depth : Nat) (caller : Address) (code : Bytes)
    (value : Nat) : ReturnsWithin gas (create D depth caller code gas value builtin interpret) := by
  refine checked_returnsWithin (.bind (ensures_true _) fun nonce => ?_)
  refine .bind (ensures_true _) fun _ => .bind (ensures_true _) fun _ => ?_
  refine .ite (fun _ => .pure fun _ _ => zero_le) fun _ => ?_
  refine .bind (ensures_true _) fun snapshot => .bind (ensures_true _) fun _ => .bind (ensures_true _) fun _ => ?_
  refine .bind (ensures_true _) fun _ => .bind (run_returnsWithin hbuiltin (hinterpret _) _ code) fun r s hr => ?_
  exact settleCreate_returnsWithin _ snapshot hr s trivial

end Evm

theorem Frugal.execute {M : Machine} (hM : Frugal M) (ctx : Context) (m : Msg) (gas : UInt64) :
    ReturnsWithin gas (execute M ctx m gas) := by
  unfold Core.execute
  split
  · refine create_returnsWithin (hM.precompile _ _ _) (fun self => ?_) 0 m.sender m.data m.amount
    refine Proc.Ensures.bind (R := fun t _ => t.result.gas ≤ gas) (.read fun s _ => hM.interpret _ _ _) fun t s ht => ?_
    exact exec_returnsWithin ht 1 self s trivial
  · refine .bind (ensures_true _) fun _ => call_returnsWithin (hM.precompile _ _ _) ?_ 0 m.sender _ m.amount
    refine Proc.Ensures.bind (R := fun t _ => t.result.gas ≤ gas) (.read fun s _ => hM.interpret _ _ _) fun t s ht => ?_
    exact exec_returnsWithin ht 1 _ s trivial

/-! ### Gas accounting -/

section Accounting
variable {M : Machine} {ctx : Context} {m : Msg} {gp : UInt64} {s t u : StateDB} {r : RunResult}

/-- The EVM returns at most the gas it was given for this message. -/
def ReturnsGas (M : Machine) (ctx : Context) (m : Msg) : Prop :=
  ∀ gas s r t, execute M ctx m gas s = (.ok r, t) → r.gas ≤ gas

theorem refundGiven_le (m : Msg) (r : RunResult) (s : StateDB) :
    (refundGiven m r s).toNat ≤ (m.gasLimit - r.gas).toNat / 2 := by
  have hle : refundGiven m r s ≤ (m.gasLimit - r.gas) / 2 := by
    show (if (m.gasLimit - r.gas) / 2 ≤ s.refund then (m.gasLimit - r.gas) / 2 else s.refund) ≤ _
    split
    · exact le_refl _
    · exact le_of_lt (not_le.mp ‹_›)
  have htoNat := le_iff_toNat_le.mp hle
  rwa [UInt64.toNat_div] at htoNat

/-- What is sold back is at most what was bought. -/
theorem toNat_refunded (hr : r.gas ≤ m.gasLimit) (s : StateDB) :
    (r.gas + refundGiven m r s).toNat = r.gas.toNat + (refundGiven m r s).toNat ∧
      r.gas.toNat + (refundGiven m r s).toNat ≤ m.gasLimit.toNat := by
  have hrefund := refundGiven_le m r s
  rw [UInt64.toNat_sub_of_le _ _ hr] at hrefund
  have hrNat := le_iff_toNat_le.mp hr
  have hlimit := m.gasLimit.toNat_lt
  refine ⟨?_, by omega⟩
  rw [UInt64.toNat_add]
  exact Nat.mod_eq_of_lt (by omega)

/-- **Gas accounting.** The gas used is within the limit, the pool shrinks by it, and what buying and selling gas does
to the sender's balance adds up to its price. -/
theorem transitionDb_gas {applied : Applied} (hevm : ReturnsGas M ctx m)
    (h : transitionDb M ctx m gp s = (.ok applied, t)) :
    applied.gasUsed ≤ m.gasLimit ∧ applied.gasPool.toNat + applied.gasUsed.toNat = gp.toNat ∧
    ∃ gp' r u, preCheck M m gp s = (.ok gp', s.subBalance M.toDatabase m.sender m.gasCost) ∧
      untilRefund M ctx m gp s = (.ok (r, gp'), u) ∧ (refundGas M m r.gas u).2 = t ∧
      (s.getBalance m.sender - (s.subBalance M.toDatabase m.sender m.gasCost).getBalance m.sender) -
        (t.getBalance m.sender - u.getBalance m.sender) = (applied.gasUsed.toNat * m.gasPrice : Nat) := by
  obtain ⟨r, gp', u, hrun, hused, hpool, rfl⟩ := transitionDb_ok h
  obtain ⟨intrinsic, hcheck, -, hintrinsic, hexec⟩ := untilRefund_ok hrun
  obtain ⟨hlimit, rfl, -, -⟩ := preCheck_ok hcheck
  have hr : r.gas ≤ m.gasLimit := by
    have hleft := hevm _ _ _ _ hexec
    rw [UInt64.le_iff_toNat_le] at hleft ⊢
    rw [UInt64.toNat_sub_of_le _ _ hintrinsic] at hleft
    omega
  obtain ⟨hsum, hsold⟩ := toNat_refunded hr u
  have hsoldLe : r.gas + refundGiven m r u ≤ m.gasLimit := by
    rw [UInt64.le_iff_toNat_le, hsum]
    exact hsold
  have husedNat : applied.gasUsed.toNat = m.gasLimit.toNat - (r.gas + refundGiven m r u).toNat := by
    rw [hused, UInt64.toNat_sub_of_le _ _ hsoldLe]
  refine ⟨?_, ?_, gp - m.gasLimit, r, u, hcheck, hrun, rfl, ?_⟩
  · rw [UInt64.le_iff_toNat_le, husedNat]
    exact Nat.sub_le _ _
  · have hgp := gp.toNat_lt
    have hlimitNat := UInt64.le_iff_toNat_le.mp hlimit
    rw [hpool, UInt64.toNat_add, UInt64.toNat_sub_of_le _ _ hlimit]
    omega
  · rw [getBalance_subBalance, getBalance_addBalance, Pi.add_apply, Pi.single_eq_same, husedNat, Nat.sub_mul,
      Nat.cast_sub (Nat.mul_le_mul_right _ (UInt64.le_iff_toNat_le.mp hsoldLe))]
    unfold Msg.gasCost
    ring

theorem Frugal.returnsGas (hM : Frugal M) (ctx : Context) (m : Msg) : ReturnsGas M ctx m :=
  fun gas s r t h => hM.execute ctx m gas s trivial r t h

theorem sample_frugal : Frugal Machine.sample :=
  ⟨fun _ _ _ => le_refl _, fun _ _ _ => le_refl _⟩

def sampleContext : Context := ⟨fun _ => default, sampleSender, 1, bytesToAddress [9], 1, 2, 1⟩

def fundedState : StateDB := (StateDB.new (sampleTrie 20000000)).prepare default default 2 0

/-- The theorem at a plain transfer: its sender pays the intrinsic gas. -/
theorem transitionDb_gas_plainTransfer :
    ∃ applied t, transitionDb Machine.sample sampleContext (asMsg Machine.sample (sampleTx (some [5]) 0 7)) 10000000
        fundedState = (.ok applied, t) ∧
      applied.gasUsed = 21000 ∧ applied.gasPool.toNat + applied.gasUsed.toNat = 10000000 := by
  have hused : (transitionDb Machine.sample sampleContext (asMsg Machine.sample (sampleTx (some [5]) 0 7)) 10000000
      fundedState).1.map Applied.gasUsed = .ok 21000 := by decide +kernel
  rcases h : transitionDb Machine.sample sampleContext (asMsg Machine.sample (sampleTx (some [5]) 0 7)) 10000000
      fundedState with ⟨_ | applied, t⟩
  · rw [h] at hused
    nomatch hused
  · rw [h] at hused
    obtain ⟨-, hpool, -⟩ := transitionDb_gas (sample_frugal.returnsGas _ _) h
    exact ⟨applied, t, rfl, Except.ok.inj hused, hpool⟩

end Accounting

/-! ### Refunds in a block -/

section Block
variable (M : Machine) (block : TxBlock)

/-- Where the loop of `Process` stands. -/
structure Loop where
  index : Nat
  progress : Progress
  state : StateDB

def ProcessStep (x : Loop) (tx : Transaction) (y : Loop) : Prop :=
  y.index = x.index + 1 ∧ processTx M block x.index tx x.progress x.state = (.ok y.progress, y.state)

/-- In this round the EVM returned `r` and left the state `u`. -/
def Ran (x : Loop) (tx : Transaction) (r : RunResult) (u : StateDB) : Prop :=
  ∃ bhash ctx gp', block.hash M.toEnv = .ok bhash ∧ newEVMContext M (asMsg M tx) block.header = .ok ctx ∧
    untilRefund M ctx (asMsg M tx) x.progress.gasPool
      (x.state.prepare (tx.hash M.toEnv) bhash block.header.blockNumber x.index) = (.ok (r, gp'), u)

/-- The transaction is refunded at most what it added to the counter itself. -/
def RefundsOwn (x : Loop) (tx : Transaction) : Prop :=
  ∃ r u, Ran M block x tx r u ∧ refundGiven (asMsg M tx) r u ≤ u.refund - x.state.refund

/-- The counter starts at zero, or the transaction adds as much itself as can be refunded, or it makes the counter
wrap around. -/
def CounterSpent (x : Loop) (tx : Transaction) : Prop :=
  ∀ r u, Ran M block x tx r u → x.state.refund = 0 ∨
    ((asMsg M tx).gasLimit - r.gas) / 2 ≤ u.refund - x.state.refund ∨ u.refund < x.state.refund

variable {M block} {x y : Loop} {tx : Transaction} {r r' : RunResult} {u u' : StateDB}

def refunds (M : Machine) (block : TxBlock) (x : Loop) (tx : Transaction) : Except Err (UInt64 × UInt64) := do
  let bhash ← block.hash M.toEnv
  let ctx ← newEVMContext M (asMsg M tx) block.header
  match untilRefund M ctx (asMsg M tx) x.progress.gasPool
    (x.state.prepare (tx.hash M.toEnv) bhash block.header.blockNumber x.index) with
  | (.ok (r, _), u) => return (refundGiven (asMsg M tx) r u, u.refund - x.state.refund)
  | (.error e, _) => throw e

theorem Ran.refunds_eq (h : Ran M block x tx r u) :
    refunds M block x tx = .ok (refundGiven (asMsg M tx) r u, u.refund - x.state.refund) := by
  obtain ⟨bhash, ctx, gp', hbhash, hctx, hrun⟩ := h
  unfold refunds
  rw [hbhash, hctx]
  show (match untilRefund M ctx (asMsg M tx) x.progress.gasPool
    (x.state.prepare (tx.hash M.toEnv) bhash block.header.blockNumber x.index) with
    | (.ok (r, _), u) => _
    | (.error e, _) => _) = _
  rw [hrun]
  rfl

theorem Ran.unique (h : Ran M block x tx r u) (h' : Ran M block x tx r' u') : r' = r ∧ u' = u := by
  obtain ⟨bhash, ctx, gp₁, hbhash, hctx, hrun⟩ := h
  obtain ⟨bhash', ctx', gp₂, hbhash', hctx', hrun'⟩ := h'
  obtain rfl := ok.inj (hbhash.symm.trans hbhash')
  obtain rfl := ok.inj (hctx.symm.trans hctx')
  obtain ⟨hok, rfl⟩ := Prod.mk.inj (hrun'.symm.trans hrun)
  exact ⟨(Prod.mk.inj (ok.inj hok)).1, rfl⟩

/-- A round that completes has run the EVM, and its receipt shows the refund. -/
theorem ProcessStep.ran (h : ProcessStep M block x tx y) :
    ∃ r u receipt, Ran M block x tx r u ∧ y.progress.receipts = x.progress.receipts ++ [receipt] ∧
      receipt.gasUsed = (asMsg M tx).gasLimit - (r.gas + refundGiven (asMsg M tx) r u) := by
  obtain ⟨bhash, receipt, gasPool, shardId, hbhash, happly, -, hy⟩ := processTx_ok h.2
  obtain ⟨ctx, hctx, h₁⟩ := lift_bind_ok.mp happly
  obtain ⟨applied, s₂, htransition, h₂⟩ := bind_ok.mp h₁
  obtain ⟨_, s₃, -, h₃⟩ := bind_ok.mp h₂
  obtain ⟨hreceipt, -⟩ := pure_ok.mp h₃
  obtain ⟨r, gp', u, hrun, hused, -⟩ := transitionDb_ok htransition
  refine ⟨r, u, receipt, ⟨bhash, ctx, gp', hbhash, hctx, hrun⟩, ?_, ?_⟩
  · rw [hy]
  · rw [(Prod.mk.inj hreceipt).1]
    exact hused

theorem min_le_sub_iff (a b c : UInt64) : min a b ≤ b - c ↔ c = 0 ∨ a ≤ b - c ∨ b < c := by
  have hb : b ≤ b - c ↔ c = 0 ∨ b < c := by
    constructor
    · intro h
      by_cases hbc : b < c
      · exact .inr hbc
      · have hcb := UInt64.not_lt.mp hbc
        rw [le_iff_toNat_le, UInt64.toNat_sub_of_le _ _ hcb] at h
        rw [le_iff_toNat_le] at hcb
        refine .inl (UInt64.toNat_inj.mp ?_)
        show c.toNat = 0
        omega
    · rintro (rfl | hbc)
      · rw [sub_zero]
        exact le_refl _
      · have hc := c.toNat_lt
        rw [UInt64.lt_iff_toNat_lt] at hbc
        rw [le_iff_toNat_le, UInt64.toNat_sub]
        omega
  show (if a ≤ b then a else b) ≤ b - c ↔ _
  split
  · rename_i hab
    constructor
    · exact fun h => .inr (.inl h)
    · rintro (rfl | h | h)
      · rwa [sub_zero]
      · exact h
      · exact le_trans hab (hb.mpr (.inr h))
  · rename_i hab
    have hba := le_of_lt (not_le.mp hab)
    constructor
    · intro h
      exact (hb.mp h).imp_right .inr
    · rintro (h | h | h)
      · exact hb.mpr (.inl h)
      · exact le_trans hba h
      · exact hb.mpr (.inr h)

theorem ProcessStep.refundsOwn_iff (h : ProcessStep M block x tx y) :
    RefundsOwn M block x tx ↔ CounterSpent M block x tx := by
  obtain ⟨r, u, -, hran, -, -⟩ := h.ran
  have hiff := min_le_sub_iff (((asMsg M tx).gasLimit - r.gas) / 2) u.refund x.state.refund
  constructor
  · rintro ⟨r', u', hran', hgiven⟩ r₁ u₁ hran₁
    obtain ⟨rfl, rfl⟩ := hran.unique hran'
    obtain ⟨rfl, rfl⟩ := hran.unique hran₁
    exact hiff.mp hgiven
  · intro hspent
    exact ⟨r, u, hran, hiff.mpr (hspent r u hran)⟩

/-- **Refunds of a block.** No transaction is refunded more than it earned exactly if each finds the counter at zero,
earns as much itself as half the gas it uses, or makes the counter wrap around. -/
theorem refundsOwn_throughout_iff (M : Machine) (block : TxBlock) (txs : List Transaction) (x : Loop) :
    EachStep (ProcessStep M block) (RefundsOwn M block) txs x ↔
      EachStep (ProcessStep M block) (CounterSpent M block) txs x :=
  EachStep.congr (fun _ _ _ h => h.refundsOwn_iff) txs x

/-- Contracts that destroy themselves: `ADDRESS` and `SELFDESTRUCT` earn a refund. -/
def Machine.destructing : Machine := {Machine.sample with
  interpret := fun _ _ f =>
    if f.code = [0x30, 0xFF] then .refund 24000 (.selfdestruct f.self (.halt ⟨[], f.gas - 2, none⟩))
    else .halt ⟨[], f.gas, none⟩}

/-- A contract creation that earns a refund, and a transfer that does not. -/
def creationTx : Transaction := {sampleTx none 0 0 with data := [0x30, 0xFF]}

def refundBlock : TxBlock := sampleBlock 2 [creationTx, sampleTx (some [5]) 1 7]

def firstRound : Loop := ⟨0, Progress.init, StateDB.new (sampleTrie 30000000)⟩

def afterCreation : Except Err Progress × StateDB :=
  processTx Machine.destructing refundBlock 0 creationTx firstRound.progress firstRound.state

def secondRound : Loop := ⟨1, afterCreation.1.toOption.getD Progress.init, afterCreation.2⟩

theorem creation_round : ProcessStep Machine.destructing refundBlock firstRound creationTx secondRound := by
  obtain ⟨p, s, h⟩ := isOk_iff.mp (show afterCreation.1.isOk = true by decide +kernel)
  refine ⟨rfl, ?_⟩
  show afterCreation = _
  rw [secondRound, show afterCreation = (.ok p, s) from h]
  rfl

/-- The transfer is refunded 10500 gas of what the contract before it earned. -/
theorem refund_leaks :
    ¬EachStep (ProcessStep Machine.destructing refundBlock) (RefundsOwn Machine.destructing refundBlock)
    refundBlock.body.transactions firstRound := by
  intro h
  obtain ⟨-, h₁⟩ := h secondRound creation_round
  obtain ⟨p, s, hrun⟩ := isOk_iff.mp (show (processTx Machine.destructing refundBlock 1 (sampleTx (some [5]) 1 7)
    secondRound.progress secondRound.state).1.isOk = true by decide +kernel)
  obtain ⟨⟨r, u, hran, hle⟩, -⟩ := h₁ ⟨2, p, s⟩ ⟨rfl, hrun⟩
  have hrefunds : refunds Machine.destructing refundBlock secondRound (sampleTx (some [5]) 1 7) = .ok (10500, 0) := by
    decide +kernel
  obtain ⟨hgiven, hearned⟩ := Prod.mk.inj (Except.ok.inj (hran.refunds_eq.symm.trans hrefunds))
  rw [hgiven, hearned] at hle
  exact absurd hle (by decide)

end Block

end Okchain.Core
