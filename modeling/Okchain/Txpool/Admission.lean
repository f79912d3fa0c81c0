import Okchain.Txpool.Invariant

/-! Admission and the intrinsic gas.

The intrinsic gas is computed twice: by the pool, which compares it with the gas limit the transaction names, and by
the execution, which compares it with a limit of its own. Both loops charge the same exact sum, and report an
overflow exactly if there is one. An admitted transaction is so short that the sum stays below the execution's limit.
-/
namespace Okchain.Txpool
open Lib State Core Protos

/-- What the bytes of a transaction cost, as a number without bound. -/
def intrinsicCost (data : Bytes) (contractCreation : Bool) : Nat :=
  (if contractCreation then 53000 else 21000) + 68 * data.countP (· != 0) + 4 * (data.length - data.countP (· != 0))

/-- A number that is reported as an error if it needs more than 64 bits. -/
def fitted {ε : Type} (e : ε) (n : Nat) : Except ε UInt64 := if n < 2 ^ 64 then .ok (UInt64.ofNat n) else .error e

/-- The guard against overflow. -/
theorem guard_iff (a k n : UInt64) (hk : 0 < k.toNat) :
    (0xFFFFFFFFFFFFFFFF - a) / k < n ↔ 2 ^ 64 ≤ a.toNat + k.toNat * n.toNat := by
  have ha := a.toNat_lt
  have hmax : a ≤ 0xFFFFFFFFFFFFFFFF := UInt64.le_iff_toNat_le.mpr (Nat.le_of_lt_succ ha)
  rw [UInt64.lt_iff_toNat_lt, UInt64.toNat_div, UInt64.toNat_sub_of_le _ _ hmax, Nat.div_lt_iff_lt_mul hk,
    Nat.mul_comm n.toNat]
  show 0xFFFFFFFFFFFFFFFF - a.toNat < _ ↔ _
  omega

theorem toNat_add_mul {a k n : UInt64} (h : ¬2 ^ 64 ≤ a.toNat + k.toNat * n.toNat) :
    (a + n * k).toNat = a.toNat + k.toNat * n.toNat := by
  have hmul : (n * k).toNat = k.toNat * n.toNat := by
    rw [UInt64.toNat_mul, Nat.mul_comm]
    exact Nat.mod_eq_of_lt (by omega)
  rw [UInt64.toNat_add, hmul]
  exact Nat.mod_eq_of_lt (by omega)

theorem guarded_sum {ε : Type} (e : ε) (gas nz z : UInt64) : (if (0xFFFFFFFFFFFFFFFF - gas) / 68 < nz then .error e
      else if (0xFFFFFFFFFFFFFFFF - (gas + nz * 68)) / 4 < z then .error e
      else .ok (gas + nz * 68 + z * 4) : Except ε UInt64) =
      fitted e (gas.toNat + 68 * nz.toNat + 4 * z.toNat) := by
  have h68 : (68 : UInt64).toNat = 68 := rfl
  have h4 : (4 : UInt64).toNat = 4 := rfl
  have hfirst := guard_iff gas 68 nz (by decide)
  have hsecond := guard_iff (gas + nz * 68) 4 z (by decide)
  rw [h68] at hfirst
  rw [h4] at hsecond
  unfold fitted
  split
  · rename_i hover
    rw [if_neg (by have := hfirst.mp hover; omega)]
  · rename_i hfits
    have hsum : (gas + nz * 68).toNat = gas.toNat + 68 * nz.toNat := toNat_add_mul (mt hfirst.mpr hfits)
    rw [hsum] at hsecond
    split
    · rename_i hover
      rw [if_neg (by have := hsecond.mp hover; omega)]
    · rename_i hfits'
      rw [if_pos (by have := mt hsecond.mpr hfits'; omega)]
      congr 1
      rw [← UInt64.toNat_inj, toNat_add_mul (by rw [hsum]; exact mt hsecond.mpr hfits'), hsum]
      exact (UInt64.toNat_ofNat_of_lt' (by have := mt hsecond.mpr hfits'; exact Nat.lt_of_not_le this)).symm

theorem meter_eq {ε : Type} (e : ε) {data : Bytes} (hlen : data.length < 2 ^ 64) (contractCreation : Bool) :
    meter 53000 21000 68 4 e data contractCreation = fitted e (intrinsicCost data contractCreation) := by
  by_cases hempty : data.length = 0
  · obtain rfl := List.length_eq_zero_iff.mp hempty
    cases contractCreation <;> rfl
  · have hcount : data.countP (· != 0) ≤ data.length := List.countP_le_length
    have hnz : (UInt64.ofNat (data.countP (· != 0))).toNat = data.countP (· != 0) :=
      UInt64.toNat_ofNat_of_lt' (Nat.lt_of_le_of_lt hcount hlen)
    have hlength : (UInt64.ofNat data.length).toNat = data.length := UInt64.toNat_ofNat_of_lt' hlen
    have hz : (UInt64.ofNat data.length - UInt64.ofNat (data.countP (· != 0))).toNat =
        data.length - data.countP (· != 0) := by
      rw [UInt64.toNat_sub_of_le _ _ (UInt64.le_iff_toNat_le.mpr (by omega)), hlength, hnz]
    have hgas : (if contractCreation then 53000 else 21000 : UInt64).toNat =
        if contractCreation then 53000 else 21000 := by
      cases contractCreation <;> rfl
    refine (if_neg hempty).trans ((guarded_sum e _ _ _).trans ?_)
    rw [hgas, hnz, hz]
    rfl

theorem intrinsicCost_lt {data : Bytes} (hlen : data.length ≤ 32 * 1024) (contractCreation : Bool) :
    intrinsicCost data contractCreation < 10000000 := by
  have hcount : data.countP (· != 0) ≤ data.length := List.countP_le_length
  unfold intrinsicCost
  split <;> omega

variable {M : Machine} {X : Rules} {p : TxPool} {tx : Transaction}

/-- `TransitionDb` after the intrinsic gas is paid. -/
def afterIntrinsic (M : Machine) (ctx : Context) (m : Msg) (gp gas : UInt64) : Proc Err StateDB Applied := do
  let r ← execute M ctx m gas
  let vmerr : Option Err := r.err.map .vm
  .ensure (vmerr ≠ some (.core .insufficientBalance)) (.core .insufficientBalance)
  let gas ← refundGas M m r.gas
  .ensure (gp ≤ 0xFFFFFFFFFFFFFFFF - gas) (.panic .gasPoolOverflow)
  pure ⟨m.gasLimit - gas, r.err.isSome, gp + gas⟩

theorem transitionDb_afterIntrinsic {m : Msg} {gas : UInt64} (hgas : intrinsicGas m.data m.recipient.isNone = .ok gas)
    (hle : gas ≤ m.gasLimit) (ctx : Context) (gp : UInt64) : transitionDb M ctx m gp = (do
      let gp ← preCheck M m gp
      afterIntrinsic M ctx m gp (m.gasLimit - gas)) := by
  refine congrArg (preCheck M m gp >>= ·) (funext fun gp' => funext fun s => ?_)
  rw [Proc.bind_lift hgas, Proc.bind_ensure hle]
  rfl

/-- **Admission covers the intrinsic gas.** The two packages charge the same exact sum, and report an overflow exactly
if there is one; an admitted transaction passes the comparison in `TransitionDb`. -/
theorem validateTx_intrinsicGas {isLocal : Bool} (h : validateTx M X p tx isLocal = .ok ()) :
    (∀ data : Bytes, data.length < 2 ^ 64 → ∀ contractCreation,
      poolIntrinsicGas data contractCreation = fitted .outOfGas (intrinsicCost data contractCreation) ∧
      intrinsicGas data contractCreation = fitted (.vm .outOfGas) (intrinsicCost data contractCreation)) ∧
    ∃ gas, poolIntrinsicGas tx.data tx.toAddr.isNone = .ok gas ∧
      intrinsicGas (asMsg M tx).data (asMsg M tx).recipient.isNone = .ok gas ∧
      gas.toNat = intrinsicCost tx.data tx.toAddr.isNone ∧ gas < (asMsg M tx).gasLimit ∧
      ∀ ctx gp, transitionDb M ctx (asMsg M tx) gp = (do
        let gp ← preCheck M (asMsg M tx) gp
        afterIntrinsic M ctx (asMsg M tx) gp ((asMsg M tx).gasLimit - gas)) := by
  have hlen : tx.data.length ≤ 32 * 1024 := Nat.le_trans (X.data_le_size tx) (validateTx_ok h).1.size
  have hcost := intrinsicCost_lt hlen tx.toAddr.isNone
  have hexact : ∀ {ε : Type} (e : ε), meter 53000 21000 68 4 e tx.data tx.toAddr.isNone =
      .ok (UInt64.ofNat (intrinsicCost tx.data tx.toAddr.isNone)) := fun e => by
    rw [meter_eq e (by omega), fitted, if_pos (by omega)]
  have hnat : (UInt64.ofNat (intrinsicCost tx.data tx.toAddr.isNone)).toNat = _ :=
    UInt64.toNat_ofNat_of_lt' (Nat.lt_trans hcost (by decide))
  have hcore : intrinsicGas (asMsg M tx).data (asMsg M tx).recipient.isNone =
      .ok (UInt64.ofNat (intrinsicCost tx.data tx.toAddr.isNone)) := by
    rw [show (asMsg M tx).recipient.isNone = tx.toAddr.isNone from Option.isNone_map]
    exact hexact _
  have hlt : UInt64.ofNat (intrinsicCost tx.data tx.toAddr.isNone) < (asMsg M tx).gasLimit := by
    rw [UInt64.lt_iff_toNat_lt, hnat]
    exact hcost
  refine ⟨fun data hdata contractCreation => ⟨meter_eq _ hdata _, meter_eq _ hdata _⟩, _, hexact _, hcore, hnat, hlt, ?_⟩
  exact transitionDb_afterIntrinsic hcore (UInt64.le_of_lt hlt)

/-- A transaction with two bytes other than zero and one zero in its data. -/
def dataTx : Transaction := {poolTx 5 30000 with data := [1, 0, 7]}

/-- A new pool admits it. -/
theorem validateTx_intrinsicGas_dataTx :
    validateTx Machine.sample Rules.sample
        (newTxPool Machine.sample Rules.sample .sample 0 defaultTxPoolConfig ⟨nonceTrie 5, 100000⟩) dataTx false =
      .ok () ∧
    ∃ gas, poolIntrinsicGas dataTx.data dataTx.toAddr.isNone = .ok gas ∧ gas.toNat = 21000 + 2 * 68 + 4 := by
  have h : validateTx Machine.sample Rules.sample
      (newTxPool Machine.sample Rules.sample .sample 0 defaultTxPoolConfig ⟨nonceTrie 5, 100000⟩) dataTx false =
      .ok () := by decide +kernel
  obtain ⟨-, gas, hpool, -, hexact, -⟩ := validateTx_intrinsicGas h
  exact ⟨h, gas, hpool, hexact⟩

end Okchain.Txpool
