import Okchain.State.CoinAge
import Okchain.Vm.Evm

/-! How coin age accrues.

Coin age is meant to be balance times blocks: before a balance changes, the age earned with it so far is added up, and
a transfer out takes its share of the age along. The state keeps the age as of the last update and adds what was earned
since when it is read. Paying gas and getting a reward change the balance without bringing the age up to date, which
prices all blocks since at the new balance, and sending a transfer scales the age as of the last update and forgets
what was earned since.
-/
namespace Okchain.Vm
open Lib State Function Option
open StateDB (createObject each subBalance)

/-! ### One account -/

@[ext] structure Accrual where
  balance : Int
  weight : Int
  updated : Int

namespace Accrual

def ageAt (c : Accrual) (h : Int) : Int := c.weight + c.balance * (h - c.updated)

def upTo (c : Accrual) (h : Int) : Accrual := {c with weight := c.ageAt h, updated := h}

def change (c : Accrual) (h v : Int) : Accrual := {c.upTo h with balance := c.balance + v}

/-- An amount is transferred out at a height, and the age shrinks in proportion. -/
def payOut (c : Accrual) (h v : Int) : Accrual where
  balance := c.balance - v
  weight := c.ageAt h * (c.balance - v) / c.balance
  updated := h

def adjust (c : Accrual) (v : Int) : Accrual := {c with balance := c.balance + v}

/-- An amount is transferred out, with the age as of the last update. -/
def payOutStale (c : Accrual) (h v : Int) : Accrual where
  balance := c.balance - v
  weight := c.weight * (c.balance - v) / c.balance
  updated := h

/-- The same balance, and the same age at every height. -/
structure Same (c d : Accrual) : Prop where
  balance : c.balance = d.balance
  age : ∀ h, c.ageAt h = d.ageAt h

variable {c d : Accrual}

theorem Same.refl (c : Accrual) : Same c c := ⟨rfl, fun _ => rfl⟩

/-- With the same balance, the ages are the same at every height or at none. -/
theorem same_iff (hbalance : c.balance = d.balance) (h : Int) : Same c d ↔ c.ageAt h = d.ageAt h := by
  refine ⟨fun hsame => hsame.age h, fun hage => ⟨hbalance, fun h' => ?_⟩⟩
  have hmove : ∀ e : Accrual, e.ageAt h' = e.ageAt h + e.balance * (h' - h) := fun e => by
    unfold ageAt
    ring
  rw [hmove c, hmove d, hage, hbalance]

theorem ageAt_change (c : Accrual) (h v : Int) : (c.change h v).ageAt h = c.ageAt h := by
  simp [change, upTo, ageAt]

theorem same_change (hbalance : c.balance = d.balance) (h v : Int) : Same (c.change h v) (d.change h v) ↔ Same c d := by
  have hafter : (c.change h v).balance = (d.change h v).balance := congrArg (· + v) hbalance
  rw [same_iff hafter h, same_iff hbalance h, ageAt_change, ageAt_change]

theorem same_adjust (hsame : Same c d) (h v : Int) : Same (c.adjust v) (d.change h v) ↔ v = 0 ∨ h = c.updated := by
  have hafter : (c.adjust v).balance = (d.change h v).balance := congrArg (· + v) hsame.balance
  have hage : (c.adjust v).ageAt h = c.ageAt h + v * (h - c.updated) := by
    unfold adjust ageAt
    ring
  rw [same_iff hafter h, ageAt_change, hage, ← hsame.age h, add_eq_left, mul_eq_zero, sub_eq_zero]

theorem same_payOut (hsame : Same c d) (hne : c.balance ≠ 0) (h v : Int) :
    Same (c.payOutStale h v) (d.payOut h v) ↔ h = c.updated ∨ v = c.balance := by
  have hafter : (c.payOutStale h v).balance = (d.payOut h v).balance := congrArg (· - v) hsame.balance
  have hat : ∀ e : Accrual, e.updated = h → e.ageAt h = e.weight := fun e he => by
    unfold ageAt
    rw [he, sub_self, mul_zero, add_zero]
  -- the share of what was earned is a whole number
  have hscaled : c.ageAt h * (c.balance - v) / c.balance =
      c.weight * (c.balance - v) / c.balance + (h - c.updated) * (c.balance - v) := by
    have hsplit : c.ageAt h * (c.balance - v) =
        c.weight * (c.balance - v) + (h - c.updated) * (c.balance - v) * c.balance := by
      unfold ageAt
      ring
    rw [hsplit, Int.add_mul_ediv_right _ _ hne]
  rw [same_iff hafter h, hat _ rfl, hat _ rfl]
  show c.weight * (c.balance - v) / c.balance = d.ageAt h * (d.balance - v) / d.balance ↔ _
  rw [← hsame.age h, ← hsame.balance, hscaled, left_eq_add, mul_eq_zero, sub_eq_zero, sub_eq_zero,
    eq_comm (a := c.balance)]

end Accrual

/-! ### The accounts of a state -/

def objectAccrual (o : StateObject) : Accrual where
  balance := o.data.balance
  weight := o.data.weightAtLastUpdatedHeight
  updated := o.data.lastUpdatedHeight

/-- What the state keeps about the age of an account; one that is not there has nothing. -/
def accrualOf (s : StateDB) (a : Address) : Accrual := (s.each objectAccrual a).getD ⟨0, 0, 0⟩

/-- `GetWeight`, at any height. -/
def weightAt (s : StateDB) (a : Address) (h : Int) : Int :=
  match s.getStateObject a with
  | some o => o.weight h
  | none => 0

section State
variable {D : Database} {s t : StateDB} {a : Address} {o : StateObject}

theorem weightAt_eq (s : StateDB) (a : Address) (h : Int) : weightAt s a h = (accrualOf s a).ageAt h := by
  unfold weightAt accrualOf each
  cases s.getStateObject a with
  | some o => rfl
  | none => exact (show (0 : Int) + 0 * (h - 0) = 0 by ring).symm

theorem accrualOf_put (hdel : o.deleted = false) :
    accrualOf (s.put a o) = update (accrualOf s) a (objectAccrual o) := by
  funext b
  unfold accrualOf
  rw [each_put rfl hdel]
  by_cases hb : b = a
  · subst hb
    rw [update_self, update_self]
    rfl
  · rw [update_of_ne hb, update_of_ne hb]

theorem accrualOf_of_some (ho : s.getStateObject a = some o) : objectAccrual o = accrualOf s a := by
  unfold accrualOf each
  rw [ho]
  rfl

section
variable (D s a)

theorem accrualOf_getOrNew : accrualOf (s.getOrNewStateObject D a).2 = accrualOf s := by
  cases ho : s.getStateObject a with
  | some o => rw [getOrNew_of_some ho]
  | none =>
    have hstate : (s.getOrNewStateObject D a).2 = (s.put a (newObject (newAccount D))).record (.createObject a) := by
      unfold StateDB.getOrNewStateObject createObject
      rw [ho]
    rw [hstate]
    refine (accrualOf_put rfl).trans (update_eq_self_iff.mpr ?_)
    unfold accrualOf each
    rw [ho]
    rfl

theorem objectAccrual_getOrNew : objectAccrual (s.getOrNewStateObject D a).1 = accrualOf s a := by
  rw [accrualOf_of_some (getStateObject_getOrNew D s a), accrualOf_getOrNew]

end

theorem accrualOf_setOrNew (f : StateObject → StateObject) (hdel : ∀ o, (f o).deleted = o.deleted) :
    accrualOf ((s.getOrNewStateObject D a).2.put a (f (s.getOrNewStateObject D a).1)) =
      update (accrualOf s) a (objectAccrual (f (s.getOrNewStateObject D a).1)) := by
  rw [accrualOf_put ((hdel _).trans (getStateObject_deleted (getStateObject_getOrNew D s a))), accrualOf_getOrNew]

section
variable (D s a)

theorem accrualOf_addBalance (v : Int) :
    accrualOf (s.addBalance D a v) = update (accrualOf s) a ((accrualOf s a).adjust v) := by
  unfold StateDB.addBalance
  dsimp only
  by_cases hv : v = 0
  · have hsame : (accrualOf s a).adjust v = accrualOf s a := by
      rw [hv]
      exact Accrual.ext (add_zero _) rfl rfl
    rw [if_pos hv, hsame, update_eq_self]
    split
    · refine (accrualOf_setOrNew (fun o => {o with touched := true}) fun _ => rfl).trans ?_
      exact update_eq_self_iff.mpr (objectAccrual_getOrNew D s a)
    · exact accrualOf_getOrNew D s a
  · rw [if_neg hv]
    refine (accrualOf_setOrNew (fun o => {o with data := {o.data with balance := o.data.balance + v}})
      fun _ => rfl).trans ?_
    rw [← objectAccrual_getOrNew D s a]
    rfl

theorem accrualOf_subBalance (v : Int) :
    accrualOf (s.subBalance D a v) = update (accrualOf s) a ((accrualOf s a).adjust (-v)) := by
  unfold subBalance
  dsimp only
  by_cases hv : v = 0
  · have hsame : (accrualOf s a).adjust (-v) = accrualOf s a := by
      rw [hv]
      exact Accrual.ext (add_zero _) rfl rfl
    rw [if_pos hv, hsame, update_eq_self]
    exact accrualOf_getOrNew D s a
  · rw [if_neg hv]
    refine (accrualOf_setOrNew (fun o => {o with data := {o.data with balance := o.data.balance - v}})
      fun _ => rfl).trans ?_
    rw [← objectAccrual_getOrNew D s a]
    rfl

end

theorem accrualOf_setWeight (w h : Int) :
    accrualOf ((s.getOrNewStateObject D a).2.setObjectWeight a (s.getOrNewStateObject D a).1 w h) =
      update (accrualOf s) a {accrualOf s a with weight := w, updated := h} := by
  refine (accrualOf_setOrNew (fun o => {o with data := {o.data with
    weightAtLastUpdatedHeight := w, lastUpdatedHeight := h}}) fun _ => rfl).trans ?_
  rw [← objectAccrual_getOrNew D s a]
  rfl

theorem accrualOf_addBalanceAndWeight {v : Int} (hrun : StateDB.addBalanceAndWeight D a v s = (.ok ⟨⟩, t)) :
    ∃ h, s.bheight = some h ∧ accrualOf t = update (accrualOf s) a ((accrualOf s a).change h v) := by
  obtain ⟨h, hheight, rfl⟩ := addBalanceAndWeight_ok hrun
  refine ⟨h, hheight, ?_⟩
  rw [accrualOf_addBalance, accrualOf_setWeight, update_idem, update_self,
    show (s.getOrNewStateObject D a).1.weight h = (accrualOf s a).ageAt h from
      congrArg (Accrual.ageAt · h) (objectAccrual_getOrNew D s a)]
  rfl

section
variable (D s a)

theorem bheight_getOrNew : (s.getOrNewStateObject D a).2.bheight = s.bheight := by
  unfold StateDB.getOrNewStateObject createObject
  cases s.getStateObject a <;> rfl

theorem bheight_subBalance (v : Int) : (s.subBalance D a v).bheight = s.bheight := by
  unfold subBalance
  dsimp only
  split <;> exact bheight_getOrNew D s a

end

theorem accrualOf_subBalanceAndWeight {v : Int} (hrun : StateDB.subBalanceAndWeight D a v s = (.ok ⟨⟩, t)) :
    t.bheight = s.bheight ∧ ∃ h, s.bheight = some h ∧ (accrualOf s a).balance ≠ 0 ∧
      accrualOf t = update (accrualOf s) a ((accrualOf s a).payOutStale h v) := by
  obtain ⟨h, hheight, hbalance, rfl⟩ := subBalanceAndWeight_ok hrun
  have hobject := objectAccrual_getOrNew D s a
  have hsame := bheight_getOrNew D s a
  refine ⟨(bheight_subBalance D _ a v).trans hsame, h, hsame.symm.trans hheight, ?_, ?_⟩
  · rw [← hobject]
    exact hbalance
  · rw [accrualOf_subBalance, accrualOf_setWeight, update_idem, update_self, ← hobject]
    rfl

end State

/-! ### Payments -/

/-- What changes balances while a block is executed: transactions begin, transfer, pay for gas, and rewards and
refunds are credited. -/
inductive Payment
  | prepare (thash bhash : Hash) (height : UInt64) (ti : Nat)
  | transfer (sender recipient : Address) (amount : Nat)
  | charge (addr : Address) (amount : Int)
  | reward (addr : Address) (amount : Int)

def Payment.run (D : Database) : Payment → Proc Err StateDB PUnit
  | .prepare th bh n i => .update fun s => s.prepare th bh n i
  | .transfer x y v => Vm.transfer D x y v
  | .charge a v => .update fun s => s.subBalance D a v
  | .reward a v => .update fun s => s.addBalance D a v

/-- How the ages are meant to change at a height. -/
def Payment.accrue (h : Int) : Payment → (Address → Accrual) → Address → Accrual
  | .prepare .., c => c
  | .transfer x y v, c =>
    let paid := update c x ((c x).payOut h v)
    update paid y ((paid y).change h v)
  | .charge a v, c => update c a ((c a).change h (-v))
  | .reward a v, c => update c a ((c a).change h v)

/-- A payment at the height of the state, next to what the ages are meant to be. -/
def Payment.Step (D : Database) (x : StateDB × (Address → Accrual)) (p : Payment) (y : StateDB × (Address → Accrual)) :
    Prop := p.run D x.1 = (.ok ⟨⟩, y.1) ∧ match p with
  | .prepare .. => y.2 = x.2
  | p => ∃ h, x.1.bheight = some h ∧ y.2 = p.accrue h x.2

/-- All ages are what they are meant to be, at every height. -/
def AgesRight (x : StateDB × (Address → Accrual)) : Prop := ∀ a h, weightAt x.1 a h = (x.2 a).ageAt h

/-- The payment comes at the height of the last update, or has nothing to bring up to date. -/
def Payment.Checkpointed (s : StateDB) : Payment → Prop
  | .prepare .. => True
  | .transfer x _ v => s.bheight = some (accrualOf s x).updated ∨ v = s.getBalance x
  | .charge a v | .reward a v => v = 0 ∨ s.bheight = some (accrualOf s a).updated

section Payments
variable {D : Database}

open Accrual

/-- The invariant of the run: every account is the same in the state and on paper. -/
def AllSame (x : StateDB × (Address → Accrual)) : Prop := ∀ a, Same (accrualOf x.1 a) (x.2 a)

variable {c d : Address → Accrual} {a : Address} {c' d' : Accrual} {x : StateDB × (Address → Accrual)}

theorem same_update (h : ∀ b, b ≠ a → Same (c b) (d b)) :
    (∀ b, Same (update c a c' b) (update d a d' b)) ↔ Same c' d' := by
  constructor
  · intro hall
    simpa using hall a
  · intro hsame b
    by_cases hb : b = a
    · subst hb
      simpa using hsame
    · rw [update_of_ne hb, update_of_ne hb]
      exact h b hb

theorem balance_update (h : ∀ b, (c b).balance = (d b).balance) (h' : c'.balance = d'.balance) (b : Address) :
    (update c a c' b).balance = (update d a d' b).balance := by
  by_cases hb : b = a
  · subst hb
    rw [update_self, update_self]
    exact h'
  · rw [update_of_ne hb, update_of_ne hb]
    exact h b

/-- Bringing one account up to date does not hide a difference. -/
theorem same_update_change (hbalance : ∀ b, (c b).balance = (d b).balance) (a : Address)
    (h v : Int) : (∀ b, Same (update c a ((c a).change h v) b) (update d a ((d a).change h v) b)) ↔
      ∀ b, Same (c b) (d b) := by
  constructor
  · intro hall b
    by_cases hb : b = a
    · subst hb
      exact (same_change (hbalance b) h v).mp (by simpa using hall b)
    · simpa [hb] using hall b
  · intro hall
    exact (same_update fun b _ => hall b).mpr ((same_change (hbalance a) h v).mpr (hall a))

theorem agesRight_iff (hbalance : ∀ a, (accrualOf x.1 a).balance = (x.2 a).balance) : AgesRight x ↔ AllSame x := by
  refine forall_congr' fun a => ?_
  constructor
  · exact fun h => ⟨hbalance a, fun h' => (weightAt_eq x.1 a h').symm.trans (h h')⟩
  · exact fun h h' => (weightAt_eq x.1 a h').trans (h.age h')

theorem getBalance_eq (s : StateDB) (a : Address) : s.getBalance a = (accrualOf s a).balance := by
  unfold StateDB.getBalance accrualOf each
  cases s.getStateObject a <;> rfl

/-- **One payment.** Balances stay the same on both sides, and ages exactly if the payment is checkpointed. -/
theorem Payment.step_iff {y : StateDB × (Address → Accrual)} {p : Payment} (hx : AllSame x) (hstep : p.Step D x y) :
    (∀ a, (accrualOf y.1 a).balance = (y.2 a).balance) ∧ (AllSame y ↔ p.Checkpointed x.1) := by
  obtain ⟨s, c⟩ := x
  obtain ⟨t, d⟩ := y
  obtain ⟨hrun, hspec⟩ := hstep
  have hbalance : ∀ a, (accrualOf s a).balance = (c a).balance := fun a => (hx a).balance
  cases p with
  | prepare th bh n i =>
    obtain rfl : d = c := hspec
    obtain rfl : t = s.prepare th bh n i := eq_of_update hrun rfl
    exact ⟨hbalance, iff_of_true hx trivial⟩
  | charge a v =>
    obtain ⟨h, hheight, rfl⟩ := hspec
    obtain rfl : t = s.subBalance D a v := eq_of_update hrun rfl
    unfold AllSame Payment.Checkpointed
    dsimp only [Payment.accrue]
    rw [accrualOf_subBalance, hheight, some.injEq]
    refine ⟨balance_update hbalance (congrArg (· + -v) (hbalance a)), ?_⟩
    rw [same_update fun b _ => hx b, same_adjust (hx a), neg_eq_zero]
  | reward a v =>
    obtain ⟨h, hheight, rfl⟩ := hspec
    obtain rfl : t = s.addBalance D a v := eq_of_update hrun rfl
    unfold AllSame Payment.Checkpointed
    dsimp only [Payment.accrue]
    rw [accrualOf_addBalance, hheight, some.injEq]
    refine ⟨balance_update hbalance (congrArg (· + v) (hbalance a)), ?_⟩
    rw [same_update fun b _ => hx b, same_adjust (hx a)]
  | transfer a b v =>
    obtain ⟨h, hheight, rfl⟩ := hspec
    obtain ⟨_, u, hpay, hreceive⟩ := Proc.bind_ok.mp hrun
    obtain ⟨hsame, h₁, hheight₁, hne, hu⟩ := accrualOf_subBalanceAndWeight hpay
    obtain ⟨h₂, hheight₂, ht⟩ := accrualOf_addBalanceAndWeight hreceive
    obtain rfl : h₁ = h := some.inj (hheight₁.symm.trans hheight)
    obtain rfl : h₂ = h₁ := some.inj (hheight₂.symm.trans (hsame.trans hheight))
    have hpaid : ∀ e, (accrualOf u e).balance = (update c a ((c a).payOut h₂ v) e).balance := by
      rw [hu]
      exact balance_update hbalance (congrArg (· - (v : Int)) (hbalance a))
    unfold AllSame Payment.Checkpointed
    dsimp only [Payment.accrue]
    rw [ht, hheight, some.injEq]
    refine ⟨balance_update hpaid (congrArg (· + (v : Int)) (hpaid b)), ?_⟩
    rw [same_update_change hpaid, hu, same_update fun e _ => hx e, same_payOut (hx a) hne, getBalance_eq]

/-- **Coin age in a run.** The ages are right all along exactly if every payment is checkpointed. -/
theorem agesRight_throughout_iff (D : Database) (s : StateDB) (ps : List Payment) :
    Throughout (Payment.Step D) AgesRight ps (s, accrualOf s) ↔
      EachStep (Payment.Step D) (fun x p => p.Checkpointed x.1) ps (s, accrualOf s) := by
  refine throughout_iff (J := AllSame) ?_ ?_ ?_ ps fun a => Same.refl _
  · exact fun x hx => (agesRight_iff fun a => (hx a).balance).mpr hx
  · exact fun x p y hx hstep hcheckpointed => (Payment.step_iff hx hstep).2.mpr hcheckpointed
  · intro x p y hx hstep hcheckpointed hright
    obtain ⟨hbalance, hiff⟩ := Payment.step_iff hx hstep
    exact hcheckpointed (hiff.mp ((agesRight_iff hbalance).mp hright))

/-- The state after the account has transferred nothing. -/
def agedAfterNothing : StateDB := (transfer .sample (bytesToAddress [1]) (bytesToAddress [2]) 0 aged).2

/-- Five blocks with a balance of 3 are forgotten when nothing is transferred, and counted at the new balance when a
reward comes in. -/
theorem age_forgotten :
    transfer .sample (bytesToAddress [1]) (bytesToAddress [2]) 0 aged = (.ok ⟨⟩, agedAfterNothing) ∧
    weightAt aged (bytesToAddress [1]) 5 = 15 ∧ weightAt agedAfterNothing (bytesToAddress [1]) 5 = 0 ∧
    weightAt (aged.addBalance .sample (bytesToAddress [1]) 2) (bytesToAddress [1]) 5 = 25 := by
  have hok : (transfer .sample (bytesToAddress [1]) (bytesToAddress [2]) 0 aged).1 = .ok ⟨⟩ := by decide +kernel
  exact ⟨Prod.ext hok rfl, by decide +kernel, by decide +kernel, by decide +kernel⟩

end Payments

end Okchain.Vm
