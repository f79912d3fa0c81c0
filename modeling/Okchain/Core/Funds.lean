import Mathlib.Algebra.Order.Pi
import Mathlib.Tactic.Abel
import Okchain.Core.Fees
import Okchain.Core.Supply

/-! Blocks of funded transfers execute.

A message buys ten million gas before anything else, so a sender has to have ten million coins when its turn comes; one
that has exactly this much and sends nothing gets as far as `Transfer`, which then divides by its balance. With more, a
transfer to an account without code cannot fail, and the balances after it follow from those before (`balancesAfter`).
-/
variable {v : Int} {trie : AccountTrie}

namespace Okchain.Core
open Lib State Vm Protos Function List Option
open Proc hiding update
open Proc (Completes)
open StateDB (getBalance getNonce new)

/-! ### States on which transfers execute -/

open UInt64 (le_iff_toNat_le lt_irrefl ofNat_add ofNat_toNat toNat_sub_of_le)

/-- An account that can be written back at this height: nothing of it is negative, and neither is the age it has
gained since. -/
def WritableAt (height : Nat) (a : Account) : Prop := a.Encodable ∧ a.lastUpdatedHeight ≤ height

/-- A quiet state at a height, with these balances and nonces, whose accounts can all be written back. -/
structure Ready (D : Database) (codeless : Address → Prop) (height : Nat) (B : Address → Int) (N : Address → UInt64)
    (s : StateDB) : Prop where
  quiet : Quiet D codeless s
  dirty : ∀ a ∈ s.stateObjectsDirty, (s.stateObjects a).isSome
  live : ∀ a o, s.stateObjects a = some o → WritableAt height o.data
  stored : ∀ a d, s.trie a = some d → WritableAt height d
  bheight : s.bheight = some (height : Int)
  balance : s.getBalance = B
  nonce : s.getNonce = N

section State
variable {D : Database} {codeless : Address → Prop} {height : Nat} {B : Address → Int} {N : Address → UInt64}
  {s t : StateDB} {x : Address} {o : StateObject}

theorem getNonce_of_getStateObject (ho : s.getStateObject x = some o) : s.getNonce x = o.data.nonce := by
  unfold getNonce
  rw [ho]

theorem getNonce_put (hdel : o.deleted = false) : (s.put x o).getNonce = update s.getNonce x o.data.nonce := by
  funext a
  by_cases ha : a = x
  · subst ha
    rw [update_self, getNonce_of_getStateObject (getStateObject_put o hdel)]
  · rw [update_of_ne ha]
    unfold getNonce
    rw [(put_sameAt (Ne.symm ha) o).getStateObject]

section
variable (h : Ready D codeless height B N s)
include h

theorem Ready.of_same (htrie : t.trie = s.trie)
    (hobjects : t.stateObjects = s.stateObjects) (hdirty : t.stateObjectsDirty = s.stateObjectsDirty)
    (hrefund : t.refund = s.refund) (hheight : t.bheight = some (height : Int)) : Ready D codeless height B N t := by
  have hget := getStateObject_of_same htrie hobjects
  refine ⟨h.quiet.of_same htrie hobjects hrefund, ?_, ?_, ?_, hheight, ?_, ?_⟩
  · rw [hdirty, hobjects]
    exact h.dirty
  · rw [hobjects]
    exact h.live
  · rw [htrie]
    exact h.stored
  · rw [← h.balance]
    unfold getBalance
    rw [hget]
  · rw [← h.nonce]
    unfold getNonce
    rw [hget]

theorem Ready.record (e : JournalEntry) : Ready D codeless height B N (s.record e) :=
  h.of_same rfl rfl rfl rfl h.bheight

theorem Ready.put (hdel : o.deleted = false) (halive : o.suicided = false)
    (hcode : s.getCode D x = [] → (o.getCode D).getD [] = []) (hwritable : WritableAt height o.data) :
    Ready D codeless height (update B x o.data.balance) (update N x o.data.nonce) (s.put x o) := by
  have hquiet : Holds D codeless s.supply s := ⟨h.quiet, rfl⟩
  have hself : (s.put x o).stateObjects x = some {o with onDirty := false} := update_self _ _ _
  refine ⟨(hquiet.put hdel halive hcode).quiet, fun a ha => ?_, fun a o' ho' => ?_, h.stored, h.bheight, ?_, ?_⟩
  · by_cases hax : a = x
    · rw [hax, hself]
      rfl
    · rw [(put_sameAt (Ne.symm hax) o).object]
      refine h.dirty a ?_
      unfold StateDB.put at ha
      split at ha
      · exact (Finset.mem_insert.mp ha).resolve_left hax
      · exact ha
  · by_cases hax : a = x
    · rw [hax, hself, some.injEq] at ho'
      rw [← ho']
      exact hwritable
    · rw [(put_sameAt (Ne.symm hax) o).object] at ho'
      exact h.live a o' ho'
  · rw [getBalance_put hdel, h.balance]
  · rw [getNonce_put hdel, h.nonce]

theorem Ready.object (ho : s.getStateObject x = some o) :
    WritableAt height o.data ∧ o.data.balance = B x ∧ o.data.nonce = N x := by
  refine ⟨?_, ?_, ?_⟩
  · unfold StateDB.getStateObject at ho
    cases hlive : s.stateObjects x with
    | some o' =>
      rw [hlive] at ho
      dsimp only at ho
      split at ho
      · exact nomatch ho
      · exact some.inj ho ▸ h.live x o' hlive
    | none =>
      rw [hlive, map_eq_some_iff] at ho
      obtain ⟨d, hd, rfl⟩ := ho
      exact h.stored x d hd
  · rw [← getBalance_of_getStateObject ho, h.balance]
  · rw [← getNonce_of_getStateObject ho, h.nonce]

theorem Ready.replace (ho : s.getStateObject x = some o) (o' : StateObject)
    (hdel : o'.deleted = o.deleted) (halive : o'.suicided = o.suicided) (hcode : o'.getCode D = o.getCode D)
    (hwritable : WritableAt height o'.data) :
    Ready D codeless height (update B x o'.data.balance) (update N x o'.data.nonce) (s.put x o') := by
  refine h.put (hdel.trans (getStateObject_deleted ho)) (halive.trans (alive_of_getStateObject h.quiet ho)) ?_ hwritable
  intro hnone
  unfold StateDB.getCode at hnone
  rw [ho] at hnone
  rw [hcode]
  exact hnone

end

theorem writableAt_newAccount (D : Database) (height : Nat) : WritableAt height (newAccount D) :=
  ⟨⟨Int.le_refl 0, Int.le_refl 0, Int.le_refl 0⟩, Int.natCast_nonneg height⟩

section
variable (h : Ready D codeless height B N s)
include h

theorem Ready.createObject (habsent : s.getStateObject x = none) :
    Ready D codeless height B N (s.createObject D x) := by
  have hbalance : B x = 0 := by
    rw [← h.balance]
    unfold getBalance
    rw [habsent]
  have hnonce : N x = 0 := by
    rw [← h.nonce]
    unfold getNonce
    rw [habsent]
  have hput := h.put (x := x) (o := newObject (newAccount D)) rfl rfl
    (fun _ => by simp [StateObject.getCode, newObject, newAccount]) (writableAt_newAccount D height)
  have hB : update B x (newObject (newAccount D)).data.balance = B := update_eq_self_iff.mpr hbalance.symm
  have hN : update N x (newObject (newAccount D)).data.nonce = N := update_eq_self_iff.mpr hnonce.symm
  rw [hB, hN] at hput
  unfold StateDB.createObject
  rw [habsent]
  exact hput.record _

theorem Ready.getOrNew (x : Address) : Ready D codeless height B N (s.getOrNewStateObject D x).2 := by
  unfold StateDB.getOrNewStateObject
  cases ho : s.getStateObject x with
  | some o => exact h
  | none => exact h.createObject ho

theorem Ready.setObjectBalance (ho : s.getStateObject x = some o) {amount : Int} (hamount : 0 ≤ amount) :
    Ready D codeless height (update B x amount) N (s.setObjectBalance x o amount) := by
  obtain ⟨⟨⟨-, hheight, hweight⟩, hlast⟩, -, hnonce⟩ := h.object ho
  have hput := h.replace ho {o with data := {o.data with balance := amount}} rfl rfl rfl
    ⟨⟨hamount, hheight, hweight⟩, hlast⟩
  rw [hnonce, update_eq_self] at hput
  exact hput.record _

theorem Ready.setObjectWeight (ho : s.getStateObject x = some o) {weight : Int}
    (hweight : 0 ≤ weight) : Ready D codeless height B N (s.setObjectWeight x o weight height) := by
  obtain ⟨⟨⟨hcoins, -, -⟩, -⟩, hbalance, hnonce⟩ := h.object ho
  have hput := h.replace ho {o with data := {o.data with weightAtLastUpdatedHeight := weight, lastUpdatedHeight := height}}
    rfl rfl rfl ⟨⟨hcoins, Int.natCast_nonneg height, hweight⟩, Int.le_refl _⟩
  rwa [hbalance, hnonce, update_eq_self, update_eq_self] at hput

theorem Ready.balance_nonneg (x : Address) : 0 ≤ B x := by
  obtain ⟨⟨⟨hcoins, -, -⟩, -⟩, hbalance, -⟩ := (h.getOrNew x).object (getStateObject_getOrNew D s x)
  exact hbalance ▸ hcoins

end

theorem update_add (B : Address → Int) (x : Address) (v : Int) : update B x (B x + v) = B + Pi.single x v := by
  funext a
  by_cases ha : a = x
  · subst ha
    rw [update_self, Pi.add_apply, Pi.single_eq_same]
  · rw [update_of_ne ha, Pi.add_apply, Pi.single_eq_of_ne ha, Int.add_zero]

section
variable (h : Ready D codeless height B N s)
include h

theorem Ready.addBalance (x : Address) (hv : 0 ≤ v) :
    Ready D codeless height (B + Pi.single x v) N (s.addBalance D x v) := by
  have hnew := h.getOrNew x
  have ho := getStateObject_getOrNew D s x
  obtain ⟨hwritable, hbalance, hnonce⟩ := hnew.object ho
  unfold StateDB.addBalance
  dsimp only
  by_cases hzero : v = 0
  · rw [if_pos hzero, hzero, Pi.single_zero, add_zero]
    split
    · have hput := hnew.replace ho {(s.getOrNewStateObject D x).1 with touched := true} rfl rfl rfl hwritable
      rw [hbalance, hnonce, update_eq_self, update_eq_self] at hput
      exact hput.record _
    · exact hnew
  · rw [if_neg hzero, hbalance, ← update_add]
    exact hnew.setObjectBalance ho (Int.add_nonneg (h.balance_nonneg x) hv)

theorem Ready.subBalance (x : Address) (hv : v ≤ B x) :
    Ready D codeless height (B - Pi.single x v) N (s.subBalance D x v) := by
  have hnew := h.getOrNew x
  have ho := getStateObject_getOrNew D s x
  obtain ⟨-, hbalance, -⟩ := hnew.object ho
  unfold StateDB.subBalance
  dsimp only
  by_cases hzero : v = 0
  · rw [hzero, Pi.single_zero, sub_zero]
    exact hnew
  · have hset := hnew.setObjectBalance ho (Int.sub_nonneg_of_le hv)
    rw [if_neg hzero, hbalance, sub_eq_add_neg, ← Pi.single_neg, ← update_add]
    exact hset

theorem Ready.setNonce (x : Address) (n : UInt64) : Ready D codeless height B (update N x n) (s.setNonce D x n) := by
  have hnew := h.getOrNew x
  have ho := getStateObject_getOrNew D s x
  obtain ⟨hwritable, hbalance, -⟩ := hnew.object ho
  have hput := hnew.replace ho {(s.getOrNewStateObject D x).1 with data := {(s.getOrNewStateObject D x).1.data with nonce := n}}
    rfl rfl rfl hwritable
  rw [hbalance, update_eq_self] at hput
  exact hput.record _

end

/-! ### Finalising -/

theorem writableAt_updateRoot (D : Database) (h : WritableAt height o.data) :
    WritableAt height (o.updateRoot D).data := h

theorem Ready.finalisable (h : Ready D codeless height B N s) : s.Finalisable D true := by
  intro a ha
  obtain ⟨o, ho⟩ := isSome_iff_exists.mp (h.dirty a ha)
  unfold StateDB.canFinalise
  rw [ho]
  exact Bool.or_eq_true_iff.mpr (.inr (decide_eq_true (writableAt_updateRoot D (h.live a o ho)).1))

theorem Ready.finalised (h : Ready D codeless height B N s) : Ready D codeless height B N (s.finalised D true) := by
  have hquiet : Holds D codeless s.supply s := ⟨h.quiet, rfl⟩
  have hreads := fun a => finalised_reads (D := D) (h.quiet.alive a)
  refine ⟨hquiet.finalised.quiet, fun a ha => ?_, fun a o ho => ?_, fun a d hd => ?_, h.bheight, ?_, ?_⟩
  · have hmap : (s.finalised D true).stateObjects a = (s.stateObjects a).map (·.finalised D true) := if_pos ha
    rw [hmap, isSome_map]
    exact h.dirty a ha
  · by_cases ha : a ∈ s.stateObjectsDirty
    · have hmap : (s.finalised D true).stateObjects a = (s.stateObjects a).map (·.finalised D true) := if_pos ha
      rw [hmap] at ho
      obtain ⟨o', ho', rfl⟩ := map_eq_some_iff.mp ho
      unfold StateObject.finalised
      split
      · exact h.live a o' ho'
      · exact writableAt_updateRoot D (h.live a o' ho')
    · have hsame : (s.finalised D true).stateObjects a = s.stateObjects a := if_neg ha
      exact h.live a o (hsame ▸ ho)
  · change s.finalisedTrie D true a = some d at hd
    by_cases ha : a ∈ s.stateObjectsDirty
    · obtain ⟨o, ho⟩ := isSome_iff_exists.mp (h.dirty a ha)
      rw [StateDB.finalisedTrie_dirty D ha ho] at hd
      unfold StateObject.written at hd
      split at hd
      · exact nomatch hd
      · exact some.inj hd ▸ writableAt_updateRoot D (h.live a o ho)
    · rw [StateDB.finalisedTrie_clean D ha] at hd
      exact h.stored a d hd
  · rw [← h.balance]
    exact funext fun a => (hreads a).1
  · rw [← h.nonce]
    exact funext fun a => (hreads a).2.1

theorem finalise_ready : Completes (Ready D codeless height B N) (StateDB.finalise D true)
    fun _ => Ready D codeless height B N :=
  .bind (R := fun _ => Ready D codeless height B N) (.ensureState (fun _ hs => hs.finalisable) fun _ hs => hs)
    fun _ => .update fun _ hs => hs.finalised

/-! ### A call -/

theorem height_ready : Completes (Ready D codeless height B N) StateDB.height
    fun h s => h = (height : Int) ∧ Ready D codeless height B N s := by
  intro s hs
  refine ⟨height, s, ?_, rfl, hs⟩
  unfold StateDB.height
  rw [hs.bheight]
  rfl

theorem addWeight_ready (x : Address) :
    Completes (Ready D codeless height B N) (StateDB.addWeight D x) fun _ => Ready D codeless height B N := by
  refine .bind height_ready fun h => .update fun s ⟨hh, hs⟩ => ?_
  subst hh
  have ho := getStateObject_getOrNew D s x
  obtain ⟨⟨⟨hcoins, -, hweight⟩, hlast⟩, -, -⟩ := (hs.getOrNew x).object ho
  refine (hs.getOrNew x).setObjectWeight ho ?_
  exact Int.add_nonneg hweight (Int.mul_nonneg hcoins (Int.sub_nonneg_of_le hlast))

theorem subWeight_ready (hpos : 0 < B x) (hv : v ≤ B x) :
    Completes (Ready D codeless height B N) (StateDB.subWeight D x v) fun _ => Ready D codeless height B N := by
  refine .bind (R := fun o s => Ready D codeless height B N s ∧ s.getStateObject x = some o)
    (.step fun s hs => ⟨hs.getOrNew x, getStateObject_getOrNew D s x⟩) fun o => ?_
  refine .bind (R := fun _ s => Ready D codeless height B N s ∧ s.getStateObject x = some o)
    (.ensure (fun s hs => ?_) fun _ hs => hs) fun _ => ?_
  · rw [(hs.1.object hs.2).2.1]
    exact Int.ne_of_gt hpos
  · intro s ⟨hs, ho⟩
    obtain ⟨_, t, hrun, rfl, ht⟩ := height_ready s hs
    obtain rfl : s = t := congrArg Prod.snd hrun
    obtain ⟨⟨⟨-, -, hweight⟩, -⟩, hbalance, -⟩ := hs.object ho
    refine ⟨⟨⟩, _, (bind_run hrun).trans rfl, hs.setObjectWeight ho ?_⟩
    rw [hbalance]
    exact Int.ediv_nonneg (Int.mul_nonneg hweight (Int.sub_nonneg_of_le hv)) (Int.le_of_lt hpos)

theorem transfer_ready {sender : Address} {amount : Nat} (recipient : Address) (hpos : 0 < B sender)
    (hamount : amount ≤ B sender) :
    Completes (Ready D codeless height B N) (transfer D sender recipient amount)
      fun _ => Ready D codeless height (B - Pi.single sender (amount : Int) + Pi.single recipient (amount : Int)) N := by
  refine .bind (R := fun _ => Ready D codeless height (B - Pi.single sender (amount : Int)) N) ?_ fun _ => ?_
  · exact .bind (subWeight_ready hpos hamount) fun _ => .update fun s hs => hs.subBalance sender hamount
  · exact .bind (addWeight_ready recipient) fun _ => .update fun s hs => hs.addBalance recipient (Int.natCast_nonneg amount)

theorem createIfAbsent_ready (present : Bool) (x : Address) :
    Completes (fun s => Ready D codeless height B N s ∧ present = s.exist x) (createIfAbsent D present x)
      fun _ => Ready D codeless height B N := by
  refine .ite (fun _ => .pure fun _ hs => hs.1) fun hpresent s hs => ?_
  have habsent : s.getStateObject x = none := by
    rw [← not_isSome_iff_eq_none]
    exact fun h => hpresent (hs.2.trans h)
  exact ⟨⟨⟩, _, createAccount_absent habsent, hs.1.createObject habsent⟩

theorem enterCall_ready (x : Address) (value : Nat) :
    Completes (Ready D codeless height B N) (enterCall D x value)
      fun entered s => (entered = none → value = 0) ∧ Ready D codeless height B N s := by
  refine .bind (R := fun _ => Ready D codeless height B N) (.step fun s hs => ?_) fun snapshot => ?_
  · exact hs.of_same rfl rfl rfl rfl hs.bheight
  refine .bind (R := fun present s => Ready D codeless height B N s ∧ present = s.exist x)
    (.read fun _ hs => ⟨hs, rfl⟩) fun present => ?_
  refine .ite (fun hnone => .pure fun _ hs => ⟨fun _ => ?_, hs.1⟩) fun _ => ?_
  · exact of_decide_eq_true (Bool.and_eq_true_iff.mp hnone).2
  · exact .bind (createIfAbsent_ready present x) fun _ => .pure fun _ hs => ⟨nofun, hs⟩

theorem runCode_ready {snapshot : Nat} {gas : UInt64} {builtin : RunResult} {interpret : Proc Err StateDB RunResult}
    (hcode : codeless x) (hpre : precompiled x = false) :
    Completes (Ready D codeless height B N) (runCode D snapshot x gas builtin interpret)
      fun r s => r.gas = gas ∧ Ready D codeless height B N s := by
  refine .bind (R := fun code s => code = [] ∧ Ready D codeless height B N s)
    (.read fun s hs => ⟨hs.quiet.code x hcode, hs⟩) fun code => ?_
  intro s ⟨hnone, hs⟩
  rw [hnone]
  unfold run
  rw [hpre]
  exact Completes.pure (fun _ hs => ⟨rfl, hs⟩) s hs

/-- The balances after a call of an account without code: the value moves if the caller has it. -/
def moved (B : Address → Int) (caller recipient : Address) (value : Nat) : Address → Int :=
  if value ≤ B caller then B - Pi.single caller (value : Int) + Pi.single recipient (value : Int) else B

theorem moved_zero (B : Address → Int) (caller recipient : Address) : moved B caller recipient 0 = B := by
  unfold moved
  rw [Int.natCast_zero, Pi.single_zero, Pi.single_zero, sub_zero, add_zero, ite_self]

/-- Calling an account without code completes and uses no gas, unless nothing is sent from an empty account. -/
theorem call_ready {caller recipient : Address} {value depth : Nat} (hcode : codeless recipient)
    (hpre : precompiled recipient = false) (hpos : 0 < B caller + value) (hdepth : depth ≤ callCreateDepth) (gas : UInt64)
    (builtin : RunResult) (interpret : Proc Err StateDB RunResult) :
    Completes (Ready D codeless height B N) (call D depth caller recipient gas value builtin interpret)
      fun r s => r.gas = gas ∧ Ready D codeless height (moved B caller recipient value) N s := by
  intro s hs
  have hcan : canTransfer s caller value = decide ((value : Int) ≤ B caller) := by
    rw [← hs.balance]
    rfl
  by_cases hvalue : (value : Int) ≤ B caller
  · rw [call_eq hdepth (hcan.trans (decide_eq_true hvalue))]
    refine Completes.bind (enterCall_ready recipient value) (fun entered => ?_) s hs
    cases entered with
    | none =>
      refine .pure fun s hs => ⟨rfl, ?_⟩
      rw [hs.1 rfl, moved_zero]
      exact hs.2
    | some snapshot =>
      have hmoved : moved B caller recipient value = _ := if_pos hvalue
      rw [hmoved]
      intro s hs
      refine Completes.bind (transfer_ready recipient ?_ hvalue) (fun _ => runCode_ready hcode hpre) s hs.2
      omega
  · have hmoved : moved B caller recipient value = B := if_neg hvalue
    unfold call checked
    rw [bind_read, if_neg (Nat.not_lt.mpr hdepth), hcan, decide_eq_false hvalue, hmoved]
    exact ⟨_, s, rfl, rfl, hs⟩

end State

/-! ### A transaction -/

section Transaction
variable {M : Machine} {codeless : Address → Prop} {height : Nat} {B : Address → Int} {N : Address → UInt64}
  {ctx : Context} {m : Msg} {recipient : Address} {tx : Transaction} {block : TxBlock}

theorem preCheck_ready {gp : UInt64} (hnonce : m.nonce = N m.sender) (hfunds : (m.gasCost : Int) ≤ B m.sender)
    (hpool : m.gasLimit ≤ gp) :
    Completes (Ready M.toDatabase codeless height B N) (preCheck M m gp) fun gp' s => gp' = gp - m.gasLimit ∧
      Ready M.toDatabase codeless height (B - Pi.single m.sender (m.gasCost : Int)) N s := by
  refine .bind (R := fun nonce s => nonce = m.nonce ∧ Ready M.toDatabase codeless height B N s)
    (.read fun s hs => ⟨by rw [hs.nonce, hnonce], hs⟩) fun nonce => ?_
  intro s ⟨heq, hs⟩
  rw [heq]
  refine ⟨gp - m.gasLimit, s.subBalance M.toDatabase m.sender m.gasCost, ?_, rfl, hs.subBalance m.sender hfunds⟩
  rw [bind_ensure (lt_irrefl _), bind_ensure (lt_irrefl _),
    bind_ensureState (by rw [hs.balance]; exact hfunds), bind_ensure hpool]
  rfl

theorem execute_ready (hrecipient : m.recipient = some recipient) (hcode : codeless recipient)
    (hpre : precompiled recipient = false) (hpos : 0 < B m.sender + m.amount) (gas : UInt64) :
    Completes (Ready M.toDatabase codeless height B N) (execute M ctx m gas) fun r s => r.gas = gas ∧
      Ready M.toDatabase codeless height (moved B m.sender recipient m.amount)
        (update N m.sender (N m.sender + 1)) s := by
  unfold execute
  rw [hrecipient]
  refine .bind (.update fun s hs => ?_) fun _ => call_ready hcode hpre hpos (Nat.zero_le _) gas _ _
  rw [congrFun hs.nonce m.sender]
  exact hs.setNonce m.sender _

theorem refundGas_ready (m : Msg) (gas : UInt64) :
    Completes (Ready M.toDatabase codeless height B N) (refundGas M m gas) fun gas' s => gas' = gas ∧
      Ready M.toDatabase codeless height (B + Pi.single m.sender ((gas.toNat * m.gasPrice : Nat) : Int)) N s := by
  intro s hs
  have hrefund : gas + min ((m.gasLimit - gas) / 2) s.refund = gas := by rw [hs.quiet.refund, refund_none]
  refine ⟨gas, _, ?_, rfl, hs.addBalance m.sender (Int.natCast_nonneg _)⟩
  show (Except.ok (gas + min ((m.gasLimit - gas) / 2) s.refund), _) = _
  rw [hrefund]

/-- The balances after a message that calls an account without code: its gas is bought, the amount is sent if there is
enough left, and the gas that was not used is sold back. -/
def paid (m : Msg) (recipient : Address) (gas : UInt64) (B : Address → Int) : Address → Int :=
  moved (B - Pi.single m.sender (m.gasCost : Int)) m.sender recipient m.amount +
    Pi.single m.sender (((m.gasLimit - gas).toNat * m.gasPrice : Nat) : Int)

/-- **One message.** A call of an account without code completes if the sender has what the gas limit costs, and
either has more or sends something. -/
theorem transitionDb_ready {gp gas : UInt64} (hrecipient : m.recipient = some recipient) (hcode : codeless recipient)
    (hpre : precompiled recipient = false) (hnonce : m.nonce = N m.sender) (hfunds : (m.gasCost : Int) ≤ B m.sender)
    (hmore : (m.gasCost : Int) < B m.sender + m.amount)
    (hpool : m.gasLimit ≤ gp) (hgas : intrinsicGas m.data false = .ok gas) (hle : gas ≤ m.gasLimit) :
    Completes (Ready M.toDatabase codeless height B N) (transitionDb M ctx m gp) fun applied s =>
      applied.gasPool = gp - gas ∧
        Ready M.toDatabase codeless height (paid m recipient gas B) (update N m.sender (N m.sender + 1)) s := by
  have hgas' : intrinsicGas m.data m.recipient.isNone = .ok gas := by rwa [hrecipient]
  have hpos : 0 < (B - Pi.single m.sender (m.gasCost : Int) : Address → Int) m.sender + m.amount := by
    rw [Pi.sub_apply, Pi.single_eq_same]
    omega
  have hroom : gp - m.gasLimit ≤ 0xFFFFFFFFFFFFFFFF - (m.gasLimit - gas) := by
    have hmax : m.gasLimit - gas ≤ 0xFFFFFFFFFFFFFFFF := le_iff_toNat_le.mpr (Nat.le_of_lt_succ (UInt64.toNat_lt _))
    have hleft : (m.gasLimit - gas).toNat = m.gasLimit.toNat - gas.toNat := toNat_sub_of_le _ _ hle
    have hgp := gp.toNat_lt
    rw [le_iff_toNat_le, toNat_sub_of_le _ _ hpool, toNat_sub_of_le _ _ hmax]
    show _ ≤ 0xFFFFFFFFFFFFFFFF - _
    omega
  refine .bind (preCheck_ready hnonce hfunds hpool) fun gp' => ?_
  intro s ⟨hgp, hs⟩
  rw [hgp, bind_lift hgas', bind_ensure hle]
  obtain ⟨r, t, hexec, hr, ht⟩ := execute_ready hrecipient hcode hpre hpos (m.gasLimit - gas) s hs
  have hvm : r.err.map Err.vm ≠ some (.core .insufficientBalance) := by cases r.err <;> simp
  rw [bind_run hexec, bind_ensure hvm, hr]
  obtain ⟨_, u, hrefund, rfl, hu⟩ := refundGas_ready m (m.gasLimit - gas) t ht
  rw [bind_run hrefund, bind_ensure hroom]
  exact ⟨_, u, rfl, sub_add_sub_cancel _ _ _, hu⟩

def senderOf (M : Machine) (tx : Transaction) : Address := senderAddress M tx.senderPubKey

/-- The balances after a transaction that moves coins to an account without code. -/
def balancesAfter (M : Machine) (B : Address → Int) (tx : Transaction) : Address → Int :=
  match tx.toAddr.map bytesToAddress with
  | none => B
  | some recipient => paid (asMsg M tx) recipient (transferGas tx) B

/-- The sender has the ten million coins every message costs at first, and either has more or sends something. -/
def Funded (M : Machine) (B : Address → Int) (tx : Transaction) : Prop :=
  10000000 ≤ B (senderOf M tx) ∧ 10000000 < B (senderOf M tx) + tx.amount.toNat

theorem asMsg_gasCost (M : Machine) (tx : Transaction) : (asMsg M tx).gasCost = 10000000 := by
  simp [Msg.gasCost, asMsg]

/-- A transfer that a state with these balances and nonces lets through. -/
structure Clears (M : Machine) (codeless : Address → Prop) (B : Address → Int) (N : Address → UInt64)
    (tx : Transaction) : Prop where
  plain : PlainTransfer codeless tx
  metered : intrinsicGas tx.data false = .ok (transferGas tx)
  limit : transferGas tx ≤ 10000000
  nonce : tx.nonce = N (senderOf M tx)
  funds : Funded M B tx

/-- What the loop in `Process` reads of a block. -/
structure Headed (M : Machine) (block : TxBlock) : Prop where
  miner : block.header.miner.isSome
  timestamp : block.header.timestamp.isSome
  dsCoinBase : block.header.dsCoinBase ≠ []
  shards : (M.shardingSum block.header.dsBlockNum).isSome

theorem Headed.hash (h : Headed M block) : ∃ bhash, block.hash M.toEnv = .ok bhash := by
  obtain ⟨miner, hminer⟩ := isSome_iff_exists.mp h.miner
  unfold TxBlock.hash TxBlockHeader.hash TxBlockHeader.hashed
  rw [hminer]
  exact ⟨_, rfl⟩

theorem Headed.context (h : Headed M block) (m : Msg) : ∃ ctx, newEVMContext M m block.header = .ok ctx := by
  obtain ⟨time, htime⟩ := isSome_iff_exists.mp h.timestamp
  obtain ⟨leader, rest, hds⟩ := exists_cons_of_ne_nil h.dsCoinBase
  unfold newEVMContext
  rw [hds, htime]
  exact ⟨_, rfl⟩

theorem Headed.shardId (h : Headed M block) (tx : Transaction) :
    ∃ k, getShardId M tx block.header.dsBlockNum = .ok k := by
  obtain ⟨sum, hsum⟩ := isSome_iff_exists.mp h.shards
  unfold getShardId
  rw [hsum]
  exact ⟨_, rfl⟩

/-- The state once `Prepare` has set the height of the block. -/
def atBlock (block : TxBlock) (s : StateDB) : StateDB := s.prepare default default block.header.blockNumber 0

theorem Ready.prepare {s : StateDB} {h : UInt64} (hs : Ready M.toDatabase codeless h.toNat B N (s.prepare default default h 0))
    (thash bhash : Hash) (i : Nat) : Ready M.toDatabase codeless h.toNat B N (s.prepare thash bhash h i) :=
  hs.of_same rfl rfl rfl rfl rfl

theorem processTx_ready (hhead : Headed M block) (htx : Clears M codeless B N tx) {p : Progress}
    (hpool : 10000000 ≤ p.gasPool) (i : Nat) :
    Completes (fun s => Ready M.toDatabase codeless block.header.blockNumber.toNat B N (atBlock block s))
      (processTx M block i tx p) fun p' s => p'.gasPool = p.gasPool - transferGas tx ∧
        Ready M.toDatabase codeless block.header.blockNumber.toNat (balancesAfter M B tx)
          (update N (senderOf M tx) (N (senderOf M tx) + 1)) (atBlock block s) := by
  intro s hs
  obtain ⟨recipient, hrecipient, hpre, hcode⟩ := htx.plain
  obtain ⟨bhash, hbhash⟩ := hhead.hash
  obtain ⟨ctx, hctx⟩ := hhead.context (asMsg M tx)
  obtain ⟨k, hk⟩ := hhead.shardId tx
  have hfunds := htx.funds
  unfold Funded at hfunds
  rw [← Nat.cast_ofNat, ← asMsg_gasCost M tx] at hfunds
  obtain ⟨applied, t, hrun, hgp, ht⟩ := transitionDb_ready hrecipient hcode
    hpre htx.nonce hfunds.1 hfunds.2 hpool htx.metered htx.limit _ (hs.prepare (tx.hash M.toEnv) bhash i)
  obtain ⟨_, u, hfinal, hu⟩ := finalise_ready t ht
  obtain ⟨receipt, happly⟩ : ∃ receipt, applyTransaction M block.header tx p.gasPool p.usedGas
      (s.prepare (tx.hash M.toEnv) bhash block.header.blockNumber i) = (.ok (receipt, applied.gasPool), u) := by
    unfold applyTransaction
    rw [bind_lift hctx, bind_run hrun, bind_run hfinal]
    exact ⟨_, rfl⟩
  unfold processTx
  rw [bind_lift hbhash, bind_update, bind_run happly]
  dsimp only
  rw [bind_lift hk]
  unfold balancesAfter
  rw [hrecipient]
  exact ⟨_, u, rfl, hgp, hu.of_same rfl rfl rfl rfl rfl⟩

end Transaction

/-! ### A block -/

def sentBy (M : Machine) (a : Address) (txs : List Transaction) : List Transaction :=
  txs.filter fun tx => senderOf M tx = a

/-- Transfers in an order in which each has the next nonce of its sender, and finds what it needs there once those
before it are done. -/
structure Affordable (M : Machine) (codeless : Address → Prop) (B : Address → Int) (N : Address → UInt64)
    (txs : List Transaction) : Prop where
  plain : ∀ tx ∈ txs, PlainTransfer codeless tx
  metered : ∀ tx ∈ txs, intrinsicGas tx.data false = .ok (transferGas tx) ∧ transferGas tx ≤ 10000000
  nonce : ∀ before tx after, txs = before ++ tx :: after →
    tx.nonce.toNat = (N (senderOf M tx)).toNat + (sentBy M (senderOf M tx) before).length
  funds : ∀ before tx after, txs = before ++ tx :: after →
    Funded M (before.foldl (balancesAfter M) B) tx

section Block
variable {M : Machine} {codeless : Address → Prop} {B : Address → Int} {N : Address → UInt64} {block : TxBlock}
  {tx : Transaction} {txs done : List Transaction} {p : Progress} {s : StateDB}

theorem sentBy_append (M : Machine) (a : Address) (done : List Transaction) (tx : Transaction) :
    sentBy M a (done ++ [tx]) = sentBy M a done ++ if senderOf M tx = a then [tx] else [] := by
  unfold sentBy
  simp only [filter_append, filter_cons, filter_nil, decide_eq_true_eq]

/-- The nonces once these transactions were executed. -/
def noncesAfter (M : Machine) (N : Address → UInt64) (done : List Transaction) : Address → UInt64 :=
  fun a => N a + UInt64.ofNat (sentBy M a done).length

theorem noncesAfter_append (M : Machine) (N : Address → UInt64) (done : List Transaction) (tx : Transaction) :
    noncesAfter M N (done ++ [tx]) =
      update (noncesAfter M N done) (senderOf M tx) (noncesAfter M N done (senderOf M tx) + 1) := by
  funext a
  unfold noncesAfter
  rw [sentBy_append]
  by_cases ha : senderOf M tx = a
  · subst ha
    rw [update_self, if_pos rfl, length_append, ofNat_add, add_assoc]
    rfl
  · rw [update_of_ne (Ne.symm ha), if_neg ha, append_nil]

/-- `Process` has executed these transactions. -/
structure Underway (M : Machine) (codeless : Address → Prop) (B : Address → Int) (N : Address → UInt64) (block : TxBlock)
    (done : List Transaction) (p : Progress) (s : StateDB) : Prop where
  pool : 10000000000000000 ≤ p.gasPool.toNat + 10000000 * done.length
  state : Ready M.toDatabase codeless block.header.blockNumber.toNat (done.foldl (balancesAfter M) B)
    (noncesAfter M N done) (atBlock block s)

/-- **One more transaction.** -/
theorem processTx_underway (hhead : Headed M block) (htxs : Affordable M codeless B N txs) {after : List Transaction}
    (hsplit : txs = done ++ tx :: after) (hfew : txs.length ≤ 1000000000) (i : Nat) (p : Progress) :
    Completes (Underway M codeless B N block done p) (processTx M block i tx p)
      fun p' s => Underway M codeless B N block (done ++ [tx]) p' s := by
  intro s ⟨hpool, hs⟩
  have hmem : tx ∈ txs := hsplit ▸ mem_append_right done mem_cons_self
  obtain ⟨hmetered, hlimit⟩ := htxs.metered tx hmem
  have hlength : done.length + 1 ≤ 1000000000 := by
    rw [hsplit, length_append, length_cons] at hfew
    omega
  have hnonce : tx.nonce = noncesAfter M N done (senderOf M tx) := by
    have hnat := htxs.nonce done tx after hsplit
    rw [← ofNat_toNat (x := tx.nonce), hnat, ofNat_add, ofNat_toNat]
    rfl
  have hroom : (10000000 : UInt64) ≤ p.gasPool := by
    rw [le_iff_toNat_le]
    show 10000000 ≤ _
    omega
  obtain ⟨p', t, hrun, hgp, ht⟩ := processTx_ready hhead
    ⟨htxs.plain tx hmem, hmetered, hlimit, hnonce, htxs.funds done tx after hsplit⟩ hroom i s hs
  refine ⟨p', t, hrun, ?_, ?_⟩
  · have hgas : (transferGas tx).toNat ≤ 10000000 := le_iff_toNat_le.mp hlimit
    rw [hgp, toNat_sub_of_le _ _ (UInt64.le_trans hlimit hroom), length_append, length_singleton]
    omega
  · rwa [noncesAfter_append, foldl_append]

theorem processTxs_underway (hhead : Headed M block) (htxs : Affordable M codeless B N txs)
    (hfew : txs.length ≤ 1000000000) {rest : List Transaction} (hsplit : txs = done ++ rest) (i : Nat) (p : Progress) :
    Completes (Underway M codeless B N block done p) (processTxs M block rest i p)
      fun p' s => Underway M codeless B N block txs p' s := by
  induction rest generalizing done i p with
  | nil =>
    rw [append_nil] at hsplit
    exact .pure fun s hs => hsplit ▸ hs
  | cons tx rest ih =>
    refine .bind (processTx_underway hhead htxs hsplit hfew i p) fun p' => ?_
    exact ih (by rw [hsplit, append_assoc]; rfl) (i + 1) p'

theorem ready_new {h : UInt64} (hstored : ∀ a d, trie a = some d → WritableAt h.toNat d) :
    Ready M.toDatabase (Codeless M trie) h.toNat (new trie).getBalance (new trie).getNonce
      ((new trie).prepare default default h 0) where
  quiet := Quiet.of_same (quiet_new M.toDatabase trie) rfl rfl rfl
  dirty _ ha := absurd ha (Finset.notMem_empty _)
  live _ _ ho := nomatch ho
  stored := hstored
  bheight := rfl
  balance := rfl
  nonce := rfl

/-- **A block of affordable transfers is executed** as far as the rewards. -/
theorem processTxs_affordable (hhead : Headed M block)
    (hstored : ∀ a d, trie a = some d → WritableAt block.header.blockNumber.toNat d)
    (htxs : Affordable M (Codeless M trie) (new trie).getBalance (new trie).getNonce txs)
    (hfew : txs.length ≤ 1000000000) :
    ∃ p t, processTxs M block txs 0 Progress.init (new trie) = (.ok p, t) := by
  have hinit : Underway M (Codeless M trie) (new trie).getBalance (new trie).getNonce block []
      Progress.init (new trie) := by
    refine ⟨by decide, ?_⟩
    have hnone : noncesAfter M (new trie).getNonce [] = (new trie).getNonce :=
      funext fun a => UInt64.add_zero _
    rw [hnone]
    exact ready_new hstored
  obtain ⟨p, t, hrun, -⟩ := processTxs_underway hhead htxs hfew (nil_append txs).symm 0 Progress.init _ hinit
  exact ⟨p, t, hrun⟩

end Block

end Okchain.Core
