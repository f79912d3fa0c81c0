import Mathlib.Algebra.BigOperators.Group.Finset.Piecewise
import Mathlib.Data.Finite.Vector
import Mathlib.Data.FinEnum
import Okchain.State.Plain

/-! The coins there are.

There are finitely many addresses, so the balances have a sum. Crediting or debiting an account moves it by the amount.
`Finalise` can destroy coins: it deletes an account that self-destructed whatever its balance is by then. While nothing
has self-destructed it deletes empty accounts only.
-/
namespace Okchain.State
open Lib Option

variable {o : StateObject}

instance (n : Nat) : Finite (FixedBytes n) :=
  Finite.of_injective (β := List.Vector UInt8 n) (fun a => ⟨a.bytes, a.size⟩) fun _ _ h =>
    FixedBytes.ext_bytes (congrArg Subtype.val h)

noncomputable instance : Fintype Address := Fintype.ofFinite Address

noncomputable def StateDB.supply (s : StateDB) : Int := ∑ a, s.getBalance a

/-- Nothing has self-destructed, no refund is due, and the accounts in `codeless` have no code. -/
structure Quiet (D : Database) (codeless : Address → Prop) (s : StateDB) : Prop where
  alive : ∀ a o, s.stateObjects a = some o → o.suicided = false
  refund : s.refund = 0
  code : ∀ a, codeless a → s.getCode D a = []

/-- A quiet state with `n` coins. -/
structure Holds (D : Database) (codeless : Address → Prop) (n : Int) (s : StateDB) : Prop where
  quiet : Quiet D codeless s
  supply : s.supply = n

variable {D : Database} {codeless : Address → Prop} {n : Int} {s t : StateDB} {x : Address}

open StateDB (getBalance getCode getNonce getStateObject new)

theorem getBalance_of_getStateObject (ho : s.getStateObject x = some o) : s.getBalance x = o.data.balance := by
  unfold getBalance
  rw [ho]

section
variable (hdel : o.deleted = false)
include hdel

theorem getBalance_put : (s.put x o).getBalance = Function.update s.getBalance x o.data.balance := by
  funext a
  by_cases ha : a = x
  · subst ha
    rw [Function.update_self, getBalance_of_getStateObject (getStateObject_put o hdel)]
  · rw [Function.update_of_ne ha]
    unfold getBalance
    rw [(put_sameAt (Ne.symm ha) o).getStateObject]

theorem supply_put : (s.put x o).supply = s.supply + (o.data.balance - s.getBalance x) := by
  have hsplit := Finset.add_sum_erase Finset.univ s.getBalance (Finset.mem_univ x)
  unfold StateDB.supply
  rw [getBalance_put hdel, Finset.sum_update_of_mem (Finset.mem_univ x), Finset.sdiff_singleton_eq_erase]
  omega

theorem getCode_put : (s.put x o).getCode D x = (o.getCode D).getD [] := by
  unfold getCode
  rw [getStateObject_put o hdel]
  rfl

end

/-- Putting an object in place that has not self-destructed and has code only if there was some. -/
theorem Holds.put (h : Holds D codeless n s) (hdel : o.deleted = false) (halive : o.suicided = false)
    (hcode : s.getCode D x = [] → (o.getCode D).getD [] = []) :
    Holds D codeless (n + (o.data.balance - s.getBalance x)) (s.put x o) where
  quiet := {
    alive := by
      intro a o' ho'
      by_cases ha : a = x
      · subst ha
        have hlive : (s.put a o).stateObjects a = some {o with onDirty := false} := Function.update_self _ _ _
        rw [hlive, some.injEq] at ho'
        rw [← ho']
        exact halive
      · rw [(put_sameAt (Ne.symm ha) o).object] at ho'
        exact h.quiet.alive a o' ho'
    refund := h.quiet.refund
    code := by
      intro a hc
      have hbefore := h.quiet.code a hc
      by_cases ha : a = x
      · subst ha
        rw [getCode_put hdel]
        exact hcode hbefore
      · unfold getCode at ⊢
        rw [(put_sameAt (Ne.symm ha) o).getStateObject]
        exact hbefore}
  supply := by rw [supply_put hdel, h.supply]

theorem getStateObject_of_same (htrie : t.trie = s.trie) (hobjects : t.stateObjects = s.stateObjects) :
    t.getStateObject = s.getStateObject := by
  unfold getStateObject
  rw [htrie, hobjects]

theorem Quiet.of_same (h : Quiet D codeless s) (htrie : t.trie = s.trie)
    (hobjects : t.stateObjects = s.stateObjects) (hrefund : t.refund = s.refund) : Quiet D codeless t := by
  refine ⟨?_, hrefund.trans h.refund, fun a hc => ?_⟩
  · rw [hobjects]
    exact h.alive
  · rw [← h.code a hc]
    unfold getCode
    rw [getStateObject_of_same htrie hobjects]

theorem Holds.of_same (h : Holds D codeless n s) (htrie : t.trie = s.trie)
    (hobjects : t.stateObjects = s.stateObjects) (hrefund : t.refund = s.refund) : Holds D codeless n t := by
  refine ⟨h.quiet.of_same htrie hobjects hrefund, ?_⟩
  rw [← h.supply]
  unfold StateDB.supply getBalance
  rw [getStateObject_of_same htrie hobjects]

theorem Holds.record (h : Holds D codeless n s) (e : JournalEntry) : Holds D codeless n (s.record e) :=
  h.of_same rfl rfl rfl

theorem alive_of_getStateObject (h : Quiet D codeless s) (ho : s.getStateObject x = some o) : o.suicided = false := by
  unfold getStateObject at ho
  cases hlive : s.stateObjects x with
  | some o' =>
    rw [hlive] at ho
    dsimp only at ho
    split at ho
    · exact nomatch ho
    · exact some.inj ho ▸ h.alive x o' hlive
  | none =>
    rw [hlive, map_eq_some_iff] at ho
    obtain ⟨d, -, rfl⟩ := ho
    rfl

section
variable (h : Holds D codeless n s)
include h

section
variable (ho : s.getStateObject x = some o) (o' : StateObject) (hdel : o'.deleted = o.deleted)
  (halive : o'.suicided = o.suicided) (hcode : o'.getCode D = o.getCode D)
include ho o' hdel halive hcode

theorem Holds.replace : Holds D codeless (n + (o'.data.balance - o.data.balance)) (s.put x o') := by
  rw [← getBalance_of_getStateObject ho]
  refine h.put (hdel.trans (getStateObject_deleted ho)) (halive.trans (alive_of_getStateObject h.quiet ho)) ?_
  intro hnone
  unfold getCode at hnone
  rw [ho] at hnone
  rw [hcode]
  exact hnone

theorem Holds.replace_same (hbalance : o'.data.balance = o.data.balance) : Holds D codeless n (s.put x o') := by
  have := h.replace ho o' hdel halive hcode
  rwa [hbalance, Int.sub_self, Int.add_zero] at this

end

theorem Holds.createObject (habsent : s.getStateObject x = none) : Holds D codeless n (s.createObject D x) := by
  have hzero : s.getBalance x = 0 := by
    unfold getBalance
    rw [habsent]
  have hput := h.put (x := x) (o := newObject (newAccount D)) rfl rfl fun _ => by
    simp [StateObject.getCode, newObject, newAccount]
  rw [hzero] at hput
  have hsame : n + ((newObject (newAccount D)).data.balance - 0) = n := by simp [newObject, newAccount]
  rw [hsame] at hput
  unfold StateDB.createObject
  rw [habsent]
  exact hput.record _

theorem Holds.getOrNew (x : Address) : Holds D codeless n (s.getOrNewStateObject D x).2 := by
  unfold StateDB.getOrNewStateObject
  cases ho : s.getStateObject x with
  | some o => exact h
  | none => exact h.createObject ho

theorem Holds.setObjectBalance (ho : s.getStateObject x = some o) (v : Int) :
    Holds D codeless (n + v) (s.setObjectBalance x o (o.data.balance + v)) := by
  have hput := h.replace ho {o with data := {o.data with balance := o.data.balance + v}} rfl rfl rfl
  have hv : o.data.balance + v - o.data.balance = v := by omega
  rw [hv] at hput
  exact hput.record _

theorem Holds.setObjectWeight (ho : s.getStateObject x = some o) (weight height : Int) :
    Holds D codeless n (s.setObjectWeight x o weight height) :=
  h.replace_same ho _ rfl rfl rfl rfl

theorem Holds.addBalance (x : Address) (v : Int) : Holds D codeless (n + v) (s.addBalance D x v) := by
  have ho := getStateObject_getOrNew D s x
  unfold StateDB.addBalance
  dsimp only
  by_cases hv : v = 0
  · rw [if_pos hv, hv, Int.add_zero]
    split
    · have hput := (h.getOrNew x).replace_same ho {(s.getOrNewStateObject D x).1 with touched := true}
        rfl rfl rfl rfl
      exact hput.record _
    · exact h.getOrNew x
  · rw [if_neg hv]
    exact (h.getOrNew x).setObjectBalance ho v

theorem Holds.subBalance (x : Address) (v : Int) : Holds D codeless (n - v) (s.subBalance D x v) := by
  unfold StateDB.subBalance
  dsimp only
  by_cases hv : v = 0
  · rw [hv, Int.sub_zero]
    exact h.getOrNew x
  · rw [if_neg hv]
    exact (h.getOrNew x).setObjectBalance (getStateObject_getOrNew D s x) (-v)

theorem Holds.setNonce (x : Address) (nonce : UInt64) : Holds D codeless n (s.setNonce D x nonce) := by
  have hput := (h.getOrNew x).replace_same (getStateObject_getOrNew D s x)
    {(s.getOrNewStateObject D x).1 with data := {(s.getOrNewStateObject D x).1.data with nonce := nonce}}
    rfl rfl rfl rfl
  exact hput.record _

end

theorem balance_of_empty (h : o.empty D = true) : o.data.balance = 0 := by
  simp only [StateObject.empty, Account.empty, Bool.and_eq_true, beq_iff_eq] at h
  exact h.1.2

theorem getStateObject_finalised (hdirty : x ∈ s.stateObjectsDirty) (ho : s.stateObjects x = some o)
    (halive : o.suicided = false) :
    (s.finalised D true).getStateObject x =
      if o.empty D = true ∨ o.deleted = true then none else some (o.updateRoot D) := by
  have hlive : (s.finalised D true).stateObjects x = some (o.finalised D true) := by
    simp [StateDB.finalised, hdirty, ho]
  unfold getStateObject
  rw [hlive]
  unfold StateObject.finalised
  rw [doomed_eq_empty halive]
  cases o.empty D with
  | true => simp
  | false => cases hdel : o.deleted <;> simp [StateObject.updateRoot, StateObject.updateTrie, hdel]

theorem getStateObject_finalised_other (h : x ∉ s.stateObjectsDirty ∨ s.stateObjects x = none) :
    (s.finalised D true).getStateObject x = s.getStateObject x := by
  unfold getStateObject StateDB.finalised StateDB.finalisedTrie
  dsimp only
  by_cases hdirty : x ∈ s.stateObjectsDirty
  · rw [h.resolve_left (fun hn => hn hdirty)]
    simp
  · rw [if_neg hdirty, if_neg hdirty]

/-- `Finalise(true)` leaves what can be read of an account alone while it has not self-destructed: what it deletes is
empty. -/
theorem finalised_reads (halive : ∀ o, s.stateObjects x = some o → o.suicided = false) :
    (s.finalised D true).getBalance x = s.getBalance x ∧ (s.finalised D true).getNonce x = s.getNonce x ∧
      (s.getCode D x = [] → (s.finalised D true).getCode D x = []) := by
  by_cases hother : x ∉ s.stateObjectsDirty ∨ s.stateObjects x = none
  · unfold getBalance getNonce getCode
    rw [getStateObject_finalised_other hother]
    exact ⟨rfl, rfl, id⟩
  · push Not at hother
    obtain ⟨o, ho⟩ := ne_none_iff_exists'.mp hother.2
    have hafter := getStateObject_finalised (D := D) hother.1 ho (halive o ho)
    have hbefore : s.getStateObject x = if o.deleted then none else some o := by
      unfold getStateObject
      rw [ho]
    unfold getBalance getNonce getCode
    rw [hafter, hbefore]
    cases hdel : o.deleted with
    | true => simp
    | false =>
      cases hempty : o.empty D with
      | true => simp [balance_of_empty hempty, nonce_of_empty hempty]
      | false => exact ⟨rfl, rfl, id⟩

theorem Holds.finalised (h : Holds D codeless n s) : Holds D codeless n (s.finalised D true) := by
  have hreads := fun a => finalised_reads (D := D) (h.quiet.alive a)
  refine ⟨⟨fun a o ho => ?_, h.quiet.refund, fun a hc => (hreads a).2.2 (h.quiet.code a hc)⟩, ?_⟩
  · unfold StateDB.finalised at ho
    dsimp only at ho
    split at ho
    · obtain ⟨o', ho', rfl⟩ := map_eq_some_iff.mp ho
      exact (StateObject.finalised_suicided D o' true).trans (h.quiet.alive a o' ho')
    · exact h.quiet.alive a o ho
  · rw [← h.supply]
    exact Finset.sum_congr rfl fun a _ => (hreads a).1

theorem quiet_new (D : Database) (trie : AccountTrie) : Quiet D (fun a => (new trie).getCode D a = []) (new trie) :=
  ⟨fun _ _ h => (nomatch h), rfl, fun _ h => h⟩

end Okchain.State
