import Okchain.State.Rollback
import Okchain.Vm.Invariant

/-! Contract execution leaves the nonce of a plain account alone. -/
namespace Okchain.Vm
open Lib State
open Proc (Keeps Ensures)

variable {D : Database} {a : Address} {sends : Prop} {nonce : UInt64} {acc : Option Account} {start base : Nat}

theorem height_keeps (P : StateDB → Prop) : Keeps P StateDB.height := by
  intro s hs h t hrun
  obtain ⟨_, rfl⟩ := Prod.mk.inj hrun
  exact hs

theorem addWeight_keeps (x : Address) : Keeps (Watched D a sends nonce acc start base) (StateDB.addWeight D x) := by
  refine .bind (height_keeps _) fun h => .update fun s hs => ?_
  obtain ⟨hadv, ho⟩ := getOrNewStateObject_advance hs.since.plain x
  exact hs.advance (hadv.trans (setObjectWeight_advance hadv.plain ho _ _))

theorem subWeight_keeps (x : Address) (v : Int) :
    Keeps (Watched D a sends nonce acc start base) (StateDB.subWeight D x v) := by
  refine .bind (R := fun o s => Watched D a sends nonce acc start base s ∧ s.getStateObject x = some o)
    (.step fun s hs => ?_) fun o => ?_
  · obtain ⟨hadv, ho⟩ := getOrNewStateObject_advance hs.since.plain x
    exact ⟨hs.advance hadv, ho⟩
  · refine .bind (R := fun _ s => Watched D a sends nonce acc start base s ∧ s.getStateObject x = some o)
      (.ensure fun _ _ hs => hs) fun _ => .bind (height_keeps _) fun h => ?_
    exact .update fun s hs => hs.1.advance (setObjectWeight_advance hs.1.since.plain hs.2 _ _)

theorem transfer_keeps (sender recipient : Address) (amount : Nat) :
    Keeps (Watched D a sends nonce acc start base) (transfer D sender recipient amount) := by
  refine .bind (R := fun _ => Watched D a sends nonce acc start base) ?_ fun _ => ?_
  · exact .bind (subWeight_keeps sender amount) fun _ =>
      .update fun s hs => hs.advance (subBalance_advance hs.since.plain _ _)
  · exact .bind (addWeight_keeps recipient) fun _ =>
      .update fun s hs => hs.advance (addBalance_advance hs.since.plain _ _)

theorem createAccount_ensures {x : Address} :
    Ensures (fun s => Watched D a sends nonce acc start base s ∧ (s.exist x = false ∨ x ≠ a))
      (StateDB.createAccount D x) (fun _ => Watched D a sends nonce acc start base) := by
  refine .bind (R := fun prev s => Watched D a sends nonce acc start base s ∧ s.getStateObject x = prev ∧
    (prev = none ∨ x ≠ a)) (.read fun s hs => ⟨hs.1, rfl, ?_⟩) fun prev => ?_
  · refine hs.2.imp_left fun h => ?_
    exact Option.not_isSome_iff_eq_none.mp (Bool.not_eq_true _ ▸ h)
  · refine .bind (R := fun _ s => Watched D a sends nonce acc start base s ∧ (prev = none ∨ x ≠ a))
      (.update fun s hs => ⟨hs.1.advance (createObject_advance hs.1.since.plain ?_), hs.2.2⟩) fun _ => ?_
    · exact hs.2.2.imp_left fun h => hs.2.1.trans h
    · cases prev with
      | none => exact .pure fun s hs => hs.1
      | some prev =>
        refine .bind (height_keeps _) fun h => .update fun s hs => ?_
        exact hs.1.advance (put_other_advance hs.1.since.plain (hs.2.resolve_left nofun) _)

/-- Every operation of contract execution keeps a plain account plain. The account itself never runs
code, and `happart` keeps contracts away from its address. -/
theorem watched_frame (happart : ∀ c n, c ≠ a → createAddress D.toEnv c n ≠ a) :
    FrameInvariant D base (· ≠ a) (Watched D a sends nonce acc start base) where
  setState hq hs key value := hs.advance (setState_advance hs.since.plain hq key value)
  addRefund hs gas := hs.advance (addRefund_advance hs.since.plain gas)
  addLog hs l := hs.advance (addLog_advance hs.since.plain l)
  addPreimage hs hash data := hs.advance (addPreimage_advance hs.since.plain hash data)
  addBalance hs x amount := hs.advance (addBalance_advance hs.since.plain x amount)
  suicide hq hs := hs.advance (suicide_advance hs.since.plain hq)
  setNonce hq hs n := hs.advance (setNonce_advance hs.since.plain hq n)
  setCode hq hs code := hs.advance (setCode_advance hs.since.plain hq code)
  transfer hs h := transfer_keeps _ _ _ _ hs _ _ h
  createAccount hs hx h := createAccount_ensures _ ⟨hs, hx⟩ _ _ h
  snapshot hs := hs.snapshot
  revert hs hid h := Watched.revert hid _ hs _ _ h
  runs := by
    intro s x hs hcode hx
    subst hx
    refine hcode ?_
    unfold StateDB.getCode
    cases ho : s.getStateObject x with
    | none => rfl
    | some o =>
      obtain ⟨hobj, _, _⟩ := hs.since.plain.getStateObject ho
      simp [StateObject.getCode, hobj.code, hobj.codeHash]
  creates hq n := happart _ n hq

end Okchain.Vm
