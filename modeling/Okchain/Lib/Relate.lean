import Okchain.Lib.Proc

/-! Two runs side by side.

`Relates R V x y`: from states related by `R`, either both runs fail with the same error, or both succeed
with values related by `V` in states related by `R`. `Respects R x` compares a computation with itself.
-/
namespace Okchain.Lib.Proc

variable {ε σ α β γ δ : Type}

def Related (R : σ → σ → Prop) (V : α → β → Prop) : Except ε α × σ → Except ε β × σ → Prop
  | (.ok a, s), (.ok b, t) => V a b ∧ R s t
  | (.error e, _), (.error e', _) => e = e'
  | _, _ => False

def Relates (R : σ → σ → Prop) (V : α → β → Prop) (x : Proc ε σ α) (y : Proc ε σ β) : Prop :=
  ∀ s t, R s t → Related R V (x s) (y t)

/-- The computation cannot tell related states apart. -/
def Respects (R : σ → σ → Prop) (x : Proc ε σ α) : Prop := Relates R Eq x x

variable {R : σ → σ → Prop} {V : α → β → Prop} {W : γ → δ → Prop}

variable {x : Proc ε σ α} {a : α} {e : ε} {f : σ → α} {c : Prop}

theorem Relates.bind {y : Proc ε σ β} {f : α → Proc ε σ γ} {g : β → Proc ε σ δ}
    (hx : Relates R V x y) (hf : ∀ a b, V a b → Relates R W (f a) (g b)) :
    Relates R W (x >>= f) (y >>= g) := by
  intro s t hR
  have h := hx s t hR
  show Related R W (match x s with
    | (.ok a, t) => f a t
    | (.error e, t) => (.error e, t)) (match y t with
    | (.ok a, t) => g a t
    | (.error e, t) => (.error e, t))
  rcases hxs : x s with ⟨e | a, s'⟩ <;> rcases hyt : y t with ⟨e' | b, t'⟩ <;> rw [hxs, hyt] at h
  · exact h
  · exact h.elim
  · exact h.elim
  · exact hf a b h.1 s' t' h.2

theorem Respects.bind {f : α → Proc ε σ γ} (hx : Respects R x) (hf : ∀ a, Respects R (f a)) : Respects R (x >>= f) :=
  Relates.bind hx fun a _ h => h ▸ hf a

theorem Relates.pure {b : β} (h : V a b) :
    Relates R V (pure a : Proc ε σ α) (pure b : Proc ε σ β) := fun _ _ hR => ⟨h, hR⟩

theorem Respects.pure : Respects R (pure a : Proc ε σ α) := fun _ _ hR => ⟨rfl, hR⟩

theorem Respects.throw : Respects R (throw e : Proc ε σ α) := fun _ _ _ => rfl

theorem Relates.read {g : σ → β} (h : ∀ s t, R s t → V (f s) (g t)) :
    Relates R V (read f : Proc ε σ α) (read g : Proc ε σ β) := fun s t hR => ⟨h s t hR, hR⟩

theorem Respects.read (h : ∀ s t, R s t → f s = f t) : Respects R (read f : Proc ε σ α) :=
  Relates.read h

theorem Respects.check {f : σ → Except ε α} (h : ∀ s t, R s t → f s = f t) :
    Respects R (fun s => (f s, s) : Proc ε σ α) := by
  intro s t hR
  show Related R Eq (f s, s) (f t, t)
  rw [h s t hR]
  cases f t with
  | error e => exact rfl
  | ok a => exact ⟨rfl, hR⟩

theorem Respects.update {f : σ → σ} (h : ∀ s t, R s t → R (f s) (f t)) :
    Respects R (update f : Proc ε σ PUnit) := fun s t hR => ⟨rfl, h s t hR⟩

theorem Respects.step {f : σ → α × σ} (h : ∀ s t, R s t → (f s).1 = (f t).1 ∧ R (f s).2 (f t).2) :
    Respects R (step f : Proc ε σ α) := h

theorem Respects.lift {x : Except ε α} : Respects R (lift x : Proc ε σ α) :=
  .check fun _ _ _ => rfl

theorem Respects.ensure [Decidable c] : Respects R (ensure c e : Proc ε σ PUnit) := by
  unfold Proc.ensure
  by_cases hc : c
  · rw [if_pos hc]
    exact Respects.pure
  · rw [if_neg hc]
    exact Respects.throw

theorem Respects.ensureState {c : σ → Prop} [DecidablePred c] (h : ∀ s t, R s t → (c s ↔ c t)) :
    Respects R (ensureState c e : Proc ε σ PUnit) := by
  intro s t hR
  unfold Proc.ensureState
  by_cases hc : c s
  · rw [if_pos hc, if_pos ((h s t hR).mp hc)]
    exact ⟨rfl, hR⟩
  · rw [if_neg hc, if_neg fun ht => hc ((h s t hR).mpr ht)]
    exact rfl

theorem Respects.ite [Decidable c] {y : Proc ε σ α} (hx : Respects R x)
    (hy : Respects R y) : Respects R (if c then x else y) := by
  by_cases hc : c
  · rw [if_pos hc]
    exact hx
  · rw [if_neg hc]
    exact hy

end Okchain.Lib.Proc
