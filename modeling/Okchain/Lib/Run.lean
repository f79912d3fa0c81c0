import Mathlib.Algebra.Order.BigOperators.Group.List
import Mathlib.Algebra.Order.Ring.Nat
import Mathlib.Algebra.Module.NatInt

/-! Runs of a system whose steps may be disabled, a measure that counts them, and what holds all along a run. -/
namespace Okchain.Lib
open List

variable {σ ε : Type}

variable {s : σ} {es : List ε} {α : Type} {l : List α} {a : α} {step : σ → ε → σ → Prop} {C : σ → ε → Prop}

theorem foldlM_invariant {step : σ → ε → Option σ} {Inv : Nat → σ → Prop}
    (hstep : ∀ k s e t, Inv k s → step s e = some t → Inv (k + 1) t) {k : Nat} {t : σ}
    (hs : Inv k s) (hrun : es.foldlM step s = some t) : Inv (k + es.length) t := by
  induction es generalizing k s with
  | nil =>
    have : s = t := Option.some.inj hrun
    exact this ▸ hs
  | cons e es ih =>
    obtain ⟨u, hu, hrest⟩ := Option.bind_eq_some_iff.mp hrun
    have := ih (hstep k s e u hs hu) hrest
    rwa [length_cons, Nat.add_comm es.length, ← Nat.add_assoc]

/-- Where the length of the runs is bounded, some run cannot go on. -/
theorem exists_maximal_run {step : σ → ε → Option σ} {b : Nat} {s : σ}
    (hbound : ∀ (es : List ε) t, es.foldlM step s = some t → es.length ≤ b) :
    ∃ (es : List ε) (t : σ), es.foldlM step s = some t ∧ ∀ e, step t e = none := by
  induction b generalizing s with
  | zero =>
    refine ⟨[], s, rfl, fun e => Option.eq_none_iff_forall_ne_some.mpr fun u hu => ?_⟩
    exact absurd (hbound [e] u (Option.bind_eq_some_iff.mpr ⟨u, hu, rfl⟩)) (Nat.not_succ_le_zero _)
  | succ b ih =>
    by_cases hend : ∀ e, step s e = none
    · exact ⟨[], s, rfl, hend⟩
    obtain ⟨e, he⟩ := not_forall.mp hend
    obtain ⟨u, hu⟩ := Option.ne_none_iff_exists'.mp he
    have hcons : ∀ {es t}, es.foldlM step u = some t → (e :: es).foldlM step s = some t :=
      fun hrun => Option.bind_eq_some_iff.mpr ⟨u, hu, hrun⟩
    obtain ⟨es, t, hrun, hend⟩ := ih fun es t hrun => Nat.le_of_succ_le_succ (hbound (e :: es) t (hcons hrun))
    exact ⟨e :: es, t, hcons hrun, hend⟩

/-- Raising a counter at one place raises the sum over a list without repetitions by one. -/
theorem sum_map_update [DecidableEq α] (hnodup : l.Nodup) (ha : a ∈ l)
    (f : α → Nat) : (l.map (Function.update f a (f a + 1))).sum = (l.map f).sum + 1 := by
  induction l with
  | nil => exact nomatch ha
  | cons x l ih =>
    obtain ⟨hx, hl⟩ := nodup_cons.mp hnodup
    rw [map_cons, map_cons, sum_cons, sum_cons]
    by_cases hxa : x = a
    · subst hxa
      have hne : ∀ y ∈ l, y ≠ x := fun y hy h => hx (h ▸ hy)
      have hrest : l.map (Function.update f x (f x + 1)) = l.map f :=
        map_congr_left fun y hy => Function.update_of_ne (hne y hy) _ _
      rw [Function.update_self, hrest]
      omega
    · rw [Function.update_of_ne hxa, ih hl (mem_of_ne_of_mem (Ne.symm hxa) ha)]
      omega

theorem sum_map_le {f : α → Nat} {b : Nat} (h : ∀ a ∈ l, f a ≤ b) : (l.map f).sum ≤ l.length * b := by
  have hsum := sum_le_card_nsmul (l.map f) b fun x hx => by
    obtain ⟨a, ha, rfl⟩ := mem_map.mp hx
    exact h a ha
  rwa [length_map, smul_eq_mul] at hsum

theorem of_drop_eq_cons {t : List α} {i : Nat} (h : l.drop i = a :: t) : l[i]? = some a ∧ t = l.drop (i + 1) := by
  refine ⟨?_, ?_⟩
  · rw [← head?_drop, h, head?_cons]
  · rw [← tail_drop, h, tail_cons]

/-! ### All along a run -/

/-- `P` holds in every state the system passes through. -/
def Throughout (step : σ → ε → σ → Prop) (P : σ → Prop) : List ε → σ → Prop
  | [], s => P s
  | e :: es, s => P s ∧ ∀ t, step s e t → Throughout step P es t

/-- Every step that is taken meets `C`. -/
def EachStep (step : σ → ε → σ → Prop) (C : σ → ε → Prop) : List ε → σ → Prop
  | [], _ => True
  | e :: es, s => ∀ t, step s e t → C s e ∧ EachStep step C es t

theorem Throughout.start {P : σ → Prop} (h : Throughout step P es s) : P s := by
  cases es with
  | nil => exact h
  | cons e es => exact h.1

theorem EachStep.congr {C' : σ → ε → Prop} (h : ∀ s e t, step s e t → (C s e ↔ C' s e))
    (es : List ε) (s : σ) : EachStep step C es s ↔ EachStep step C' es s := by
  induction es generalizing s with
  | nil => exact Iff.rfl
  | cons e es ih => exact forall₂_congr fun t ht => and_congr (h s e t ht) (ih t)

theorem throughout_of_keep {J P : σ → Prop} (hJ : ∀ s, J s → P s) (hkeep : ∀ s e t, J s → step s e t → J t)
    (es : List ε) (hs : J s) : Throughout step P es s := by
  induction es generalizing s with
  | nil => exact hJ s hs
  | cons e es ih => exact ⟨hJ s hs, fun t ht => ih (hkeep s e t hs ht)⟩

/-- If the invariant behind `P` survives the steps that meet `C`, and every other step breaks `P`, then `P` holds
all along a run exactly if all its steps meet `C`. -/
theorem throughout_iff {J P : σ → Prop} (hJ : ∀ s, J s → P s)
    (hkeep : ∀ s e t, J s → step s e t → C s e → J t) (hbreak : ∀ s e t, J s → step s e t → ¬C s e → ¬P t)
    (es : List ε) (hs : J s) : Throughout step P es s ↔ EachStep step C es s := by
  induction es generalizing s with
  | nil => exact ⟨fun _ => trivial, fun _ => hJ s hs⟩
  | cons e es ih =>
    constructor
    · rintro ⟨-, h⟩ t ht
      have hC : C s e := by
        by_contra hC
        exact hbreak s e t hs ht hC (h t ht).start
      exact ⟨hC, (ih (hkeep s e t hs ht hC)).mp (h t ht)⟩
    · intro h
      refine ⟨hJ s hs, fun t ht => ?_⟩
      obtain ⟨hC, hrest⟩ := h t ht
      exact (ih (hkeep s e t hs ht hC)).mpr hrest

end Okchain.Lib
