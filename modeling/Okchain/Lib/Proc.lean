import Mathlib.Data.List.Basic

/-! Procedures over a mutable state that may fail part of the way.

A procedure returns its state together with its outcome, so what it had already written when it failed stays written,
unlike in a transaction that rolls back. Inversion rules take a successful run apart into the runs of its steps,
`Ensures` chains what each step makes of the state, and the rules for the state at the end hold whichever way a
procedure ends.
-/
namespace Okchain.Lib
open Prod (fst snd)

universe u v w

/-- A procedure over the state `σ` that returns an `α` or fails with an `ε`. -/
def Proc (ε : Type u) (σ : Type v) (α : Type w) := σ → Except ε α × σ

namespace Proc

variable {ε : Type u} {σ : Type v} {α β : Type w}
variable {t : σ} {a b : α} {e : ε} {c : Prop} {g : σ → α} {y : Except ε α}

instance : Monad (Proc ε σ) where
  pure a := fun s => (.ok a, s)
  bind x f := fun s =>
    match x s with
    | (.ok a, t) => f a t
    | (.error e, t) => (.error e, t)

instance : LawfulMonad (Proc ε σ) := LawfulMonad.mk' _
  (fun x => by
    funext s
    show (match x s with
      | (.ok a, t) => (.ok a, t)
      | (.error e, t) => (.error e, t)) = x s
    rcases x s with ⟨_ | _, _⟩ <;> rfl)
  (fun _ _ => rfl)
  (fun x f g => by
    funext s
    simp only [bind]
    rcases x s with ⟨_ | _, _⟩ <;> rfl)

/-- Fail with `e`, keeping the state reached so far. -/
def throw (e : ε) : Proc ε σ α := fun s => (.error e, s)

def read (f : σ → α) : Proc ε σ α := fun s => (.ok (f s), s)

def update (f : σ → σ) : Proc ε σ PUnit := fun s => (.ok ⟨⟩, f s)

/-- A step that updates the state and returns a value. -/
def step (f : σ → α × σ) : Proc ε σ α := fun s => (.ok (f s).1, (f s).2)

/-- Run a fallible computation that does not touch the state. -/
def lift (x : Except ε α) : Proc ε σ α := fun s => (x, s)

/-- Go on only if `c` holds. -/
def ensure (c : Prop) [Decidable c] (e : ε) : Proc ε σ PUnit := if c then pure ⟨⟩ else throw e

/-- Go on only if `c` holds of the state. -/
def ensureState (c : σ → Prop) [DecidablePred c] (e : ε) : Proc ε σ PUnit := fun s =>
  if c s then (.ok ⟨⟩, s) else (.error e, s)

/-! ### Inversion -/

variable {s : σ} {x : Proc ε σ α} {f : α → Proc ε σ β} {k : PUnit → Proc ε σ β}

theorem bind_ok {b : β} : (x >>= f) s = (.ok b, t) ↔ ∃ a u, x s = (.ok a, u) ∧ f a u = (.ok b, t) := by
  show (match x s with
    | (.ok a, t) => f a t
    | (.error e, t) => (.error e, t)) = _ ↔ _
  rcases hx : x s with ⟨e | a, u⟩
  · constructor
    · intro h
      cases congrArg fst h
    · rintro ⟨_, _, h, _⟩
      cases congrArg fst h
  · constructor
    · intro h
      exact ⟨a, u, rfl, h⟩
    · rintro ⟨_, _, h, hf⟩
      cases h
      exact hf

theorem bind_run (h : x s = (.ok a, t)) : (x >>= f) s = f a t := by
  show (match x s with
    | (.ok a, t) => f a t
    | (.error e, t) => (.error e, t)) = _
  rw [h]

theorem bind_fails (f : α → Proc ε σ β) (h : x s = (.error e, t)) : (x >>= f) s = (.error e, t) := by
  show (match x s with
    | (.ok a, t) => f a t
    | (.error e, t) => (.error e, t)) = _
  rw [h]

theorem bind_error (h : (x >>= f) s = (.error e, t)) :
    x s = (.error e, t) ∨ ∃ a u, x s = (.ok a, u) ∧ f a u = (.error e, t) := by
  change (match x s with
    | (.ok a, t) => f a t
    | (.error e, t) => (.error e, t)) = _ at h
  rcases hx : x s with ⟨e' | a, u⟩
  · rw [hx] at h
    obtain ⟨he, rfl⟩ := Prod.mk.inj h
    rw [Except.error.inj he]
    exact .inl rfl
  · rw [hx] at h
    exact .inr ⟨a, u, rfl, h⟩

theorem pure_ok : (pure a : Proc ε σ α) s = (.ok b, t) ↔ b = a ∧ t = s := by
  constructor
  · rintro ⟨⟩
    exact ⟨rfl, rfl⟩
  · rintro ⟨rfl, rfl⟩
    rfl

theorem throw_ok : (throw e : Proc ε σ α) s = (.ok b, t) ↔ False := by
  constructor
  · intro h
    cases congrArg fst h
  · exact False.elim

theorem read_ok {f : σ → α} : (read f : Proc ε σ α) s = (.ok b, t) ↔ b = f s ∧ t = s := by
  constructor
  · rintro ⟨⟩
    exact ⟨rfl, rfl⟩
  · rintro ⟨rfl, rfl⟩
    rfl

theorem update_ok {f : σ → σ} {b : PUnit} : (update f : Proc ε σ PUnit) s = (.ok b, t) ↔ t = f s := by
  constructor
  · rintro ⟨⟩
    rfl
  · rintro rfl
    rfl

theorem lift_ok {x : Except ε α} : (lift x : Proc ε σ α) s = (.ok b, t) ↔ x = .ok b ∧ t = s := by
  constructor
  · intro h
    exact ⟨congrArg fst h, (congrArg snd h).symm⟩
  · rintro ⟨rfl, rfl⟩
    rfl

theorem step_ok {f : σ → α × σ} : (step f : Proc ε σ α) s = (.ok b, t) ↔ f s = (b, t) := by
  show ((.ok (f s).1, (f s).2) : Except ε α × σ) = (.ok b, t) ↔ _
  rw [Prod.mk.injEq, Except.ok.injEq, Prod.ext_iff]

theorem ensureState_ok {c : σ → Prop} [DecidablePred c] {b : PUnit} :
    (ensureState c e : Proc ε σ PUnit) s = (.ok b, t) ↔ c s ∧ t = s := by
  unfold ensureState
  by_cases hc : c s
  · rw [if_pos hc]
    exact ⟨fun h => ⟨hc, (congrArg snd h).symm⟩, fun h => by rw [h.2]⟩
  · rw [if_neg hc]
    exact ⟨fun h => (nomatch congrArg fst h), fun h => absurd h.1 hc⟩

theorem fst_ok : (x s).1 = .ok b ↔ ∃ t, x s = (.ok b, t) :=
  ⟨fun h => ⟨(x s).2, Prod.ext h rfl⟩, fun ⟨_, h⟩ => congrArg fst h⟩

theorem isOk_iff : (x s).1.isOk = true ↔ ∃ a t, x s = (.ok a, t) := by
  constructor
  · intro h
    cases hx : (x s).1 with
    | error e =>
      rw [hx] at h
      exact nomatch h
    | ok a => exact ⟨a, fst_ok.mp hx⟩
  · rintro ⟨a, t, h⟩
    rw [h]
    rfl

theorem ensure_ok [Decidable c] {b : PUnit} : (ensure c e : Proc ε σ PUnit) s = (.ok b, t) ↔ c ∧ t = s := by
  unfold ensure
  by_cases hc : c
  · rw [if_pos hc, pure_ok]
    exact ⟨fun h => ⟨hc, h.2⟩, fun h => ⟨rfl, h.2⟩⟩
  · rw [if_neg hc, throw_ok]
    exact ⟨False.elim, fun h => hc h.1⟩

theorem ensure_state [Decidable c] {o : Except ε PUnit} (h : (ensure c e : Proc ε σ PUnit) s = (o, t)) : t = s := by
  unfold ensure at h
  split at h
  · exact (congrArg snd h).symm
  · exact (congrArg snd h).symm

theorem lift_bind_ok {x : Except ε α} {b : β} :
    (lift x >>= f) s = (.ok b, t) ↔ ∃ a, x = .ok a ∧ f a s = (.ok b, t) := by
  rw [bind_ok]
  constructor
  · rintro ⟨a, u, hx, hf⟩
    obtain ⟨ha, rfl⟩ := lift_ok.mp hx
    exact ⟨a, ha, hf⟩
  · rintro ⟨a, hx, hf⟩
    exact ⟨a, s, lift_ok.mpr ⟨hx, rfl⟩, hf⟩

theorem ensure_bind_ok [Decidable c] {b : β} : (ensure c e >>= k) s = (.ok b, t) ↔ c ∧ k ⟨⟩ s = (.ok b, t) := by
  rw [bind_ok]
  constructor
  · rintro ⟨_, u, hx, hf⟩
    obtain ⟨hc, rfl⟩ := ensure_ok.mp hx
    exact ⟨hc, hf⟩
  · rintro ⟨hc, hf⟩
    exact ⟨⟨⟩, s, ensure_ok.mpr ⟨hc, rfl⟩, hf⟩

/-! ### Following a run step by step -/

theorem bind_pure_run : (pure a >>= f) s = f a s := rfl

theorem bind_read : (read g >>= f) s = f (g s) s := rfl

theorem bind_read_of (h : g s = a) : (read g >>= f) s = f a s := by
  rw [← h]
  rfl

theorem bind_step {g : σ → β × σ} (f : β → Proc ε σ α) (s : σ) : (step g >>= f) s = f (g s).1 (g s).2 := rfl

theorem bind_update {g : σ → σ} : (update g >>= k) s = k ⟨⟩ (g s) := rfl

theorem bind_lift {x : Except ε α} (h : x = .ok a) : (lift x >>= f) s = f a s := by
  rw [h]
  rfl

theorem bind_of_run (h : x s = (y, s)) : (x >>= f) s = (lift y >>= f) s := by
  show (match x s with
    | (.ok a, t) => f a t
    | (.error e, t) => (.error e, t)) = _
  rw [h]
  rfl

theorem lift_bind {γ : Type w} {g : α → Except ε β} {f : β → Proc ε σ γ} :
    (lift (y >>= g) >>= f) s = (lift y >>= fun a => lift (g a) >>= f) s := by
  cases y <;> rfl

theorem lift_congr {f g : α → Proc ε σ β} (h : ∀ a, y = .ok a → f a s = g a s) :
    (lift y >>= f) s = (lift y >>= g) s := by
  cases y with
  | error e => rfl
  | ok a => exact h a rfl

theorem bind_ensure [Decidable c] (h : c) : (ensure c e >>= k) s = k ⟨⟩ s := bind_run (ensure_ok.mpr ⟨h, rfl⟩)

theorem bind_ensure_not [Decidable c] (h : ¬c) : (ensure c e >>= k) s = (.error e, s) := by
  unfold ensure
  rw [if_neg h]
  rfl

theorem bind_ensureState {c : σ → Prop} [DecidablePred c] (h : c s) :
    (ensureState c e >>= k) s = k ⟨⟩ s := bind_run (ensureState_ok.mpr ⟨h, rfl⟩)

theorem bind_ensureState_not {c : σ → Prop} [DecidablePred c] (h : ¬c s) :
    (ensureState c e >>= k) s = (.error e, s) := by
  simp only [bind, ensureState, if_neg h]

/-! ### Pre- and postconditions of successful runs -/

/-- A run from a state with `P` that succeeds returns a value and a state related by `R`. -/
def Ensures (P : σ → Prop) (x : Proc ε σ α) (R : α → σ → Prop) : Prop :=
  ∀ s, P s → ∀ a t, x s = (.ok a, t) → R a t

/-- A run that succeeds keeps `P`. -/
def Keeps (P : σ → Prop) (x : Proc ε σ α) : Prop := Ensures P x (fun _ => P)

variable {P : σ → Prop} {R : α → σ → Prop} {S : β → σ → Prop} {U : PUnit → σ → Prop}

theorem Ensures.bind (hx : Ensures P x R) (hf : ∀ a, Ensures (R a) (f a) S) : Ensures P (x >>= f) S := by
  intro s hs b t h
  obtain ⟨a, u, hxs, hfu⟩ := bind_ok.mp h
  exact hf a u (hx s hs a u hxs) b t hfu

theorem Ensures.pure (h : ∀ s, P s → R a s) : Ensures P (pure a : Proc ε σ α) R := by
  intro s hs b t hb
  obtain ⟨rfl, rfl⟩ := pure_ok.mp hb
  exact h _ hs

theorem Ensures.read (h : ∀ s, P s → R (g s) s) : Ensures P (read g : Proc ε σ α) R := by
  intro s hs b t hb
  obtain ⟨rfl, rfl⟩ := read_ok.mp hb
  exact h _ hs

theorem Ensures.update {g : σ → σ} (h : ∀ s, P s → U ⟨⟩ (g s)) :
    Ensures P (update g : Proc ε σ PUnit) U := by
  intro s hs b t hb
  rw [update_ok.mp hb]
  exact h _ hs

theorem Ensures.step {g : σ → α × σ} (h : ∀ s, P s → R (g s).1 (g s).2) : Ensures P (step g : Proc ε σ α) R := by
  intro s hs b t hb
  have hg := step_ok.mp hb
  have := h s hs
  rwa [hg] at this

theorem Ensures.lift (h : ∀ a, y = .ok a → ∀ s, P s → R a s) : Ensures P (lift y : Proc ε σ α) R := by
  intro s hs b t hb
  obtain ⟨hy, rfl⟩ := lift_ok.mp hb
  exact h b hy _ hs

theorem Ensures.ensure [Decidable c] (h : c → ∀ s, P s → U ⟨⟩ s) :
    Ensures P (ensure c e : Proc ε σ PUnit) U := by
  intro s hs b t hb
  obtain ⟨hc, rfl⟩ := ensure_ok.mp hb
  exact h hc _ hs

theorem Ensures.ensureState {c : σ → Prop} [DecidablePred c] (h : ∀ s, c s → P s → U ⟨⟩ s) :
    Ensures P (ensureState c e : Proc ε σ PUnit) U := by
  intro s hs b t hb
  obtain ⟨hc, rfl⟩ := ensureState_ok.mp hb
  exact h _ hc hs

theorem keeps_read : Keeps P (read g : Proc ε σ α) := Ensures.read fun _ hs => hs

theorem keeps_lift : Keeps P (lift y) := Ensures.lift fun _ _ _ hs => hs

theorem keeps_ensure [Decidable c] : Keeps P (ensure c e : Proc ε σ PUnit) :=
  Ensures.ensure fun _ _ hs => hs

theorem keeps_ensureState {c : σ → Prop} [DecidablePred c] :
    Keeps P (ensureState c e : Proc ε σ PUnit) := Ensures.ensureState fun _ _ hs => hs

theorem Ensures.ite [Decidable c] {y : Proc ε σ α} (hx : c → Ensures P x R) (hy : ¬c → Ensures P y R) :
    Ensures P (if c then x else y) R := by
  by_cases hc : c
  · rw [if_pos hc]
    exact hx hc
  · rw [if_neg hc]
    exact hy hc

/-! ### The state at the end

A procedure whose first steps only check something ends, when a check fails, in the state it started from. -/

theorem state_lift_bind (hs : P s) (h : ∀ a, y = .ok a → P (f a s).2) : P ((lift y >>= f) s).2 := by
  cases y with
  | error e => exact hs
  | ok a => exact h a rfl

theorem state_ensure_bind [Decidable c] (hs : P s) (h : c → P (k ⟨⟩ s).2) : P ((ensure c e >>= k) s).2 := by
  by_cases hc : c
  · rw [bind_ensure hc]
    exact h hc
  · rw [bind_ensure_not hc]
    exact hs

theorem state_bind (hx : P (x s).2) (hf : ∀ a t, x s = (.ok a, t) → P (f a t).2) : P ((x >>= f) s).2 := by
  cases hxs : x s with
  | mk r t =>
    cases r with
    | error e =>
      have hrun : (x >>= f) s = (.error e, t) := by simp only [bind, hxs]
      rw [hxs] at hx
      rwa [hrun]
    | ok a =>
      rw [bind_run hxs]
      exact hf a t hxs

/-! ### What a run ends with

`Q` is about the outcome and the state together; a step that fails ends the run there. -/

/-- How a run goes on from what its first step ended with. -/
def andThen (f : α → Proc ε σ β) : Except ε α × σ → Except ε β × σ
  | (.ok a, t) => f a t
  | (.error e, t) => (.error e, t)

theorem bind_eq_andThen (x : Proc ε σ α) (f : α → Proc ε σ β) (s : σ) : (x >>= f) s = andThen f (x s) := by
  rcases h : x s with ⟨e | a, t⟩
  · simp only [bind, h, andThen]
  · exact bind_run h

section Outcome
variable {Q : Except ε β × σ → Prop} {s : σ}

theorem run_bind (herror : ∀ e t, x s = (.error e, t) → Q (.error e, t))
    (hok : ∀ a t, x s = (.ok a, t) → Q (f a t)) : Q ((x >>= f) s) := by
  cases hxs : x s with
  | mk r t =>
    cases r with
    | error e =>
      have hrun : (x >>= f) s = (.error e, t) := by simp only [bind, hxs]
      rw [hrun]
      exact herror e t hxs
    | ok a =>
      rw [bind_run hxs]
      exact hok a t hxs

theorem run_lift_cases (herror : ∀ e, y = .error e → Q (.error e, s)) (hok : ∀ a, y = .ok a → Q (f a s)) :
    Q ((lift y >>= f) s) := by
  cases y with
  | error e => exact herror e rfl
  | ok a => exact hok a rfl

theorem run_lift (herror : ∀ e, Q (.error e, s)) (hok : ∀ a, y = .ok a → Q (f a s)) :
    Q ((lift y >>= f) s) := run_lift_cases (fun e _ => herror e) hok

theorem run_ensure [Decidable c] (herror : ∀ e, Q (.error e, s)) (hok : c → Q (k ⟨⟩ s)) : Q ((ensure c e >>= k) s) := by
  by_cases hc : c
  · rw [bind_ensure hc]
    exact hok hc
  · rw [bind_ensure_not hc]
    exact herror e

theorem run_ensureState {c : σ → Prop} [DecidablePred c] (herror : ∀ e, Q (.error e, s))
    (hok : c s → Q (k ⟨⟩ s)) : Q ((ensureState c e >>= k) s) := by
  by_cases hc : c s
  · rw [bind_ensureState hc]
    exact hok hc
  · rw [bind_ensureState_not hc]
    exact herror e

theorem run_unless {β : Type} {Q : Except ε β × σ → Prop} {g : σ → Bool} {y z : Proc ε σ β}
    (hearly : g s = false → Q (y s)) (hready : g s = true → Q (z s)) :
    Q ((read g >>= fun ready => if !ready then y else z) s) := by
  rw [bind_read]
  cases hg : g s with
  | false => exact hearly hg
  | true => exact hready hg

end Outcome

/-- However a run ends, the state it ends in is related to the one it started from. -/
def Moves (R : σ → σ → Prop) (x : Proc ε σ α) : Prop := ∀ s, R s (x s).2

section Moves
variable {R : σ → σ → Prop}

theorem Moves.bind (htrans : ∀ {s t u}, R s t → R t u → R s u) (hx : Moves R x) (hf : ∀ a, Moves R (f a)) :
    Moves R (x >>= f) :=
  fun s => run_bind (Q := fun o => R s o.2) (fun e t h => by have := hx s; rwa [h] at this)
    fun a t h => htrans (by have := hx s; rwa [h] at this) (hf a t)

theorem Moves.of_state (hrefl : ∀ s, R s s) (h : ∀ s, (x s).2 = s) : Moves R x := fun s => by
  rw [h s]
  exact hrefl s

section
variable (hrefl : ∀ s, R s s)
include hrefl

theorem Moves.pure (a : α) : Moves R (Pure.pure a : Proc ε σ α) := hrefl

theorem Moves.throw (e : ε) : Moves R (throw e : Proc ε σ α) := hrefl

theorem Moves.read (g : σ → α) : Moves R (read g : Proc ε σ α) := hrefl

theorem Moves.lift (y : Except ε α) : Moves R (lift y : Proc ε σ α) := hrefl

theorem Moves.ensure (c : Prop) [Decidable c] (e : ε) : Moves R (ensure c e : Proc ε σ PUnit) := by
  unfold Proc.ensure
  split
  · exact Moves.pure hrefl PUnit.unit
  · exact Moves.throw hrefl e

end

end Moves

/-! ### Runs that succeed -/

/-- A run from a state with `P` succeeds, and returns a value and a state related by `R`. -/
def Completes (P : σ → Prop) (x : Proc ε σ α) (R : α → σ → Prop) : Prop :=
  ∀ s, P s → ∃ a t, x s = (.ok a, t) ∧ R a t

theorem Completes.bind (hx : Completes P x R) (hf : ∀ a, Completes (R a) (f a) S) : Completes P (x >>= f) S := by
  intro s hs
  obtain ⟨a, t, hxs, ha⟩ := hx s hs
  obtain ⟨b, u, hft, hb⟩ := hf a t ha
  exact ⟨b, u, (bind_run hxs).trans hft, hb⟩

theorem Completes.pure (h : ∀ s, P s → R a s) : Completes P (pure a : Proc ε σ α) R :=
  fun s hs => ⟨a, s, rfl, h s hs⟩

theorem Completes.read (h : ∀ s, P s → R (g s) s) : Completes P (read g : Proc ε σ α) R :=
  fun s hs => ⟨g s, s, rfl, h s hs⟩

theorem Completes.update {g : σ → σ} (h : ∀ s, P s → U ⟨⟩ (g s)) :
    Completes P (update g : Proc ε σ PUnit) U := fun s hs => ⟨⟨⟩, g s, rfl, h s hs⟩

theorem Completes.step {g : σ → α × σ} (h : ∀ s, P s → R (g s).1 (g s).2) : Completes P (step g : Proc ε σ α) R :=
  fun s hs => ⟨(g s).1, (g s).2, rfl, h s hs⟩

theorem Completes.ensure [Decidable c] (hc : ∀ s, P s → c) (h : ∀ s, P s → U ⟨⟩ s) :
    Completes P (ensure c e : Proc ε σ PUnit) U :=
  fun s hs => ⟨⟨⟩, s, ensure_ok.mpr ⟨hc s hs, rfl⟩, h s hs⟩

theorem Completes.ensureState {c : σ → Prop} [DecidablePred c] (hc : ∀ s, P s → c s)
    (h : ∀ s, P s → U ⟨⟩ s) : Completes P (ensureState c e : Proc ε σ PUnit) U :=
  fun s hs => ⟨⟨⟩, s, ensureState_ok.mpr ⟨hc s hs, rfl⟩, h s hs⟩

theorem Completes.ite [Decidable c] {y : Proc ε σ α} (hx : c → Completes P x R) (hy : ¬c → Completes P y R) :
    Completes P (if c then x else y) R := by
  by_cases hc : c
  · rw [if_pos hc]
    exact hx hc
  · rw [if_neg hc]
    exact hy hc

theorem Completes.isOk (hx : Completes P x R) (hs : P s) : (x s).1.isOk = true := by
  obtain ⟨a, t, hxs, -⟩ := hx s hs
  exact isOk_iff.mpr ⟨a, t, hxs⟩

end Proc
end Okchain.Lib
