import Mathlib.Algebra.BigOperators.Group.List.Basic
import Mathlib.Algebra.Group.Pi.Lemmas
import Mathlib.Algebra.GroupWithZero.Nat
import Mathlib.Algebra.Ring.Int.Defs
import Mathlib.Data.List.Sort

/-! Sharing out a total.

The members of a list are paid one after the other, each its share, and the last one what is left. When the list is
sorted by a key and several members have the greatest key, what the owners get depends on which one comes last, unless
nothing is left over or they all have the same owner.
-/
namespace Okchain.Lib.Shares
open List

variable {α β : Type} [DecidableEq β] (owner : α → β) (share : α → Int)

/-- What each owner gets when the members of the list are paid from `left`. -/
def pay : List α → Int → β → Int
  | [], _ => 0
  | [x], left => Pi.single (owner x) left
  | x :: y :: rest, left => Pi.single (owner x) (share x) + pay (y :: rest) (left - share x)

def due (l : List α) : β → Int := (l.map fun x => Pi.single (owner x) (share x)).sum

def remainder (l : List α) (total : Int) : Int := total - (l.map share).sum

variable {owner share} {l l₁ l₂ : List α} {total : Int}

theorem due_perm (h : l₁.Perm l₂) : due owner share l₁ = due owner share l₂ := (h.map _).sum_eq

theorem remainder_perm (h : l₁.Perm l₂) : remainder share l₁ total = remainder share l₂ total := by
  unfold remainder
  rw [(h.map share).sum_eq]

theorem pay_eq (h : l ≠ []) (total : Int) :
    pay owner share l total = due owner share l + Pi.single (owner (l.getLast h)) (remainder share l total) := by
  induction l generalizing total with
  | nil => exact absurd rfl h
  | cons x rest ih =>
    cases rest with
    | nil =>
      have hsplit : total = share x + (total - share x) := by omega
      simp only [pay, due, remainder, map_cons, map_nil, sum_cons, sum_nil, add_zero, getLast_singleton]
      rw [← Pi.single_add, ← hsplit]
    | cons y rest =>
      have hremainder : remainder share (y :: rest) (total - share x) = remainder share (x :: y :: rest) total := by
        simp only [remainder, map_cons, sum_cons]
        omega
      rw [pay, ih (cons_ne_nil y rest), hremainder, ← add_assoc]
      rfl

/-! ### The payments one by one -/

variable (share) in
/-- The members with what they are paid, in the order of the list. -/
def deal : List α → Int → List (α × Int)
  | [], _ => []
  | [x], left => [(x, left)]
  | x :: y :: rest, left => (x, share x) :: deal (y :: rest) (left - share x)

variable (share) in
def lastPart (l : List α) (total : Int) : Int := total - (l.dropLast.map share).sum

theorem deal_eq (h : l ≠ []) (total : Int) :
    deal share l total = (l.dropLast.map fun x => (x, share x)) ++ [(l.getLast h, lastPart share l total)] := by
  induction l generalizing total with
  | nil => exact absurd rfl h
  | cons x rest ih =>
    cases rest with
    | nil => simp [deal, lastPart]
    | cons y rest =>
      have hlast : lastPart share (y :: rest) (total - share x) = lastPart share (x :: y :: rest) total := by
        simp only [lastPart, dropLast_cons_cons, map_cons, sum_cons]
        omega
      rw [deal, ih (cons_ne_nil y rest), hlast]
      rfl

theorem pay_eq_sum (l : List α) (total : Int) :
    pay owner share l total = ((deal share l total).map fun e => Pi.single (owner e.1) e.2).sum := by
  induction l generalizing total with
  | nil => rfl
  | cons x rest ih =>
    cases rest with
    | nil => exact (add_zero _).symm
    | cons y rest => rw [pay, ih, deal, map_cons, sum_cons]

theorem deal_fst (l : List α) (total : Int) : (deal share l total).map Prod.fst = l := by
  by_cases h : l = []
  · rw [h]
    rfl
  · rw [deal_eq h, map_append, map_map]
    exact (congrArg (· ++ [l.getLast h]) (map_id _)).trans (dropLast_append_getLast h)

/-- Everything is paid out. -/
theorem deal_sum (h : l ≠ []) (total : Int) : ((deal share l total).map Prod.snd).sum = total := by
  rw [deal_eq h, map_append, map_map, sum_append]
  show (l.dropLast.map share).sum + (lastPart share l total + 0) = total
  unfold lastPart
  omega

theorem getLast?_deal (h : l ≠ []) (total : Int) :
    (deal share l total).getLast? = some (l.getLast h, lastPart share l total) := by
  rw [deal_eq h, getLast?_concat]

variable {key : α → Nat}

/-- Nobody's share is more than proportional to the key: neither are all together. -/
theorem sum_share_le {fees : Int} (h : ∀ x ∈ l, share x * fees ≤ total * key x) :
    (l.map share).sum * fees ≤ total * ((l.map key).sum : Nat) := by
  induction l with
  | nil => simp
  | cons x rest ih =>
    have hx := h x mem_cons_self
    have hrest := ih fun y hy => h y (mem_cons_of_mem x hy)
    simp only [map_cons, sum_cons, Int.natCast_add]
    rw [Int.add_mul, Int.mul_add]
    omega

theorem le_lastPart (hne : l ≠ []) (h : ∀ x ∈ l, share x * ((l.map key).sum : Nat) ≤ total * key x) :
    total * key (l.getLast hne) ≤ lastPart share l total * ((l.map key).sum : Nat) := by
  have hothers := sum_share_le fun x hx => h x (dropLast_subset l hx)
  have hsplit : (l.map key).sum = (l.dropLast.map key).sum + key (l.getLast hne) := by
    conv_lhs => rw [← dropLast_append_getLast hne]
    rw [map_append, sum_append]
    rfl
  calc total * key (l.getLast hne)
      = total * ((l.map key).sum : Nat) - total * ((l.dropLast.map key).sum : Nat) := by
        rw [hsplit, Int.natCast_add, Int.mul_add]
        omega
    _ ≤ total * ((l.map key).sum : Nat) - (l.dropLast.map share).sum * ((l.map key).sum : Nat) := by omega
    _ = lastPart share l total * ((l.map key).sum : Nat) := (Int.sub_mul _ _ _).symm

/-- In increasing order of the key, with shares at most proportional to it, the last member gets the most. -/
theorem deal_le_last (hsorted : l.Pairwise fun a b => key a ≤ key b) (hpos : 0 < (l.map key).sum)
    (htotal : 0 ≤ total) (h : ∀ x ∈ l, share x * ((l.map key).sum : Nat) ≤ total * key x) {e : α × Int}
    (he : e ∈ deal share l total) : e.2 ≤ lastPart share l total := by
  have hne : l ≠ [] := by
    rintro rfl
    exact absurd hpos (lt_irrefl _)
  rw [deal_eq hne] at he
  rcases mem_append.mp he with he | he
  · obtain ⟨x, hx, rfl⟩ := mem_map.mp he
    have hkey : key x ≤ key (l.getLast hne) := by
      rw [← dropLast_append_getLast hne] at hsorted
      exact (pairwise_append.mp hsorted).2.2 x hx _ (mem_singleton_self _)
    have hmul : share x * ((l.map key).sum : Nat) ≤ lastPart share l total * ((l.map key).sum : Nat) :=
      calc share x * ((l.map key).sum : Nat) ≤ total * key x := h x (dropLast_subset l hx)
        _ ≤ total * key (l.getLast hne) := Int.mul_le_mul_of_nonneg_left (Int.ofNat_le.mpr hkey) htotal
        _ ≤ lastPart share l total * ((l.map key).sum : Nat) := le_lastPart hne h
    exact Int.le_of_mul_le_mul_right hmul (Int.natCast_pos.mpr hpos)
  · rw [mem_singleton.mp he]

theorem deal_nonneg (hpos : 0 < (l.map key).sum) (htotal : 0 ≤ total)
    (h : ∀ x ∈ l, share x * ((l.map key).sum : Nat) ≤ total * key x) (hshare : ∀ x ∈ l, 0 ≤ share x) {e : α × Int}
    (he : e ∈ deal share l total) : 0 ≤ e.2 := by
  have hne : l ≠ [] := by
    rintro rfl
    exact absurd hpos (lt_irrefl _)
  rw [deal_eq hne] at he
  rcases mem_append.mp he with he | he
  · obtain ⟨x, hx, rfl⟩ := mem_map.mp he
    exact hshare x (dropLast_subset l hx)
  · rw [mem_singleton.mp he]
    have hlast := le_lastPart hne h
    have hkey : 0 ≤ total * key (l.getLast hne) := Int.mul_nonneg htotal (Int.natCast_nonneg _)
    exact Int.nonneg_of_mul_nonneg_left (hkey.trans hlast) (Int.natCast_pos.mpr hpos)

/-! ### Sorted lists -/

variable {key : α → Nat}

def Top (key : α → Nat) (l : List α) (x : α) : Prop := x ∈ l ∧ ∀ y ∈ l, key y ≤ key x

structure Ordered (key : α → Nat) (l sorted : List α) : Prop where
  perm : sorted.Perm l
  sorted : sorted.Pairwise fun a b => key a ≤ key b

theorem Ordered.top_getLast (h : Ordered key l l₁) (hne : l₁ ≠ []) : Top key l (l₁.getLast hne) := by
  refine ⟨h.perm.mem_iff.mp (getLast_mem hne), fun y hy => ?_⟩
  have hy := h.perm.mem_iff.mpr hy
  have hsorted := h.sorted
  rw [← dropLast_append_getLast hne] at hy hsorted
  rcases mem_append.mp hy with hy | hy
  · exact (pairwise_append.mp hsorted).2.2 y hy _ (mem_singleton_self _)
  · rw [mem_singleton.mp hy]

theorem Top.exists_ordered [DecidableEq α] {x : α} (h : Top key l x) : ∃ rest, Ordered key l (rest ++ [x]) := by
  let rest := (l.erase x).insertionSort fun a b => key a ≤ key b
  have hrest : rest.Perm (l.erase x) := perm_insertionSort _ _
  refine ⟨rest, ?_, ?_⟩
  · exact (perm_append_singleton x rest).trans ((hrest.cons x).trans (perm_cons_erase h.1).symm)
  · refine pairwise_append.mpr ⟨pairwise_insertionSort _ _, pairwise_singleton _ _, ?_⟩
    intro a ha b hb
    rw [mem_singleton.mp hb]
    exact h.2 a (mem_of_mem_erase (hrest.mem_iff.mp ha))

/-- The order does not matter when nothing is left over or all who can come last have one owner. -/
theorem pay_ordered (h : remainder share l total = 0 ∨ ∀ x y, Top key l x → Top key l y → owner x = owner y)
    (h₁ : Ordered key l l₁) (h₂ : Ordered key l l₂) : pay owner share l₁ total = pay owner share l₂ total := by
  by_cases hnil : l₁ = []
  · have : l₂ = [] := (h₂.perm.trans (h₁.perm.symm.trans (hnil ▸ List.Perm.refl _))).eq_nil
    rw [hnil, this]
  · have hnil₂ : l₂ ≠ [] := fun h => hnil (h₁.perm.trans (h₂.perm.symm.trans (h ▸ List.Perm.refl _))).eq_nil
    rw [pay_eq hnil, pay_eq hnil₂, due_perm (h₁.perm.trans h₂.perm.symm), remainder_perm h₁.perm, remainder_perm h₂.perm]
    rcases h with h | h
    · rw [h, Pi.single_zero, Pi.single_zero]
    · rw [h _ _ (h₁.top_getLast hnil) (h₂.top_getLast hnil₂)]

/-- Otherwise two orders pay differently. -/
theorem exists_pay_ne [DecidableEq α] (hleft : remainder share l total ≠ 0) {x y : α} (hx : Top key l x)
    (hy : Top key l y) (howner : owner x ≠ owner y) : ∃ l₁ l₂, Ordered key l l₁ ∧ Ordered key l l₂ ∧
      pay owner share l₁ total (owner x) ≠ pay owner share l₂ total (owner x) := by
  obtain ⟨r₁, h₁⟩ := hx.exists_ordered
  obtain ⟨r₂, h₂⟩ := hy.exists_ordered
  refine ⟨_, _, h₁, h₂, fun hsame => hleft ?_⟩
  have hne : ∀ {r : List α} {z : α}, r ++ [z] ≠ [] := append_ne_nil_of_right_ne_nil _ (cons_ne_nil _ _)
  rw [pay_eq hne, pay_eq hne, due_perm (h₁.perm.trans h₂.perm.symm), remainder_perm h₁.perm,
    getLast_append_singleton, getLast_append_singleton] at hsame
  simp only [Pi.add_apply, Pi.single_eq_same, Pi.single_eq_of_ne howner] at hsame
  omega

end Okchain.Lib.Shares
