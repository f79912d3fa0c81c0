import Mathlib.Data.List.Pairwise
import Mathlib.Data.List.Perm.Basic
import Mathlib.Data.List.Sort
import Mathlib.Logic.Equiv.Basic

/-! Sorting with a comparison that may have ties: when the result does not depend on the order of the input. -/
namespace Okchain.Lib

variable {α : Type}

theorem rel_or_of_mem {R : α → α → Prop} {l : List α} (h : l.Pairwise R) {a b : α} (ha : a ∈ l) (hb : b ∈ l)
    (hne : a ≠ b) : R a b ∨ R b a := by
  have : Std.Symm fun a b => R a b ∨ R b a := ⟨fun _ _ => Or.symm⟩
  exact List.Pairwise.forall (h.imp (S := fun a b => R a b ∨ R b a) Or.inl) ha hb hne

variable {r : α → α → Prop} [Std.Total r] [IsTrans α r]

open Classical in
theorem exists_sorted (l : List α) : ∃ s : List α, s.Perm l ∧ s.Pairwise r :=
  ⟨l.insertionSort r, List.perm_insertionSort r l, List.pairwise_insertionSort r l⟩

open Classical in
/-- Two elements that tie can be exchanged in a sorted list. -/
theorem swap_sorted {s : List α} {x y : α} (hxy : r x y) (hyx : r y x) (hs : s.Pairwise r) :
    (s.map (Equiv.swap x y)).Pairwise r := by
  have hsame : ∀ z, r z (Equiv.swap x y z) ∧ r (Equiv.swap x y z) z := by
    intro z
    have hrefl : r z z := (Std.Total.total z z).elim id id
    rw [Equiv.swap_apply_def]
    split
    · next h => exact h ▸ ⟨hxy, hyx⟩
    · split
      · next h => exact h ▸ ⟨hyx, hxy⟩
      · exact ⟨hrefl, hrefl⟩
  rw [List.pairwise_map]
  exact hs.imp fun {a b} hab => IsTrans.trans _ _ _ (hsame a).2 (IsTrans.trans _ _ _ hab (hsame b).1)

/-- A list sorts in one way only, whatever is done with ties, exactly if no two of its elements tie. -/
theorem sorted_unique_iff {c : List α} (hnodup : c.Nodup) :
    (∀ a b : List α, a.Perm c → b.Perm c → a.Pairwise r → b.Pairwise r → a = b) ↔
      ∀ x ∈ c, ∀ y ∈ c, r x y → r y x → x = y := by
  classical
  constructor
  · intro h x hx y hy hxy hyx
    obtain ⟨s, hperm, hs⟩ := exists_sorted (r := r) c
    have hsub : s.map (Equiv.swap x y) ⊆ s := by
      intro z hz
      obtain ⟨w, hw, rfl⟩ := List.mem_map.mp hz
      rw [Equiv.swap_apply_def]
      split
      · exact hperm.mem_iff.mpr hy
      · split
        · exact hperm.mem_iff.mpr hx
        · exact hw
    have hswap : (s.map (Equiv.swap x y)).Perm s :=
      (List.subperm_of_subset ((hperm.nodup_iff.mpr hnodup).map (Equiv.injective _)) hsub).perm_of_length_le (by simp)
    have hfixed := List.map_inj_left.mp ((h _ _ (hswap.trans hperm) hperm (swap_sorted hxy hyx hs) hs).trans
      (List.map_id s).symm) x (hperm.mem_iff.mpr hx)
    simpa using hfixed.symm
  · intro h a b ha hb hsa hsb
    exact List.Perm.eq_of_pairwise (fun x y hx hy hxy hyx => h x (ha.mem_iff.mp hx) y (hb.mem_iff.mp hy) hxy hyx)
      hsa hsb (ha.trans hb.symm)

end Okchain.Lib
