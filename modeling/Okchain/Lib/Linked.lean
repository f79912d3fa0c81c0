import Mathlib.Data.List.Chain

/-! Lists whose elements are numbered downwards, each one more than the next. -/
namespace Okchain.Lib.Linked
open List

variable {α : Type} {num : α → Nat}
variable {x y : α} {l : List α}

section
variable (h : (x :: l).IsChain fun a b => num a = num b + 1)
include h

theorem lt_of_mem (hy : y ∈ l) : num y < num x := by
  induction l generalizing x with
  | nil => exact nomatch hy
  | cons z l ih =>
    obtain ⟨hxz, hrest⟩ := isChain_cons_cons.mp h
    rcases mem_cons.mp hy with rfl | hy
    · omega
    · have := ih hrest hy
      omega

theorem eq_head (hy : y ∈ x :: l) (hnum : num x ≤ num y) : y = x := by
  rcases mem_cons.mp hy with rfl | hy
  · rfl
  · exact absurd (lt_of_mem h hy) (Nat.not_lt.mpr hnum)

end

theorem eq_of_num (h : l.IsChain fun a b => num a = num b + 1) (hx : x ∈ l) (hy : y ∈ l) (hnum : num x = num y) : x = y := by
  induction l with
  | nil => exact nomatch hx
  | cons z l ih =>
    rcases mem_cons.mp hx with rfl | hx'
    · exact (eq_head h hy hnum.le).symm
    · rcases mem_cons.mp hy with rfl | hy'
      · exact eq_head h hx hnum.ge
      · exact ih h.tail hx' hy'

theorem exists_num {last : α} (h : (x :: l).IsChain fun a b => num a = num b + 1)
    (hlast : (x :: l).getLast? = some last) (hzero : num last = 0) {k : Nat} (hk : k ≤ num x) :
    ∃ y ∈ x :: l, num y = k := by
  induction l generalizing x with
  | nil =>
    have : x = last := by simpa using hlast
    subst this
    exact ⟨x, mem_singleton_self x, by omega⟩
  | cons z l ih =>
    obtain ⟨hxz, hrest⟩ := isChain_cons_cons.mp h
    by_cases hkx : k = num x
    · exact ⟨x, mem_cons_self, hkx.symm⟩
    · obtain ⟨y, hy, hnum⟩ := ih hrest hlast (by omega)
      exact ⟨y, mem_cons_of_mem _ hy, hnum⟩

end Okchain.Lib.Linked
