import Mathlib.Data.Finset.Card

/-! Quorums of a finite set.

How many elements two subsets of a given size must share, and how many are left when some are taken away,
depends on sizes alone.
-/
namespace Okchain.Lib.Quorum

variable {α : Type} [DecidableEq α] {S A B : Finset α} {q k f : Nat}

theorem card_le_card_inter (hA : A ⊆ S) (hB : B ⊆ S) : A.card + B.card ≤ S.card + (A ∩ B).card := by
  have hunion : (A ∪ B).card ≤ S.card := Finset.card_le_card (Finset.union_subset hA hB)
  have hsum := Finset.card_union_add_card_inter A B
  omega

theorem exists_least_overlap (hq : q ≤ S.card) :
    ∃ A ⊆ S, ∃ B ⊆ S, A.card = q ∧ B.card = q ∧ (A ∩ B).card = 2 * q - S.card := by
  obtain ⟨A, hA, hAcard⟩ := Finset.exists_subset_card_eq hq
  have hrest : (S \ A).card = S.card - q := by rw [Finset.card_sdiff_of_subset hA, hAcard]
  by_cases hsmall : 2 * q ≤ S.card
  · obtain ⟨B, hB, hBcard⟩ := Finset.exists_subset_card_eq (s := S \ A) (n := q) (by omega)
    refine ⟨A, hA, B, hB.trans Finset.sdiff_subset, hAcard, hBcard, ?_⟩
    have hdisjoint : A ∩ B = ∅ :=
      Finset.disjoint_iff_inter_eq_empty.mp (Finset.disjoint_of_subset_right hB Finset.disjoint_sdiff)
    rw [hdisjoint, Finset.card_empty]
    omega
  · obtain ⟨C, hC, hCcard⟩ := Finset.exists_subset_card_eq (s := A) (n := 2 * q - S.card) (by omega)
    have hdisjoint : Disjoint (S \ A) C := Finset.disjoint_of_subset_right hC Finset.sdiff_disjoint
    refine ⟨A, hA, (S \ A) ∪ C, Finset.union_subset Finset.sdiff_subset (hC.trans hA), hAcard, ?_, ?_⟩
    · rw [Finset.card_union_of_disjoint hdisjoint]
      omega
    · rw [Finset.inter_union_distrib_left, Finset.inter_sdiff_self, Finset.empty_union,
        Finset.inter_eq_right.mpr hC, hCcard]

/-- Any two subsets of size `q` share `k` elements exactly when twice `q` exceeds the whole by `k`. -/
theorem share_iff (hq : q ≤ S.card) (hk : 0 < k) :
    (∀ A ⊆ S, ∀ B ⊆ S, A.card = q → B.card = q → k ≤ (A ∩ B).card) ↔ S.card + k ≤ 2 * q := by
  refine ⟨fun h => ?_, fun h A hA B hB hAcard hBcard => ?_⟩
  · obtain ⟨A, hA, B, hB, hAcard, hBcard, hinter⟩ := exists_least_overlap hq
    have := h A hA B hB hAcard hBcard
    omega
  · have := card_le_card_inter hA hB
    omega

/-- `q` elements are left whichever `f` are taken away exactly when there are enough for both. -/
theorem remain_iff (hf : f ≤ S.card) : (∀ T ⊆ S, T.card = f → q ≤ (S \ T).card) ↔ q + f ≤ S.card := by
  refine ⟨fun h => ?_, fun h T hT hTcard => ?_⟩
  · obtain ⟨T, hT, hTcard⟩ := Finset.exists_subset_card_eq hf
    have := h T hT hTcard
    rw [Finset.card_sdiff_of_subset hT] at this
    omega
  · rw [Finset.card_sdiff_of_subset hT]
    omega

end Okchain.Lib.Quorum
