import Mathlib.Data.Int.CardIntervalMod

/-! Lists sorted into buckets.

A loop that appends each entry to the bucket of its key leaves in every bucket the entries of that key, in
the order of the list. The buckets of the keys below a bound, one after the other, hold the entries with
such a key. Dealing a list out to `n` buckets in turn puts every `n`-th entry in a bucket, so all are equally
full when `n` divides the length.
-/
namespace Okchain.Lib.Buckets
open List

section Fill
variable {κ α β : Type} [DecidableEq κ]

def put (m : κ → List α) (k : κ) (a : α) : κ → List α := Function.update m k (m k ++ [a])

/-- Go through `l` and put what `elem` takes from an entry into the bucket of the entry's key. -/
def fill (key : β → κ) (elem : β → α) (m : κ → List α) (l : List β) : κ → List α :=
  l.foldl (fun m x => put m (key x) (elem x)) m

theorem fill_apply (key : β → κ) (elem : β → α) (m : κ → List α) (l : List β) (k : κ) :
    fill key elem m l k = m k ++ (l.filter (key · = k)).map elem := by
  induction l generalizing m with
  | nil => simp [fill]
  | cons x l ih =>
    have hstep : fill key elem m (x :: l) k = fill key elem (put m (key x) (elem x)) l k := rfl
    rw [hstep, ih]
    by_cases hk : key x = k
    · simp [put, ← hk]
    · rw [filter_cons_of_neg (by simpa using hk)]
      simp [put, Function.update_of_ne (Ne.symm hk)]

end Fill

theorem flatMap_eq_single {α β : Type} {l : List α} {f : α → List β} {a : α} (hnodup : l.Nodup) (ha : a ∈ l)
    (hothers : ∀ b ∈ l, b ≠ a → f b = []) : l.flatMap f = f a := by
  obtain ⟨before, after, rfl⟩ := append_of_mem ha
  have hne := (nodup_cons.mp (nodup_middle.mp hnodup)).1
  have hbefore : before.flatMap f = [] := flatMap_eq_nil_iff.mpr fun b hb =>
    hothers b (mem_append_left _ hb) fun heq => hne (heq ▸ mem_append_left _ hb)
  have hafter : after.flatMap f = [] := flatMap_eq_nil_iff.mpr fun b hb =>
    hothers b (mem_append_right _ (mem_cons_of_mem _ hb)) fun heq => hne (heq ▸ mem_append_right _ hb)
  rw [flatMap_append, flatMap_cons, hbefore, hafter, nil_append, append_nil]

section Numbered
variable {β : Type}

theorem flatMap_filter_perm (key : β → Nat) (l : List β) (n : Nat) :
    ((range n).flatMap fun k => l.filter (key · = k)).Perm (l.filter (key · < n)) := by
  induction n with
  | zero => simp
  | succ n ih =>
    -- the new bucket takes the entries of key `n` out of those below `n + 1`
    have hbelow : (l.filter (key · < n + 1)).filter (key · < n) = l.filter (key · < n) := by
      rw [filter_filter]
      refine filter_congr fun x _ => ?_
      rw [← Bool.decide_and, decide_eq_decide]
      omega
    have hlast : (l.filter (key · < n + 1)).filter (fun x => !decide (key x < n)) = l.filter (key · = n) := by
      rw [filter_filter]
      refine filter_congr fun x _ => ?_
      rw [← decide_not, ← Bool.decide_and, decide_eq_decide]
      omega
    have hsplit := filter_append_perm (fun x => decide (key x < n)) (l.filter (key · < n + 1))
    rw [hbelow, hlast] at hsplit
    rw [range_succ, flatMap_append, flatMap_singleton]
    exact (ih.append_right _).trans hsplit

theorem flatMap_filter_perm_self (key : β → Nat) {l : List β} {n : Nat} (h : ∀ x ∈ l, key x < n) :
    ((range n).flatMap fun k => l.filter (key · = k)).Perm l := by
  have hall : l.filter (key · < n) = l := filter_eq_self.mpr fun x hx => by simpa using h x hx
  exact (flatMap_filter_perm key l n).trans (.of_eq hall)

end Numbered

section RoundRobin
variable {α : Type} {l : List α} {n k size : Nat}

/-- What bucket `k` gets when `l` is dealt out to `n` buckets in turn. -/
def lane (l : List α) (n k : Nat) : List α := (l.zipIdx.filter (·.2 % n = k)).map Prod.fst

theorem lanes_perm (hn : 0 < n) : ((range n).flatMap (lane l n)).Perm l := by
  have hdealt := flatMap_filter_perm_self (fun x : α × Nat => x.2 % n) (l := l.zipIdx)
    (fun x _ => Nat.mod_lt x.2 hn)
  have hentries := hdealt.map Prod.fst
  rwa [map_flatMap, zipIdx_map_fst] at hentries

theorem length_lane (hlength : l.length = n * size) (hk : k < n) : (lane l n k).length = size := by
  have hplaces : (lane l n k).length = ((range l.length).filter (· % n = k)).length := by
    have hsnd : (l.zipIdx.filter (·.2 % n = k)).map Prod.snd = (range l.length).filter (· % n = k) := by
      rw [range_eq_range', ← zipIdx_map_snd 0 l, filter_map]
      rfl
    rw [← hsnd]
    simp [lane]
  have hcount : ((range l.length).filter (· % n = k)).length = Nat.count (· ≡ k [MOD n]) l.length := by
    rw [Nat.count_eq_card_filter_range]
    have hmod : (fun i : Nat => decide (i % n = k)) = fun i => decide (i ≡ k [MOD n]) := by
      funext i
      have hiff : i ≡ k [MOD n] ↔ i % n = k := by
        unfold Nat.ModEq
        rw [Nat.mod_eq_of_lt hk]
      simp only [hiff]
    rw [hmod]
    rfl
  have hn : 0 < n := Nat.zero_lt_of_lt hk
  rw [hplaces, hcount, hlength, Nat.count_modEq_card _ hn, Nat.mul_div_cancel_left _ hn]
  simp

/-- A longer list leaves no bucket with less. -/
theorem le_length_lane (hlength : n * size ≤ l.length) (hk : k < n) : size ≤ (lane l n k).length := by
  have htake : (lane (l.take (n * size)) n k).length = size :=
    length_lane (length_take_of_le hlength) hk
  have hsub : (lane (l.take (n * size)) n k).Sublist (lane l n k) := by
    have hall : l.zipIdx = (l.take (n * size)).zipIdx ++
        (l.drop (n * size)).zipIdx (0 + (l.take (n * size)).length) := by
      rw [← zipIdx_append, take_append_drop]
    unfold lane
    rw [hall]
    exact ((sublist_append_left _ _).filter _).map _
  rw [← htake]
  exact hsub.length_le

end RoundRobin

end Okchain.Lib.Buckets
