import Mathlib.Data.List.Basic
import Mathlib.Tactic.Ring

/-! Merkle trees built level by level.

A level is made of the one below by joining its nodes in pairs, after an odd level has been extended by a copy of its
last node. From the root everything can be read back, provided that no two of the values that were hashed have the same
hash: the number of rounds, because a leaf is not an inner node, and then the levels one by one.
-/
namespace Okchain.Lib.Merkle
open List

variable {α δ : Type}
variable {l l' : List α} {k n : Nat}

/-- An odd list is extended by a copy of its last element. -/
def padEven (l : List α) : List α :=
  match l.getLast? with
  | some last => if l.length % 2 = 0 then l else l ++ [last]
  | none => l

def pairs : List α → List (α × α)
  | a :: b :: rest => (a, b) :: pairs rest
  | _ => []

section

variable (join : α → α → α)

def level (l : List α) : List α := (pairs l).map fun p => join p.1 p.2

def climb : Nat → List α → List α
  | 0, l => l
  | n + 1, l => climb n (padEven (level join l))

def joined : Nat → List α → List (α × α)
  | 0, _ => []
  | n + 1, l => pairs l ++ joined n (padEven (level join l))

end

/-! ### One level -/

theorem length_padEven (l : List α) : (padEven l).length = l.length + l.length % 2 := by
  unfold padEven
  cases h : l.getLast? with
  | none =>
    rw [getLast?_eq_none_iff.mp h]
    rfl
  | some last =>
    dsimp only
    split
    · omega
    · rw [length_append, length_singleton]
      omega

theorem prefix_padEven (l : List α) : l <+: padEven l := by
  unfold padEven
  cases l.getLast? with
  | none => exact prefix_rfl
  | some last =>
    dsimp only
    split
    · exact prefix_rfl
    · exact prefix_append _ _

variable {a : α} {p : α × α} {ps : List (α × α)} {data : List δ}

theorem mem_of_mem_padEven (h : a ∈ padEven l) : a ∈ l := by
  unfold padEven at h
  cases hlast : l.getLast? with
  | none => rwa [hlast] at h
  | some last =>
    rw [hlast] at h
    dsimp only at h
    split at h
    · exact h
    · rcases mem_append.mp h with h | h
      · exact h
      · rw [mem_singleton.mp h]
        exact mem_of_getLast? hlast

theorem eq_of_padEven (hlength : l.length = l'.length) (h : padEven l = padEven l') : l = l' := by
  have htake := (prefix_iff_eq_take.mp (prefix_padEven l)).trans
    ((congrArg (take l.length) h).trans (congrArg (fun n => (padEven l').take n) hlength))
  exact htake.trans (prefix_iff_eq_take.mp (prefix_padEven l')).symm

theorem length_pairs (l : List α) : (pairs l).length = l.length / 2 := by
  induction l using pairs.induct with
  | case1 a b rest ih =>
    rw [pairs, length_cons, length_cons, length_cons]
    omega
  | case2 l h =>
    match l, h with
    | [], _ => simp only [pairs, length_nil]
    | [_], _ => simp only [pairs, length_nil, length_singleton]
    | a :: b :: rest, h => exact absurd rfl (h a b rest)

theorem eq_of_pairs (heven : l.length % 2 = 0) (heven' : l'.length % 2 = 0) (h : pairs l = pairs l') : l = l' := by
  induction l using pairs.induct generalizing l' with
  | case1 a b rest ih =>
    match l', h, heven' with
    | a' :: b' :: rest', h, heven' =>
      simp only [pairs, List.cons.injEq] at h
      obtain ⟨⟨rfl, rfl⟩, h⟩ := h
      simp only [length_cons] at heven heven'
      rw [ih (by omega) (by omega) h]
  | case2 l hl =>
    have hnil : l = [] := by
      match l, hl, heven with
      | [], _, _ => rfl
      | a :: b :: rest, hl, _ => exact absurd rfl (hl a b rest)
    subst hnil
    have hlength := congrArg length h
    rw [length_pairs, length_pairs, length_nil] at hlength
    exact (length_eq_zero_iff.mp (by omega)).symm

theorem mem_of_mem_pairs (h : p ∈ pairs l) : p.1 ∈ l ∧ p.2 ∈ l := by
  induction l using pairs.induct with
  | case1 a b rest ih =>
    rw [pairs, mem_cons] at h
    rcases h with rfl | h
    · exact ⟨mem_cons_self, mem_cons_of_mem _ mem_cons_self⟩
    · obtain ⟨h₁, h₂⟩ := ih h
      exact ⟨mem_cons_of_mem _ (mem_cons_of_mem _ h₁), mem_cons_of_mem _ (mem_cons_of_mem _ h₂)⟩
  | case2 l hl =>
    rw [pairs] at h
    · exact absurd h not_mem_nil
    · exact hl

variable {join : α → α → α} {leaf : δ → α}

theorem length_level (l : List α) : (level join l).length = l.length / 2 := by
  rw [level, length_map, length_pairs]

/-- The nodes above, made even, are about half as many. -/
theorem length_raised (join : α → α → α) (l : List α) :
    (padEven (level join l)).length = l.length / 2 + l.length / 2 % 2 := by
  rw [length_padEven, length_level]

/-- No two different pairs of the list have the same node above them. -/
def Injective (join : α → α → α) (ps : List (α × α)) : Prop :=
  ∀ p ∈ ps, ∀ p' ∈ ps, join p.1 p.2 = join p'.1 p'.2 → p = p'

theorem map_eq_of_injective {β : Type} {f : β → α} {S : List β} (hinj : ∀ p ∈ S, ∀ p' ∈ S, f p = f p' → p = p')
    {l l' : List β} (hl : l ⊆ S) (hl' : l' ⊆ S) (h : l.map f = l'.map f) : l = l' := by
  induction l generalizing l' with
  | nil => exact (map_eq_nil_iff.mp h.symm).symm
  | cons a l ih =>
    obtain ⟨b, m, rfl, hab, hm⟩ := map_eq_cons_iff.mp h.symm
    rw [hinj a (hl mem_cons_self) b (hl' mem_cons_self) hab.symm,
      ih (subset_of_cons_subset hl) (subset_of_cons_subset hl') hm.symm]

/-- A level can be read back from the one above. -/
theorem eq_of_level (hinj : Injective join ps) (heven : l.length % 2 = 0)
    (heven' : l'.length % 2 = 0) (hl : pairs l ⊆ ps) (hl' : pairs l' ⊆ ps) (h : level join l = level join l') :
    l = l' :=
  eq_of_pairs heven heven' (map_eq_of_injective hinj hl hl' h)

/-! ### Several rounds -/

theorem climb_succ (n : Nat) (l : List α) : climb join (n + 1) l = padEven (level join (climb join n l)) := by
  induction n generalizing l with
  | zero => rfl
  | succ n ih => exact ih _

theorem even_raised (l : List α) : (padEven (level join l)).length % 2 = 0 := by
  rw [length_raised]
  omega

theorem two_le_climb (join : α → α → α) (htwo : 2 ≤ l.length) (n : Nat) : 2 ≤ (climb join n l).length := by
  induction n with
  | zero => exact htwo
  | succ n ih =>
    rw [climb_succ, length_raised]
    omega

theorem length_climb (join : α → α → α) (heven : l.length % 2 = 0) (htwo : 2 ≤ l.length)
    (henough : l.length ≤ 2 ^ (n + 1)) : (climb join n l).length = 2 := by
  induction n generalizing l with
  | zero =>
    show l.length = 2
    omega
  | succ n ih =>
    have hraised := length_raised join l
    exact ih (even_raised l) (by omega) (by omega)

theorem eq_of_climb (hinj : Injective join ps) (hlength : l.length = l'.length)
    (heven : l.length % 2 = 0) (hl : joined join n l ⊆ ps) (hl' : joined join n l' ⊆ ps)
    (h : climb join n l = climb join n l') : l = l' := by
  induction n generalizing l l' with
  | zero => exact h
  | succ n ih =>
    obtain ⟨hpairs, hrest⟩ := append_subset.mp hl
    obtain ⟨hpairs', hrest'⟩ := append_subset.mp hl'
    have hraised : (level join l).length = (level join l').length := by rw [length_level, length_level, hlength]
    have hpadded := ih (by rw [length_raised, length_raised, hlength]) (even_raised l) hrest hrest' h
    exact eq_of_level hinj heven (hlength ▸ heven) hpairs hpairs' (eq_of_padEven hraised hpadded)

/-- What holds of the nodes at the bottom and of every node above two others holds of all that are joined. -/
theorem forall_joined {C : α → Prop} (hjoin : ∀ a b, C (join a b)) (hl : ∀ a ∈ l, C a)
    (hp : p ∈ joined join n l) : C p.1 ∧ C p.2 := by
  induction n generalizing l with
  | zero => exact absurd hp not_mem_nil
  | succ n ih =>
    rcases mem_append.mp hp with hp | hp
    · obtain ⟨h₁, h₂⟩ := mem_of_mem_pairs hp
      exact ⟨hl _ h₁, hl _ h₂⟩
    · refine ih (fun a ha => ?_) hp
      obtain ⟨q, -, rfl⟩ := mem_map.mp (mem_of_mem_padEven ha)
      exact hjoin _ _

theorem pairs_climb_subset (join : α → α → α) (hk : k < n) (l : List α) : pairs (climb join k l) ⊆ joined join n l := by
  induction n generalizing k l with
  | zero => exact absurd hk (Nat.not_lt_zero k)
  | succ n ih =>
    cases k with
    | zero => exact subset_append_left _ _
    | succ k => exact List.Subset.trans (ih (Nat.lt_of_succ_lt_succ hk) _) (subset_append_right _ _)

theorem joined_subset_succ (n : Nat) (l : List α) : joined join n l ⊆ joined join (n + 1) l := by
  induction n generalizing l with
  | zero => exact nil_subset _
  | succ n ih =>
    exact append_subset.mpr
      ⟨subset_append_left _ _, List.Subset.trans (ih _) (subset_append_right _ _)⟩

/-- The first node of a level above the leaves is joined from the first two below it. -/
theorem exists_join_of_climb (join : α → α → α) (hk : k < n) (htwo : 2 ≤ l.length) :
    ∃ a b, (climb join k l).head? = some a ∧ (a, b) ∈ joined join n l ∧
      (climb join (k + 1) l).head? = some (join a b) := by
  have hbelow := two_le_climb join htwo k
  have hsubset := pairs_climb_subset join hk l
  rw [climb_succ]
  match climb join k l, hbelow, hsubset with
  | a :: b :: rest, _, hsubset =>
    refine ⟨a, b, rfl, hsubset mem_cons_self, ?_⟩
    obtain ⟨t, ht⟩ := prefix_padEven (level join (a :: b :: rest))
    rw [← ht]
    rfl

/-! ### Trees -/

def leaves (leaf : δ → α) (data : List δ) : List α := (padEven data).map leaf

def rounds (data : List δ) : Nat := (padEven data).length / 2

def root (leaf : δ → α) (join : α → α → α) (data : List δ) : Option α :=
  (climb join (rounds data) (leaves leaf data)).head?

def joinedFor (leaf : δ → α) (join : α → α → α) (data : List δ) : List (α × α) :=
  joined join (rounds data) (leaves leaf data)

/-- No two different things that were hashed have the same hash. -/
structure Apart (leaf : δ → α) (join : α → α → α) (ds : List δ) (ps : List (α × α)) : Prop where
  below : ∀ d ∈ ds, ∀ d' ∈ ds, leaf d = leaf d' → d = d'
  above : Injective join ps
  mixed : ∀ d ∈ ds, ∀ p ∈ ps, leaf d ≠ join p.1 p.2

theorem two_le_leaves (leaf : δ → α) (h : data ≠ []) : 2 ≤ (leaves leaf data).length := by
  have hpos := length_pos_iff.mpr h
  rw [leaves, length_map, length_padEven]
  omega

theorem even_leaves (leaf : δ → α) (data : List δ) : (leaves leaf data).length % 2 = 0 := by
  rw [leaves, length_map, length_padEven]
  omega

theorem length_leaves (leaf : δ → α) (data : List δ) : (leaves leaf data).length = 2 * rounds data := by
  have heven := even_leaves leaf data
  unfold rounds
  rw [leaves, length_map] at *
  omega

theorem two_mul_le_two_pow (hn : 1 ≤ n) : 2 * n ≤ 2 ^ n := by
  obtain ⟨k, rfl⟩ : ∃ k, n = k + 1 := ⟨n - 1, by omega⟩
  rw [Nat.pow_succ']
  exact Nat.mul_le_mul_left 2 Nat.lt_two_pow_self

theorem head?_leaves_mem (h : (leaves leaf data).head? = some a) :
    ∃ d ∈ padEven data, leaf d = a := mem_map.mp (mem_of_head? h)

section

variable {ds : List δ} {ps : List (α × α)} {x y : List δ}

/-- Trees of different heights have different first nodes. -/
theorem head?_climb_ne (hapart : Apart leaf join ds ps) (hx : x ≠ []) (hy : y ≠ []) (hxs : padEven x ⊆ ds) {m : Nat}
    (hxp : joined join m (leaves leaf x) ⊆ ps) (hyp : joined join n (leaves leaf y) ⊆ ps) {k' : Nat} (hk : k ≤ m)
    (hk' : k' < n) (hlt : k ≤ k') :
    (climb join k (leaves leaf x)).head? ≠ (climb join (k' + 1) (leaves leaf y)).head? := by
  -- below two equal inner nodes there are equal nodes again, until a leaf is reached on one side only
  induction k generalizing k' with
  | zero =>
    intro h
    obtain ⟨a', b', -, hp', hjoin'⟩ := exists_join_of_climb join hk' (two_le_leaves leaf hy)
    obtain ⟨d, hd, hleaf⟩ := head?_leaves_mem (h.trans hjoin')
    exact hapart.mixed d (hxs hd) _ (hyp hp') hleaf
  | succ k ih =>
    intro h
    obtain ⟨a', b', ha', hp', hjoin'⟩ := exists_join_of_climb join hk' (two_le_leaves leaf hy)
    obtain ⟨a, b, ha, hp, hjoin⟩ := exists_join_of_climb join hk (two_le_leaves leaf hx)
    have hsame := Option.some.inj (hjoin.symm.trans (h.trans hjoin'))
    obtain ⟨rfl, rfl⟩ := Prod.mk.inj (hapart.above _ (hxp hp) _ (hyp hp') hsame)
    obtain ⟨j, rfl⟩ : ∃ j, k' = j + 1 := ⟨k' - 1, by omega⟩
    exact ih (by omega) (by omega) (by omega) (ha.trans ha'.symm)

/-- At equal heights the leaves can be read back from the root. -/
theorem leaves_eq_of_root (hinj : Injective join ps) (hx : x ≠ []) (hy : y ≠ []) (hrounds : rounds x = rounds y)
    (hxp : joinedFor leaf join x ⊆ ps) (hyp : joinedFor leaf join y ⊆ ps) (h : root leaf join x = root leaf join y) :
    leaves leaf x = leaves leaf y := by
  have hxtwo := two_le_leaves leaf hx
  have hytwo := two_le_leaves leaf hy
  have hxlength := length_leaves leaf x
  have hylength := length_leaves leaf y
  unfold root at h
  unfold joinedFor at hxp hyp
  rw [← hrounds] at h hyp hylength
  obtain ⟨n, hn⟩ : ∃ n, rounds x = n + 1 := ⟨rounds x - 1, by omega⟩
  rw [hn] at h hxp hyp hxlength hylength
  have henough : 2 * (n + 1) ≤ 2 ^ (n + 1) := two_mul_le_two_pow (Nat.succ_pos n)
  -- one round before the last, both levels have two nodes
  have hxlast := length_climb join (even_leaves leaf x) hxtwo (hxlength.trans_le henough)
  have hylast := length_climb join (even_leaves leaf y) hytwo (hylength.trans_le henough)
  have hlast : climb join n (leaves leaf x) = climb join n (leaves leaf y) := by
    have hxsub := pairs_climb_subset join (Nat.lt_succ_self n) (leaves leaf x)
    have hysub := pairs_climb_subset join (Nat.lt_succ_self n) (leaves leaf y)
    rw [climb_succ, climb_succ] at h
    match climb join n (leaves leaf x), climb join n (leaves leaf y), hxlast, hylast, hxsub, hysub, h with
    | [a, b], [a', b'], _, _, hxsub, hysub, h =>
      have hsame : join a b = join a' b' := Option.some.inj h
      obtain ⟨rfl, rfl⟩ := Prod.mk.inj
        (hinj _ (hxp (hxsub mem_cons_self)) _ (hyp (hysub mem_cons_self)) hsame)
      rfl
  refine eq_of_climb hinj (hxlength.trans hylength.symm) (even_leaves leaf x) ?_ ?_ hlast
  · exact List.Subset.trans (joined_subset_succ n _) hxp
  · exact List.Subset.trans (joined_subset_succ n _) hyp

/-- **Roots are equal exactly if the padded data is.** -/
theorem root_eq_iff (hapart : Apart leaf join (padEven x ++ padEven y) (joinedFor leaf join x ++ joinedFor leaf join y))
    (hx : x ≠ []) (hy : y ≠ []) : root leaf join x = root leaf join y ↔ padEven x = padEven y := by
  obtain ⟨hxs, hys⟩ := append_subset.mp (List.Subset.refl (padEven x ++ padEven y))
  obtain ⟨hxp, hyp⟩ := append_subset.mp (List.Subset.refl (joinedFor leaf join x ++ joinedFor leaf join y))
  have hpos : ∀ {z : List δ}, z ≠ [] → ∃ n, rounds z = n + 1 := fun {z} hz => by
    have htwo := two_le_leaves leaf hz
    rw [length_leaves] at htwo
    exact ⟨rounds z - 1, by omega⟩
  constructor
  · intro h
    have hrounds : rounds x = rounds y := by
      obtain ⟨m, hm⟩ := hpos hx
      obtain ⟨n, hn⟩ := hpos hy
      have hroots := h
      unfold root at hroots
      rcases Nat.lt_trichotomy (rounds x) (rounds y) with hlt | heq | hgt
      · rw [hn] at hroots hlt
        exact absurd hroots (head?_climb_ne hapart hx hy hxs hxp hyp le_rfl (by omega) (by omega))
      · exact heq
      · rw [hm] at hroots hgt
        exact absurd hroots.symm (head?_climb_ne hapart hy hx hys hyp hxp le_rfl (by omega) (by omega))
    exact map_eq_of_injective hapart.below hxs hys (leaves_eq_of_root hapart.above hx hy hrounds hxp hyp h)
  · intro h
    unfold root rounds leaves
    rw [h]

end

end Okchain.Lib.Merkle
