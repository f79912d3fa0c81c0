import Okchain.Lib.Rlp
import Mathlib.Logic.Function.Basic
import Mathlib.Data.Fintype.Basic

/-! The Merkle Patricia trie, after `core/trie/trie.go` and `core/trie/encoding.go`.

The digits of a key are its nibbles and a terminator. Updates keep the trie in minimal form, so that it depends on what is
stored and not on how it came there: the root of a state is a function of its accounts. A hash node stands for the node
that the database has under it.
-/
namespace Okchain.Trie
open Lib Function List

/-- A nibble, or the terminator. -/
abbrev Digit := Fin 17

inductive Node
  | nil
  | value (v : Bytes)
  | short (key : List Digit) (val : Node)
  | full (children : Digit → Node)

/-- The panics of the package. -/
inductive Fault
  | indexOutOfRange
  | invalidNode

theorem high_lt (b : UInt8) : b.toNat / 16 < 17 := by
  have := b.toNat_lt
  omega

theorem low_lt (b : UInt8) : b.toNat % 16 < 17 := by
  omega

def keybytesToHex : Bytes → List Digit
  | [] => [16]
  | b :: str => ⟨b.toNat / 16, high_lt b⟩ :: ⟨b.toNat % 16, low_lt b⟩ :: keybytesToHex str

def prefixLen : List Digit → List Digit → Nat
  | a :: as, b :: bs => if a = b then prefixLen as bs + 1 else 0
  | _, _ => 0

def tryGet : Node → List Digit → Except Fault (Option Bytes)
  | .nil, _ => .ok none
  | .value v, _ => .ok (some v)
  | .short k n, key => if k <+: key then tryGet n (key.drop k.length) else .ok none
  | .full _, [] => .error .indexOutOfRange
  | .full cs, d :: key => tryGet (cs d) key

/-- `insert` into no node. -/
def insertNil (key : List Digit) (value : Node) : Node := if key = [] then value else .short key value

/-- The new node, or nothing if it is not dirty. -/
def insert : Node → List Digit → Bytes → Except Fault (Option Node)
  | .value v, [], value => .ok (if v = value then none else some (.value value))
  | _, [], value => .ok (some (.value value))
  | .short k n, key@(_ :: _), value =>
    if prefixLen key k = k.length then (insert n (key.drop k.length) value).map (Option.map (.short k))
    else
      match key.drop (prefixLen key k), k.drop (prefixLen key k) with
      | d :: key', e :: k' =>
        let branch := update (update (fun _ => .nil) e (insertNil k' n)) d (insertNil key' (.value value))
        .ok (some (insertNil (key.take (prefixLen key k)) (.full branch)))
      | _, _ => .error .indexOutOfRange
  | .full cs, d :: key, value => (insert (cs d) key value).map (Option.map fun nn => .full (update cs d nn))
  | .nil, key@(_ :: _), value => .ok (some (.short key (.value value)))
  | .value _, _ :: _, _ => .error .invalidNode

def Node.isNil : Node → Bool
  | .nil => true
  | _ => false

/-- The short node with this child, which is merged if it is short itself. -/
def merge (key : List Digit) : Node → Node
  | .short k n => .short (key ++ k) n
  | n => .short key n

/-- A full node with one child is replaced by a short one. -/
def reduce (cs : Digit → Node) : Node :=
  match (finRange 17).filter fun i => !(cs i).isNil with
  | [pos] => if pos = 16 then .short [pos] (cs pos) else merge [pos] (cs pos)
  | _ => .full cs

def delete : Node → List Digit → Except Fault (Option Node)
  | .short k n, key =>
    if prefixLen key k < k.length then .ok none
    else if prefixLen key k = key.length then .ok (some .nil)
    else (delete n (key.drop k.length)).map (Option.map (merge k))
  | .full _, [] => .error .indexOutOfRange
  | .full cs, d :: key => (delete (cs d) key).map (Option.map fun nn => reduce (update cs d nn))
  | .value _, _ => .ok (some .nil)
  | .nil, _ => .ok none

/-- `TryUpdate`: an empty value is deleted. -/
def tryUpdate (root : Node) (key value : Bytes) : Except Fault Node :=
  let k := keybytesToHex key
  (if value ≠ [] then insert root k value else delete root k).map (·.getD root)

def tryUpdates (root : Node) : List (Bytes × Bytes) → Except Fault Node
  | [] => .ok root
  | (key, value) :: ops => do tryUpdates (← tryUpdate root key value) ops

/-- What the updates leave behind. -/
def written (m : Bytes → Option Bytes) : List (Bytes × Bytes) → Bytes → Option Bytes
  | [] => m
  | (key, value) :: ops => written (update m key (if value = [] then none else some value)) ops

/-! ### The minimal form -/

/-- The children of a full node with one child. -/
def only (d : Digit) (n : Node) : Digit → Node := update (fun _ => .nil) d n

/-- The node with these children. -/
def join (cs : Digit → Node) : Node := if ∀ d, (cs d).isNil then .nil else reduce cs

/-- The digits are the rest of a key, of which the terminator has been read or not. -/
def Ends : Bool → List Digit → Prop
  | e, [] => e = true
  | true, _ :: _ => False
  | false, d :: key => Ends (d == 16) key

/-- The minimal form of a node that is reached with the terminator read, or not. -/
inductive Reduced : Bool → Node → Prop
  | nil {e : Bool} : Reduced e .nil
  | value {v : Bytes} (hv : v ≠ []) : Reduced true (.value v)
  | join {cs : Digit → Node} (hcs : ∀ d, Reduced (d == 16) (cs d)) : Reduced false (join cs)

variable {e : Bool} {a d d' : Digit} {k key : List Digit} {m n n' : Node} {cs : Digit → Node} {v : Bytes}

theorem isNil_iff : n.isNil = true ↔ n = .nil := by
  cases n <;> simp [Node.isNil]

theorem only_self : only d n d = n := update_self ..

theorem only_of_ne (h : d' ≠ d) : only d n d' = .nil := update_of_ne h ..

theorem mem_children : d ∈ (finRange 17).filter (fun i => !(cs i).isNil) ↔ cs d ≠ .nil := by
  simp [← isNil_iff]

theorem join_none : join (fun _ => .nil) = .nil := if_pos fun _ => rfl

theorem join_some (hd : cs d ≠ .nil) : join cs = reduce cs := if_neg fun h => hd (isNil_iff.1 (h d))

theorem join_only (hn : n ≠ .nil) (h : Reduced (d == 16) n) : join (only d n) = merge [d] n := by
  have hone : (finRange 17).filter (fun i => !(only d n i).isNil) = [d] := by
    refine perm_singleton.1 ((perm_ext_iff_of_nodup ((nodup_finRange 17).filter _) (nodup_singleton d)).2 fun d' => ?_)
    rw [mem_children, mem_singleton]
    by_cases hd : d' = d
    · simp [hd, only_self, hn]
    · simp [hd, only_of_ne hd]
  rw [join_some (only_self.trans_ne hn), reduce, hone]
  dsimp only
  rw [only_self]
  split
  next hd =>
    subst hd
    cases h <;> rfl
  next => rfl

theorem join_full (hne : d ≠ d') (hd : cs d ≠ .nil) (hd' : cs d' ≠ .nil) : join cs = .full cs := by
  rw [join_some hd, reduce]
  split
  next pos hpos =>
    rw [← mem_children, hpos, mem_singleton] at hd hd'
    exact absurd (hd.trans hd'.symm) hne
  next => rfl

section
variable (hcs : ∀ d, Reduced (d == 16) (cs d))
include hcs

/-- A node in minimal form has no child, one, or more. -/
theorem children_cases : (cs = fun _ => .nil) ∨
    (∃ d n, n ≠ .nil ∧ Reduced (d == 16) n ∧ cs = only d n ∧ join cs = merge [d] n) ∨
    ∃ d d', d ≠ d' ∧ cs d ≠ .nil ∧ cs d' ≠ .nil ∧ join cs = .full cs := by
  by_cases hnone : ∀ d, cs d = .nil
  · exact .inl (funext hnone)
  · obtain ⟨d, hd⟩ := not_forall.1 hnone
    by_cases hone : ∀ d', d' ≠ d → cs d' = .nil
    · have honly : cs = only d (cs d) := eq_update_iff.2 ⟨rfl, hone⟩
      exact .inr (.inl ⟨d, cs d, hd, hcs d, honly, (congrArg join honly).trans (join_only hd (hcs d))⟩)
    · simp only [not_forall] at hone
      obtain ⟨d', hne, hd'⟩ := hone
      exact .inr (.inr ⟨d', d, hne, hd', hd, join_full hne hd' hd⟩)

theorem tryGet_join : tryGet (join cs) (d :: key) = tryGet (cs d) key := by
  rcases children_cases hcs with rfl | ⟨pos, m, -, -, rfl, heq⟩ | ⟨-, -, -, -, -, heq⟩
  · rw [join_none]
    rfl
  · rw [heq]
    by_cases hd : d = pos
    · subst hd
      cases m <;> simp [merge, only, tryGet]
    · cases m <;> simp [merge, only, tryGet, hd, Ne.symm hd]
  · rw [heq]
    rfl

end

namespace Reduced

theorem exists_join (h : Reduced false n) : ∃ cs, (∀ d, Reduced (d == 16) (cs d)) ∧ n = Trie.join cs := by
  cases h with
  | nil => exact ⟨fun _ => .nil, fun _ => .nil, join_none.symm⟩
  | join hcs => exact ⟨_, hcs, rfl⟩

theorem shape (h : Reduced false n) : n = .nil ∨ (∃ a k b, n = .short (a :: k) b) ∨ ∃ cs, n = .full cs := by
  obtain ⟨cs, hcs, rfl⟩ := h.exists_join
  rcases children_cases hcs with rfl | ⟨pos, m, -, -, -, heq⟩ | ⟨-, -, -, -, -, heq⟩
  · exact .inl join_none
  · rw [heq]
    cases m <;> exact .inr (.inl ⟨pos, _, _, rfl⟩)
  · exact .inr (.inr ⟨cs, heq⟩)

theorem of_short (h : Reduced e (.short k n)) : e = false ∧ k ≠ [] := by
  cases e with
  | true => cases h
  | false =>
    rcases h.shape with h | ⟨a, k, b, h⟩ | ⟨cs, h⟩ <;> cases h
    exact ⟨rfl, nofun⟩

theorem eq_nil (h : Reduced e n) (hnone : ∀ k, Ends e k → tryGet n k = .ok none) : n = .nil := by
  induction h with
  | nil => rfl
  | value => exact nomatch hnone [] rfl
  | @join cs hcs ih =>
    have hall : cs = fun _ => .nil := funext fun d => ih d fun k hk => (tryGet_join hcs).symm.trans (hnone (d :: k) hk)
    rw [hall, join_none]

/-- Nodes in minimal form that hold the same are the same. -/
theorem eq_of_same (h : Reduced e n) (h' : Reduced e n') (hsame : ∀ k, Ends e k → tryGet n k = tryGet n' k) : n = n' := by
  induction h generalizing n' with
  | nil => exact (h'.eq_nil fun k hk => (hsame k hk).symm).symm
  | value =>
    cases h' with
    | nil => exact nomatch hsame [] rfl
    | value => simpa [tryGet] using hsame [] rfl
  | @join cs hcs ih =>
    obtain ⟨cs', hcs', rfl⟩ := h'.exists_join
    refine congrArg Trie.join (funext fun d => ih d (hcs' d) fun k hk => ?_)
    rw [← tryGet_join hcs, ← tryGet_join hcs']
    exact hsame (d :: k) hk

end Reduced

/-! ### Writing -/

theorem insert_nil : insert .nil key v = .ok (some (insertNil key (.value v))) := by
  cases key <;> rfl

theorem insertNil_cons : insertNil (a :: key) (.full cs) = merge [a] (insertNil key (.full cs)) := by
  cases key <;> rfl

theorem reduce_isNil : (reduce cs).isNil = false := by
  unfold reduce
  split
  next pos _ =>
    split
    next => rfl
    next => cases cs pos <;> rfl
  next => rfl

section
variable (hm : Reduced e m) (hnil : m ≠ .nil) (hkey : Ends e key)
include hm hnil hkey

/-- Below its first digit a short node behaves like a full one. -/
theorem insert_merge : insert (merge [a] m) (a :: key) v = (insert m key v).map (Option.map (merge [a])) := by
  have hbare : ∀ m, insert (.short [a] m) (a :: key) v = (insert m key v).map (Option.map (.short [a])) := by
    intro m
    cases key <;> simp [insert, prefixLen]
  cases m with
  | nil => exact absurd rfl hnil
  | value w =>
    refine (hbare _).trans ?_
    cases key with
    | nil =>
      simp only [insert]
      split <;> rfl
    | cons => rfl
  | full cs =>
    refine (hbare _).trans ?_
    cases key with
    | nil => rfl
    | cons c key =>
      rw [insert]
      rcases insert (cs c) key v with _ | _ | n <;> rfl
  | short k b =>
    cases key with
    | nil => exact nomatch hm.of_short.1.symm.trans hkey
    | cons c key =>
      simp only [merge, singleton_append, insert, prefixLen, if_pos, length_cons, Nat.add_right_cancel_iff,
        drop_succ_cons, take_succ_cons, insertNil_cons]
      split
      next => rcases insert b (drop k.length (c :: key)) v with _ | _ | n <;> rfl
      next => split <;> rfl

theorem delete_merge : delete (merge [a] m) (a :: key) =
    (delete m key).map (Option.map fun n => if n.isNil then .nil else merge [a] n) := by
  cases m with
  | nil => exact absurd rfl hnil
  | value w =>
    cases key with
    | nil => simp [merge, delete, prefixLen, Except.map, Node.isNil]
    | cons =>
      cases e with
      | true => exact hkey.elim
      | false => rcases hm.shape with h | ⟨a, k, b, h⟩ | ⟨cs, h⟩ <;> cases h
  | full cs =>
    cases key with
    | nil =>
      cases hkey
      cases hm
    | cons c key =>
      have hbare : merge [a] (.full cs) = .short [a] (.full cs) := rfl
      simp only [hbare, delete, prefixLen, if_pos, length_cons, length_nil, drop_succ_cons, drop_zero]
      rcases delete (cs c) key with _ | _ | n <;> simp [Except.map, reduce_isNil]
  | short k b =>
    simp only [merge, singleton_append, delete, prefixLen, if_pos, length_cons, Nat.add_right_cancel_iff,
      Nat.add_lt_add_iff_right, drop_succ_cons]
    split
    next => rfl
    next =>
      split
      next => rfl
      next => rcases delete b (drop k.length key) with _ | _ | _ | _ | _ | _ <;> rfl

end

section
variable {r : Option Node} (hcs : ∀ d, Reduced (d == 16) (cs d)) (hkey : Ends (d == 16) key)
include hcs hkey

theorem insert_join (hrun : insert (cs d) key v = .ok r) (hr : ∀ n ∈ r, Reduced (d == 16) n ∧ tryGet n key = .ok (some v)) :
    insert (join cs) (d :: key) v = .ok (r.map fun n => join (update cs d n)) := by
  have hnil : ∀ n ∈ r, n ≠ .nil := by
    rintro n hn rfl
    exact nomatch (hr _ hn).2
  rcases children_cases hcs with rfl | ⟨pos, m, hm, hpos, rfl, heq⟩ | ⟨x, y, hne, hx, hy, heq⟩
  · cases insert_nil.symm.trans hrun
    rw [join_none, insert_nil, Option.map_some, ← only, join_only (hnil _ rfl) (hr _ rfl).1]
    cases key <;> rfl
  · rw [heq]
    by_cases hd : d = pos
    · subst hd
      rw [only_self] at hrun
      rw [insert_merge hpos hm hkey, hrun]
      refine congrArg Except.ok (Option.map_congr fun n hn => ?_)
      rw [only, update_idem, ← only, join_only (hnil n hn) (hr n hn).1]
    · rw [only_of_ne hd] at hrun
      cases insert_nil.symm.trans hrun
      have hjoin : join (update (only pos m) d (insertNil key (.value v))) = .full _ :=
        join_full hd (by simpa using hnil _ rfl) (by simpa [Ne.symm hd, only_self] using hm)
      rw [Option.map_some, hjoin]
      cases m with
      | nil => exact absurd rfl hm
      | short k b => simp [merge, insert, prefixLen, hd, insertNil, only, hpos.of_short.2]
      | _ => simp [merge, insert, prefixLen, hd, insertNil, only]
  · rw [heq, insert, hrun]
    refine congrArg Except.ok (Option.map_congr fun n hn => ?_)
    have hkept : ∀ d', cs d' ≠ .nil → update cs d n d' ≠ .nil := by
      intro d' hd'
      rw [update_apply]
      split
      next => exact hnil n hn
      next => exact hd'
    rw [join_full hne (hkept x hx) (hkept y hy)]

theorem delete_join (hrun : delete (cs d) key = .ok r) (hr : ∀ n ∈ r, Reduced (d == 16) n ∧ tryGet n key = .ok none) :
    delete (join cs) (d :: key) = .ok (r.map fun n => join (update cs d n)) := by
  rcases children_cases hcs with rfl | ⟨pos, m, hm, hpos, rfl, heq⟩ | ⟨x, y, hne, hx, hy, heq⟩
  · cases hrun
    rw [join_none]
    rfl
  · rw [heq]
    by_cases hd : d = pos
    · subst hd
      rw [only_self] at hrun
      rw [delete_merge hpos hm hkey, hrun]
      refine congrArg Except.ok (Option.map_congr fun n hn => ?_)
      rw [only, update_idem, ← only]
      split
      next hnil =>
        rw [isNil_iff.1 hnil, only, update_eq_self]
        exact join_none.symm
      next hnil => exact (join_only (fun h => hnil (isNil_iff.2 h)) (hr n hn).1).symm
    · rw [only_of_ne hd] at hrun
      cases hrun
      cases m <;> simp [merge, delete, prefixLen, hd]
  · rw [heq, delete, hrun]
    refine congrArg Except.ok (Option.map_congr fun n hn => ?_)
    by_cases hd : x = d
    · have hkept : update cs d n y ≠ .nil := by simpa [← hd, hne.symm] using hy
      exact (join_some hkept).symm
    · have hkept : update cs d n x ≠ .nil := by simpa [hd] using hx
      exact (join_some hkept).symm

end

/-- The operation succeeds and replaces the value under one key. -/
def Writes (o : Option Bytes) (e : Bool) (n : Node) (key : List Digit) (run : Except Fault (Option Node)) : Prop :=
  ∃ r, run = .ok r ∧ Reduced e (r.getD n) ∧
    ∀ k, Ends e k → tryGet (r.getD n) k = if k = key then .ok o else tryGet n k

/-- An operation that works digit by digit writes what it writes at the end of the key. -/
theorem writes {o : Option Bytes} {f : Node → List Digit → Except Fault (Option Node)}
    (hend : ∀ {n}, Reduced true n → ∃ r, f n [] = .ok r ∧ Reduced true (r.getD n) ∧ tryGet (r.getD n) [] = .ok o)
    (hstep : ∀ {cs d key r}, (∀ d, Reduced (d == 16) (cs d)) → Ends (d == 16) key → f (cs d) key = .ok r →
      (∀ n ∈ r, Reduced (d == 16) n ∧ tryGet n key = .ok o) →
      f (join cs) (d :: key) = .ok (r.map fun n => join (update cs d n)))
    (h : Reduced e n) (hkey : Ends e key) : Writes o e n key (f n key) := by
  induction key generalizing e n with
  | nil =>
    cases hkey
    obtain ⟨r, hrun, hn, hget⟩ := hend h
    refine ⟨r, hrun, hn, fun k hk => ?_⟩
    cases k with
    | nil => exact hget
    | cons => exact hk.elim
  | cons d key ih =>
    cases e with
    | true => exact hkey.elim
    | false =>
      obtain ⟨cs, hcs, rfl⟩ := h.exists_join
      obtain ⟨r, hrun, hn, hget⟩ := ih (hcs d) hkey
      have hcs' : ∀ d', Reduced (d' == 16) (update cs d (r.getD (cs d)) d') := by
        intro d'
        rw [update_apply]
        split
        next hd => exact hd ▸ hn
        next => exact hcs d'
      have hresult : (r.map fun n => join (update cs d n)).getD (join cs) = join (update cs d (r.getD (cs d))) := by
        cases r with
        | none => rw [Option.getD_none, update_eq_self]; rfl
        | some => rfl
      refine ⟨_, hstep hcs hkey hrun fun n hr => ?_, hresult ▸ .join hcs', fun k hk => ?_⟩
      · cases hr
        exact ⟨hn, by simpa using hget key hkey⟩
      · cases k with
        | nil => exact nomatch hk
        | cons d' k =>
          rw [hresult, tryGet_join hcs, tryGet_join hcs']
          by_cases hd : d' = d
          · subst hd
            simp [hget k hk]
          · simp [hd]

theorem insert_writes (h : Reduced e n) (hkey : Ends e key) (hv : v ≠ []) : Writes (some v) e n key (insert n key v) := by
  refine writes (f := fun n key => insert n key v) (fun h => ?_) insert_join h hkey
  cases h with
  | nil => exact ⟨_, rfl, .value hv, rfl⟩
  | @value w hw =>
    by_cases hwv : w = v
    · exact ⟨none, by rw [insert, if_pos hwv], .value hw, by rw [← hwv]; rfl⟩
    · exact ⟨some _, by rw [insert, if_neg hwv], .value hv, rfl⟩

theorem delete_writes (h : Reduced e n) (hkey : Ends e key) : Writes none e n key (delete n key) := by
  refine writes (fun h => ?_) delete_join h hkey
  cases h <;> exact ⟨_, rfl, .nil, rfl⟩

/-! ### Runs -/

theorem ends_keybytesToHex (key : Bytes) : Ends false (keybytesToHex key) := by
  have hnibble : ∀ x (h : x < 16), ((⟨x, by omega⟩ : Digit) == 16) = false := fun x h =>
    beq_eq_false_iff_ne.2 fun heq => Nat.ne_of_lt h (congrArg Fin.val heq)
  induction key with
  | nil => rfl
  | cons b key ih =>
    have hb := b.toNat_lt
    rw [keybytesToHex, Ends, hnibble _ (by omega), Ends, hnibble _ (by omega)]
    exact ih

theorem keybytesToHex_injective : Injective keybytesToHex := by
  intro x y h
  induction x generalizing y with
  | nil =>
    cases y with
    | nil => rfl
    | cons b y => cases y <;> simp [keybytesToHex] at h
  | cons a x ih =>
    cases y with
    | nil => cases x <;> simp [keybytesToHex] at h
    | cons b y =>
      obtain ⟨hhigh, hlow, hrest⟩ : _ ∧ _ ∧ _ := by simpa [keybytesToHex] using h
      rw [UInt8.toNat_inj.1 (show a.toNat = b.toNat by omega), ih hrest]

/-- The trie is in minimal form and holds just this. -/
structure Holds (root : Node) (mp : Bytes → Option Bytes) : Prop where
  reduced : Reduced false root
  get : ∀ key, tryGet root (keybytesToHex key) = .ok (mp key)
  other : ∀ k, Ends false k → (∀ key, k ≠ keybytesToHex key) → tryGet root k = .ok none

variable {root : Node} {mp : Bytes → Option Bytes}

theorem Holds.tryUpdate (h : Holds root mp) (key value : Bytes) : ∃ root', tryUpdate root key value = .ok root' ∧
    Holds root' (update mp key (if value = [] then none else some value)) := by
  have hends := ends_keybytesToHex
  obtain ⟨r, hrun, hreduced, hget⟩ : Writes (if value = [] then none else some value) false root (keybytesToHex key)
      (if value ≠ [] then insert root (keybytesToHex key) value else delete root (keybytesToHex key)) := by
    by_cases hv : value = []
    · simpa [hv] using delete_writes h.reduced (hends key)
    · simpa [hv] using insert_writes h.reduced (hends key) hv
  refine ⟨r.getD root, ?_, hreduced, fun key' => ?_, fun k hk hother => ?_⟩
  · rw [Trie.tryUpdate, hrun]
    rfl
  · simp only [hget _ (hends key'), keybytesToHex_injective.eq_iff, h.get, update_apply]
    split <;> rfl
  · rw [hget k hk, if_neg (hother key), h.other k hk hother]

theorem Holds.tryUpdates (h : Holds root mp) (ops : List (Bytes × Bytes)) :
    ∃ root', tryUpdates root ops = .ok root' ∧ Holds root' (written mp ops) := by
  induction ops generalizing root mp with
  | nil => exact ⟨root, rfl, h⟩
  | cons op ops ih =>
    obtain ⟨root₁, hrun, h₁⟩ := h.tryUpdate op.1 op.2
    obtain ⟨root', hruns, h'⟩ := ih h₁
    refine ⟨root', ?_, h'⟩
    rw [Trie.tryUpdates, hrun]
    exact hruns

theorem holds_nil : Holds .nil fun _ => none := ⟨.nil, fun _ => rfl, fun _ _ _ => rfl⟩

/-- **Reading after writing.** No sequence of updates panics, and each key reads as it was written last. -/
theorem reads_last_written (ops : List (Bytes × Bytes)) : ∃ root, tryUpdates .nil ops = .ok root ∧
    ∀ key, tryGet root (keybytesToHex key) = .ok (written (fun _ => none) ops key) := by
  obtain ⟨root, hrun, h⟩ := holds_nil.tryUpdates ops
  exact ⟨root, hrun, h.get⟩

/-- **The trie is its contents.** Two sequences of updates build the same trie exactly if they leave the same behind. -/
theorem same_trie_iff (ops ops' : List (Bytes × Bytes)) :
    tryUpdates .nil ops = tryUpdates .nil ops' ↔ written (fun _ => none) ops = written (fun _ => none) ops' := by
  obtain ⟨root, hrun, h⟩ := holds_nil.tryUpdates ops
  obtain ⟨root', hrun', h'⟩ := holds_nil.tryUpdates ops'
  rw [hrun, hrun', Except.ok.injEq]
  constructor
  · rintro rfl
    exact funext fun key => Except.ok.inj ((h.get key).symm.trans (h'.get key))
  · intro hsame
    refine h.reduced.eq_of_same h'.reduced fun k hk => ?_
    by_cases hkey : ∃ key, k = keybytesToHex key
    · obtain ⟨key, rfl⟩ := hkey
      rw [h.get, h'.get, hsame]
    · rw [h.other k hk (not_exists.1 hkey), h'.other k hk (not_exists.1 hkey)]

end Okchain.Trie
