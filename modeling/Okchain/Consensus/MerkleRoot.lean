import Okchain.Consensus.Wire
import Okchain.Consensus.Role
import Okchain.Lib.Merkle

/-! The Merkle root of the transactions, after `crypto/merkel/merkel.go`.

The tree is built by a fixed number of rounds, half as many as there are leaves. No level is ever odd, so the nodes can
always be taken two by two. The leaves are hashes of 32 bytes and everything above them is hashed from 64.
-/
namespace Okchain.Consensus
open Lib Protos List
open Merkle (climb joinedFor leaves level pairs rounds)

variable (P : Platform)

/-! ### The tree with its indices -/

/-- `nodes[len(nodes)-1]` is appended to an odd list. -/
def extendOdd (l : List Bytes) : Except Err (List Bytes) :=
  if l.length % 2 = 0 then .ok l else do return l ++ [← index l (l.length - 1)]

/-- One round: `nodes[j]` and `nodes[j+1]` for every other `j`. -/
def joinLevel : List Bytes → Except Err (List Bytes)
  | [] => .ok []
  | [_] => .error (.panic .indexOutOfRange)
  | left :: right :: rest => do return (P.sha256 (left ++ right)).bytes :: (← joinLevel rest)

def joinLevels : Nat → List Bytes → Except Err (List Bytes)
  | 0, nodes => .ok nodes
  | n + 1, nodes => do joinLevels n (← extendOdd (← joinLevel P nodes))

/-- The root data of `NewMerkleTree`, with the indices it uses. -/
def buildTree (data : List Bytes) : Except Err Bytes :=
  if data = [] then .ok (List.replicate 32 48)
  else do
    let data ← extendOdd data
    let nodes ← joinLevels P (data.length / 2) (data.map fun d => (P.sha256 d).bytes)
    index nodes 0

/-! ### The tree as levels -/

def leafNode (d : Bytes) : Bytes := (P.sha256 d).bytes
def innerNode (left right : Bytes) : Bytes := (P.sha256 (left ++ right)).bytes

variable {P}

theorem merkelLevel_eq (nodes : List Bytes) : merkelLevel P nodes = level (innerNode P) nodes := by
  induction nodes using Merkle.pairs.induct with
  | case1 left right rest ih =>
    rw [merkelLevel, ih]
    rfl
  | case2 l h => rw [merkelLevel, level, pairs, map_nil] <;> exact h

theorem merkelLoop_eq (n : Nat) (nodes : List Bytes) : merkelLoop P n nodes = climb (innerNode P) n nodes := by
  induction n generalizing nodes with
  | zero => rfl
  | succ n ih => rw [merkelLoop, ih, merkelLevel_eq, climb]

/-! ### No index is out of range -/

theorem extendOdd_eq (l : List Bytes) : extendOdd l = .ok (Merkle.padEven l) := by
  unfold extendOdd Merkle.padEven
  cases h : l.getLast? with
  | none =>
    rw [getLast?_eq_none_iff.mp h]
    rfl
  | some last =>
    split
    · rfl
    · have hindex : index l (l.length - 1) = .ok last := by
        unfold index
        rw [← getLast?_eq_getElem?, h]
      rw [hindex]
      rfl

variable {nodes data : List Bytes}

/-- A level of even length is joined to its end. -/
theorem joinLevel_eq (heven : nodes.length % 2 = 0) : joinLevel P nodes = .ok (level (innerNode P) nodes) := by
  induction nodes using joinLevel.induct with
  | case1 => rfl
  | case2 => exact absurd heven (by simp)
  | case3 left right rest ih =>
    simp only [length_cons] at heven
    rw [joinLevel, ih (by omega)]
    rfl

theorem joinLevels_eq (n : Nat) (heven : nodes.length % 2 = 0) :
    joinLevels P n nodes = .ok (climb (innerNode P) n nodes) := by
  induction n generalizing nodes with
  | zero => rfl
  | succ n ih =>
    rw [joinLevels, joinLevel_eq heven]
    show (extendOdd _ >>= _) = _
    rw [extendOdd_eq]
    exact ih (Merkle.even_raised nodes)

theorem newMerkleTree_root (h : data ≠ []) :
    Merkle.root (leafNode P) (innerNode P) data = some (newMerkleTree P data) := by
  have htwo := Merkle.two_le_climb (innerNode P) (Merkle.two_le_leaves (leafNode P) h) (rounds data)
  have hloop : merkelLoop P ((Merkle.padEven data).length / 2) ((Merkle.padEven data).map fun d => (P.sha256 d).bytes) =
      climb (innerNode P) (rounds data) (leaves (leafNode P) data) := by
    rw [merkelLoop_eq]
    rfl
  rw [Merkle.root, newMerkleTree, hloop]
  cases hclimb : climb (innerNode P) (rounds data) (leaves (leafNode P) data) with
  | nil => simp [hclimb] at htwo
  | cons root rest => rfl

theorem buildTree_eq (data : List Bytes) : buildTree P data = .ok (newMerkleTree P data) := by
  unfold buildTree
  by_cases h : data = []
  · rw [h]
    rfl
  · have hroot := newMerkleTree_root (P := P) h
    rw [if_neg h, extendOdd_eq]
    show (joinLevels P (rounds data) (leaves (leafNode P) data) >>= _) = _
    rw [joinLevels_eq _ (Merkle.even_leaves _ data)]
    show index (climb (innerNode P) (rounds data) (leaves (leafNode P) data)) 0 = _
    unfold index
    rw [← head?_eq_getElem?]
    unfold Merkle.root at hroot
    rw [hroot]

/-! ### What is hashed -/

variable (P)

/-- Everything that is hashed for the tree: the data of the leaves, and two nodes at a time. -/
def hashedFor (data : List Bytes) : List Bytes :=
  Merkle.padEven data ++ (Merkle.joinedFor (leafNode P) (innerNode P) data).map fun p => p.1 ++ p.2

/-- No two different inputs of the list have the same SHA-256 value. -/
def Sha256Apart (inputs : List Bytes) : Prop := ∀ a ∈ inputs, ∀ b ∈ inputs, P.sha256 a = P.sha256 b → a = b

variable {P}

/-- The nodes that are joined are hashes. -/
theorem length_of_joined {p : Bytes × Bytes}
    (hp : p ∈ joinedFor (leafNode P) (innerNode P) data) : p.1.length = 32 ∧ p.2.length = 32 := by
  refine Merkle.forall_joined (C := fun a => a.length = 32) (fun a b => (P.sha256 (a ++ b)).size) (fun a ha => ?_) hp
  obtain ⟨d, -, rfl⟩ := mem_map.mp ha
  exact (P.sha256 d).size

/-- The inputs of leaves and of inner nodes differ in length. -/
theorem apart_of_sha256 {x y : List Bytes} (hx : ∀ d ∈ x, d.length = 32) (hy : ∀ d ∈ y, d.length = 32)
    (h : Sha256Apart P (hashedFor P x ++ hashedFor P y)) :
    Merkle.Apart (leafNode P) (innerNode P) (Merkle.padEven x ++ Merkle.padEven y)
      (joinedFor (leafNode P) (innerNode P) x ++ joinedFor (leafNode P) (innerNode P) y) := by
  have hdata : ∀ {d}, d ∈ Merkle.padEven x ++ Merkle.padEven y → d.length = 32 ∧ d ∈ hashedFor P x ++ hashedFor P y := by
    intro d hd
    rcases mem_append.mp hd with hd | hd
    · exact ⟨hx d (Merkle.mem_of_mem_padEven hd), mem_append_left _ (mem_append_left _ hd)⟩
    · exact ⟨hy d (Merkle.mem_of_mem_padEven hd), mem_append_right _ (mem_append_left _ hd)⟩
  have hpairs : ∀ {p}, p ∈ joinedFor (leafNode P) (innerNode P) x ++ joinedFor (leafNode P) (innerNode P) y →
      (p.1.length = 32 ∧ p.2.length = 32) ∧ p.1 ++ p.2 ∈ hashedFor P x ++ hashedFor P y := by
    intro p hp
    rcases mem_append.mp hp with hp | hp
    · exact ⟨length_of_joined hp, mem_append_left _ (mem_append_right _ (mem_map.mpr ⟨p, hp, rfl⟩))⟩
    · exact ⟨length_of_joined hp, mem_append_right _ (mem_append_right _ (mem_map.mpr ⟨p, hp, rfl⟩))⟩
  constructor
  · intro d hd d' hd' hsame
    exact h d (hdata hd).2 d' (hdata hd').2 (FixedBytes.ext_bytes hsame)
  · intro p hp p' hp' hsame
    obtain ⟨⟨hleft, -⟩, hmem⟩ := hpairs hp
    obtain ⟨⟨hleft', -⟩, hmem'⟩ := hpairs hp'
    have hinput := h _ hmem _ hmem' (FixedBytes.ext_bytes hsame)
    obtain ⟨h₁, h₂⟩ := append_inj hinput (hleft.trans hleft'.symm)
    exact Prod.ext h₁ h₂
  · intro d hd p hp hsame
    obtain ⟨hd32, hmem⟩ := hdata hd
    obtain ⟨⟨hleft, hright⟩, hmem'⟩ := hpairs hp
    have hinput := congrArg length (h _ hmem _ hmem' (FixedBytes.ext_bytes hsame))
    rw [length_append, hd32, hleft, hright] at hinput
    exact absurd hinput (by decide)

/-- **The Merkle root of transaction hashes.** A tree is built without an index out of range. For lists of
32-byte hashes whose trees do not hash two different inputs to one value, the roots are equal exactly if the
lists are, after an odd one is extended by a copy of its last element. -/
theorem merkleRoot_iff (x y : List Bytes) (hx : x ≠ []) (hy : y ≠ []) (hxsize : ∀ d ∈ x, d.length = 32)
    (hysize : ∀ d ∈ y, d.length = 32) (hapart : Sha256Apart P (hashedFor P x ++ hashedFor P y)) :
    (∀ data, buildTree P data = .ok (newMerkleTree P data)) ∧
      (newMerkleTree P x = newMerkleTree P y ↔ Merkle.padEven x = Merkle.padEven y) := by
  refine ⟨buildTree_eq, ?_⟩
  have hroots := Merkle.root_eq_iff (apart_of_sha256 hxsize hysize hapart) hx hy
  rw [newMerkleTree_root hx, newMerkleTree_root hy, Option.some.injEq] at hroots
  rw [hroots]

def uniform (b : UInt8) : Bytes := List.replicate 32 b

/-- A list of three hashes: another last one changes the root, and repeating the last one does not. -/
theorem merkleRoot_iff_three :
    newMerkleTree Platform.sample ([1, 2, 3].map uniform) ≠ newMerkleTree Platform.sample ([1, 2, 4].map uniform) ∧
    newMerkleTree Platform.sample ([1, 2, 3].map uniform) = newMerkleTree Platform.sample ([1, 2, 3, 3].map uniform) := by
  have hsize : ∀ l : List UInt8, ∀ d ∈ l.map uniform, d.length = 32 := by
    intro l d hd
    obtain ⟨b, -, rfl⟩ := List.mem_map.mp hd
    exact List.length_replicate
  constructor
  · intro h
    have hpadded := (merkleRoot_iff _ _ (by decide) (by decide) (hsize _) (hsize _)
      (by unfold Sha256Apart; decide +kernel)).2.mp h
    exact absurd hpadded (by decide)
  · exact (merkleRoot_iff _ _ (by decide) (by decide) (hsize _) (hsize _)
      (by unfold Sha256Apart; decide +kernel)).2.mpr rfl

end Okchain.Consensus
