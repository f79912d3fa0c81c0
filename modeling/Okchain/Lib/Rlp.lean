import Mathlib.Data.UInt
import Mathlib.Tactic.Ring

/-! The recursive length prefix encoding.

An `Item` is what RLP can express: a byte string or a list of items. Integers are byte strings in
big-endian order with no leading zero, so zero is the empty string. Everything that is hashed or
stored is first turned into an `Item`; two values with the same item are the same to every reader of
the bytes.
-/
namespace Okchain.Lib
open List

abbrev Bytes := List UInt8

namespace Rlp

inductive Item
  | str (b : Bytes)
  | list (l : List Item)
  deriving Repr

/-- The last `fuel` base-256 digits of `n`, most significant first, without leading zeros. -/
def beDigits : Nat → Nat → Bytes
  | 0, _ => []
  | fuel + 1, n => if n = 0 then [] else beDigits fuel (n / 256) ++ [UInt8.ofNat (n % 256)]

/-- The shortest big-endian representation of `n`. -/
def beBytes (n : Nat) : Bytes := beDigits n n

/-- The number a big-endian byte string stands for. -/
def ofBeBytes (b : Bytes) : Nat := b.foldl (fun acc d => acc * 256 + d.toNat) 0

theorem ofBeBytes_append (b : Bytes) (d : UInt8) : ofBeBytes (b ++ [d]) = ofBeBytes b * 256 + d.toNat := by
  simp [ofBeBytes]

theorem ofBeBytes_inj {a b : Bytes} (hlen : a.length = b.length) (h : ofBeBytes a = ofBeBytes b) : a = b := by
  induction a using reverseRecOn generalizing b with
  | nil => exact (length_eq_zero_iff.mp hlen.symm).symm
  | append_singleton a d ih =>
    induction b using reverseRecOn with
    | nil => simp at hlen
    | append_singleton b e _ =>
      rw [ofBeBytes_append, ofBeBytes_append] at h
      have hd := d.toNat_lt
      have he := e.toNat_lt
      have hlast : d = e := UInt8.toNat_inj.mp (by omega)
      rw [hlast, ih (by simpa using hlen) (by omega)]

theorem ofBeBytes_beDigits (fuel n : Nat) (h : n ≤ fuel) : ofBeBytes (beDigits fuel n) = n := by
  induction fuel generalizing n with
  | zero =>
    have hn : n = 0 := by omega
    subst hn
    rfl
  | succ fuel ih =>
    by_cases hn : n = 0
    · subst hn
      simp [beDigits, ofBeBytes]
    · have hdiv : n / 256 ≤ fuel := by omega
      simp only [beDigits, if_neg hn]
      rw [ofBeBytes_append, ih _ hdiv]
      have hmod : (UInt8.ofNat (n % 256)).toNat = n % 256 := by
        rw [UInt8.toNat_ofNat']
        omega
      omega

theorem beBytes_injective {m n : Nat} (h : beBytes m = beBytes n) : m = n := by
  have hm := ofBeBytes_beDigits m m le_rfl
  have hn := ofBeBytes_beDigits n n le_rfl
  rw [← hm, ← hn]
  exact congrArg ofBeBytes h

theorem ofBeBytes_beBytes (n : Nat) : ofBeBytes (beBytes n) = n := ofBeBytes_beDigits n n le_rfl

theorem ofBeBytes_zeros (k : Nat) (b : Bytes) : ofBeBytes (replicate k 0 ++ b) = ofBeBytes b := by
  induction k with
  | zero => rfl
  | succ k ih => exact ih

theorem length_beDigits_le {k : Nat} (fuel n : Nat) (h : n < 256 ^ k) : (beDigits fuel n).length ≤ k := by
  induction fuel generalizing n k with
  | zero => exact Nat.zero_le k
  | succ fuel ih =>
    by_cases hn : n = 0
    · simp [beDigits, hn]
    · rw [beDigits, if_neg hn, length_append, length_singleton]
      obtain ⟨j, rfl⟩ : ∃ j, k = j + 1 := by
        refine Nat.exists_eq_succ_of_ne_zero fun hk => ?_
        rw [hk] at h
        omega
      have hdiv : n / 256 < 256 ^ j := Nat.div_lt_of_lt_mul (by rwa [← Nat.pow_succ'])
      have := ih (n / 256) hdiv
      omega

theorem length_beBytes_le {n k : Nat} (h : n < 256 ^ k) : (beBytes n).length ≤ k := length_beDigits_le n n h

theorem beDigits_head?_ne (fuel n : Nat) (h : n ≤ fuel) : (beDigits fuel n).head? ≠ some 0 := by
  induction fuel generalizing n with
  | zero => simp [beDigits]
  | succ fuel ih =>
    by_cases hn : n = 0
    · simp [beDigits, hn]
    · rw [beDigits, if_neg hn, head?_append]
      -- the first digit is the last one when nothing is in front of it
      cases hfront : (beDigits fuel (n / 256)).head? with
      | some d => simpa [hfront] using ih (n / 256) (by omega)
      | none =>
        have hsmall : n / 256 = 0 := by
          have hvalue := ofBeBytes_beDigits fuel (n / 256) (by omega)
          rw [head?_eq_none_iff.mp hfront] at hvalue
          exact hvalue.symm
        intro hzero
        have hdigit : UInt8.ofNat (n % 256) = 0 := by simpa using hzero
        have htoNat := congrArg UInt8.toNat hdigit
        simp at htoNat
        omega

/-- There is no leading zero. -/
theorem beBytes_head?_ne (n : Nat) : (beBytes n).head? ≠ some 0 := beDigits_head?_ne n n le_rfl

theorem beBytes_ne_nil {n : Nat} (h : n ≠ 0) : beBytes n ≠ [] := by
  intro hnil
  have hvalue := ofBeBytes_beBytes n
  rw [hnil] at hvalue
  exact h hvalue.symm

/-- The header of a string or a list whose content takes `size` bytes. -/
def head (small large : UInt8) (size : Nat) : Bytes :=
  if size < 56 then [small + UInt8.ofNat size]
  else (large + UInt8.ofNat (beBytes size).length) :: beBytes size

/-- A string of one byte below 128 is its own encoding. -/
def encodeString (b : Bytes) : Bytes :=
  match b with
  | [x] => if x ≤ 0x7f then [x] else head 0x80 0xB7 1 ++ [x]
  | _ => head 0x80 0xB7 b.length ++ b

mutual
def encode : Item → Bytes
  | .str b => encodeString b
  | .list l => head 0xC0 0xF7 (encodeAll l).length ++ encodeAll l

/-- The bytes of several items, one after the other. -/
def encodeAll : List Item → Bytes
  | [] => []
  | x :: xs => encode x ++ encodeAll xs
end

example : encode (.list [.str [0x63, 0x61, 0x74], .str (beBytes 1024)]) =
    [0xC7, 0x83, 0x63, 0x61, 0x74, 0x82, 4, 0] := by decide

end Rlp
end Okchain.Lib
