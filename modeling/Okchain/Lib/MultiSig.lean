import Mathlib.Algebra.BigOperators.Group.Finset.Basic
import Mathlib.Algebra.BigOperators.Ring.List
import Mathlib.Data.Finset.Powerset
import Okchain.Lib.Rlp

/-! Aggregate signatures.

Public keys and signatures form commutative monoids, and the sum of the signatures that several keys made on one
message verifies under the sum of the keys. `Complete` is the half honest signers rely on, `Unforged` the half that
lets a verified sum be read as "each of these keys signed".
-/
variable {keys : List Bytes}

namespace Okchain.Lib
open List

/-- An aggregate signature scheme as its callers see it. -/
structure MultiSig where
  PriKey : Type
  PubKey : Type
  Sig : Type
  [decPubKey : DecidableEq PubKey]
  [addPubKey : AddCommMonoid PubKey]
  [addSig : AddCommMonoid Sig]
  pubOf : PriKey → PubKey
  sign : PriKey → Bytes → Sig
  verify : Sig → PubKey → Bytes → Bool
  serializePub : PubKey → Bytes
  deserializePub : Bytes → Option PubKey
  serializeSig : Sig → Bytes
  deserializeSig : Bytes → Option Sig

attribute [instance] MultiSig.decPubKey MultiSig.addPubKey MultiSig.addSig

namespace MultiSig

variable (B : MultiSig)

/-- The promise to honest signers: what is serialized can be read back, serialized values are not
empty, and a sum of signatures on one message verifies under the sum of the keys. -/
structure Complete : Prop where
  pub_roundtrip : ∀ p, B.deserializePub (B.serializePub p) = some p
  sig_roundtrip : ∀ s, B.deserializeSig (B.serializeSig s) = some s
  pub_nonempty : ∀ p, B.serializePub p ≠ []
  sig_nonempty : ∀ s, B.serializeSig s ≠ []
  verify_sum : ∀ (ks : List B.PriKey) (m : Bytes), ks ≠ [] →
    B.verify (ks.map (B.sign · m)).sum (ks.map B.pubOf).sum m = true

/-! ### What a verified sum says about its signers -/

section

variable {B}

/-- The signature verifies on the message under the sum of the keys. -/
def Covers (s : B.Sig) (m : Bytes) (keys : List Bytes) : Prop :=
  ∃ pubs : List B.PubKey, keys.map B.deserializePub = pubs.map some ∧ B.verify s pubs.sum m = true

/-- Nobody forged the signature: whichever members it verifies under have `signed`. -/
def Unforged (members : List Bytes) (signed : Bytes → Bytes → Prop) (s : B.Sig) : Prop :=
  ∀ keys m, keys.Nodup → keys ⊆ members → Covers s m keys → ∀ k ∈ keys, signed k m

/-- On one message the signature verifies under one set of members at most. -/
def Separates (members : List Bytes) (s : B.Sig) : Prop :=
  ∀ m keys keys', keys.Nodup → keys ⊆ members → Covers s m keys → keys'.Nodup → keys' ⊆ members →
    Covers s m keys' → keys' ⊆ keys

/-- At least `n` different members have signed. -/
def SignedBy (members : List Bytes) (n : Int) (signed : Bytes → Bytes → Prop) (m : Bytes) : Prop :=
  ∃ signers, signers.Nodup ∧ signers ⊆ members ∧ n ≤ signers.length ∧ ∀ k ∈ signers, signed k m

variable {members keys : List Bytes} {s : B.Sig} {m : Bytes} {n : Int}

theorem Covers.signedBy {signed : Bytes → Bytes → Prop} (hcovers : Covers s m keys) (hnodup : keys.Nodup)
    (hsub : keys ⊆ members) (hn : n ≤ keys.length) (hunforged : Unforged members signed s) :
    SignedBy members n signed m :=
  ⟨keys, hnodup, hsub, hn, hunforged keys m hnodup hsub hcovers⟩

/-- Those of whom the signature says that they signed, and nobody else. -/
def leastSigned (members : List Bytes) (s : B.Sig) (k m : Bytes) : Prop :=
  ∃ keys, keys.Nodup ∧ keys ⊆ members ∧ Covers s m keys ∧ k ∈ keys

theorem leastSigned_unforged (members : List Bytes) (s : B.Sig) : Unforged members (leastSigned members s) s :=
  fun keys _ hnodup hsub hcovers _ hk => ⟨keys, hnodup, hsub, hcovers, hk⟩

section
variable (hseparates : Separates members s) (hcovers : Covers s m keys) (hnodup : keys.Nodup) (hsub : keys ⊆ members)
include hseparates hcovers hnodup hsub

/-- If a verified sum tells its keys apart from all others, no more than these need have signed. -/
theorem leastSigned_le (h : SignedBy members n (leastSigned members s) m) : n ≤ keys.length := by
  obtain ⟨signers, hdistinct, -, hn, hall⟩ := h
  have hsigners : signers ⊆ keys := by
    intro k hk
    obtain ⟨keys', hnodup', hsub', hcovers', hmem⟩ := hall k hk
    exact hseparates m keys keys' hnodup hsub hcovers hnodup' hsub' hcovers' hmem
  have hlength := (subperm_of_subset hdistinct hsigners).length_le
  omega

/-- All that a verified sum says is that its own keys signed. -/
theorem signedBy_iff : (∀ signed, Unforged members signed s → SignedBy members n signed m) ↔ n ≤ keys.length :=
  ⟨fun h => leastSigned_le hseparates hcovers hnodup hsub (h _ (leastSigned_unforged members s)),
    fun hn _ hunforged => hcovers.signedBy hnodup hsub hn hunforged⟩

end

/-! ### A sum and its sender

A sum may come from one of its signers, who signs the message once more on its own. -/

/-- The members the signature speaks for: those it verifies under, or nobody if it verifies under no set of them. -/
def SpokenFor (B : MultiSig) (members : List Bytes) (σ m : Bytes) (keys : List Bytes) : Prop :=
  keys.Nodup ∧ keys ⊆ members ∧ ((∃ s, B.deserializeSig σ = some s ∧ Covers s m keys) ∨
    (keys = [] ∧ ∀ s, B.deserializeSig σ = some s → ∀ keys', keys'.Nodup → keys' ⊆ members → ¬Covers s m keys'))

/-- The keys, and the sender if it is a member and not one of them. -/
def withSender (members : List Bytes) (sender : Bytes) (keys : List Bytes) : List Bytes :=
  if sender ∈ members ∧ sender ∉ keys then sender :: keys else keys

theorem mem_withSender {sender k : Bytes} :
    k ∈ withSender members sender keys ↔ k ∈ keys ∨ (k = sender ∧ k ∈ members) := by
  unfold withSender
  split
  · rw [mem_cons]
    constructor
    · rintro (rfl | h)
      · exact .inr ⟨rfl, by tauto⟩
      · exact .inl h
    · rintro (h | ⟨rfl, -⟩)
      · exact .inr h
      · exact .inl rfl
  · next hnot =>
    constructor
    · exact .inl
    · rintro (h | ⟨rfl, hmem⟩)
      · exact h
      · by_contra hk
        exact hnot ⟨hmem, hk⟩

theorem withSender_nodup {sender : Bytes} (h : keys.Nodup) : (withSender members sender keys).Nodup := by
  unfold withSender
  split
  · next hnew => exact nodup_cons.mpr ⟨hnew.2, h⟩
  · exact h

theorem length_le_withSender (members : List Bytes) (sender : Bytes) (keys : List Bytes) :
    keys.length ≤ (withSender members sender keys).length := by
  unfold withSender
  split
  · exact Nat.le_succ _
  · exact le_rfl

/-- All that a sum and a signature of its sender say is that the keys of the sum and the sender signed. -/
theorem signedBy_withSender_iff {sender σ₁ σ₂ : Bytes} (hsender : ∃ s, B.deserializeSig σ₁ = some s ∧ Covers s m [sender])
    (hone : ∀ s, B.deserializeSig σ₁ = some s → Separates (sender :: members) s)
    (hsum : ∀ s, B.deserializeSig σ₂ = some s → Separates members s) (hkeys : SpokenFor B members σ₂ m keys) :
    (∀ signed, (∀ s, B.deserializeSig σ₁ = some s → Unforged (sender :: members) signed s) →
      (∀ s, B.deserializeSig σ₂ = some s → Unforged members signed s) → SignedBy members n signed m) ↔
        n ≤ (withSender members sender keys).length := by
  obtain ⟨s₁, hs₁, hcovers₁⟩ := hsender
  obtain ⟨hnodup, hsub, hspoken⟩ := hkeys
  constructor
  · intro h
    let least (k m : Bytes) : Prop := (∃ s, B.deserializeSig σ₁ = some s ∧ leastSigned (sender :: members) s k m) ∨
      ∃ s, B.deserializeSig σ₂ = some s ∧ leastSigned members s k m
    obtain ⟨signers, hdistinct, hmembers, hn, hall⟩ := h least
      (fun s hs keys m' hd hk hc k hmem => .inl ⟨s, hs, keys, hd, hk, hc, hmem⟩)
      (fun s hs keys m' hd hk hc k hmem => .inr ⟨s, hs, keys, hd, hk, hc, hmem⟩)
    have hsigners : signers ⊆ withSender members sender keys := by
      intro k hk
      rw [mem_withSender]
      rcases hall k hk with ⟨s, hs, keys', hd, hk', hc, hmem⟩ | ⟨s, hs, keys', hd, hk', hc, hmem⟩
      · obtain rfl := Option.some.inj (hs₁.symm.trans hs)
        have honly := hone _ hs₁ m [sender] keys' (nodup_singleton _) (by simp) hcovers₁ hd hk' hc hmem
        exact .inr ⟨mem_singleton.mp honly, hmembers hk⟩
      · rcases hspoken with ⟨s₂, hs₂, hcovers₂⟩ | ⟨-, hnone⟩
        · obtain rfl := Option.some.inj (hs₂.symm.trans hs)
          exact .inl (hsum _ hs₂ m keys keys' hnodup hsub hcovers₂ hd hk' hc hmem)
        · exact absurd hc (hnone s hs keys' hd hk')
    have hlength := (subperm_of_subset hdistinct hsigners).length_le
    omega
  · intro hn signed hunforged₁ hunforged₂
    refine ⟨withSender members sender keys, withSender_nodup hnodup, fun k hk => ?_, hn, fun k hk => ?_⟩
    · exact (mem_withSender.mp hk).elim (fun h => hsub h) (·.2)
    · rcases mem_withSender.mp hk with hk | ⟨rfl, -⟩
      · rcases hspoken with ⟨s₂, hs₂, hcovers₂⟩ | ⟨rfl, -⟩
        · exact hunforged₂ s₂ hs₂ keys m hnodup hsub hcovers₂ k hk
        · exact nomatch hk
      · exact hunforged₁ s₁ hs₁ [k] m (nodup_singleton _) (by simp) hcovers₁ k (mem_singleton_self _)

end

/-! ### The linear scheme

Keys are numbers and a signature is the key times a number read off the message. Anybody can forge
one, but the promises to honest signers hold and everything can be computed. -/

/-- A number as bytes: a tag, then big-endian digits padded to at least eight bytes in all. -/
def natBytes (n : Nat) : Bytes :=
  1 :: (List.replicate (7 - (Rlp.beBytes n).length) 0 ++ Rlp.beBytes n)

def ofNatBytes : Bytes → Option Nat
  | 1 :: b => some (Rlp.ofBeBytes b)
  | _ => none

theorem ofNatBytes_natBytes (n : Nat) : ofNatBytes (natBytes n) = some n := by
  show some _ = _
  rw [Rlp.ofBeBytes_zeros, Rlp.ofBeBytes_beBytes]

def messageNat (m : Bytes) : Nat := Rlp.ofBeBytes m + 1

def linear : MultiSig where
  PriKey := Nat
  PubKey := Nat
  Sig := Nat
  pubOf k := k
  sign k m := k * messageNat m
  verify s p m := s == p * messageNat m
  serializePub := natBytes
  deserializePub := ofNatBytes
  serializeSig := natBytes
  deserializeSig := ofNatBytes

theorem sum_signatures (ks : List Nat) (c : Nat) : (ks.map (fun k => k * c)).sum = (ks.map (fun k => k)).sum * c :=
  sum_map_mul_right ks (fun k => k) c

theorem linear_complete : linear.Complete where
  pub_roundtrip := ofNatBytes_natBytes
  sig_roundtrip := ofNatBytes_natBytes
  pub_nonempty _ := cons_ne_nil _ _
  sig_nonempty _ := cons_ne_nil _ _
  verify_sum ks m _ := beq_iff_eq.mpr (sum_signatures ks (messageNat m))

def keyNat (k : Bytes) : Nat := (ofNatBytes k).getD 0

theorem linear_covers {s : Nat} {m : Bytes} (hnodup : keys.Nodup)
    (h : Covers (B := linear) s m keys) : s = (keys.toFinset.sum keyNat) * messageNat m := by
  obtain ⟨(pubs : List Nat), hpubs, hverify⟩ := h
  have hpubs : keys.map ofNatBytes = pubs.map some := hpubs
  have hnats : keys.map keyNat = pubs := by
    have hget := congrArg (map fun o : Option Nat => o.getD 0) hpubs
    rw [map_map, map_map] at hget
    exact hget.trans (map_id pubs)
  rw [sum_toFinset _ hnodup, hnats]
  exact beq_iff_eq.mp hverify

theorem linear_covers_sum {pubs : List Nat} (h : keys.map ofNatBytes = pubs.map some) (m : Bytes) :
    Covers (B := linear) (pubs.sum * messageNat m) m keys := ⟨pubs, h, beq_self_eq_true _⟩

/-- Keys whose sets have different sums are told apart. -/
theorem linear_separates {members : List Bytes} (s : Nat)
    (hsums : ∀ A ∈ members.toFinset.powerset, ∀ C ∈ members.toFinset.powerset, A.sum keyNat = C.sum keyNat → C ⊆ A) :
    Separates (B := linear) members s := by
  intro m keys keys' hnodup hsub hcovers hnodup' hsub' hcovers'
  have hsame := (linear_covers hnodup hcovers).symm.trans (linear_covers hnodup' hcovers')
  have hsum := Nat.eq_of_mul_eq_mul_right (Nat.succ_pos _) hsame
  have hmem : ∀ {l : List Bytes}, l ⊆ members → l.toFinset ∈ members.toFinset.powerset := fun hl =>
    Finset.mem_powerset.mpr fun k hk => mem_toFinset.mpr (hl (mem_toFinset.mp hk))
  intro k hk
  exact mem_toFinset.mp (hsums _ (hmem hsub) _ (hmem hsub') hsum (mem_toFinset.mpr hk))

end MultiSig
end Okchain.Lib
