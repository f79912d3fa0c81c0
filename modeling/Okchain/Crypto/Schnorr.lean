import Mathlib.Algebra.BigOperators.Group.List.Basic
import Mathlib.Algebra.Module.NatInt
import Mathlib.Data.Int.ModEq
import Mathlib.Data.Nat.Prime.Basic
import Mathlib.Data.ZMod.Basic
import Okchain.Protos.Crypto

/-! Schnorr multisignatures, after `crypto/ecschnorr`.

The signers' keys and commitments are added up, the challenge is a hash of both sums and the message, and so are the
responses `k - d*r`. The verifier computes the commitment back from the response and the challenge, and compares the
hashes. The curve is a group with coordinates; what the library does with bytes of scalars is multiplication.
-/
namespace Okchain.Ecschnorr
open List
open Lib (Bytes)
open Lib.Rlp (beBytes ofBeBytes)

/-- A group of prime order with a generator, and points with coordinates that fit into the bytes of the field. -/
structure Curve (G : Type) [AddCommGroup G] where
  base : G
  N : Nat
  prime : N.Prime
  order : N • base = 0
  X : G → Nat
  Y : G → Nat
  bitSize : Nat
  fits : ∀ g, X g < 256 ^ ((bitSize + 7) / 8) ∧ Y g < 256 ^ ((bitSize + 7) / 8)

inductive SchnorrErr
  | panic (p : Panic)
  | notValid
  | invalidSignature
  deriving DecidableEq

variable {G : Type} [AddCommGroup G] (C : Curve G) (hash : Bytes → Bytes)

/-- `point2oct`: two numbers behind zeros. The second is copied over the first if it is too long. -/
def point2oct (x y : Nat) (N : Nat) : Except SchnorrErr Bytes :=
  let xBytes := beBytes x
  let yBytes := beBytes y
  if N < xBytes.length ∨ 2 * N < yBytes.length then .error (.panic .indexOutOfRange)
  else .ok ((List.replicate (N - xBytes.length) 0 ++ xBytes ++ List.replicate N 0).take (2 * N - yBytes.length) ++ yBytes)

/-- The sum of the keys; no key at all is a panic. -/
def aggregatePubkeys : List G → Except SchnorrErr G
  | [] => .error (.panic .indexOutOfRange)
  | pub :: pubs => .ok (pubs.foldl (fun p q => q + p) pub)

def aggregateCommits (commits : List G) : Except SchnorrErr G := aggregatePubkeys commits

/-- The hash of two points and a message, as a number below the order. -/
def genChanllenge (commitPoint pk : G) (digest : Bytes) : Except SchnorrErr Int := do
  let commit ← point2oct (C.X commitPoint) (C.Y commitPoint) ((C.bitSize + 7) / 8)
  let key ← point2oct (C.X pk) (C.Y pk) ((C.bitSize + 7) / 8)
  return (ofBeBytes (hash (commit ++ key ++ digest)) : Int) % C.N

def mulMod (x y m : Int) : Int := x * y % m
def subMod (x y m : Int) : Int := (x - y) % m

/-- The sum of the responses, reduced once. -/
def aggregateResponses (N : Int) : List Int → Except SchnorrErr Int
  | [] => .error (.panic .indexOutOfRange)
  | response :: responses => .ok (responses.foldl (fun r s => s + r) response % N)

def scalarMult (p : G) (k : Bytes) : G := ofBeBytes k • p

/-- `verifyECShnorr`; it hashes like `GenChanllenge`. -/
def verifyECShnorr (pub : G) (r s : Int) (msg : Bytes) : Except SchnorrErr Bool := do
  if C.N - 1 < s ∨ C.N - 1 < r then .error .notValid
  let q := scalarMult C.base (beBytes s.natAbs) + scalarMult pub (beBytes r.natAbs)
  let rr ← genChanllenge C hash q pub msg
  if r = rr then return true else .error .invalidSignature

/-- The challenge and the sum of the responses, as a signature of all keys together. -/
def verifyResponse (challenge response : Int) (digest : Bytes) (pks : List G) : Except SchnorrErr Bool := do
  verifyECShnorr C hash (← aggregatePubkeys pks) challenge response digest

/-- A signer's secret: the private key and the nonce. -/
structure Signer where
  d : Nat
  k : Nat

/-- The signers commit, are challenged and respond, and the sum of the responses is verified. -/
def multiSign (digest : Bytes) (signers : List Signer) : Except SchnorrErr Bool := do
  let pks := signers.map fun s => scalarMult C.base (beBytes s.d)
  let commit ← aggregateCommits (signers.map fun s => scalarMult C.base (beBytes s.k))
  let challenge ← genChanllenge C hash commit (← aggregatePubkeys pks) digest
  let response ← aggregateResponses C.N (signers.map fun s => subMod s.k (mulMod s.d challenge C.N) C.N)
  verifyResponse C hash challenge response digest pks

theorem foldl_add_eq_sum {A : Type} [AddCommGroup A] (a : A) (l : List A) : l.foldl (fun p q => q + p) a = (a :: l).sum := by
  induction l generalizing a with
  | nil => simp
  | cons b l ih => rw [foldl_cons, ih]; simp [add_left_comm, add_assoc]

theorem aggregatePubkeys_eq {l : List G} (h : l ≠ []) : aggregatePubkeys l = .ok l.sum := by
  cases l with
  | nil => exact absurd rfl h
  | cons p l => simp [aggregatePubkeys, foldl_add_eq_sum]

theorem aggregateResponses_eq {l : List Int} (h : l ≠ []) (N : Int) : aggregateResponses N l = .ok (l.sum % N) := by
  cases l with
  | nil => exact absurd rfl h
  | cons r l => simp [aggregateResponses, foldl_add_eq_sum]

theorem scalarMult_beBytes (p : G) (n : Nat) : scalarMult p (beBytes n) = n • p := by
  rw [scalarMult, Lib.Rlp.ofBeBytes_beBytes]

/-- The sum of the multiples is the multiple by the sum. -/
theorem sum_scalarMult (p : G) (f : Signer → Nat) (l : List Signer) :
    (l.map fun s => scalarMult p (beBytes (f s))).sum = ((l.map fun s => (f s : Int)).sum) • p := by
  induction l with
  | nil => simp
  | cons s l ih => rw [map_cons, sum_cons, ih, scalarMult_beBytes]; simp [add_smul]

theorem sum_subMod (r N : Int) (l : List Signer) : (l.map fun s => subMod s.k (mulMod s.d r N) N).sum ≡
      (l.map fun s => (s.k : Int)).sum - (l.map fun s => (s.d : Int)).sum * r [ZMOD N] := by
  induction l with
  | nil => simp
  | cons s l ih =>
    have hs : subMod s.k (mulMod s.d r N) N ≡ s.k - s.d * r [ZMOD N] :=
      (Int.mod_modEq _ _).trans ((Int.mod_modEq (s.d * r) N).sub_left _)
    simpa [add_mul, sub_add_sub_comm] using hs.add ih

theorem genChanllenge_ok (commitPoint pk : G) (digest : Bytes) :
    ∃ r : Nat, genChanllenge C hash commitPoint pk digest = .ok (r : Int) ∧ r < C.N := by
  have hpoint (g : G) : ∃ b, point2oct (C.X g) (C.Y g) ((C.bitSize + 7) / 8) = .ok b := by
    have hX := Lib.Rlp.length_beBytes_le (C.fits g).1
    have hY := Lib.Rlp.length_beBytes_le (C.fits g).2
    exact ⟨_, if_neg (by omega)⟩
  obtain ⟨commit, hcommit⟩ := hpoint commitPoint
  obtain ⟨key, hkey⟩ := hpoint pk
  refine ⟨_, ?_, Nat.mod_lt (ofBeBytes (hash (commit ++ key ++ digest))) C.prime.pos⟩
  simp [genChanllenge, hcommit, hkey]
  rfl

theorem smul_base_of_modEq {a b : Int} (h : a ≡ b [ZMOD C.N]) : a • C.base = b • C.base := by
  obtain ⟨c, hc⟩ := h.dvd
  rw [← sub_eq_zero, ← sub_smul, ← neg_sub, hc, neg_smul, mul_comm, mul_smul, natCast_zsmul, C.order, smul_zero, neg_zero]

/-- What the verifier computes from the sum of the responses is the sum of the commitments. -/
theorem commitment_back (r : Nat) (s : Nat) (l : List Signer)
    (hs : (s : Int) = (l.map fun s => subMod s.k (mulMod s.d r C.N) C.N).sum % C.N) :
    scalarMult C.base (beBytes s) + scalarMult (l.map fun s => scalarMult C.base (beBytes s.d)).sum (beBytes r) =
      (l.map fun s => scalarMult C.base (beBytes s.k)).sum := by
  have hmod := ((Int.mod_modEq _ _).trans (sum_subMod r C.N l))
  rw [← hs] at hmod
  rw [scalarMult_beBytes, scalarMult_beBytes, sum_scalarMult, sum_scalarMult, ← natCast_zsmul, smul_base_of_modEq C hmod,
    sub_smul, ← natCast_zsmul, ← mul_smul, mul_comm (r : Int), sub_add_cancel]

/-- The verifier accepts a challenge that was made for the commitment it computes back. -/
theorem verifyECShnorr_of_back {commit pub : G} {msg : Bytes} {r s : Nat} (hr : r < C.N) (hs : s < C.N)
    (hback : scalarMult C.base (beBytes s) + scalarMult pub (beBytes r) = commit)
    (hchallenge : genChanllenge C hash commit pub msg = .ok (r : Int)) : verifyECShnorr C hash pub r s msg = .ok true := by
  have hvalid : ¬((C.N : Int) - 1 < s ∨ (C.N : Int) - 1 < r) := by omega
  simp only [verifyECShnorr, if_neg hvalid, Int.natAbs_natCast, hback]
  exact except_bind_ok.2 ⟨r, hchallenge, if_pos rfl⟩

/-- Whatever the keys, the nonces and the message, the verifier accepts what the signers made together. -/
theorem multiSign_accepted (digest : Bytes) (first : Signer) (rest : List Signer) :
    multiSign C hash digest (first :: rest) = .ok true := by
  have hne {A : Type} (f : Signer → A) : (first :: rest).map f ≠ [] := List.cons_ne_nil _ _
  obtain ⟨r, hchallenge, hr⟩ := genChanllenge_ok C hash ((first :: rest).map fun s => scalarMult C.base (beBytes s.k)).sum
    ((first :: rest).map fun s => scalarMult C.base (beBytes s.d)).sum digest
  obtain ⟨s, hs⟩ := Int.eq_ofNat_of_zero_le (Int.emod_nonneg
    ((first :: rest).map fun s => subMod s.k (mulMod s.d r C.N) C.N).sum (Int.natCast_ne_zero.2 C.prime.ne_zero))
  have hlt : (s : Int) < C.N := hs ▸ Int.emod_lt_of_pos _ (Int.natCast_pos.2 C.prime.pos)
  apply except_bind_ok.2 ⟨_, aggregatePubkeys_eq (hne _), ?_⟩
  apply except_bind_ok.2 ⟨_, aggregatePubkeys_eq (hne _), ?_⟩
  apply except_bind_ok.2 ⟨_, hchallenge, ?_⟩
  apply except_bind_ok.2 ⟨_, aggregateResponses_eq (hne _) _, ?_⟩
  apply except_bind_ok.2 ⟨_, aggregatePubkeys_eq (hne _), ?_⟩
  rw [hs]
  exact verifyECShnorr_of_back C hash hr (Int.ofNat_lt.1 hlt) (commitment_back C r s _ hs.symm) hchallenge

/-! ### A small curve -/

/-- The multiples of (1, 2) on y² = x³ + 3 over the field with seven elements. The first one is the point at infinity. -/
def smallPoints : List (Nat × Nat) :=
  [(0, 0), (1, 2), (6, 3), (2, 2), (4, 5), (3, 3), (5, 3), (5, 4), (3, 4), (4, 2), (2, 5), (6, 4), (1, 5)]

def smallPoint (g : ZMod 13) : Nat × Nat := smallPoints.getD g.val (0, 0)

theorem smallPoint_fits : ∀ g, (smallPoint g).1 < 256 ^ ((3 + 7) / 8) ∧ (smallPoint g).2 < 256 ^ ((3 + 7) / 8) := by
  decide

theorem prime_thirteen : Nat.Prime 13 := by decide

/-- A curve with thirteen points. -/
def Curve.small : Curve (ZMod 13) where
  base := 1
  N := 13
  prime := prime_thirteen
  order := rfl
  X g := (smallPoint g).1
  Y g := (smallPoint g).2
  bitSize := 3
  fits := smallPoint_fits

/-- Three signers sign together. -/
theorem multiSign_accepted_three : multiSign Curve.small (fun b => (checksum b).bytes) [1, 2, 3]
    [⟨5, 11⟩, ⟨12, 7⟩, ⟨20, 3⟩] = .ok true :=
  multiSign_accepted Curve.small _ _ _ _

end Okchain.Ecschnorr
