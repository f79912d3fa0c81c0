import Okchain.Consensus.MicroBlock

/-! The signature check on a transaction from a peer, after `VerifyHash`, `validateTx` and `IsTxValidated`.

The key of a transaction is parsed twice. `Sender` wants 65 bytes and hashes them; `BytesToPubKey` decodes them as a
point of the curve, and passes on what it gets whether or not there is a point, which the verifier of the library
requires. `validateTx` calls `Sender` first, `IsTxValidated` does not.
-/
namespace Okchain.Server
open Lib Protos Core Txpool Consensus

/-- A transaction as it comes from a peer. The key and the signature can be missing, which for most of the code
is the same as empty. -/
structure Received where
  tx : Transaction
  senderPubKey : Option Bytes
  signature : Option Bytes
  senderPubKey_eq : tx.senderPubKey = senderPubKey.getD []
  signature_eq : tx.signature = signature.getD []

/-- What `BytesToPubKey` returns: nil, a key without coordinates, or a point. -/
inductive PublicKey
  | absent
  | unset
  | point (pub : Bytes)
  deriving DecidableEq, Repr

def PublicKey.IsPoint : PublicKey → Prop
  | .point _ => True
  | _ => False

namespace P256Signer

/-- `BytesToPubKey`. The coordinates stay nil if `Unmarshal` fails. -/
def bytesToPubKey (M : Machine) (pub : Bytes) : PublicKey :=
  if pub.length = 0 then .absent else if M.onCurve pub then .point pub else .unset

/-- The call of `ecdsa.Verify`, which requires a point. Before it needs the coordinates it returns false for a
signature that is out of range. -/
def verify (X : Rules) (digest sig : Bytes) : PublicKey → Except PoolErr Bool
  | .point pub => .ok (X.ecdsaVerify pub digest sig)
  | .unset => if inRange sig then .error .panic else .ok false
  | .absent => .error .panic

/-- The key with which `VerifyHash` calls the verifier, unless it returns before. -/
def verifierKey (M : Machine) (sig pubKey : Option Bytes) : Option PublicKey :=
  match sig, pubKey with
  | some sig, some pubKey => if sig.length ≠ 64 then none else some (bytesToPubKey M pubKey)
  | _, _ => none

/-- `VerifyHash`, with the error its callers give. -/
def verifyHash (M : Machine) (X : Rules) (digest : Bytes) (sig pubKey : Option Bytes) : Except PoolErr Bool :=
  match verifierKey M sig pubKey with
  | none => .error .invalidSender
  | some pub => verify X digest (sig.getD []) pub

end P256Signer

section

variable (M : Machine) (X : Rules)

/-- The key with which `validateTx` calls the verifier, if it gets there. -/
def validateTxKey (p : TxPool) (r : Received) : Option PublicKey :=
  if X.size r.tx ≤ 32 * 1024 ∧ r.tx.gasLimit ≤ p.currentMaxGas ∧ r.tx.senderPubKey.length = 65 then
    P256Signer.verifierKey M r.signature r.senderPubKey
  else none

end

/-- `IsTxValidated` of a node that sees a DS head and belongs to a shard. -/
def isTxValidated (P : Platform) (X : Rules) (dsHead : DSBlock) (shardingID : UInt32) (r : Received) :
    Except PoolErr Bool :=
  match P256Signer.verifyHash P.toMachine X (r.tx.hash P.toEnv).bytes r.signature r.senderPubKey with
  | .ok valid => .ok (valid && shardingID == shardOf P dsHead r.tx)
  | .error .panic => .error .panic
  | .error _ => .ok false

/-! ### Panics -/

/-- The computation returns, with a result or an error. -/
def Orderly {α : Type} (x : Except PoolErr α) : Prop := x ≠ .error .panic

section

variable {α β : Type}

theorem orderly_bind {x : Except PoolErr α} {f : α → Except PoolErr β} :
    Orderly (x >>= f) ↔ Orderly x ∧ ∀ a, x = .ok a → Orderly (f a) := by
  cases x with
  | error e =>
    show Orderly (.error e : Except PoolErr β) ↔ _
    simp [Orderly]
  | ok a =>
    show Orderly (f a) ↔ _
    simp [Orderly]

theorem orderly_require {c : Prop} [Decidable c] {e : PoolErr} (he : e ≠ .panic) : Orderly (require c e) := by
  unfold require
  split
  · exact nofun
  · exact fun h => he (Except.error.inj h)

theorem orderly_require_bind {c : Prop} [Decidable c] {e : PoolErr} {f : Unit → Except PoolErr β} (he : e ≠ .panic) :
    Orderly (require c e >>= f) ↔ (c → Orderly (f ())) := by
  rw [orderly_bind, and_iff_right (orderly_require he)]
  constructor
  · intro h hc
    exact h () (if_pos hc)
  · intro h a ha
    exact h (require_ok ha)

theorem orderly_poolIntrinsicGas (data : Bytes) (creation : Bool) : Orderly (poolIntrinsicGas data creation) := by
  unfold poolIntrinsicGas meter
  dsimp only
  split_ifs <;> exact nofun

end

section

variable {M : Machine} {X : Rules}

theorem orderly_verify {digest sig : Bytes} {pub : PublicKey} (h : pub.IsPoint) :
    Orderly (P256Signer.verify X digest sig pub) := by
  cases pub with
  | point pub => exact nofun
  | _ => exact h.elim

theorem orderly_verifyHash (digest : Bytes) {sig pubKey : Option Bytes}
    (h : ∀ pub ∈ P256Signer.verifierKey M sig pubKey, pub.IsPoint) :
    Orderly (P256Signer.verifyHash M X digest sig pubKey) := by
  unfold P256Signer.verifyHash
  cases hkey : P256Signer.verifierKey M sig pubKey with
  | none => exact nofun
  | some pub => exact orderly_verify (h pub hkey)

theorem isPoint_bytesToPubKey {pub : Bytes} :
    (P256Signer.bytesToPubKey M pub).IsPoint ↔ pub ≠ [] ∧ M.onCurve pub = true := by
  unfold P256Signer.bytesToPubKey
  cases pub with
  | nil => simp [PublicKey.IsPoint]
  | cons b rest =>
    cases M.onCurve (b :: rest) <;> simp [PublicKey.IsPoint]

theorem forall_verifierKey_isPoint (sig pubKey : Option Bytes) :
    (∀ pub ∈ P256Signer.verifierKey M sig pubKey, pub.IsPoint) ↔
      (pubKey ≠ none → (sig.getD []).length = 64 → pubKey.getD [] ≠ [] ∧ M.onCurve (pubKey.getD []) = true) := by
  unfold P256Signer.verifierKey
  cases sig with
  | none => simp
  | some sig =>
    cases pubKey with
    | none => simp
    | some pubKey =>
      by_cases hlen : sig.length = 64
      · simp [isPoint_bytesToPubKey]
      · simp [hlen]

/-- A key of 65 bytes is checked as the pool does it. -/
theorem verifyHash_eq (r : Received) (hkey : r.tx.senderPubKey.length = 65) (digest : Bytes) :
    Txpool.verifyHash M X digest r.tx.signature r.tx.senderPubKey =
      P256Signer.verifyHash M X digest r.signature r.senderPubKey := by
  obtain ⟨tx, senderPubKey, signature, hsender, hsignature⟩ := r
  rw [hsender] at hkey ⊢
  rw [hsignature]
  cases senderPubKey with
  | none => exact nomatch hkey
  | some pubKey =>
    have hne : pubKey.length ≠ 0 := by
      rw [show pubKey.length = 65 from hkey]
      decide
    unfold Txpool.verifyHash P256Signer.verifyHash P256Signer.verifierKey P256Signer.bytesToPubKey
    cases signature with
    | none => rfl
    | some sig =>
      dsimp only [Option.getD_some]
      split_ifs with hlength hcurve hrange
      · rfl
      · rfl
      · exact (if_pos hrange).symm
      · exact (if_neg hrange).symm

theorem orderly_validateTx (p : TxPool) (r : Received) (isLocal : Bool)
    (h : ∀ pub ∈ validateTxKey M X p r, pub.IsPoint) : Orderly (validateTx M X p r.tx isLocal) := by
  unfold validateTx
  rw [orderly_require_bind (by decide), orderly_require_bind (by decide), orderly_require_bind (by decide)]
  intro hsize hgas hkey
  unfold validateTxKey at h
  rw [if_pos ⟨hsize, hgas, hkey⟩] at h
  rw [orderly_bind, verifyHash_eq r hkey]
  refine ⟨orderly_verifyHash _ h, fun valid _ => ?_⟩
  rw [orderly_require_bind (by decide), orderly_require_bind (by decide), orderly_require_bind (by decide)]
  intro _ _ _
  exact orderly_bind.mpr ⟨orderly_poolIntrinsicGas _ _, fun _ _ => orderly_require nofun⟩

end

/-! ### Admission -/

/-- The verifier is called with points only, and there is a result or an error. -/
structure Survives {α : Type} (key : Option PublicKey) (x : Except PoolErr α) : Prop where
  points : ∀ pub ∈ key, pub.IsPoint
  returns : Orderly x

variable {P : Platform} {X : Rules}

theorem orderly_isTxValidated {dsHead : DSBlock} {shardingID : UInt32} {r : Received}
    (h : ∀ pub ∈ P256Signer.verifierKey P.toMachine r.signature r.senderPubKey, pub.IsPoint) :
    Orderly (isTxValidated P X dsHead shardingID r) := by
  have horderly := orderly_verifyHash (X := X) (r.tx.hash P.toEnv).bytes h
  unfold isTxValidated
  split
  · exact nofun
  · next hpanic => exact absurd hpanic horderly
  · exact nofun

theorem survives_iff {α : Type} {key : Option PublicKey} {x : Except PoolErr α}
    (h : (∀ pub ∈ key, pub.IsPoint) → Orderly x) : Survives key x ↔ ∀ pub ∈ key, pub.IsPoint :=
  ⟨Survives.points, fun hpoints => ⟨hpoints, h hpoints⟩⟩

/-- **Which transactions admission survives.** Whatever a peer sends, `validateTx` calls the verifier with a point
and returns, exactly if a key of 65 bytes that comes with a signature of 64 is a point, or an earlier check has
failed. `IsTxValidated` makes no earlier check: with a signature of 64 bytes the key has to be a point, whatever its
length, unless it is missing. -/
theorem admission_survives_iff (P : Platform) (X : Rules) (r : Received) :
    (∀ (p : TxPool) (isLocal : Bool),
      Survives (validateTxKey P.toMachine X p r) (validateTx P.toMachine X p r.tx isLocal) ↔
        (X.size r.tx ≤ 32 * 1024 → r.tx.gasLimit ≤ p.currentMaxGas → r.tx.senderPubKey.length = 65 →
          r.tx.signature.length = 64 → P.onCurve r.tx.senderPubKey = true)) ∧
    (∀ (dsHead : DSBlock) (shardingID : UInt32),
      Survives (P256Signer.verifierKey P.toMachine r.signature r.senderPubKey) (isTxValidated P X dsHead shardingID r) ↔
        (r.senderPubKey ≠ none → r.tx.signature.length = 64 →
          r.tx.senderPubKey ≠ [] ∧ P.onCurve r.tx.senderPubKey = true)) := by
  have hkey := forall_verifierKey_isPoint (M := P.toMachine) r.signature r.senderPubKey
  rw [← r.signature_eq, ← r.senderPubKey_eq] at hkey
  constructor
  · intro p isLocal
    rw [survives_iff (orderly_validateTx p r isLocal)]
    unfold validateTxKey
    split_ifs with h
    · obtain ⟨hsize, hgas, hlength⟩ := h
      have hsome : r.senderPubKey ≠ none := fun hnone => by
        rw [r.senderPubKey_eq, hnone] at hlength
        exact nomatch hlength
      have hne : r.tx.senderPubKey ≠ [] := fun hnil => by
        rw [hnil] at hlength
        exact nomatch hlength
      rw [hkey]
      simp only [hsome, hne, hsize, hgas, hlength, ne_eq, not_false_eq_true, true_and, forall_const]
    · simp only [Option.not_mem_none, false_implies, implies_true, true_iff]
      intro hsize hgas hlength
      exact absurd ⟨hsize, hgas, hlength⟩ h
  · intro dsHead shardingID
    rw [survives_iff orderly_isTxValidated]
    exact hkey

/-- A platform on which a point is written as 65 bytes of which the first is 4. -/
def uncompressed : Platform :=
  {Platform.sample with toMachine := {Platform.sample.toMachine with onCurve := fun b => b.length == 65 && b.head? == some 4}}

/-- A transaction from a peer with a key and a signature that are there. -/
def receivedWith (key sig : Bytes) : Received where
  tx := {poolTx 5 30000 with senderPubKey := key, signature := sig}
  senderPubKey := some key
  signature := some sig
  senderPubKey_eq := rfl
  signature_eq := rfl

/-- Both halves are one. -/
def signatureOnes : Bytes := List.replicate 31 0 ++ 1 :: List.replicate 31 0 ++ [1]

/-- A key of 65 zero bytes gets to the verifier as a key without coordinates, in both functions; an empty key gets
there as nil in the second. -/
theorem no_point_reaches_verifier : ∃ (p : TxPool) (r r' : Received) (dsHead : DSBlock),
    validateTxKey uncompressed.toMachine Rules.sample p r = some .unset ∧
    validateTx uncompressed.toMachine Rules.sample p r.tx false = .error .panic ∧
    isTxValidated uncompressed Rules.sample dsHead 0 r = .error .panic ∧
    r'.tx.senderPubKey = [] ∧
    P256Signer.verifierKey uncompressed.toMachine r'.signature r'.senderPubKey = some .absent ∧
    isTxValidated uncompressed Rules.sample dsHead 0 r' = .error .panic :=
  ⟨newTxPool uncompressed.toMachine Rules.sample .sample 0 defaultTxPoolConfig ⟨nonceTrie 5, 100000⟩,
    receivedWith (List.replicate 65 0) signatureOnes, receivedWith [] signatureOnes, Chain.dsFirst,
    by decide +kernel, by decide +kernel, by decide +kernel, rfl, by decide +kernel, by decide +kernel⟩

end Okchain.Server
