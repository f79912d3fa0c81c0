import Okchain.Lib.Rlp

/-! Byte strings of fixed length, and the errors of every package.

`common.Hash` and `common.Address` are arrays; a byte slice becomes one by cropping from the left
or padding with zeros on the left. Run-time panics are errors of their own kind: they end the
procedure the way a returned error does, and nothing in the code recovers from them.
-/
namespace Okchain
open Lib (Bytes)

/-- A byte array of length `n`. -/
structure FixedBytes (n : Nat) where
  bytes : Bytes
  size : bytes.length = n
  deriving DecidableEq

namespace FixedBytes

theorem ext_bytes {n : Nat} {a b : FixedBytes n} (h : a.bytes = b.bytes) : a = b := by
  cases a
  cases h
  rfl

/-- `SetBytes`: keep the last `n` bytes, and pad a shorter slice with zeros in front. -/
def ofBytes (n : Nat) (b : Bytes) : FixedBytes n where
  bytes := List.replicate (n - b.length) 0 ++ b.drop (b.length - n)
  size := by
    rw [List.length_append, List.length_replicate, List.length_drop]
    omega

theorem ofBytes_bytes {n : Nat} (a : FixedBytes n) : ofBytes n a.bytes = a := by
  simp [ofBytes, a.size]

instance {n : Nat} : Inhabited (FixedBytes n) := ⟨ofBytes n []⟩

end FixedBytes

abbrev Hash := FixedBytes 32
abbrev Address := FixedBytes 20

def bytesToHash (b : Bytes) : Hash := FixedBytes.ofBytes 32 b
def bytesToAddress (b : Bytes) : Address := FixedBytes.ofBytes 20 b

theorem hash_ne_nil (h : Hash) : h.bytes ≠ [] := by
  intro hnil
  have hsize := h.size
  rw [hnil] at hsize
  exact nomatch hsize

/-- The run-time panics the modelled code can raise. -/
inductive Panic
  | nilDereference
  | indexOutOfRange
  | divisionByZero
  | invalidRevision
  | gasPoolOverflow
  deriving DecidableEq, Repr

/-- Errors of the signature helpers in `multibls` and `protos`. -/
inductive CryptoErr
  | deserialize
  | blsVerifyFailed
  | composedPubkeyNotEqual
  | boolMapLength
  | notEnoughSignatures
  | verifyingSignaturesFailed
  | coinbaseNotFound
  | coinbasesNotMatch
  deriving DecidableEq, Repr

/-- Errors of package `blockchain`. -/
inductive ChainErr
  | knownBlock
  | unknownAncestor
  | futureBlock
  | timestamp
  | invalidGasLimit
  | invalidGasUsed
  | prunedAncestor
  | transations
  | dsBlockNotExist
  | blockSignerNotFound
  | mismatchMultiPubkey
  | mismatchMultiSignature
  | bitmapTolerence
  | checkCoinBase
  | invalidMerkleRoot
  | missingTrieNode
  deriving DecidableEq, Repr

/-- Errors of package `core`. -/
inductive CoreErr
  | gasLimitReached
  | nonceTooHigh
  | nonceTooLow
  | insufficientBalance
  | insufficientBalanceForGas
  deriving DecidableEq, Repr

/-- Errors of package `vm`. `interpreter` is any other error of a running contract. -/
inductive VmErr
  | outOfGas
  | codeStoreOutOfGas
  | depth
  | insufficientBalance
  | contractAddressCollision
  | executionReverted
  | maxCodeSizeExceeded
  | interpreter
  deriving DecidableEq, Repr

/-- Errors of package `blspbft` and of the roles it calls. -/
inductive ConsensusErr
  | verifyBlock
  | composeMessage
  | invalidMessage
  | incorrectMessageSource
  | unmarshalMessage
  | verifyMessage
  | blsPubKeyVerify
  | checkCoinBase
  | getCoinBase
  | calStateRoot
  | cannotProcessType
  | notEnoughSignatures
  | signatureRoundOne
  | deserializeSign2
  | emptyPoWList
  | emptyBlock
  | handleInCurrentState
  | composeBlock
  | notEnoughBackups
  | duplicatedMessage
  | pubKeyConvert
  | verifyMine
  | mine
  | insertBlock
  deriving DecidableEq, Repr

/-- Everything a modelled function can fail with. -/
inductive Err
  | panic (p : Panic)
  | crypto (e : CryptoErr)
  | chain (e : ChainErr)
  | core (e : CoreErr)
  | vm (e : VmErr)
  | consensus (e : ConsensusErr)
  deriving DecidableEq, Repr

def deref {α : Type} : Option α → Except Err α
  | some a => .ok a
  | none => .error (.panic .nilDereference)

def index {α : Type} (l : List α) (i : Nat) : Except Err α :=
  match l[i]? with
  | some a => .ok a
  | none => .error (.panic .indexOutOfRange)

variable {α : Type} {a : α}

theorem deref_ok {p : Option α} : deref p = .ok a ↔ p = some a := by
  cases p <;> simp [deref]

theorem index_ok {l : List α} {i : Nat} : index l i = .ok a ↔ l[i]? = some a := by
  unfold index
  cases l[i]? <;> simp

/-- The caller replaces an error by its own; a panic goes through. -/
def orError {α : Type} (e : Err) : Except Err α → Except Err α
  | .ok a => .ok a
  | .error (.panic p) => .error (.panic p)
  | .error _ => .error e

def Err.replacedBy : Err → Err → Err
  | .panic p, _ => .panic p
  | _, e => e

theorem orError_error (e e' : Err) : orError e (.error e' : Except Err α) = .error (e'.replacedBy e) := by
  cases e' <;> rfl

theorem orError_ok {e : Err} {x : Except Err α} : orError e x = .ok a ↔ x = .ok a := by
  unfold orError
  split <;> simp

end Okchain
