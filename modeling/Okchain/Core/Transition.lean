import Okchain.State.Commit
import Okchain.Vm.Evm

/-! Applying one transaction, after `core/state_transition.go`.

A transaction becomes a message with a fixed gas limit of ten million at a gas price of one. The
sender's nonce must equal the message's, and the gas is bought up front. A call raises the sender's
nonce before it starts; a creation leaves that to `Create`.
-/
namespace Okchain.Core
open Lib State Vm Protos

/-- What the interpreter can see of the world state. -/
structure View where
  exist : Address → Bool
  empty : Address → Bool
  balance : Address → Int
  nonce : Address → UInt64
  code : Address → Bytes
  codeHash : Address → Hash
  state : Address → Hash → Hash
  suicided : Address → Bool
  refund : UInt64

/-- `vm.Context`, the block and the transaction a contract can ask about. -/
structure Context where
  getHash : UInt64 → Hash
  origin : Address
  gasPrice : Nat
  coinbase : Address
  gasLimit : UInt64
  blockNumber : UInt64
  time : UInt64

structure Frame where
  caller : Address
  self : Address
  code : Bytes
  input : Bytes
  gas : UInt64
  value : Nat

/-- What executing transactions takes as given: the interpreter, the precompiled contracts, the curve check of the sender's key,
the ancestors' hashes, the number of shards of each DS block, and the order in which shards of equal
fee are listed. -/
structure Machine extends Database where
  interpret : Context → View → Frame → Trace
  precompile : Address → Bytes → UInt64 → RunResult
  onCurve : Bytes → Bool
  blockHash : Hash → UInt64 → UInt64 → Hash
  shardingSum : UInt64 → Option UInt32
  sortShards : List (UInt32 × Nat) → List (UInt32 × Nat)
  sortShards_perm : ∀ l, (sortShards l).Perm l
  sortShards_sorted : ∀ l, (sortShards l).Pairwise (fun a b => a.2 ≤ b.2)

structure Msg where
  recipient : Option Address
  sender : Address
  nonce : UInt64
  amount : Nat
  gasLimit : UInt64
  gasPrice : Nat
  data : Bytes

section

variable (M : Machine)

/-- The sender's address: the tail of the hash of the key, or the zero address for a key that is not
on the curve. -/
def senderAddress (pubKey : Bytes) : Address :=
  if M.onCurve pubKey then bytesToAddress ((M.keccak pubKey.tail).bytes.drop 12) else default

def asMsg (tx : Transaction) : Msg where
  recipient := tx.toAddr.map bytesToAddress
  sender := senderAddress M tx.senderPubKey
  nonce := tx.nonce
  amount := tx.amount.toNat
  gasLimit := 10000000
  gasPrice := 1
  data := tx.data

def view (s : StateDB) : View where
  exist := s.exist
  empty := s.isEmpty M.toDatabase
  balance := s.getBalance
  nonce := s.getNonce
  code := s.getCode M.toDatabase
  codeHash := s.getCodeHash
  state := s.getState M.toDatabase
  suicided := s.hasSuicided
  refund := s.refund

/-- `IntrinsicGas`, of which this package and the pool's each have one. -/
def meter {ε : Type} (creation plain nonZero zero : UInt64) (e : ε) (data : Bytes) (contractCreation : Bool) :
    Except ε UInt64 :=
  let gas := if contractCreation then creation else plain
  let nz := UInt64.ofNat (data.countP (· != 0))
  let z := UInt64.ofNat data.length - nz
  if data.length = 0 then .ok gas
  else if (0xFFFFFFFFFFFFFFFF - gas) / nonZero < nz then .error e
  else if (0xFFFFFFFFFFFFFFFF - (gas + nz * nonZero)) / zero < z then .error e
  else .ok (gas + nz * nonZero + z * zero)

def intrinsicGas (data : Bytes) (contractCreation : Bool) : Except Err UInt64 :=
  meter 53000 21000 68 4 (.vm .outOfGas) data contractCreation

def Msg.gasCost (m : Msg) : Nat := m.gasLimit.toNat * m.gasPrice

/-- `preCheck` with `buyGas`; returns what is left in the gas pool. -/
def preCheck (m : Msg) (gp : UInt64) : Proc Err StateDB UInt64 := do
  let nonce ← .read fun s => s.getNonce m.sender
  .ensure (¬nonce < m.nonce) (.core .nonceTooHigh)
  .ensure (¬m.nonce < nonce) (.core .nonceTooLow)
  .ensureState (fun s => (m.gasCost : Int) ≤ s.getBalance m.sender) (.core .insufficientBalanceForGas)
  .ensure (m.gasLimit ≤ gp) (.core .gasLimitReached)
  .update fun s => s.subBalance M.toDatabase m.sender m.gasCost
  pure (gp - m.gasLimit)

/-- The contract call or creation of a message, with the gas that is left after the intrinsic cost. The
interpreter is started on the state `Call` or `Create` hands it. -/
def execute (ctx : Context) (m : Msg) (gas : UInt64) : Proc Err StateDB RunResult :=
  match m.recipient with
  | none =>
    create M.toDatabase 0 m.sender m.data gas m.amount (M.precompile default [] gas) fun self => do
      let t ← .read fun s => M.interpret ctx (view M s) ⟨m.sender, self, m.data, [], gas, m.amount⟩
      exec M.toDatabase t 1 self
  | some recipient => do
    .update fun s => s.setNonce M.toDatabase m.sender (s.getNonce m.sender + 1)
    call M.toDatabase 0 m.sender recipient gas m.amount (M.precompile recipient m.data gas) do
      let t ← .read fun s => M.interpret ctx (view M s)
        ⟨m.sender, recipient, s.getCode M.toDatabase recipient, m.data, gas, m.amount⟩
      exec M.toDatabase t 1 recipient

/-- `refundGas`: half of the used gas at most, and the rest is paid back. -/
def refundGas (m : Msg) (gas : UInt64) : Proc Err StateDB UInt64 := do
  let refund ← .read fun s => s.refund
  let gas := gas + min ((m.gasLimit - gas) / 2) refund
  .update fun s => s.addBalance M.toDatabase m.sender (gas.toNat * m.gasPrice : Nat)
  pure gas

/-- What `ApplyMessage` returns: the gas used, whether the contract failed, and the gas pool. -/
structure Applied where
  gasUsed : UInt64
  failed : Bool
  gasPool : UInt64

/-- `TransitionDb`. An error of the contract is compared with the `core` package's own value for an
insufficient balance; the `vm` package returns another one, so no error of the contract is returned. -/
def transitionDb (ctx : Context) (m : Msg) (gp : UInt64) : Proc Err StateDB Applied := do
  let gp ← preCheck M m gp
  let intrinsic ← .lift (intrinsicGas m.data m.recipient.isNone)
  .ensure (intrinsic ≤ m.gasLimit) (.vm .outOfGas)
  let r ← execute M ctx m (m.gasLimit - intrinsic)
  let vmerr : Option Err := r.err.map .vm
  .ensure (vmerr ≠ some (.core .insufficientBalance)) (.core .insufficientBalance)
  let gas ← refundGas M m r.gas
  .ensure (gp ≤ 0xFFFFFFFFFFFFFFFF - gas) (.panic .gasPoolOverflow)
  pure ⟨m.gasLimit - gas, r.err.isSome, gp + gas⟩

end

end Okchain.Core
