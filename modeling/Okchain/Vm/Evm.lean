import Okchain.State.StateDB

/-! Message calls and contract creation, after `core/vm/evm.go`.

The bytecode interpreter is taken as given. What it does to the world state in one run is a `Trace`: the state operations
of the opcodes in order, with the traces of the calls and creations in between, and how the run ended. Everything around
it is modelled.
-/
namespace Okchain.Vm
open Lib State
open Okchain.Rlp (ofBytes ofUint)

/-- How a call or a run ended: the returned data, the gas that is left and the error. -/
structure RunResult where
  ret : Bytes
  gas : UInt64
  err : Option VmErr
  deriving DecidableEq

/-- What one run of the interpreter does to the state. The account operated on is the frame's own
address, except where an address is given. -/
inductive Trace
  | halt (r : RunResult)
  | sstore (key value : Hash) (next : Trace)
  | refund (gas : UInt64) (next : Trace)
  | log (l : Log) (next : Trace)
  | preimage (hash : Hash) (data : Bytes) (next : Trace)
  | selfdestruct (beneficiary : Address) (next : Trace)
  | call (addr : Address) (gas : UInt64) (value : Nat) (sub next : Trace)
  | callCode (addr : Address) (gas : UInt64) (value : Nat) (sub next : Trace)
  | delegateCall (addr : Address) (gas : UInt64) (sub next : Trace)
  | staticCall (addr : Address) (gas : UInt64) (sub next : Trace)
  | create (code : Bytes) (gas : UInt64) (value : Nat) (sub next : Trace)

def Trace.result : Trace → RunResult
  | .halt r => r
  | .sstore _ _ next | .refund _ next | .log _ next | .preimage _ _ next | .selfdestruct _ next
  | .call _ _ _ _ next | .callCode _ _ _ _ next | .delegateCall _ _ _ next | .staticCall _ _ _ next
  | .create _ _ _ _ next => next.result

def callCreateDepth : Nat := 1024

def maxCodeSize : Nat := 24576

/-- The addresses of `PrecompiledContractsByzantium`. -/
def precompiled (a : Address) : Bool :=
  (List.range 8).any fun i => a == bytesToAddress [UInt8.ofNat (i + 1)]

/-- `crypto.CreateAddress`. -/
def createAddress (E : Env) (b : Address) (nonce : UInt64) : Address :=
  bytesToAddress ((E.hashList [ofBytes b.bytes, ofUint nonce.toNat]).bytes.drop 12)

section

variable (D : Database)

def canTransfer (s : StateDB) (addr : Address) (amount : Nat) : Bool := amount ≤ s.getBalance addr

def transfer (sender recipient : Address) (amount : Nat) : Proc Err StateDB PUnit := do
  StateDB.subBalanceAndWeight D sender amount
  StateDB.addBalanceAndWeight D recipient amount

/-- `run`: a precompiled contract computes its result, `builtin`, without touching the state, and an
account without code has nothing to run. -/
def run (codeAddr : Address) (code : Bytes) (gas : UInt64) (builtin : RunResult)
    (interpret : Proc Err StateDB RunResult) : Proc Err StateDB RunResult :=
  if precompiled codeAddr then pure builtin
  else if code = [] then pure ⟨[], gas, none⟩
  else interpret

/-- What follows `run` in every kind of call: an error rolls the state back, and takes all gas unless
the contract reverted. -/
def settle (snapshot : Nat) (r : RunResult) : Proc Err StateDB RunResult :=
  match r.err with
  | none => pure r
  | some e => do
    StateDB.revertToSnapshot snapshot
    pure {r with gas := if e = .executionReverted then r.gas else 0}

/-- The checks at the start of `Call`, `CallCode` and `Create`. -/
def checked (depth : Nat) (caller : Address) (gas : UInt64) (value : Nat) (rest : Proc Err StateDB RunResult) :
    Proc Err StateDB RunResult := do
  let can ← .read fun s => canTransfer s caller value
  if callCreateDepth < depth then pure ⟨[], gas, some .depth⟩
  else if !can then pure ⟨[], gas, some .insufficientBalance⟩
  else rest

/-- The end of every kind of call. -/
def runCode (snapshot : Nat) (addr : Address) (gas : UInt64) (builtin : RunResult)
    (interpret : Proc Err StateDB RunResult) : Proc Err StateDB RunResult := do
  let code ← .read fun s => s.getCode D addr
  let r ← run addr code gas builtin interpret
  settle snapshot r

/-- `Call` creates the account it calls if there is none. -/
def createIfAbsent (present : Bool) (addr : Address) : Proc Err StateDB PUnit :=
  if present then pure ⟨⟩ else StateDB.createAccount D addr

def call (depth : Nat) (caller addr : Address) (gas : UInt64) (value : Nat) (builtin : RunResult)
    (interpret : Proc Err StateDB RunResult) : Proc Err StateDB RunResult :=
  checked depth caller gas value do
    let snapshot ← .step StateDB.snapshot
    let present ← .read fun s => s.exist addr
    if !present && !precompiled addr && value == 0 then pure ⟨[], gas, none⟩
    else do
      createIfAbsent D present addr
      transfer D caller addr value
      runCode D snapshot addr gas builtin interpret

/-- `CallCode`: the code of `addr` runs on the caller's account. -/
def callCode (depth : Nat) (caller addr : Address) (gas : UInt64) (value : Nat) (builtin : RunResult)
    (interpret : Proc Err StateDB RunResult) : Proc Err StateDB RunResult :=
  checked depth caller gas value do
    let snapshot ← .step StateDB.snapshot
    runCode D snapshot addr gas builtin interpret

/-- `DelegateCall` and `StaticCall`: no value moves. -/
def plainCall (depth : Nat) (addr : Address) (gas : UInt64) (builtin : RunResult)
    (interpret : Proc Err StateDB RunResult) : Proc Err StateDB RunResult :=
  if callCreateDepth < depth then pure ⟨[], gas, some .depth⟩
  else do
    let snapshot ← .step StateDB.snapshot
    runCode D snapshot addr gas builtin interpret

/-- What follows `run` in a creation: the returned data becomes the code if it is not too long and
can be paid for. A creation that cannot pay for its code is not rolled back. -/
def settleCreate (contractAddr : Address) (snapshot : Nat) (r : RunResult) : Proc Err StateDB RunResult :=
  if maxCodeSize < r.ret.length then do
    StateDB.revertToSnapshot snapshot
    pure {r with
      gas := if r.err = some .executionReverted then r.gas else 0
      err := some (r.err.getD .maxCodeSizeExceeded)}
  else match r.err with
    | none =>
      let createDataGas := UInt64.ofNat r.ret.length * 200
      if createDataGas ≤ r.gas then do
        .update fun s => s.setCode D contractAddr r.ret
        pure {r with gas := r.gas - createDataGas}
      else pure {r with err := some .codeStoreOutOfGas}
    | some .codeStoreOutOfGas => pure r
    | some e => settle snapshot {r with err := some e}

/-- The part of `Create` that starts with the snapshot: the account, the value, the code. -/
def createContract (caller contractAddr : Address) (code : Bytes) (gas : UInt64) (value : Nat)
    (builtin : RunResult) (interpret : Proc Err StateDB RunResult) : Proc Err StateDB RunResult := do
  let snapshot ← .step StateDB.snapshot
  StateDB.createAccount D contractAddr
  .update fun s => s.setNonce D contractAddr 1
  transfer D caller contractAddr value
  let r ← run contractAddr code gas builtin interpret
  settleCreate D contractAddr snapshot r

/-- `Create`. The creator's nonce is raised only once its balance is known to cover the value. -/
def create (depth : Nat) (caller : Address) (code : Bytes) (gas : UInt64) (value : Nat)
    (builtin : RunResult) (interpret : Address → Proc Err StateDB RunResult) :
    Proc Err StateDB RunResult :=
  checked depth caller gas value do
    let nonce ← .read fun s => s.getNonce caller
    .update fun s => s.setNonce D caller (nonce + 1)
    let contractAddr := createAddress D.toEnv caller nonce
    let collides ← .read fun s => s.getNonce contractAddr != 0 ||
      (s.getCodeHash contractAddr != default && (s.getCodeHash contractAddr).bytes != D.emptyCodeHash)
    if collides then pure ⟨[], 0, some .contractAddressCollision⟩
    else createContract D caller contractAddr code gas value builtin (interpret contractAddr)

/-- The state operations of a run, at a call depth and for the account `self`. -/
def exec : Trace → Nat → Address → Proc Err StateDB RunResult
  | .halt r, _, _ => pure r
  | .sstore key value next, depth, self => do
    .update fun s => s.setState D self key value
    exec next depth self
  | .refund gas next, depth, self => do
    .update fun s => s.addRefund gas
    exec next depth self
  | .log l next, depth, self => do
    .update fun s => s.addLog l
    exec next depth self
  | .preimage hash data next, depth, self => do
    .update fun s => s.addPreimage hash data
    exec next depth self
  | .selfdestruct beneficiary next, depth, self => do
    .update fun s => (s.addBalance D beneficiary (s.getBalance self)).suicide self
    exec next depth self
  | .call addr gas value sub next, depth, self => do
    let _ ← call D depth self addr gas value sub.result (exec sub (depth + 1) addr)
    exec next depth self
  | .callCode addr gas value sub next, depth, self => do
    let _ ← callCode D depth self addr gas value sub.result (exec sub (depth + 1) self)
    exec next depth self
  | .delegateCall addr gas sub next, depth, self => do
    let _ ← plainCall D depth addr gas sub.result (exec sub (depth + 1) self)
    exec next depth self
  | .staticCall addr gas sub next, depth, self => do
    let _ ← plainCall D depth addr gas sub.result (exec sub (depth + 1) addr)
    exec next depth self
  | .create code gas value sub next, depth, self => do
    let _ ← create D depth self code gas value sub.result (exec sub (depth + 1))
    exec next depth self

end

end Okchain.Vm
