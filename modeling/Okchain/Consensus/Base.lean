import Okchain.Chain.Base
import Okchain.Core.StateRoot
import Okchain.Server.MessageVerify

/-! A node as the consensus engine sees it, after `core/server/peer.go` and `consensus_base.go`.

A node works on one current block of each kind. All carry a seal (a bool map, a signature and the sum of the signers'
keys) that is filled in as the round goes on and that the signed hash leaves out.
-/
namespace Okchain.Consensus
open Lib Proc Protos Core State

/-! ### Blocks with a seal -/

structure Seal where
  boolMap : List Bool
  signature : Bytes
  multiPubKey : Bytes
  deriving DecidableEq, Repr

def Seal.none : Seal := ⟨[], [], []⟩

/-- A kind of block: its seal, and the hash that is signed, which does not depend on the seal. -/
class SealedBlock (B : Type) where
  getSeal : B → Seal
  withSeal : B → Seal → B
  digest : Env → B → Except Err Hash
  getSeal_withSeal : ∀ b s, getSeal (withSeal b s) = s := by intros; rfl
  withSeal_withSeal : ∀ b s t, withSeal (withSeal b s) t = withSeal b t := by intros; rfl
  withSeal_getSeal : ∀ b, withSeal b (getSeal b) = b := by intros; rfl
  digest_withSeal : ∀ E b s, digest E (withSeal b s) = digest E b := by intros; rfl

export SealedBlock (getSeal withSeal digest getSeal_withSeal withSeal_withSeal withSeal_getSeal digest_withSeal)

instance : SealedBlock DSBlock where
  getSeal b := ⟨b.header.boolMap, b.header.signature, b.header.multiPubKey⟩
  withSeal b s := {b with header := {b.header with
    boolMap := s.boolMap, signature := s.signature, multiPubKey := s.multiPubKey}}
  digest E b := b.mHash E

instance : SealedBlock TxBlock where
  getSeal b := ⟨b.header.boolMap, b.header.signature, b.header.multiPubKey⟩
  withSeal b s := {b with header := {b.header with
    boolMap := s.boolMap, signature := s.signature, multiPubKey := s.multiPubKey}}
  digest E b := b.mHash E

instance : SealedBlock MicroBlock where
  getSeal b := ⟨b.header.boolMap, b.header.signature, b.header.multiPubKey⟩
  withSeal b s := {b with header := {b.header with
    boolMap := s.boolMap, signature := s.signature, multiPubKey := s.multiPubKey}}
  digest E b := b.hash E

instance : SealedBlock VCBlock where
  getSeal b := ⟨b.header.boolMap, b.header.signature, b.header.multiPubKey⟩
  withSeal b s := {b with header := {b.header with
    boolMap := s.boolMap, signature := s.signature, multiPubKey := s.multiPubKey}}
  digest E b := b.hash E

section

variable {B : Type} [SealedBlock B]

def withSignature (b : B) (signature : Bytes) : B :=
  withSeal b {getSeal b with signature := signature}

/-- The block without its seal. -/
def bare (b : B) : B := withSeal b .none

theorem bare_withSeal (b : B) (blockSeal : Seal) : bare (withSeal b blockSeal) = bare b :=
  withSeal_withSeal b blockSeal .none

theorem bare_withSignature (b : B) (x : Bytes) : bare (withSignature b x) = bare b := bare_withSeal b _

theorem withSignature_withSignature (b : B) (x y : Bytes) :
    withSignature (withSignature b x) y = withSignature b y := by
  unfold withSignature
  rw [withSeal_withSeal, getSeal_withSeal]

theorem getSeal_withSignature (b : B) (x : Bytes) : getSeal (withSignature b x) = {getSeal b with signature := x} := by
  unfold withSignature
  rw [getSeal_withSeal]

theorem digest_withSignature (E : Env) (b : B) (x : Bytes) :
    digest E (withSignature b x) = digest E b := digest_withSeal E b _

theorem withSignature_nil {b : B} (h : getSeal b = Seal.none) : withSignature b [] = b := by
  have hseal : {Seal.none with signature := []} = Seal.none := rfl
  unfold withSignature
  rw [h, hseal, ← h, withSeal_getSeal]

theorem withSeal_none {b : B} (h : getSeal b = Seal.none) (x : Seal) : withSeal (withSeal b x) Seal.none = b := by
  rw [withSeal_withSeal, ← h, withSeal_getSeal]

end

/-! ### What a node takes as given -/

/-- `proto.Marshal` and `proto.Unmarshal` for one type. -/
structure Codec (T : Type) where
  marshal : T → Bytes
  unmarshal : Bytes → Option T

def Codec.RoundTrip {T : Type} (c : Codec T) : Prop := ∀ x, c.unmarshal (c.marshal x) = some x

/-- `Unmarshal` with the error all callers return. -/
def Codec.decode {T : Type} (c : Codec T) (b : Bytes) : Except Err T :=
  match c.unmarshal b with
  | some x => .ok x
  | none => .error (.consensus .unmarshalMessage)

theorem Codec.decode_ok {T : Type} {c : Codec T} {b : Bytes} {x : T} : c.decode b = .ok x ↔ c.unmarshal b = some x := by
  unfold Codec.decode
  cases c.unmarshal b <;> simp

/-- The machine blocks are executed on, SHA-256 for Merkle trees, and the protobuf codec. -/
structure Platform extends Machine where
  sha256 : Bytes → Hash
  payload : Codec ConsensusPayload
  dsBlock : Codec DSBlock
  txBlock : Codec TxBlock
  microBlock : Codec MicroBlock
  vcBlock : Codec VCBlock
  boolMapSignature : Codec BoolMapSignature
  dsBlockWithSig2 : Codec DSBlockWithSig2
  txBlockWithSig2 : Codec TxBlockWithSig2
  vcBlockWithSig2 : Codec VCBlockWithSig2

/-- `PoWSubmission`, as far as blocks are made of it. -/
structure PoWSubmission where
  nonce : UInt64
  difficulty : UInt64
  peer : Option PeerEndpoint
  publicKey : Bytes

inductive Signable
  | dsBlock (b : DSBlock)
  | finalBlock (b : TxBlock)
  | microBlock (b : MicroBlock)
  | vcBlock (b : VCBlock)
  | signature (bytes : Bytes)
  | message (m : Message)

def Signable.bytes (E : Env) : Signable → Except Err Bytes
  | .dsBlock b => return (← b.mHash E).bytes
  | .finalBlock b => return (← b.mHash E).bytes
  | .microBlock b => return (← b.hash E).bytes
  | .vcBlock b => return (← b.hash E).bytes
  | .signature bytes => .ok bytes
  | .message m => .ok (Server.messageHash E m).bytes

/-! ### A node -/

/-- `PeerServer` with its `ConsensusData`, the leader a backup listens to, and the messages it has handed
to the network, oldest first. -/
structure PeerServer (P : Platform) where
  selfNode : PeerEndpoint
  privateKey : P.bls.PriKey
  coinBase : Bytes
  clock : Timestamp
  committee : List PeerEndpoint
  shardingNodes : List PeerEndpoint
  shardingSize : Nat
  coinbaseByPubkey : Bytes → Option Bytes
  dsHead : DSBlock
  txHead : TxBlock
  headState : AccountTrie
  leader : PeerEndpoint
  currentType : ConsensusType
  currentDSBlock : Option DSBlock
  currentFinalBlock : Option TxBlock
  currentMicroBlock : Option MicroBlock
  currentVCBlock : Option VCBlock
  poWSubList : List PoWSubmission
  powDifficulty : UInt64
  currentStage : ConsensusType
  lastStage : ConsensusType
  outbox : List Message
  /-- Every signature the node has made. Nothing reads it; it says what unforgeability means. -/
  issued : List Signable

/-- Where a node keeps its current block of one kind. -/
structure Slot (P : Platform) (B : Type) where
  get : PeerServer P → Option B
  set : B → PeerServer P → PeerServer P

section

variable (P : Platform)

abbrev NodeProc := Proc Err (PeerServer P)

def dsSlot : Slot P DSBlock := ⟨(·.currentDSBlock), fun b s => {s with currentDSBlock := some b}⟩
def finalSlot : Slot P TxBlock := ⟨(·.currentFinalBlock), fun b s => {s with currentFinalBlock := some b}⟩
def microSlot : Slot P MicroBlock := ⟨(·.currentMicroBlock), fun b s => {s with currentMicroBlock := some b}⟩
def vcSlot : Slot P VCBlock := ⟨(·.currentVCBlock), fun b s => {s with currentVCBlock := some b}⟩

end

variable {P : Platform}

def Slot.current {B : Type} (slot : Slot P B) : NodeProc P B := fun s => (deref (slot.get s), s)

def Slot.modify {B : Type} (slot : Slot P B) (f : B → B) : NodeProc P Unit := do
  let b ← slot.current
  .update (slot.set (f b))

section

variable {B : Type} {b : B} {s : PeerServer P}

theorem Slot.current_eq (slot : Slot P B) (s : PeerServer P) : slot.current s = (deref (slot.get s), s) := rfl

theorem Slot.current_run (slot : Slot P B) (h : slot.get s = some b) : slot.current s = (.ok b, s) := by
  rw [slot.current_eq, h]
  rfl

theorem Slot.current_none {slot : Slot P B} (h : slot.get s = none) :
    slot.current s = (.error (.panic .nilDereference), s) := by
  rw [slot.current_eq, h]
  rfl

theorem Slot.modify_run (slot : Slot P B) {f : B → B}
    (h : slot.get s = some b) : slot.modify f s = (.ok ⟨⟩, slot.set (f b) s) := by
  unfold Slot.modify
  rw [bind_run (slot.current_run h)]
  rfl

/-- What is put into the slot is found there, and replaces what was there. -/
structure Slot.Lawful (slot : Slot P B) : Prop where
  get_set : ∀ b s, slot.get (slot.set b s) = some b
  set_set : ∀ b c s, slot.set b (slot.set c s) = slot.set b s

theorem dsSlot_lawful : (dsSlot P).Lawful := ⟨fun _ _ => rfl, fun _ _ _ => rfl⟩
theorem microSlot_lawful : (microSlot P).Lawful := ⟨fun _ _ => rfl, fun _ _ _ => rfl⟩
theorem vcSlot_lawful : (vcSlot P).Lawful := ⟨fun _ _ => rfl, fun _ _ _ => rfl⟩

end

/-- `BlSSign`; the buffer is passed as a pointer to its first byte. -/
def blsSign (what : Signable) : NodeProc P P.bls.Sig := do
  let bytes ← .lift (what.bytes P.toEnv)
  .ensure (bytes ≠ []) (.panic .indexOutOfRange)
  .update fun s => {s with issued := what :: s.issued}
  .read fun s => P.bls.sign s.privateKey bytes

/-- A message of the node with its signature, made with `SignHash`. -/
def signedMessage (type : MessageType) (payload : Bytes) : NodeProc P Message := do
  let unsigned ← .read fun s => (⟨type, some s.clock, payload, [], some s.selfNode⟩ : Message)
  let signature ← blsSign (.message unsigned)
  pure {unsigned with signature := P.bls.serializeSig signature}

def send (m : Message) : NodeProc P Unit := .update fun s => {s with outbox := s.outbox ++ [m]}

/-! ### Checks of signatures -/

section

variable (E : Env)

/-- `PubKey.Deserialize` where the error is dropped and a zero key is left. -/
def readPub (b : Bytes) : Except Err E.bls.PubKey :=
  if b = [] then .error (.panic .indexOutOfRange) else .ok ((E.bls.deserializePub b).getD 0)

/-- `Sig.Deserialize` where the error is dropped and a zero signature is left. -/
def readSig (b : Bytes) : Except Err E.bls.Sig :=
  if b = [] then .error (.panic .indexOutOfRange) else .ok ((E.bls.deserializeSig b).getD 0)

/-- The sum of the selected keys and their number. This loop runs over the bool map, so a set bit past
the last member panics. -/
def sumByBoolMap : List Bool → List PeerEndpoint → Except Err (E.bls.PubKey × Nat)
  | [], _ => .ok (0, 0)
  | false :: bits, ps => sumByBoolMap bits ps.tail
  | true :: _, [] => .error (.panic .indexOutOfRange)
  | true :: bits, p :: ps => do
    let pub ← readPub E p.pubkey
    let (rest, n) ← sumByBoolMap bits ps
    return (pub + rest, n + 1)

def verifyMultiSignByBoolMap (boolMap : List Bool) (committeeSort : List PeerEndpoint) (signature : E.bls.Sig)
    (hash : Bytes) (expected : Int) : Except Err Unit := do
  if boolMap.length ≠ committeeSort.length then .error (.crypto .boolMapLength)
  else
    let (multiPubkey, counter) ← sumByBoolMap E boolMap committeeSort
    if counter < expected then .error (.crypto .notEnoughSignatures)
    else if ← blsVerify E signature multiPubkey hash then return ⟨⟩
    else .error (.crypto .verifyingSignaturesFailed)

/-- The seal of a block against its own keys; `Deserialize` errors are dropped. -/
def verifySeal {B : Type} [SealedBlock B] (b : B) : Except Err Bool := do
  let pub ← readPub E (getSeal b).multiPubKey
  let sig ← readSig E (getSeal b).signature
  let hash ← digest E b
  blsVerify E sig pub hash.bytes

end

end Okchain.Consensus
