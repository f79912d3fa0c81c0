import Okchain.Protos.Crypto

/-! Authentication of peer messages.

A node signs `util.Hash` of a message whose signature field is cleared. The digest goes through the reflective encoder,
which has no writer for the signed integer behind `Message.Type`. The encoder's error is dropped, so the hash has been
fed nothing and the digest is the same for every message.
-/
namespace Okchain.Server
open Protos Okchain.Rlp
open Lib (Bytes)

def peerEndpointType : GoType :=
  .struct [.ptr (.struct [.string]), .string, .uint, .bytes, .string, .bytes]

/-- The type of `*pb.Message`, field by field. `Message_Type` is an `int32`. -/
def messageGoType : GoType :=
  .ptr (.struct [.int, .ptr (.struct [.uint, .uint]), .bytes, .bytes, .ptr peerEndpointType])

def timestampValue : Option Timestamp → GoValue
  | some t => .ptr (.struct [.uint t.second.toNat, .uint t.nanosecond.toNat])
  | none => .nil

def peerEndpointValue : Option PeerEndpoint → GoValue
  | some p => .ptr (.struct [match p.id with
      | some id => .ptr (.struct [.string id.name])
      | none => .nil, .string p.address, .uint p.port.toNat, .bytes p.pubkey, .string p.roleid,
      .bytes p.coinbase])
  | none => .nil

def messageValue (m : Message) : GoValue :=
  .ptr (.struct [.int m.type.code, timestampValue m.timestamp, .bytes m.payload, .bytes m.signature,
    peerEndpointValue m.peer])

/-- `util.Hash(message)`. -/
def messageHash (E : Env) (m : Message) : Hash := E.hash messageGoType (messageValue m)

/-- `PeerServer.MessageVerify`. -/
def messageVerify (E : Env) (m : Message) : Except Err Unit := do
  let msgHashBytes := (messageHash E {m with signature := []}).bytes
  let peer ← deref m.peer
  let ret ← verifyHash E msgHashBytes m.signature peer.pubkey
  if ret then return () else .error (.consensus .verifyMessage)

/-- What authentication is for: the messages accepted with a given peer and signature all carry the
same type, timestamp and payload. -/
def SignatureBindsContent (E : Env) (peer : PeerEndpoint) (signature : Bytes) : Prop :=
  ∀ m₁ m₂ : Message, m₁.peer = some peer → m₂.peer = some peer →
    m₁.signature = signature → m₂.signature = signature →
    messageVerify E m₁ = .ok () → messageVerify E m₂ = .ok () →
    m₁.type = m₂.type ∧ m₁.timestamp = m₂.timestamp ∧ m₁.payload = m₂.payload

theorem verifyHash_ne_false {E : Env} {msg sig pubKey : Bytes} : verifyHash E msg sig pubKey ≠ .ok false := by
  intro h
  obtain ⟨s, _, h⟩ := except_bind_ok.mp h
  obtain ⟨p, _, h⟩ := except_bind_ok.mp h
  obtain ⟨v, _, h⟩ := except_bind_ok.mp h
  cases v <;> cases h

/-- A message is accepted exactly when its signature is its peer's signature on the digest of the
empty string; type, timestamp and payload do not occur. -/
theorem messageVerify_ok_iff {E : Env} {m : Message} {peer : PeerEndpoint} (hp : m.peer = some peer) :
    messageVerify E m = .ok () ↔ verifyHash E (E.keccak []).bytes m.signature peer.pubkey = .ok true := by
  unfold messageVerify
  rw [hp]
  show (verifyHash E (E.keccak []).bytes m.signature peer.pubkey >>= _) = _ ↔ _
  rw [except_bind_ok]
  refine ⟨?_, fun h => ⟨true, h, rfl⟩⟩
  rintro ⟨ret, hret, h⟩
  cases ret with
  | true => exact hret
  | false => exact absurd hret verifyHash_ne_false

/-- **The message authentication theorem.** A peer and a signature bind what they are accepted with
only if they are accepted with nothing: as soon as the signature is the peer's signature on the
digest of the empty string, it authenticates every type, timestamp and payload. -/
theorem signatureBindsContent_iff (E : Env) (peer : PeerEndpoint) (signature : Bytes) :
    SignatureBindsContent E peer signature ↔
      verifyHash E (E.keccak []).bytes signature peer.pubkey ≠ .ok true := by
  refine ⟨fun hbinds hvalid => ?_, fun hinvalid m₁ m₂ hp₁ _ hs₁ _ hv₁ _ => ?_⟩
  · let message (payload : Bytes) : Message := ⟨.consensusAnnounce, none, payload, signature, some peer⟩
    have accepted (payload : Bytes) : messageVerify E (message payload) = .ok () :=
      (messageVerify_ok_iff rfl).mpr hvalid
    have heq : ([0] : Bytes) = [1] :=
      (hbinds (message [0]) (message [1]) rfl rfl rfl rfl (accepted _) (accepted _)).2.2
    exact absurd heq (by decide)
  · refine absurd ((messageVerify_ok_iff hp₁).mp hv₁) ?_
    rw [hs₁]
    exact hinvalid

/-- The node with private key 5 in the computable environment. -/
def samplePeer : PeerEndpoint where
  id := some ⟨[110]⟩
  address := []
  port := 0
  pubkey := Lib.MultiSig.natBytes 5
  roleid := []
  coinbase := []

/-- A message as an honest node signs and sends it. -/
def signedMessage (payload : Bytes) : Message where
  type := .consensusAnnounce
  timestamp := some ⟨1, 1⟩
  payload := payload
  signature := Lib.MultiSig.natBytes (5 * Lib.MultiSig.messageNat
    (messageHash Env.sample ⟨.consensusAnnounce, some ⟨1, 1⟩, [0], [], some samplePeer⟩).bytes)
  peer := some samplePeer

/-- The signature made for the payload `[0]` is accepted with the payload `[1]`. -/
theorem signedMessage_payload_swapped :
    messageVerify Env.sample (signedMessage [0]) = .ok () ∧
    messageVerify Env.sample {signedMessage [0] with payload := [1]} = .ok () ∧
    ¬SignatureBindsContent Env.sample samplePeer (signedMessage [0]).signature := by
  have h₀ : messageVerify Env.sample (signedMessage [0]) = .ok () := by decide +kernel
  have h₁ : messageVerify Env.sample {signedMessage [0] with payload := [1]} = .ok () := by
    decide +kernel
  refine ⟨h₀, h₁, fun hbinds => ?_⟩
  have heq : ([0] : Bytes) = [1] :=
    (hbinds (signedMessage [0]) {signedMessage [0] with payload := [1]} rfl rfl rfl rfl h₀ h₁).2.2
  exact absurd heq (by decide)

end Okchain.Server
