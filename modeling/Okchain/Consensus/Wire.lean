import Mathlib.Logic.Equiv.List
import Mathlib.Tactic.DeriveEncodable
import Okchain.Chain.DsChain
import Okchain.Consensus.Base

/-! A wire format that loses nothing.

The model takes the protobuf codec as given. Here is one for which the round trip holds: a message is
numbered, and the number is written in bytes. With it every hypothesis about the wire can be met.
-/
namespace Okchain

instance encodableUInt8 : Encodable UInt8 := Encodable.ofLeftInverse UInt8.toNat UInt8.ofNat fun _ => UInt8.ofNat_toNat
instance encodableUInt32 : Encodable UInt32 := Encodable.ofLeftInverse UInt32.toNat UInt32.ofNat fun _ => UInt32.ofNat_toNat
instance encodableUInt64 : Encodable UInt64 := Encodable.ofLeftInverse UInt64.toNat UInt64.ofNat fun _ => UInt64.ofNat_toNat
instance : Encodable Lib.Bytes := inferInstanceAs (Encodable (List UInt8))

namespace Protos

deriving instance Encodable for Timestamp
deriving instance Encodable for PeerID
deriving instance Encodable for PeerEndpoint
deriving instance Encodable for DSBlockHeader
deriving instance Encodable for DSBlockBody
deriving instance Encodable for DSBlock
deriving instance Encodable for Transaction
deriving instance Encodable for TxBlockHeader
deriving instance Encodable for TxBlockBody
deriving instance Encodable for TxBlock
deriving instance Encodable for MicroBlock
deriving instance Encodable for VCBlockHeader
deriving instance Encodable for VCBlock
deriving instance Encodable for BoolMapSignature
deriving instance Encodable for DSBlockWithSig2
deriving instance Encodable for TxBlockWithSig2
deriving instance Encodable for VCBlockWithSig2
deriving instance Encodable for ConsensusType
deriving instance Encodable for ConsensusPayload

end Protos

namespace Consensus
open Lib Protos Core

def Codec.numbered (T : Type) [Encodable T] : Codec T where
  marshal x := MultiSig.natBytes (Encodable.encode x)
  unmarshal b := (MultiSig.ofNatBytes b).bind Encodable.decode

theorem Codec.numbered_roundTrip (T : Type) [Encodable T] : (Codec.numbered T).RoundTrip := by
  intro x
  show (MultiSig.ofNatBytes (MultiSig.natBytes _)).bind _ = _
  rw [MultiSig.ofNatBytes_natBytes]
  exact Encodable.encodek x

/-- The computable machine with this wire format. -/
def Platform.sample : Platform where
  toMachine := Machine.sample
  sha256 := checksum
  payload := .numbered _
  dsBlock := .numbered _
  txBlock := .numbered _
  microBlock := .numbered _
  vcBlock := .numbered _
  boolMapSignature := .numbered _
  dsBlockWithSig2 := .numbered _
  txBlockWithSig2 := .numbered _
  vcBlockWithSig2 := .numbered _

/-- A node of the computable platform, on a chain of one DS block with one submission of work. -/
def sampleNode (key : Nat) (committee : List PeerEndpoint) : PeerServer Platform.sample where
  selfNode := Chain.peerWithKey key
  privateKey := key
  coinBase := []
  clock := ⟨1, 1⟩
  committee := committee
  shardingNodes := []
  shardingSize := 1
  coinbaseByPubkey := fun _ => none
  dsHead := Chain.dsFirst
  txHead := sampleBlock 0 []
  headState := fun _ => none
  leader := Chain.peerWithKey 5
  currentType := .dsBlock
  currentDSBlock := none
  currentFinalBlock := none
  currentMicroBlock := none
  currentVCBlock := none
  poWSubList := [⟨0, 1, some (Chain.peerWithKey 7), MultiSig.natBytes 7⟩]
  powDifficulty := 1
  currentStage := .dsBlock
  lastStage := .dsBlock
  outbox := []
  issued := []

end Consensus
end Okchain
