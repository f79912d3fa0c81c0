import Okchain.Gossip.StateTransfer
import Okchain.Lib.Proc
import Okchain.Protos.Types

/-! The blocks of a state response, after `addPayload` in `p2p/gossip/state/state.go`.

`addPayload` decodes a payload and hands the block to the ledger by a channel. That the bytes do not decode, and that
the block has no header or no body, is logged and nothing else. A transaction block without a body does not get there,
because the line before logs the number of its transactions.
-/
namespace Okchain.Gossip.Payloads
open Lib Proc Protos List
open UInt64 (not_le not_lt toNat_inj)

/-! ### The model -/

/-- A decoded block with the pointers to its two parts. -/
structure RawBlock (H B : Type) where
  header : Option H
  body : Option B

/-- What `Unmarshal` leaves: whether it succeeded, and the block, which an error may leave filled in part. -/
structure Unmarshalled (H B : Type) extends RawBlock H B where
  ok : Bool

structure Decoders where
  ds : Bytes → Unmarshalled DSBlockHeader DSBlockBody
  tx : Bytes → Unmarshalled TxBlockHeader TxBlockBody

structure Payload where
  seqNum : UInt64
  data : Bytes

structure RemoteStateResponse where
  payloads : List Payload
  isDsBlock : Bool

/-- The heights of the ledgers, and what has been passed to the block channels. -/
structure StateProvider where
  dsHeight : UInt64
  txHeight : UInt64
  dsBlockCh : List (RawBlock DSBlockHeader DSBlockBody)
  txBlockCh : List (RawBlock TxBlockHeader TxBlockBody)

def StateProvider.height (s : StateProvider) (isDsBlock : Bool) : UInt64 :=
  if isDsBlock then s.dsHeight else s.txHeight

/-- The errors of `addPayload`. -/
inductive PayloadErr
  | panic (p : Panic)
  | nilPayload
  | cannotEnqueue (height seqNum : UInt64)
  deriving DecidableEq

def defMaxBlockDistance : UInt64 := 100

variable (D : Decoders)

/-- `addPayload` once the payload is near enough. What is wrong with the block is logged. -/
def transferBlock (payload : Payload) (isDsBlock : Bool) : Proc PayloadErr StateProvider Unit :=
  if isDsBlock then
    let rawDsBlock := D.ds payload.data
    .update fun s => {s with dsBlockCh := s.dsBlockCh ++ [rawDsBlock.toRawBlock]}
  else do
    let rawTxBlock := D.tx payload.data
    -- the number of transactions is logged
    .ensure (rawTxBlock.body.isSome = true) (.panic .nilDereference)
    .update fun s => {s with txBlockCh := s.txBlockCh ++ [rawTxBlock.toRawBlock]}

def addPayload (payload : Option Payload) (blockingMode isDsBlock : Bool) : Proc PayloadErr StateProvider Unit :=
  match payload with
  | none => .throw .nilPayload
  | some payload => do
    let height ← .read (·.height isDsBlock)
    .ensure (blockingMode = true ∨ payload.seqNum - height < defMaxBlockDistance)
      (.cannotEnqueue height payload.seqNum)
    transferBlock D payload isDsBlock

def logged (x : Proc PayloadErr StateProvider Unit) : Proc PayloadErr StateProvider Unit := fun s =>
  match x s with
  | (.error (.panic p), t) => (.error (.panic p), t)
  | (_, t) => (.ok (), t)

/-- The loop of `handleStateResponse`. A decoded response has no nil payload. -/
def receive (isDsBlock : Bool) : UInt64 → List Payload → Proc PayloadErr StateProvider UInt64
  | max, [] => pure max
  | max, payload :: rest => do
    logged (addPayload D (some payload) true isDsBlock)
    receive isDsBlock (if max < payload.seqNum then payload.seqNum else max) rest

/-- `handleStateResponse`: the highest sequence number, or nothing for an empty response. -/
def handleStateResponse (response : RemoteStateResponse) : Proc PayloadErr StateProvider (Option UInt64) :=
  if response.payloads.isEmpty then pure none
  else do return some (← receive D response.isDsBlock 0 response.payloads)

/-! ### Payloads to be refused -/

/-- The data decode to a block with a header and a body. -/
def Unmarshalled.WellFormed {H B : Type} (u : Unmarshalled H B) : Prop :=
  u.ok = true ∧ u.header.isSome = true ∧ u.body.isSome = true

/-- The payload carries a block of the kind the response says it does. -/
def WellFormed (isDsBlock : Bool) (payload : Payload) : Prop :=
  if isDsBlock then (D.ds payload.data).WellFormed else (D.tx payload.data).WellFormed

/-- The call returns an error and passes nothing to the channels. -/
def Refused (x : Proc PayloadErr StateProvider Unit) (s : StateProvider) : Prop :=
  ∃ e, x s = (.error e, s) ∧ ∀ p, e ≠ .panic p

instance {H B : Type} (u : Unmarshalled H B) : Decidable u.WellFormed :=
  inferInstanceAs (Decidable (u.ok = true ∧ u.header.isSome = true ∧ u.body.isSome = true))

instance (isDsBlock : Bool) : DecidablePred (WellFormed D isDsBlock) := fun payload =>
  match isDsBlock with
  | true => inferInstanceAs (Decidable (D.ds payload.data).WellFormed)
  | false => inferInstanceAs (Decidable (D.tx payload.data).WellFormed)

/-- The payload as far as the transfer depends on it. -/
def Payload.outline (payload : Payload) : Gossip.Payload := ⟨payload.seqNum, (D.tx payload.data).body.isSome⟩

/-- The provider that has passed on what the decoder makes of a payload. -/
def StateProvider.pass (isDsBlock : Bool) (s : StateProvider) (payload : Payload) : StateProvider :=
  if isDsBlock then {s with dsBlockCh := s.dsBlockCh ++ [(D.ds payload.data).toRawBlock]}
  else {s with txBlockCh := s.txBlockCh ++ [(D.tx payload.data).toRawBlock]}

section
variable {D} {s t : StateProvider} {payload : Payload} {blockingMode isDsBlock : Bool}

/-! ### One payload -/

theorem transferBlock_run : transferBlock D payload isDsBlock s =
    match Gossip.addPayload (payload.outline D) isDsBlock with
    | .ok _ => (.ok (), s.pass D isDsBlock payload)
    | .error p => (.error (.panic p), s) := by
  unfold transferBlock Gossip.addPayload
  cases isDsBlock with
  | true => rfl
  | false =>
    by_cases hbody : (D.tx payload.data).body.isSome = true
    · have houtline : (payload.outline D).hasBody = true := hbody
      rw [if_neg (by decide), bind_ensure hbody, houtline]
      rfl
    · have houtline : (payload.outline D).hasBody = false := Bool.eq_false_iff.mpr hbody
      rw [if_neg (by decide), bind_ensure_not hbody, houtline]
      rfl

theorem addPayload_near (h : blockingMode = true ∨ payload.seqNum - s.height isDsBlock < defMaxBlockDistance) :
    addPayload D (some payload) blockingMode isDsBlock s = transferBlock D payload isDsBlock s := by
  show (Proc.read _ >>= _) s = _
  rw [bind_read, bind_ensure h]

theorem refused_iff : Refused (addPayload D (some payload) blockingMode isDsBlock) s ↔
    blockingMode = false ∧ defMaxBlockDistance ≤ payload.seqNum - s.height isDsBlock := by
  by_cases hnear : blockingMode = true ∨ payload.seqNum - s.height isDsBlock < defMaxBlockDistance
  · refine iff_of_false ?_ ?_
    · rintro ⟨e, herror, hreturned⟩
      rw [addPayload_near hnear, transferBlock_run] at herror
      cases hadd : Gossip.addPayload (payload.outline D) isDsBlock with
      | ok u =>
        rw [hadd] at herror
        exact nomatch congrArg Prod.fst herror
      | error p =>
        rw [hadd] at herror
        exact hreturned p (Except.error.inj (congrArg Prod.fst herror)).symm
    · rintro ⟨hmode, hfar⟩
      rcases hnear with hblocking | hnear
      · exact absurd (hmode.symm.trans hblocking) (by decide)
      · exact absurd hfar (not_le.mpr hnear)
  · refine iff_of_true ⟨.cannotEnqueue (s.height isDsBlock) payload.seqNum, ?_, fun _ => nofun⟩
      ⟨Bool.eq_false_iff.mpr fun h => hnear (.inl h), not_lt.mp fun h => hnear (.inr h)⟩
    show (Proc.read _ >>= _) s = _
    rw [bind_read, bind_ensure_not hnear]

/-- **The bad payload theorem.** Nothing that is wrong with a payload is a reason to refuse it. So a bad one is
refused only when the payload is too far from the ledger and the caller does not block, and
`handleStateResponse` blocks. -/
theorem malformed_refused_iff (D : Decoders) (s : StateProvider) (payload : Payload) (blockingMode isDsBlock : Bool) :
    (¬WellFormed D isDsBlock payload → Refused (addPayload D (some payload) blockingMode isDsBlock) s) ↔
      WellFormed D isDsBlock payload ∨
        (blockingMode = false ∧ defMaxBlockDistance ≤ payload.seqNum - s.height isDsBlock) := by
  rw [refused_iff]
  exact Classical.or_iff_not_imp_left.symm

/-! ### A whole response -/

theorem logged_transfer : logged (addPayload D (some payload) true isDsBlock) s =
    transferBlock D payload isDsBlock s := by
  unfold logged
  rw [addPayload_near (.inl rfl), transferBlock_run]
  cases Gossip.addPayload (payload.outline D) isDsBlock <;> rfl

/-- The loop runs as the transfer takes it to, and passes on every payload it comes to. -/
theorem receive_outline (D : Decoders) (isDsBlock : Bool) (payloads : List Payload) (max : UInt64) (s : StateProvider) :
    (receive D isDsBlock max payloads s).1 =
      (Gossip.receive isDsBlock max (payloads.map (·.outline D))).mapError .panic ∧
    ∀ index t, receive D isDsBlock max payloads s = (.ok index, t) → t = payloads.foldl (·.pass D isDsBlock) s := by
  induction payloads generalizing max s with
  | nil => exact ⟨rfl, fun index t h => (pure_ok.mp h).2⟩
  | cons payload rest ih =>
    unfold receive Gossip.receive
    cases hadd : Gossip.addPayload (payload.outline D) isDsBlock with
    | error p =>
      have hrun : logged (addPayload D (some payload) true isDsBlock) s = (.error (.panic p), s) := by
        rw [logged_transfer, transferBlock_run, hadd]
      rw [bind_fails _ hrun]
      exact ⟨by simp only [map_cons, hadd]; rfl, fun _ _ h => nomatch congrArg Prod.fst h⟩
    | ok u =>
      have hrun : logged (addPayload D (some payload) true isDsBlock) s = (.ok (), s.pass D isDsBlock payload) := by
        rw [logged_transfer, transferBlock_run, hadd]
      rw [bind_run hrun]
      obtain ⟨hindex, hstate⟩ := ih (if max < payload.seqNum then payload.seqNum else max) (s.pass D isDsBlock payload)
      refine ⟨?_, hstate⟩
      rw [hindex]
      simp only [map_cons, hadd]
      rfl

theorem handleStateResponse_run {payloads : List Payload} (h : payloads ≠ []) :
    handleStateResponse D ⟨payloads, isDsBlock⟩ s =
      ((receive D isDsBlock 0 payloads s).1.map some, (receive D isDsBlock 0 payloads s).2) := by
  unfold handleStateResponse
  rw [if_neg (fun hempty => h (isEmpty_iff.mp hempty))]
  rcases hrun : receive D isDsBlock 0 payloads s with ⟨e | index, t⟩
  · exact bind_fails _ hrun
  · exact bind_run hrun

theorem handleStateResponse_outline (D : Decoders) (s : StateProvider) (payloads : List Payload) (isDsBlock : Bool) :
    (handleStateResponse D ⟨payloads, isDsBlock⟩ s).1 =
      (Gossip.handleStateResponse ⟨payloads.map (·.outline D), isDsBlock⟩).mapError .panic := by
  cases payloads with
  | nil => rfl
  | cons payload rest =>
    rw [handleStateResponse_run (cons_ne_nil payload rest), (receive_outline D isDsBlock _ 0 s).1]
    show _ = (Gossip.receive isDsBlock 0 ((payload :: rest).map (·.outline D)) >>= (pure ∘ some)).mapError _
    cases Gossip.receive isDsBlock 0 ((payload :: rest).map (·.outline D)) <;> rfl

end

/-! ### Bytes that do not decode -/

def noDecoders : Decoders := ⟨fun _ => ⟨⟨none, none⟩, false⟩, fun _ => ⟨⟨none, none⟩, false⟩⟩

/-- A node at height one that has passed on nothing. -/
def freshProvider : StateProvider := ⟨1, 1, [], []⟩

/-- One payload without data. As a DS block it goes into the channel as a block without header and body; as a
transaction block it takes the node down. -/
theorem empty_payload_taken : ∃ (D : Decoders) (s : StateProvider) (payload : Payload),
    ¬WellFormed D true payload ∧ ¬WellFormed D false payload ∧
    addPayload D (some payload) true true s = (.ok (), {s with dsBlockCh := [⟨none, none⟩]}) ∧
    addPayload D (some payload) true false s = (.error (.panic .nilDereference), s) ∧
    (handleStateResponse D ⟨[payload], true⟩ s).1 = .ok (some payload.seqNum) ∧
    (handleStateResponse D ⟨[payload], false⟩ s).1 = .error (.panic .nilDereference) :=
  ⟨noDecoders, freshProvider, ⟨1, []⟩, by decide, by decide, rfl, rfl, rfl, rfl⟩

/-! ### Requests -/

structure StateRequest where
  startSeqNum : UInt64
  endSeqNum : UInt64
  isDsBlock : Bool

/-- The numbers the loop of `handleStateRequest` runs over. -/
def served (s : StateProvider) (request : StateRequest) : List UInt64 :=
  if defAntiEntropyBatchSize < request.endSeqNum - request.startSeqNum then []
  else if request.endSeqNum < request.startSeqNum then []
  else
    let endSeqNum := minUint64 (s.height request.isDsBlock) request.endSeqNum
    (List.range' request.startSeqNum.toNat (endSeqNum.toNat - request.startSeqNum.toNat)).map UInt64.ofNat

/-- `handleStateRequest`, up to the response. The ledger gives a block as bytes, or nothing where it has none. -/
def handleStateRequest (ledger : Bool → UInt64 → Option Bytes) (s : StateProvider) (request : StateRequest) :
    RemoteStateResponse :=
  ⟨(served s request).filterMap fun n => (ledger request.isDsBlock n).map (⟨n, ·⟩), request.isDsBlock⟩

theorem minUint64_eq (a b : UInt64) : minUint64 a b = if (a - b).toNat < 2 ^ 63 then b else a := by
  have hsign : ((a - b) >>> 63).toNat = (a - b).toNat / 2 ^ 63 := by
    simp [UInt64.toNat_shiftRight, Nat.shiftRight_eq_div_pow]
  have hlt := (a - b).toNat_lt
  split
  · next h =>
    have hzero : (a - b) >>> 63 = 0 := toNat_inj.mp (by rw [hsign]; simp; omega)
    simp [minUint64, hzero]
  · next h =>
    have hone : (a - b) >>> 63 = 1 := toNat_inj.mp (by rw [hsign]; simp; omega)
    rw [minUint64, hone, UInt64.and_neg_one, UInt64.xor_comm a b, ← UInt64.xor_assoc, UInt64.xor_self, UInt64.zero_xor]

theorem minUint64_eq_min (a b : UInt64) :
    minUint64 a b = min a b ↔ b.toNat ≤ a.toNat + 2 ^ 63 ∧ a.toNat < b.toNat + 2 ^ 63 := by
  have hmin : min a b = if a.toNat ≤ b.toNat then a else b := rfl
  have ha := a.toNat_lt
  have hb := b.toNat_lt
  rw [minUint64_eq, hmin, ← toNat_inj, UInt64.toNat_sub]
  split <;> split <;> omega

theorem mem_served {s : StateProvider} {request : StateRequest} {n : UInt64} : n ∈ served s request ↔
    request.endSeqNum - request.startSeqNum ≤ defAntiEntropyBatchSize ∧ request.startSeqNum ≤ request.endSeqNum ∧
      request.startSeqNum ≤ n ∧ n < minUint64 (s.height request.isDsBlock) request.endSeqNum := by
  unfold served
  split
  · next h => simp [not_le.mpr h]
  · next hbatch =>
    split
    · next h => simp [not_le.mpr h]
    · next horder =>
      simp only [not_lt.mp hbatch, not_lt.mp horder, true_and, mem_map, List.mem_range'_1,
        UInt64.le_iff_toNat_le, UInt64.lt_iff_toNat_lt]
      constructor
      · rintro ⟨k, ⟨hstart, hend⟩, rfl⟩
        have hlt := (minUint64 (s.height request.isDsBlock) request.endSeqNum).toNat_lt
        rw [UInt64.toNat_ofNat_of_lt' (show k < 2 ^ 64 by omega)]
        omega
      · rintro ⟨hstart, hend⟩
        exact ⟨n.toNat, by omega, UInt64.ofNat_toNat⟩

/-- The response has the numbers the ledger has a block for. -/
theorem handleStateRequest_numbers (ledger : Bool → UInt64 → Option Bytes) (s : StateProvider) (request : StateRequest) :
    (handleStateRequest ledger s request).payloads.map (·.seqNum) =
      (served s request).filter fun n => (ledger request.isDsBlock n).isSome := by
  unfold handleStateRequest
  induction served s request with
  | nil => rfl
  | cons n rest ih => cases h : ledger request.isDsBlock n <;> simp [h, ih]

/-- **What is served.** The branch-free minimum is right exactly if the difference of its arguments fits into 63 bits,
and a request is served from below the height unless its end is further above it than that. The response has the
numbers served that the ledger has a block for. -/
theorem served_below_iff (s : StateProvider) (request : StateRequest) (a b : UInt64) :
    (∀ ledger, (handleStateRequest ledger s request).payloads.map (·.seqNum) =
      (served s request).filter fun n => (ledger request.isDsBlock n).isSome) ∧
    (minUint64 a b = min a b ↔ b.toNat ≤ a.toNat + 2 ^ 63 ∧ a.toNat < b.toNat + 2 ^ 63) ∧
    ((∀ n ∈ served s request, n < s.height request.isDsBlock) ↔
      (request.endSeqNum - request.startSeqNum ≤ defAntiEntropyBatchSize → request.startSeqNum < request.endSeqNum →
        request.endSeqNum.toNat ≤ (s.height request.isDsBlock).toNat + 2 ^ 63)) := by
  refine ⟨fun ledger => handleStateRequest_numbers ledger s request, minUint64_eq_min a b, ?_⟩
  have hend := request.endSeqNum.toNat_lt
  have hheight := (s.height request.isDsBlock).toNat_lt
  simp only [mem_served, minUint64_eq, UInt64.lt_iff_toNat_lt, UInt64.le_iff_toNat_le (a := request.startSeqNum)]
  constructor
  · intro h hbatch hstart
    -- otherwise the last number that was asked for is served
    by_contra hfar
    have hsub := UInt64.toNat_sub (s.height request.isDsBlock) request.endSeqNum
    have hone : (request.endSeqNum - 1).toNat = request.endSeqNum.toNat - 1 := by
      rw [UInt64.toNat_sub_of_le _ _ (UInt64.le_iff_toNat_le.mpr (by simp; omega))]
      rfl
    have hlast := h (request.endSeqNum - 1) ⟨hbatch, hstart.le, by omega, by rw [if_pos (by omega)]; omega⟩
    omega
  · rintro h n ⟨hbatch, hle, hstart, hn⟩
    have hsub := UInt64.toNat_sub (s.height request.isDsBlock) request.endSeqNum
    split at hn
    · have := h hbatch (by omega)
      omega
    · exact hn

/-- A peer asks for what nobody has. -/
theorem served_beyond : ∃ (s : StateProvider) (request : StateRequest), ∃ n ∈ served s request,
    ¬n < s.height request.isDsBlock :=
  ⟨freshProvider, ⟨0xFFFFFFFFFFFFFFF0, 0xFFFFFFFFFFFFFFF5, true⟩, 0xFFFFFFFFFFFFFFF0, by decide +kernel, by decide⟩

end Okchain.Gossip.Payloads
