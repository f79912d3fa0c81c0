import Okchain.Common

/-! The state transfer of the gossip layer, after `p2p/gossip/state/state.go`.

A node that is behind asks its peers for the blocks it misses, batch by batch. A batch is asked for again until a
response comes or four requests have gone out; a response that is taken starts the next batch after the highest
sequence number in it, whatever that is. What comes from outside is an input of each turn of the inner loop: the peers
that are known, the message or timeout that ends the wait, and the nonce that is drawn for the next request.
-/
namespace Okchain.Gossip
open List

/-! ### The model -/

structure Properties where
  dsLedgerHeight : UInt64
  txLedgerHeight : UInt64

structure NetworkMember where
  preferredEndpoint : String
  properties : Option Properties

def hasRequiredHeight (height : UInt64) (isDsBlock : Bool) (peer : NetworkMember) : Bool :=
  match peer.properties with
  | some p => if isDsBlock then height ≤ p.dsLedgerHeight else height ≤ p.txLedgerHeight
  | none => false

/-- `selectPeerToRequestFrom`; `choice` is the random number. -/
def selectPeerToRequestFrom (height : UInt64) (isDsBlock : Bool) (members : List NetworkMember) (choice : Nat) :
    Option NetworkMember :=
  let peers := members.filter (hasRequiredHeight height isDsBlock)
  peers[choice % peers.length]?

def defAntiEntropyBatchSize : UInt64 := 10
def defAntiEntropyMaxRetries : Nat := 3

/-- `min`, which looks at the sign of the difference. -/
def minUint64 (a b : UInt64) : UInt64 := b ^^^ ((a ^^^ b) &&& -((a - b) >>> 63))

/-- A block in a response; `hasBody` tells whether its data decode to a block with a body. -/
structure Payload where
  seqNum : UInt64
  hasBody : Bool

structure RemoteStateResponse where
  payloads : List Payload
  isDsBlock : Bool

/-- `addPayload` in blocking mode. The body of a transaction block is dereferenced. -/
def addPayload (payload : Payload) (isDsBlock : Bool) : Except Panic Unit :=
  if isDsBlock || payload.hasBody then .ok ⟨⟩ else .error .nilDereference

/-- The loop of `handleStateResponse`. -/
def receive (isDsBlock : Bool) : UInt64 → List Payload → Except Panic UInt64
  | max, [] => .ok max
  | max, payload :: rest => do
    addPayload payload isDsBlock
    receive isDsBlock (if max < payload.seqNum then payload.seqNum else max) rest

/-- `handleStateResponse`: the highest sequence number, or nothing for an empty response. -/
def handleStateResponse (response : RemoteStateResponse) : Except Panic (Option UInt64) :=
  if response.payloads.isEmpty then .ok none
  else do return some (← receive response.isDsBlock 0 response.payloads)

inductive Arrival
  | response (nonce : UInt64) (r : RemoteStateResponse)
  | timeout
  | stop

structure Turn where
  members : List NetworkMember
  choice : Nat
  arrival : Arrival
  fresh : UInt64

structure StateRequest where
  nonce : UInt64
  startSeqNum : UInt64
  endSeqNum : UInt64
  peer : NetworkMember

/-- The variables of `requestBlocksInRange` and the requests it has sent. `running` is false once it has returned. -/
structure Transfer where
  prev : UInt64
  next : UInt64
  nonce : UInt64
  tryCounts : Nat
  sent : List StateRequest
  running : Bool

/-- The head of the outer loop, for the range that ends before `last`. -/
def Transfer.from (last : UInt64) (sent : List StateRequest) (prev fresh : UInt64) : Transfer where
  prev := prev
  next := minUint64 last (prev + defAntiEntropyBatchSize)
  nonce := fresh
  tryCounts := 0
  sent := sent
  running := prev < last

def Transfer.take (last : UInt64) (s : Transfer) (fresh : UInt64) : Arrival → Transfer
  | .response nonce r =>
    if nonce ≠ s.nonce then s
    else match handleStateResponse r with
      | .error _ => {s with running := false}
      | .ok none => s
      | .ok (some index) => .from last s.sent (index + 1) fresh
  | .timeout => s
  | .stop => {s with running := false}

def Transfer.turn (last : UInt64) (isDsBlock : Bool) (s : Transfer) (t : Turn) : Transfer :=
  if !s.running then s
  else if defAntiEntropyMaxRetries < s.tryCounts then {s with running := false}
  else match selectPeerToRequestFrom s.next isDsBlock t.members t.choice with
    | none => {s with running := false}
    | some peer => Transfer.take last {s with
        sent := s.sent ++ [⟨s.nonce, s.prev, s.next, peer⟩], tryCounts := s.tryCounts + 1} t.fresh t.arrival

/-- `requestBlocksInRange` after `n` turns. -/
def requestBlocksInRange (start last : UInt64) (isDsBlock : Bool) (fresh : UInt64) (turns : Nat → Turn) :
    Nat → Transfer
  | 0 => .from last [] start fresh
  | n + 1 => (requestBlocksInRange start last isDsBlock fresh turns n).turn last isDsBlock (turns n)

/-! ### What a turn can do -/

/-- The response that arrives in the turn is taken, with this highest sequence number. -/
structure Taken (isDsBlock : Bool) (s : Transfer) (t : Turn) (index : UInt64) : Prop where
  running : s.running = true
  tries : s.tryCounts ≤ defAntiEntropyMaxRetries
  peer : (selectPeerToRequestFrom s.next isDsBlock t.members t.choice).isSome = true
  handled : ∃ r, t.arrival = .response s.nonce r ∧ handleStateResponse r = .ok (some index)

/-- What a turn can do. A request goes out in each turn but those that end the transfer before it. -/
inductive Turned (last : UInt64) (isDsBlock : Bool) (s : Transfer) (t : Turn) : Transfer → Prop
  | ended (h : s.running = false) : Turned last isDsBlock s t s
  | returned (h : s.running = true) : Turned last isDsBlock s t {s with running := false}
  | waited (request : StateRequest) (running : Bool) (h : s.running = true)
      (htries : s.tryCounts ≤ defAntiEntropyMaxRetries) : Turned last isDsBlock s t
        {s with sent := s.sent ++ [request], tryCounts := s.tryCounts + 1, running := running}
  | taken (request : StateRequest) (index : UInt64) (h : Taken isDsBlock s t index) :
      Turned last isDsBlock s t (.from last (s.sent ++ [request]) (index + 1) t.fresh)

variable {last : UInt64} {isDsBlock : Bool} {s : Transfer} {t : Turn}

theorem turn_turned (last : UInt64) (isDsBlock : Bool) (s : Transfer) (t : Turn) :
    Turned last isDsBlock s t (s.turn last isDsBlock t) := by
  unfold Transfer.turn
  cases hrunning : s.running with
  | false => exact .ended hrunning
  | true =>
    by_cases htries : defAntiEntropyMaxRetries < s.tryCounts
    · simp only [htries]
      exact .returned hrunning
    · simp only [htries]
      have htries := not_lt.mp htries
      cases hpeer : selectPeerToRequestFrom s.next isDsBlock t.members t.choice with
      | none => exact .returned hrunning
      | some peer =>
        let request : StateRequest := ⟨s.nonce, s.prev, s.next, peer⟩
        cases harrival : t.arrival with
        | timeout => exact .waited request true hrunning htries
        | stop => exact .waited request false hrunning htries
        | response nonce r =>
          unfold Transfer.take
          by_cases hnonce : nonce = s.nonce
          · simp only [hnonce, ne_eq]
            cases hhandled : handleStateResponse r with
            | error p => exact .waited request false hrunning htries
            | ok index =>
              cases index with
              | none => exact .waited request true hrunning htries
              | some index =>
                refine .taken request index ⟨hrunning, htries, by rw [hpeer]; rfl, r, ?_, hhandled⟩
                rw [harrival, hnonce]
          · simp only [ne_eq, hnonce]
            exact .waited request true hrunning htries

/-- A response that is taken starts a batch after its highest sequence number. -/
theorem prev_of_taken {index : UInt64} (h : Taken isDsBlock s t index) :
    (s.turn last isDsBlock t).prev = index + 1 := by
  obtain ⟨r, harrival, hhandled⟩ := h.handled
  obtain ⟨peer, hpeer⟩ := Option.isSome_iff_exists.mp h.peer
  unfold Transfer.turn Transfer.take
  simp [h.running, not_lt.mpr h.tries, hpeer, harrival, hhandled, Transfer.from]

/-- The number is one of those the batch asks for. -/
def InBatch (s : Transfer) (index : UInt64) : Prop := s.prev ≤ index ∧ index < s.next

theorem forward_iff {prev next index : UInt64} : prev < index + 1 ∧ index + 1 ≤ next ↔ prev ≤ index ∧ index < next := by
  have hindex := index.toNat_lt
  have hnext := next.toNat_lt
  rw [UInt64.lt_iff_toNat_lt, UInt64.le_iff_toNat_le, UInt64.le_iff_toNat_le, UInt64.lt_iff_toNat_lt,
    UInt64.toNat_add, UInt64.toNat_one]
  omega

/-! ### Counting the requests -/

/-- The requests sent are paid for by the blocks passed, four for each, and by the tries of the current batch. -/
structure Within (start last : UInt64) (s : Transfer) : Prop where
  spent : s.sent.length + 4 * (last.toNat - s.prev.toNat) ≤ 4 * (last.toNat - start.toNat) + s.tryCounts
  tries : s.tryCounts ≤ defAntiEntropyMaxRetries + 1
  before : s.tryCounts = 0 ∨ s.prev.toNat < last.toNat
  behind : s.running = true → s.prev.toNat < last.toNat

variable {start : UInt64}

theorem within_from (fresh : UInt64) : Within start last (.from last [] start fresh) where
  spent := by simp [Transfer.from]
  tries := Nat.zero_le _
  before := .inl rfl
  behind h := UInt64.lt_iff_toNat_lt.mp (of_decide_eq_true h)

theorem Within.turn (h : Within start last s) (hbatch : ∀ index, Taken isDsBlock s t index → InBatch s index) :
    Within start last (s.turn last isDsBlock t) := by
  have hcases := turn_turned last isDsBlock s t
  generalize s.turn last isDsBlock t = s' at hcases
  obtain ⟨hspent, htries, hbefore, hbehind⟩ := h
  cases hcases with
  | ended => exact ⟨hspent, htries, hbefore, hbehind⟩
  | returned => exact ⟨hspent, htries, hbefore, nofun⟩
  | waited request running hrunning hmax =>
    refine ⟨?_, Nat.succ_le_succ hmax, .inr (hbehind hrunning), fun _ => hbehind hrunning⟩
    simp only [length_append, length_singleton]
    omega
  | taken request index htaken =>
    obtain ⟨hle, hlt⟩ := forward_iff.mpr (hbatch index htaken)
    have hforward := UInt64.lt_iff_toNat_lt.mp hle
    have hprev := hbehind htaken.running
    have hmax : s.tryCounts ≤ 3 := htaken.tries
    refine ⟨?_, Nat.zero_le _, .inl rfl, fun hrunning => UInt64.lt_iff_toNat_lt.mp (of_decide_eq_true hrunning)⟩
    simp only [Transfer.from, length_append, length_singleton]
    omega

/-- At most four requests go out for each block of the range. -/
theorem Within.sent_le (h : Within start last s) : s.sent.length ≤ 4 * (last.toNat - start.toNat) := by
  have htries : s.tryCounts ≤ 4 := h.tries
  have hspent := h.spent
  rcases h.before with hzero | hbefore
  · omega
  · omega

/-- While the transfer runs every turn sends a request. -/
theorem sent_of_running (h : (s.turn last isDsBlock t).running = true) :
    s.running = true ∧ (s.turn last isDsBlock t).sent.length = s.sent.length + 1 := by
  have hcases := turn_turned last isDsBlock s t
  generalize s.turn last isDsBlock t = s' at hcases h
  cases hcases with
  | ended hended => exact absurd h (by simp [hended])
  | returned => exact nomatch h
  | waited request running hrunning => exact ⟨hrunning, length_append⟩
  | taken request index htaken => exact ⟨htaken.running, length_append⟩

section

variable {fresh : UInt64} {turns : Nat → Turn}

theorem running_sent {n : Nat} (h : (requestBlocksInRange start last isDsBlock fresh turns n).running = true) :
    (requestBlocksInRange start last isDsBlock fresh turns n).sent.length = n := by
  induction n with
  | zero => rfl
  | succ n ih =>
    obtain ⟨hrunning, hsent⟩ := sent_of_running h
    exact hsent.trans (congrArg (· + 1) (ih hrunning))

theorem within_run (hbatch : ∀ n index, Taken isDsBlock (requestBlocksInRange start last isDsBlock fresh turns n)
      (turns n) index → InBatch (requestBlocksInRange start last isDsBlock fresh turns n) index) (n : Nat) :
    Within start last (requestBlocksInRange start last isDsBlock fresh turns n) := by
  induction n with
  | zero => exact within_from fresh
  | succ n ih => exact ih.turn (hbatch n)

end

/-- **When a transfer ends.** A response moves the transfer forward and not past the end of its batch exactly if
its highest sequence number was asked for. If that is so for every response taken, at most four requests are sent
for each block of the range, and the transfer ends. -/
theorem transfer_ends_iff (last : UInt64) (isDsBlock : Bool) :
    (∀ (s : Transfer) (t : Turn) (index : UInt64), Taken isDsBlock s t index →
      (s.prev < (s.turn last isDsBlock t).prev ∧ (s.turn last isDsBlock t).prev ≤ s.next ↔ InBatch s index)) ∧
    (∀ (start fresh : UInt64) (turns : Nat → Turn), start < last →
      (∀ n index, Taken isDsBlock (requestBlocksInRange start last isDsBlock fresh turns n) (turns n) index →
        InBatch (requestBlocksInRange start last isDsBlock fresh turns n) index) →
      (∀ n, (requestBlocksInRange start last isDsBlock fresh turns n).sent.length ≤
        4 * (last.toNat - start.toNat)) ∧
      ∃ n, (requestBlocksInRange start last isDsBlock fresh turns n).running = false) := by
  refine ⟨fun s t index htaken => ?_, fun start fresh turns _ hbatch => ?_⟩
  · rw [prev_of_taken htaken]
    exact forward_iff
  · have hsent := fun n => (within_run hbatch n).sent_le
    refine ⟨hsent, 4 * (last.toNat - start.toNat) + 1, ?_⟩
    -- a turn more than there are requests to send
    by_contra hrunning
    have hlength := running_sent (Bool.eq_true_of_not_eq_false hrunning)
    have hbound := hsent (4 * (last.toNat - start.toNat) + 1)
    omega

/-! ### A peer that sends what it is asked for -/

/-- The blocks 1 to 10, and then the last one. -/
def honestTurn (n : Nat) : Turn where
  members := [⟨"peer", some ⟨12, 12⟩⟩]
  choice := 0
  arrival := .response 0 ⟨(if n = 0 then [1, 2, 3, 4, 5, 6, 7, 8, 9, 10] else [11]).map (⟨·, true⟩), true⟩
  fresh := 0

/-- Two batches of blocks that were asked for: the transfer is at the end of its range after two requests. -/
theorem transfer_ends_honest :
    (∀ n index, Taken true (requestBlocksInRange 1 12 true 0 honestTurn n) (honestTurn n) index →
      InBatch (requestBlocksInRange 1 12 true 0 honestTurn n) index) ∧
    (requestBlocksInRange 1 12 true 0 honestTurn 2).prev = 12 ∧
    (∀ n, (requestBlocksInRange 1 12 true 0 honestTurn n).sent.length ≤ 44) ∧
    ∃ n, (requestBlocksInRange 1 12 true 0 honestTurn n).running = false := by
  have hstopped : ∀ n, (requestBlocksInRange 1 12 true 0 honestTurn (n + 2)).running = false := by
    intro n
    induction n with
    | zero => decide
    | succ n ih =>
      show Transfer.running (Transfer.turn 12 true _ _) = false
      unfold Transfer.turn
      rwa [if_pos (by rw [ih]; rfl)]
  have hbatch : ∀ n index, Taken true (requestBlocksInRange 1 12 true 0 honestTurn n) (honestTurn n) index →
      InBatch (requestBlocksInRange 1 12 true 0 honestTurn n) index := by
    intro n index h
    obtain ⟨r, harrival, hhandled⟩ := h.handled
    obtain ⟨-, rfl⟩ := Arrival.response.inj harrival
    match n with
    | 0 =>
      obtain rfl : 10 = index := Option.some.inj (Except.ok.inj hhandled)
      exact ⟨by decide, by decide⟩
    | 1 =>
      obtain rfl : 11 = index := Option.some.inj (Except.ok.inj hhandled)
      exact ⟨by decide, by decide⟩
    | n + 2 => exact nomatch (hstopped n).symm.trans h.running
  exact ⟨hbatch, by decide, (transfer_ends_iff 12 true).2 1 0 honestTurn (by decide) hbatch⟩

/-! ### A peer that sends what was not asked for -/

def stuckTurn : Turn where
  members := [⟨"peer", some ⟨3, 3⟩⟩]
  choice := 0
  arrival := .response 0 ⟨[⟨0, true⟩], true⟩
  fresh := 0

/-- Asked for the blocks 1 and 2, it is asked forever. -/
theorem stuck_forever : ∃ (start last : UInt64) (turns : Nat → Turn), start < last ∧
    ∀ n, (requestBlocksInRange start last true 0 turns n).running = true ∧
      (requestBlocksInRange start last true 0 turns n).sent.length = n := by
  have hrun : ∀ n, ∃ sent, requestBlocksInRange 1 3 true 0 (fun _ => stuckTurn) n = .from 3 sent 1 0 := by
    intro n
    induction n with
    | zero => exact ⟨[], rfl⟩
    | succ n ih =>
      obtain ⟨sent, hsent⟩ := ih
      refine ⟨sent ++ [⟨0, 1, 3, ⟨"peer", some ⟨3, 3⟩⟩⟩], ?_⟩
      show (requestBlocksInRange 1 3 true 0 (fun _ => stuckTurn) n).turn 3 true stuckTurn = _
      rw [hsent]
      rfl
  refine ⟨1, 3, fun _ => stuckTurn, by decide, fun n => ?_⟩
  obtain ⟨sent, hsent⟩ := hrun n
  have hrunning : (requestBlocksInRange 1 3 true 0 (fun _ => stuckTurn) n).running = true := by
    rw [hsent]
    rfl
  exact ⟨hrunning, running_sent hrunning⟩

end Okchain.Gossip
