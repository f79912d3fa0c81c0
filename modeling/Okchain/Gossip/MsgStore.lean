import Okchain.Lib.Run
import Okchain.Protos.Crypto

/-! The message store of the gossip layer, after `p2p/gossip/gossip/msgstore/msgstore.go`, and the comparison of
`protos/extensions.go`.

`Add` drops the messages that the new one invalidates and gives up at the first that invalidates it. A message that has
lived out its time stays in the list, marked, until twice that time has passed, and `expiredCount` counts the marked
ones; only the expiry pass counts down.
-/
namespace Okchain.Gossip.MsgStore
open Lib Protos List
open UInt64 (not_lt ofInt toNat)

/-! ### The store -/

inductive InvalidationResult
  | noAction
  | invalidates
  | invalidated
  deriving DecidableEq

/-- What the first message does to the second. Comparing messages that lack a part panics. -/
abbrev ReplacingPolicy (M : Type) := M → M → Except Err InvalidationResult

structure Msg (M : Type) where
  data : M
  created : Int
  expired : Bool
  deriving DecidableEq

structure MessageStore (M : Type) where
  messages : List (Msg M)
  expiredCount : Int
  deriving DecidableEq

variable {M : Type}

def newMsgStore : MessageStore M := ⟨[], 0⟩

/-- The loop of `Add`: what is left of the messages, and whether it came to the end. -/
def scan (pol : ReplacingPolicy M) (message : M) : List (Msg M) → Except Err (List (Msg M) × Bool)
  | [] => .ok ([], true)
  | m :: rest => do
    match ← pol message m.data with
    | .invalidated => return (m :: rest, false)
    | .invalidates => scan pol message rest
    | .noAction => do
      let (left, added) ← scan pol message rest
      return (m :: left, added)

def add (pol : ReplacingPolicy M) (message : M) (now : Int) (s : MessageStore M) : Except Err (MessageStore M × Bool) := do
  let (left, added) ← scan pol message s.messages
  return ({s with messages := if added then left ++ [⟨message, now, false⟩] else left}, added)

def purge (shouldBePurged : M → Bool) (s : MessageStore M) : MessageStore M :=
  {s with messages := s.messages.filter fun m => !shouldBePurged m.data}

/-- The loop of `expireMessages`, which reads the clock for every message: what is left, and by how much the counter
changes. -/
def expireLoop (msgTTL : Int) : (Nat → Int) → List (Msg M) → List (Msg M) × Int
  | _, [] => ([], 0)
  | now, m :: rest =>
    let (left, change) := expireLoop msgTTL (fun k => now (k + 1)) rest
    if !m.expired then
      if msgTTL < now 0 - m.created then ({m with expired := true} :: left, change + 1) else (m :: left, change)
    else if msgTTL * 2 < now 0 - m.created then (left, change - 1) else (m :: left, change)

def expireMessages (msgTTL : Int) (now : Nat → Int) (s : MessageStore M) : MessageStore M :=
  let (left, change) := expireLoop msgTTL now s.messages
  ⟨left, s.expiredCount + change⟩

def size (s : MessageStore M) : Int := s.messages.length - s.expiredCount

def get (s : MessageStore M) : List M := (s.messages.filter (!·.expired)).map (·.data)

inductive Op (M : Type)
  | add (message : M) (now : Int)
  | purge (shouldBePurged : M → Bool)
  | expire (now : Nat → Int)

inductive Step (pol : ReplacingPolicy M) (msgTTL : Int) (s : MessageStore M) : Op M → MessageStore M → Prop
  | add {message : M} {now : Int} {t : MessageStore M} {added : Bool} (h : add pol message now s = .ok (t, added)) :
      Step pol msgTTL s (.add message now) t
  | purge (shouldBePurged : M → Bool) : Step pol msgTTL s (.purge shouldBePurged) (purge shouldBePurged s)
  | expire (now : Nat → Int) : Step pol msgTTL s (.expire now) (expireMessages msgTTL now s)

variable {pol : ReplacingPolicy M} {message : M} {l left : List (Msg M)} {added : Bool} {now : Int} {s : MessageStore M}
  {t : MessageStore M}

theorem add_ok (h : add pol message now s = .ok (t, added)) : ∃ left, scan pol message s.messages = .ok (left, added) ∧
      t = {s with messages := if added then left ++ [⟨message, now, false⟩] else left} := by
  obtain ⟨⟨left, ok⟩, hscan, h⟩ := except_bind_ok.mp h
  obtain ⟨rfl, rfl⟩ := Prod.mk.inj (Except.ok.inj h)
  exact ⟨left, hscan, rfl⟩

/-- What the loop of `Add` does at one message. -/
theorem scan_cons {m : Msg M} (h : scan pol message (m :: l) = .ok (left, added)) :
    (pol message m.data = .ok .invalidated ∧ left = m :: l ∧ added = false) ∨
    (pol message m.data = .ok .invalidates ∧ scan pol message l = .ok (left, added)) ∨
    (pol message m.data = .ok .noAction ∧ ∃ rest, left = m :: rest ∧ scan pol message l = .ok (rest, added)) := by
  obtain ⟨result, hresult, h⟩ := except_bind_ok.mp h
  cases result with
  | invalidated =>
    obtain ⟨rfl, rfl⟩ := Prod.mk.inj (Except.ok.inj h)
    exact .inl ⟨hresult, rfl, rfl⟩
  | invalidates => exact .inr (.inl ⟨hresult, h⟩)
  | noAction =>
    obtain ⟨⟨rest, ok⟩, hscan, h⟩ := except_bind_ok.mp h
    obtain ⟨rfl, rfl⟩ := Prod.mk.inj (Except.ok.inj h)
    exact .inr (.inr ⟨hresult, rest, rfl, hscan⟩)

/-! ### The size -/

/-- `Size` is the number of messages that `Get` returns. -/
def SizeRight (s : MessageStore M) : Prop := size s = (get s).length

def marked (l : List (Msg M)) : Nat := l.countP (·.expired)

/-- No message that `Add` drops is marked: none of those before the first that invalidates the new one. -/
def Spared (pol : ReplacingPolicy M) (message : M) (l : List (Msg M)) : Prop :=
  ∀ m ∈ l.takeWhile fun m => (pol message m.data).toOption != some .invalidated,
    m.expired = true → pol message m.data ≠ .ok .invalidates

/-- The operation drops no marked message before its time. -/
def Op.Spares (pol : ReplacingPolicy M) (s : MessageStore M) : Op M → Prop
  | .add message _ => Spared pol message s.messages
  | .purge shouldBePurged => ∀ m ∈ s.messages, m.expired = true → shouldBePurged m.data = false
  | .expire _ => True

theorem sizeRight_iff : SizeRight s ↔ s.expiredCount = marked s.messages := by
  have hlength := s.messages.length_eq_countP_add_countP (·.expired)
  have hget : (get s).length = s.messages.countP fun m => !m.expired := by
    rw [get, length_map, countP_eq_length_filter]
  simp only [SizeRight, size, marked, hget]
  simp only [Bool.not_eq_true, Bool.decide_eq_false] at hlength
  omega

theorem scan_marked (h : scan pol message l = .ok (left, added)) :
    marked left ≤ marked l ∧ (marked left = marked l ↔ Spared pol message l) := by
  induction l generalizing left with
  | nil =>
    obtain ⟨rfl, -⟩ := Prod.mk.inj (Except.ok.inj h)
    simp [Spared]
  | cons m l ih =>
    rcases scan_cons h with ⟨hpol, rfl, -⟩ | ⟨hpol, hscan⟩ | ⟨hpol, rest, rfl, hscan⟩
    · simp [Spared, hpol, Except.toOption]
    · obtain ⟨hle, hiff⟩ := ih hscan
      cases hm : m.expired <;> simp_all [Spared, marked, Except.toOption]
      omega
    · obtain ⟨hle, hiff⟩ := ih hscan
      cases hm : m.expired <;> simp_all [Spared, marked, Except.toOption]

theorem expireLoop_marked (msgTTL : Int) (now : Nat → Int) (l : List (Msg M)) :
    (marked (expireLoop msgTTL now l).1 : Int) = marked l + (expireLoop msgTTL now l).2 := by
  induction l generalizing now with
  | nil => rfl
  | cons m l ih =>
    have ih := ih fun k => now (k + 1)
    unfold expireLoop
    cases hm : m.expired <;> simp only [Bool.not_true, Bool.not_false, if_true, Bool.false_eq_true, if_false] <;> split <;>
      simp_all [marked] <;> omega

theorem step_sizeRight {msgTTL : Int} {op : Op M} (hs : SizeRight s) (h : Step pol msgTTL s op t) :
    SizeRight t ↔ op.Spares pol s := by
  rw [sizeRight_iff] at hs ⊢
  cases h with
  | @add message now t added hadd =>
    obtain ⟨left, hscan, rfl⟩ := add_ok hadd
    have hmarked : marked (if added then left ++ [⟨message, now, false⟩] else left) = marked left := by
      cases added <;> simp [marked]
    have hiff := (scan_marked hscan).2
    simp only [hs, hmarked, Op.Spares, ← hiff]
    omega
  | purge p =>
    have hfilter : marked (purge p s).messages = marked s.messages ↔ ∀ m ∈ s.messages, m.expired = true → p m.data = false := by
      simp only [marked, purge, countP_eq_length_filter]
      rw [filter_comm, length_filter_eq_length_iff]
      simp
    rw [show (purge p s).expiredCount = s.expiredCount from rfl, hs, Op.Spares, ← hfilter]
    omega
  | expire now =>
    have := expireLoop_marked msgTTL now s.messages
    simp only [expireMessages, Op.Spares, iff_true]
    omega

/-- **The size of the store.** `Size` is right all along a run exactly if `Add` and `Purge` never drop a marked message. -/
theorem size_right_iff (pol : ReplacingPolicy M) (msgTTL : Int) (ops : List (Op M)) :
    Throughout (Step pol msgTTL) SizeRight ops newMsgStore ↔
      EachStep (Step pol msgTTL) (Op.Spares pol) ops newMsgStore := by
  refine throughout_iff (J := SizeRight) (fun _ hs => hs) ?_ ?_ ops (sizeRight_iff.mpr rfl)
  · exact fun s op t hs h => (step_sizeRight hs h).mpr
  · exact fun s op t hs h => mt (step_sizeRight hs h).mp

/-! ### The comparison -/

structure PeerTime where
  incNum : UInt64
  seqNum : UInt64
  deriving DecidableEq

/-- A gossip message with what is compared of it. Messages of other kinds are compared with none. -/
inductive GossipMessage
  | aliveMsg (membership : Option Bytes) (timestamp : Option PeerTime)
  | dataMsg (payload : Option UInt64)
  | transactionMsg (transaction : Option Transaction)
  | stateInfo (pkiId : Bytes) (timestamp : Option PeerTime)
  | peerIdentity (pkiId : Bytes)
  | leadershipMsg (pkiId : Bytes) (timestamp : Option PeerTime)
  | other
  deriving DecidableEq

def compareTimestamps (thisTS thatTS : Option PeerTime) : Except Err InvalidationResult := do
  let this ← deref thisTS
  let that ← deref thatTS
  if this.incNum = that.incNum then
    return if that.seqNum < this.seqNum then .invalidates else .invalidated
  else return if this.incNum < that.incNum then .invalidated else .invalidates

/-- `aliveInvalidationPolicy`, `stateInvalidationPolicy` and `leaderInvalidationPolicy`, which differ in where the id is
found. -/
def timedInvalidationPolicy (this that : Bytes × Option PeerTime) : Except Err InvalidationResult :=
  if this.1 ≠ that.1 then .ok .noAction else compareTimestamps this.2 that.2

def dataInvalidationPolicy (dataBlockStorageSize : Int) (this that : UInt64) : InvalidationResult :=
  if this = that then .invalidated
  else
    let diff := if that < this then this - that else that - this
    if diff ≤ UInt64.ofInt dataBlockStorageSize then .noAction
    else if that < this then .invalidates
    else .invalidated

def txInvalidationPolicy (this that : Transaction) : InvalidationResult :=
  if this.senderPubKey = that.senderPubKey ∧ this.nonce = that.nonce then .invalidated else .noAction

def identityInvalidationPolicy (this that : Bytes) : InvalidationResult :=
  if this = that then .invalidated else .noAction

/-- The policy of `NewGossipMessageComparator`. -/
def invalidationPolicy (dataBlockStorageSize : Int) : ReplacingPolicy GossipMessage
  | .aliveMsg this thisTS, .aliveMsg that thatTS => do
    timedInvalidationPolicy (← deref this, thisTS) (← deref that, thatTS)
  | .dataMsg this, .dataMsg that => do
    return dataInvalidationPolicy dataBlockStorageSize (← deref this) (← deref that)
  | .transactionMsg this, .transactionMsg that => do return txInvalidationPolicy (← deref this) (← deref that)
  | .stateInfo this thisTS, .stateInfo that thatTS => timedInvalidationPolicy (this, thisTS) (that, thatTS)
  | .peerIdentity this, .peerIdentity that => .ok (identityInvalidationPolicy this that)
  | .leadershipMsg this thisTS, .leadershipMsg that thatTS => timedInvalidationPolicy (this, thisTS) (that, thatTS)
  | _, _ => .ok .noAction

/-- What keeps `Add` from dropping messages in vain. -/
structure Coherent (pol : ReplacingPolicy M) : Prop where
  symm : ∀ {a b}, pol a b = .ok .noAction → pol b a = .ok .noAction
  apart : ∀ {m a b}, pol m a = .ok .invalidates → pol m b = .ok .invalidated → pol a b ≠ .ok .noAction

/-- No two messages stand in an invalidating relation, in either order. -/
def Compatible (pol : ReplacingPolicy M) (l : List (Msg M)) : Prop :=
  l.Pairwise fun a b => pol a.data b.data = .ok .noAction ∧ pol b.data a.data = .ok .noAction

theorem scan_added (h : scan pol message l = .ok (left, true)) :
    left.Sublist l ∧ ∀ m ∈ left, pol message m.data = .ok .noAction := by
  induction l generalizing left with
  | nil =>
    obtain ⟨rfl, -⟩ := Prod.mk.inj (Except.ok.inj h)
    simp
  | cons m l ih =>
    rcases scan_cons h with ⟨-, -, hfalse⟩ | ⟨-, hscan⟩ | ⟨hpol, rest, rfl, hscan⟩
    · exact nomatch hfalse
    · exact ⟨(ih hscan).1.cons m, (ih hscan).2⟩
    · exact ⟨(ih hscan).1.cons_cons m, forall_mem_cons.mpr ⟨hpol, (ih hscan).2⟩⟩

theorem scan_refused (hpol : Coherent pol) (hl : Compatible pol l) (h : scan pol message l = .ok (left, false)) :
    left = l ∧ ∃ m ∈ l, pol message m.data = .ok .invalidated := by
  induction l generalizing left with
  | nil => exact nomatch (Prod.mk.inj (Except.ok.inj h)).2
  | cons m l ih =>
    obtain ⟨hm, hrest⟩ := pairwise_cons.mp hl
    rcases scan_cons h with ⟨hinv, rfl, -⟩ | ⟨hinv, hscan⟩ | ⟨-, rest, rfl, hscan⟩
    · exact ⟨rfl, m, mem_cons_self, hinv⟩
    · -- the message that refuses the new one would not have been stored beside the one it drops
      obtain ⟨-, m', hm', hinv'⟩ := ih hrest hscan
      exact absurd (hm m' hm').1 (hpol.apart hinv hinv')
    · obtain ⟨rfl, m', hm', hinv'⟩ := ih hrest hscan
      exact ⟨rfl, m', mem_cons_of_mem _ hm', hinv'⟩

theorem Compatible.add (hpol : Coherent pol) (hs : Compatible pol s.messages)
    (h : add pol message now s = .ok (t, added)) : Compatible pol t.messages ∧ (added = false → t = s) := by
  obtain ⟨left, hscan, rfl⟩ := add_ok h
  cases added with
  | false =>
    obtain ⟨rfl, -⟩ := scan_refused hpol hs hscan
    exact ⟨hs, fun _ => rfl⟩
  | true =>
    obtain ⟨hsub, hall⟩ := scan_added hscan
    refine ⟨pairwise_append.mpr ⟨hs.sublist hsub, pairwise_singleton _ _, fun a ha b hb => ?_⟩, nofun⟩
    obtain rfl := mem_singleton.mp hb
    exact ⟨hpol.symm (hall a ha), hall a ha⟩

theorem expireLoop_data (msgTTL : Int) (now : Nat → Int) (l : List (Msg M)) :
    ((expireLoop msgTTL now l).1.map (·.data)).Sublist (l.map (·.data)) := by
  induction l generalizing now with
  | nil => exact .slnil
  | cons m l ih =>
    have ih := ih fun k => now (k + 1)
    unfold expireLoop
    cases m.expired <;> simp only [Bool.not_true, Bool.not_false, if_true, Bool.false_eq_true, if_false] <;> split
    · exact ih.cons_cons _
    · exact ih.cons_cons _
    · exact ih.cons _
    · exact ih.cons_cons _

theorem Compatible.step {msgTTL : Int} {op : Op M} (hpol : Coherent pol) (hs : Compatible pol s.messages)
    (h : Step pol msgTTL s op t) : Compatible pol t.messages := by
  cases h with
  | add hadd => exact (hs.add hpol hadd).1
  | purge p => exact hs.sublist filter_sublist
  | expire now =>
    have hdata : (s.messages.map (·.data)).Pairwise fun a b => pol a b = .ok .noAction ∧ pol b a = .ok .noAction :=
      pairwise_map.mpr hs
    exact pairwise_map.mp (hdata.sublist (expireLoop_data msgTTL now s.messages))

theorem compareTimestamps_ne (this that : Option PeerTime) : compareTimestamps this that ≠ .ok .noAction := by
  intro h
  obtain ⟨a, -, h⟩ := except_bind_ok.mp h
  obtain ⟨b, -, h⟩ := except_bind_ok.mp h
  revert h
  split <;> split <;> simp [pure, Except.pure]

theorem timed_noAction {this that : Bytes × Option PeerTime} :
    timedInvalidationPolicy this that = .ok .noAction ↔ this.1 ≠ that.1 := by
  unfold timedInvalidationPolicy
  split
  · next h => simp [h]
  · next h => simp [h, compareTimestamps_ne]

theorem data_eq (size : Int) (this that : UInt64) : dataInvalidationPolicy size this that =
    if this.toNat = that.toNat then .invalidated
    else if this.toNat ≤ that.toNat + (ofInt size).toNat ∧ that.toNat ≤ this.toNat + (ofInt size).toNat then
      .noAction
    else if that.toNat < this.toNat then .invalidates
    else .invalidated := by
  have hdiff : (if that < this then this - that else that - this) ≤ ofInt size ↔
      this.toNat ≤ that.toNat + (ofInt size).toNat ∧ that.toNat ≤ this.toNat + (ofInt size).toNat := by
    rw [UInt64.le_iff_toNat_le, apply_ite toNat]
    split
    · next h =>
      have := UInt64.lt_iff_toNat_lt.mp h
      rw [UInt64.toNat_sub_of_le _ _ (UInt64.le_of_lt h)]
      omega
    · next h =>
      have := UInt64.le_iff_toNat_le.mp (not_lt.mp h)
      rw [UInt64.toNat_sub_of_le _ _ (not_lt.mp h)]
      omega
  rw [dataInvalidationPolicy, if_congr hdiff rfl rfl]
  simp only [UInt64.lt_iff_toNat_lt, UInt64.toNat_inj]

theorem timed_apart {m a b : Bytes × Option PeerTime} (ha : timedInvalidationPolicy m a = .ok .invalidates)
    (hb : timedInvalidationPolicy m b = .ok .invalidated) : timedInvalidationPolicy a b ≠ .ok .noAction := by
  have hid : ∀ {c r}, timedInvalidationPolicy m c = .ok r → r ≠ .noAction → m.1 = c.1 := by
    intro c r hr hne
    by_contra h
    exact hne (Except.ok.inj (hr.symm.trans (timed_noAction.mpr h)))
  rw [Ne, timed_noAction, not_not]
  exact (hid ha nofun).symm.trans (hid hb nofun)

theorem data_symm {size : Int} {a b : UInt64} (h : dataInvalidationPolicy size a b = .noAction) :
    dataInvalidationPolicy size b a = .noAction := by
  rw [data_eq] at h ⊢
  grind

theorem data_apart {size : Int} {m a b : UInt64} (ha : dataInvalidationPolicy size m a = .invalidates)
    (hb : dataInvalidationPolicy size m b = .invalidated) : dataInvalidationPolicy size a b ≠ .noAction := by
  rw [data_eq] at ha hb ⊢
  grind

theorem deref_two {α β : Type} {a b : Option α} {f : α → α → Except Err β} {r : β} :
    (do f (← deref a) (← deref b)) = .ok r ↔ ∃ x y, a = some x ∧ b = some y ∧ f x y = .ok r := by
  simp [except_bind_ok, deref_ok]

theorem invalidationPolicy_coherent (size : Int) : Coherent (invalidationPolicy size) where
  symm {a b} h := by
    cases a <;> cases b <;> try rfl
    case aliveMsg.aliveMsg =>
      obtain ⟨x, y, hx, hy, h⟩ := deref_two.mp h
      exact deref_two.mpr ⟨y, x, hy, hx, timed_noAction.mpr (timed_noAction.mp h).symm⟩
    case dataMsg.dataMsg =>
      obtain ⟨x, y, hx, hy, h⟩ := deref_two.mp h
      exact deref_two.mpr ⟨y, x, hy, hx, congrArg _ (data_symm (Except.ok.inj h))⟩
    case transactionMsg.transactionMsg =>
      obtain ⟨x, y, hx, hy, h⟩ := deref_two.mp h
      refine deref_two.mpr ⟨y, x, hy, hx, ?_⟩
      rw [← h, txInvalidationPolicy, txInvalidationPolicy]
      simp only [eq_comm]
    case stateInfo.stateInfo => exact timed_noAction.mpr (timed_noAction.mp h).symm
    case peerIdentity.peerIdentity =>
      rw [← h, invalidationPolicy, invalidationPolicy, identityInvalidationPolicy, identityInvalidationPolicy]
      simp only [eq_comm]
    case leadershipMsg.leadershipMsg => exact timed_noAction.mpr (timed_noAction.mp h).symm
  apart {m a b} ha hb h := by
    cases m <;> cases a <;> try (simp [invalidationPolicy] at ha; done)
    all_goals cases b <;> try (simp [invalidationPolicy] at hb; done)
    case aliveMsg.aliveMsg.aliveMsg =>
      obtain ⟨x, y, hx, hy, ha⟩ := deref_two.mp ha
      obtain ⟨x', z, hx', hz, hb⟩ := deref_two.mp hb
      obtain ⟨y', z', hy', hz', h⟩ := deref_two.mp h
      cases hx.symm.trans hx'
      cases hy.symm.trans hy'
      cases hz.symm.trans hz'
      exact timed_apart ha hb h
    case dataMsg.dataMsg.dataMsg =>
      obtain ⟨x, y, hx, hy, ha⟩ := deref_two.mp ha
      obtain ⟨x', z, hx', hz, hb⟩ := deref_two.mp hb
      obtain ⟨y', z', hy', hz', h⟩ := deref_two.mp h
      cases hx.symm.trans hx'
      cases hy.symm.trans hy'
      cases hz.symm.trans hz'
      exact data_apart (Except.ok.inj ha) (Except.ok.inj hb) (Except.ok.inj h)
    case transactionMsg.transactionMsg.transactionMsg =>
      obtain ⟨x, y, -, -, ha⟩ := deref_two.mp ha
      have := Except.ok.inj ha
      grind [txInvalidationPolicy]
    case stateInfo.stateInfo.stateInfo => exact timed_apart ha hb h
    case peerIdentity.peerIdentity.peerIdentity => grind [invalidationPolicy, identityInvalidationPolicy]
    case leadershipMsg.leadershipMsg.leadershipMsg => exact timed_apart ha hb h

/-- **Refused messages.** All along a run with the policy of the gossip layer and any storage size, no stored message
invalidates another, and an `Add` that returns false drops nothing. -/
theorem refused_drops_nothing (size msgTTL : Int) (ops : List (Op GossipMessage)) :
    Throughout (Step (invalidationPolicy size) msgTTL) (fun s => Compatible (invalidationPolicy size) s.messages ∧
      ∀ message now t, add (invalidationPolicy size) message now s = .ok (t, false) → t = s) ops newMsgStore := by
  have hpol := invalidationPolicy_coherent size
  have hnew : Compatible (invalidationPolicy size) newMsgStore.messages := .nil
  refine throughout_of_keep (J := fun s => Compatible (invalidationPolicy size) s.messages) ?_ ?_ ops hnew
  · exact fun s hs => ⟨hs, fun message now t hadd => (hs.add hpol hadd).2 rfl⟩
  · exact fun s op t hs h => hs.step hpol h

/-- A store with one block. -/
def oneBlock (created : Int) (seqNum : UInt64) (expiredCount : Int) : MessageStore GossipMessage :=
  ⟨[⟨.dataMsg (some seqNum), created, false⟩], expiredCount⟩

/-- A marked message is dropped by a newer one, and is still counted. -/
theorem size_wrong_after_expiry : ∃ ops, ¬Throughout (Step (invalidationPolicy 1) 5) SizeRight ops newMsgStore := by
  have hfirst : add (invalidationPolicy 1) (.dataMsg (some 0)) 0 newMsgStore = .ok (oneBlock 0 0 0, true) := by
    decide +kernel
  have hsecond : add (invalidationPolicy 1) (.dataMsg (some 9)) 10 (expireMessages 5 (fun _ => 10) (oneBlock 0 0 0)) =
    .ok (oneBlock 10 9 1, true) := by decide +kernel
  refine ⟨[.add (.dataMsg (some 0)) 0, .expire fun _ => 10, .add (.dataMsg (some 9)) 10], fun h => ?_⟩
  have hend := ((h.2 _ (.add hfirst)).2 _ (.expire _)).2 _ (.add hsecond)
  exact absurd (sizeRight_iff.mp hend) (by decide +kernel)

end Okchain.Gossip.MsgStore
