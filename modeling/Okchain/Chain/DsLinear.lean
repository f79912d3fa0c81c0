import Okchain.Chain.DsChain
import Okchain.Chain.Linear

/-! Two threads insert blocks into the DS chain.

`DSBlockChain.InsertBlock` holds the chain's lock. The update loop retries the future blocks with the inner
`InsertBlock`, which takes none, so the two can interleave between the validation of a block, the write and the
store of the head.
-/
namespace Okchain.Chain
open Lib Protos Option
open UInt64 (le_refl)

inductive Thread
  | inserter
  | timer
  deriving DecidableEq

def Thread.other : Thread → Thread
  | .inserter => .timer
  | .timer => .inserter

inductive Phase (B Hot : Type)
  | idle
  | validated (b : B) (hot : Hot)
  | written (b : B)
  deriving DecidableEq

/-- A node: its chain, its two threads, the blocks `ProcFutureBlocks` has not retried yet, and the
blocks accepted so far, newest first. -/
structure Node (B X Hot : Type) where
  chain : BlockChain B X
  phase : Thread → Phase B Hot
  queue : List B
  accepted : List B

inductive Event (B : Type)
  /-- A caller enters `DSBlockChain.InsertBlock` and validates a block. -/
  | insert (b : B)
  /-- The update loop enters `ProcFutureBlocks` and sorts the future blocks. -/
  | wake (order : List B)
  /-- The update loop takes the next of them and validates it. -/
  | retry
  | write (t : Thread)
  | store (t : Thread)

section

variable {B X Hot : Type} (I : Impl B X Hot)

def Node.setPhase (n : Node B X Hot) (t : Thread) (p : Phase B Hot) : Node B X Hot :=
  {n with phase := Function.update n.phase t p}

def Node.begin (n : Node B X Hot) (t : Thread) (b : B) : Node B X Hot :=
  match validate I b n.chain with
  | (.ok hot, c) => {n with chain := c}.setPhase t (.validated b hot)
  | (.error _, c) => {n with chain := c}

instance [DecidableEq B] (c : BlockChain B X) (order : List B) : Decidable (FutureOrder I.toIBlock c order) :=
  inferInstanceAs (Decidable (_ ∧ _))

def Node.step [DecidableEq B] (n : Node B X Hot) : Event B → Option (Node B X Hot)
  | .insert b =>
    match n.phase .inserter with
    | .idle => some (n.begin I .inserter b)
    | _ => none
  | .wake order =>
    match n.phase .timer, n.queue with
    | .idle, [] => if FutureOrder I.toIBlock n.chain order then some {n with queue := order} else none
    | _, _ => none
  | .retry =>
    match n.phase .timer, n.queue with
    | .idle, b :: queue => some ({n with queue := queue}.begin I .timer b)
    | _, _ => none
  | .write t =>
    match n.phase t with
    | .validated b hot =>
      match batchInsert I b hot n.chain with
      | (.ok _, c) => some ({n with chain := c}.setPhase t (.written b))
      | (.error _, c) => some ({n with chain := c}.setPhase t .idle)
    | _ => none
  | .store t =>
    match n.phase t with
    | .written b =>
      some ({n with chain := {n.chain with currentBlock := b}, accepted := b :: n.accepted}.setPhase t .idle)
    | _ => none

/-- No insertion starts while the other thread is inside one. -/
def Alone (n : Node B X Hot) : Event B → Prop
  | .insert _ => n.phase .timer = .idle
  | .retry => n.phase .inserter = .idle
  | _ => True

instance [DecidableEq B] [DecidableEq Hot] (n : Node B X Hot) (e : Event B) : Decidable (Alone n e) := by
  cases e <;> unfold Alone <;> infer_instance

def Node.run [DecidableEq B] (n : Node B X Hot) : List (Event B) → Option (Node B X Hot)
  | [] => some n
  | e :: es => (n.step I e).bind (·.run es)

/-- The events of a run start every insertion alone. -/
def Node.runsAlone [DecidableEq B] [DecidableEq Hot] (n : Node B X Hot) : List (Event B) → Bool
  | [] => true
  | e :: es => decide (Alone n e) && ((n.step I e).map (·.runsAlone es)).getD true

inductive AloneRun [DecidableEq B] : Node B X Hot → Node B X Hot → Prop
  | refl (n) : AloneRun n n
  | step {n m m' e} : AloneRun n m → Alone m e → m.step I e = some m' → AloneRun n m'

/-- A node that has just started with a genesis block. -/
def Node.start (g : B) (hash : Hash) (extra : X) : Node B X Hot :=
  ⟨.genesis g hash extra, fun _ => .idle, [], [g]⟩

def PhaseOk (g : B) (accepted : List B) (c : BlockChain B X) : Phase B Hot → Prop
  | .idle => StoredOnly I.toIBlock accepted c
  | .validated b _ => StoredOnly I.toIBlock accepted c ∧ Links I.toIBlock b c.currentBlock
  | .written b => Written I.toIBlock g accepted b c

/-- The invariant: the chain is linear, and at most one thread, `t`, is inside an insertion. -/
def Node.Ok (g : B) (n : Node B X Hot) : Prop :=
  Linear I.toIBlock g n.accepted n.chain ∧
    ∃ t : Thread, n.phase t.other = .idle ∧ PhaseOk I g n.accepted n.chain (n.phase t)

/-- What a chain's `ValidateBlock` has to check for the chain to stay linear. -/
def ChecksParent : Prop :=
  ∀ (c : BlockChain B X) b hot, I.validateBlock c b = .ok hot →
    (c.getBlock (I.parentHash b) (I.numberU64 b - 1)).isSome ∧
      I.numberU64 c.currentBlock < I.numberU64 b

variable {I} {g : B} {n m : Node B X Hot} {t : Thread}

/-! ### One step -/

theorem Thread.eq_or_other (t t' : Thread) : t' = t ∨ t' = t.other := by
  cases t <;> cases t' <;> simp [Thread.other]

theorem Thread.other_ne (t : Thread) : t.other ≠ t := by
  cases t <;> decide

/-- What is owed when the thread `t` goes on to the phase `p` while the other one is idle. -/
theorem Node.setPhase_ok {p : Phase B Hot} (hlinear : Linear I.toIBlock g n.accepted n.chain)
    (hother : n.phase t.other = .idle) (hphase : PhaseOk I g n.accepted n.chain p) : (n.setPhase t p).Ok I g := by
  refine ⟨hlinear, t, (Function.update_of_ne t.other_ne _ _).trans hother, ?_⟩
  show PhaseOk I g n.accepted n.chain (Function.update n.phase t p t)
  rw [Function.update_self]
  exact hphase

/-- A thread that is inside an insertion is the only one. -/
theorem Node.Ok.busy (h : n.Ok I g) (ht : n.phase t ≠ .idle) :
    n.phase t.other = .idle ∧ PhaseOk I g n.accepted n.chain (n.phase t) := by
  obtain ⟨_, t', hother, hphase⟩ := h
  rcases Thread.eq_or_other t' t with rfl | rfl
  · exact ⟨hother, hphase⟩
  · exact absurd hother ht

theorem Node.Ok.stored (h : n.Ok I g) (ht : n.phase t = .idle) (hother : n.phase t.other = .idle) :
    StoredOnly I.toIBlock n.accepted n.chain := by
  obtain ⟨_, t', _, hphase⟩ := h
  have hidle : n.phase t' = .idle := by
    rcases Thread.eq_or_other t t' with rfl | rfl
    · exact ht
    · exact hother
  rwa [hidle] at hphase

theorem Node.begin_ok (hI : ChecksParent I) (h : n.Ok I g) (ht : n.phase t = .idle)
    (hother : n.phase t.other = .idle) (b : B) :
    (n.begin I t b).Ok I g ∧ (n.begin I t b).chain.currentBlock = n.chain.currentBlock := by
  have hstored := h.stored ht hother
  obtain ⟨hblocks, hcanonical, hcurrent⟩ := validate_frame
  unfold Node.begin
  rcases hv : validate I b n.chain with ⟨e | hot, c⟩
  · rw [hv] at hblocks hcanonical hcurrent
    refine ⟨⟨h.1.of_frame hcanonical hcurrent, t, hother, ?_⟩, hcurrent⟩
    rw [ht]
    intro k hash hsome
    exact hstored k hash (hblocks ▸ hsome)
  · obtain ⟨hok, rfl⟩ := validate_ok hv
    obtain ⟨hparent, habove⟩ := hI _ _ _ hok
    have hlinks := h.1.links hstored hparent habove
    exact ⟨Node.setPhase_ok h.1 hother ⟨hstored, hlinks⟩, rfl⟩

variable [DecidableEq B]

/-- **One step** keeps the invariant, and the head never goes down. -/
theorem Node.step_ok (hI : ChecksParent I) (h : n.Ok I g) {e : Event B} (ha : Alone n e) (hstep : n.step I e = some m) :
    m.Ok I g ∧ I.numberU64 n.chain.currentBlock ≤ I.numberU64 m.chain.currentBlock := by
  cases e with
  | insert b =>
    simp only [Node.step] at hstep
    split at hstep
    case h_1 hp =>
      obtain rfl := some.inj hstep
      obtain ⟨hok, hcurrent⟩ := Node.begin_ok hI h hp ha b
      exact ⟨hok, hcurrent ▸ le_refl _⟩
    case h_2 => exact nomatch hstep
  | wake order =>
    simp only [Node.step] at hstep
    split at hstep
    case h_1 =>
      obtain rfl := some.inj (ite_none_right_eq_some.mp hstep).2
      exact ⟨h, le_refl _⟩
    case h_2 => exact nomatch hstep
  | retry =>
    simp only [Node.step] at hstep
    split at hstep
    case h_1 b queue hp _ =>
      obtain rfl := some.inj hstep
      obtain ⟨hok, hcurrent⟩ := Node.begin_ok (n := {n with queue := queue}) hI h hp ha b
      exact ⟨hok, hcurrent ▸ le_refl _⟩
    case h_2 => exact nomatch hstep
  | write t =>
    simp only [Node.step] at hstep
    split at hstep
    case h_1 b hot hp =>
      obtain ⟨hother, hphase⟩ := h.busy (by rw [hp]; exact nofun)
      rw [hp] at hphase
      obtain ⟨hstored, hlinks⟩ := hphase
      split at hstep
      case h_1 c hrun =>
        obtain rfl := some.inj hstep
        have hwritten := h.1.batchInsert hstored hlinks hrun
        obtain ⟨hash, extra, -, rfl⟩ := batchInsert_ok hrun
        exact ⟨Node.setPhase_ok hwritten.linear hother hwritten, le_refl _⟩
      case h_2 c hrun =>
        obtain rfl := some.inj hstep
        obtain rfl : c = n.chain := batchInsert_error hrun
        exact ⟨Node.setPhase_ok h.1 hother hstored, le_refl _⟩
    case h_2 => exact nomatch hstep
  | store t =>
    simp only [Node.step] at hstep
    split at hstep
    case h_1 b hp =>
      obtain ⟨hother, hphase⟩ := h.busy (by rw [hp]; exact nofun)
      rw [hp] at hphase
      obtain rfl := some.inj hstep
      obtain ⟨hlinear, hstored⟩ := Written.store hphase
      refine ⟨Node.setPhase_ok hlinear hother hstored, ?_⟩
      show I.numberU64 n.chain.currentBlock ≤ I.numberU64 b
      rw [UInt64.le_iff_toNat_le, hphase.links.1]
      exact Nat.le_succ _
    case h_2 => exact nomatch hstep

/-! ### Every run -/

/-- **A whole run** keeps the invariant. -/
theorem AloneRun.ok (hI : ChecksParent I) (hrun : AloneRun I n m) (h : n.Ok I g) : m.Ok I g := by
  induction hrun with
  | refl => exact h
  | step _ ha hstep ih => exact (Node.step_ok hI ih ha hstep).1

theorem aloneRun_of_run [DecidableEq Hot] {es : List (Event B)} {n₀ : Node B X Hot}
    (hbefore : AloneRun I n₀ n) (halone : n.runsAlone I es = true) (hrun : n.run I es = some m) :
    AloneRun I n₀ m := by
  induction es generalizing n with
  | nil => exact some.inj hrun ▸ hbefore
  | cons e es ih =>
    obtain ⟨n', hstep, hrest⟩ := bind_eq_some_iff.mp hrun
    rw [Node.runsAlone, hstep, Bool.and_eq_true, decide_eq_true_iff] at halone
    exact ih (hbefore.step halone.1 hstep) halone.2 hrest

omit [DecidableEq B] in
theorem Node.start_ok {hash : Hash} {extra : X} (hg : I.numberU64 g = 0) (hhash : I.hash g = .ok hash) :
    (Node.start g hash extra : Node B X Hot).Ok I g := by
  have hgenesis : Linear I.toIBlock g [g] (.genesis g hash extra) ∧ _ := linear_genesis hg hhash
  exact ⟨hgenesis.1, .inserter, rfl, hgenesis.2⟩

end

theorem dsImpl_checksParent (E : Env) (signer : Bool) : ChecksParent (dsImpl E signer) := by
  intro c b hot h
  change dsValidateBlock E signer c b = .ok hot at h
  unfold dsValidateBlock at h
  split at h
  · exact nomatch h
  · show (c.getBlock b.parentHash (b.numberU64 - 1)).isSome ∧ c.currentBlock.numberU64 < b.numberU64
    cases hparent : c.getBlock b.parentHash (b.numberU64 - 1) with
    | none =>
      rw [hparent] at h
      exact nomatch h
    | some parent =>
      rw [hparent] at h
      dsimp only at h
      split at h
      · exact nomatch h
      · exact ⟨rfl, UInt64.not_le.mp ‹_›⟩

/-- **The DS chain theorem.** In every run from genesis in which no insertion starts while the other
thread is inside one, the accepted blocks form one chain that ends in the head, for every number up to
the head the canonical hash names the one block of that chain, and no step lowers the head. -/
theorem ds_chain_linear {E : Env} {signer : Bool} {g : DSBlock} {hash : Hash}
    {node : Node DSBlock PUnit PUnit} (hg : g.numberU64 = 0) (hhash : g.hash E = .ok hash)
    (hrun : AloneRun (dsImpl E signer) (Node.start g hash ⟨⟩) node) :
    Linear (dsImpl E signer).toIBlock g node.accepted node.chain ∧
    (∀ n ≤ node.chain.currentBlock.numberU64, ∃ b ∈ node.accepted, b.numberU64 = n ∧
      b.hash E = .ok (node.chain.canonical n) ∧ ∀ b' ∈ node.accepted, b'.numberU64 = n → b' = b) ∧
    ∀ e node', Alone node e → node.step (dsImpl E signer) e = some node' →
      node.chain.currentBlock.numberU64 ≤ node'.chain.currentBlock.numberU64 := by
  have hok := hrun.ok (dsImpl_checksParent E signer) (Node.start_ok hg hhash)
  refine ⟨hok.1, fun n hn => hok.1.exactly_one hg hn, fun e node' halone hstep => ?_⟩
  exact (Node.step_ok (dsImpl_checksParent E signer) hok halone hstep).2

/-- The second block comes first, is kept, and is retried after the first one. -/
def dsOrderlyEvents : List (Event DSBlock) :=
  [.insert (dsSecond 0 []), .insert dsFirst, .write .inserter, .store .inserter,
    .wake [dsSecond 0 []], .retry, .write .timer, .store .timer]

def dsStart : Node DSBlock PUnit PUnit :=
  .start dsGenesis (bytesToHash (hashBytes (dsGenesis.hash Env.sample))) ⟨⟩

theorem ds_chain_linear_orderly : ∃ node,
    dsStart.run (dsImpl Env.sample true) dsOrderlyEvents = some node ∧
    node.accepted = [dsSecond 0 [], dsFirst, dsGenesis] ∧
    Linear (dsImpl Env.sample true).toIBlock dsGenesis node.accepted node.chain := by
  have hsome : (dsStart.run (dsImpl Env.sample true) dsOrderlyEvents).isSome = true := by decide +kernel
  obtain ⟨node, hnode⟩ := Option.isSome_iff_exists.mp hsome
  have haccepted : (dsStart.run (dsImpl Env.sample true) dsOrderlyEvents).map Node.accepted =
      some [dsSecond 0 [], dsFirst, dsGenesis] := by decide +kernel
  rw [hnode, Option.map_some, Option.some.injEq] at haccepted
  have hrun : AloneRun (dsImpl Env.sample true) dsStart node :=
    aloneRun_of_run (.refl _) (by decide +kernel) hnode
  exact ⟨node, hnode, haccepted, (ds_chain_linear rfl (by decide +kernel) hrun).1⟩

/-- The update loop retries one second block while a caller inserts another: both validate before either
is written, and each thread stores its own. -/
def dsRaceEvents : List (Event DSBlock) :=
  [.insert (dsSecond 0 []), .insert dsFirst, .write .inserter, .store .inserter,
    .wake [dsSecond 0 []], .retry, .insert (dsSecond 1 []), .write .inserter, .write .timer,
    .store .timer, .store .inserter]

/-- Both blocks are accepted, and the canonical hash of the head's number is not the head's. -/
theorem ds_race_not_linear : ∃ node, dsStart.run (dsImpl Env.sample true) dsRaceEvents = some node ∧
    node.accepted = [dsSecond 1 [], dsSecond 0 [], dsFirst, dsGenesis] ∧
    node.chain.currentBlock.hash Env.sample ≠ .ok (node.chain.canonical 2) ∧
    ¬Linear (dsImpl Env.sample true).toIBlock dsGenesis node.accepted node.chain := by
  have hsome : (dsStart.run (dsImpl Env.sample true) dsRaceEvents).isSome = true := by decide +kernel
  obtain ⟨node, hnode⟩ := Option.isSome_iff_exists.mp hsome
  have hobserved : (dsStart.run (dsImpl Env.sample true) dsRaceEvents).map (fun n =>
      (n.accepted, n.chain.currentBlock.numberU64,
        decide (n.chain.currentBlock.hash Env.sample = .ok (n.chain.canonical 2)))) =
      some ([dsSecond 1 [], dsSecond 0 [], dsFirst, dsGenesis], 2, false) := by decide +kernel
  rw [hnode, Option.map_some, Option.some.injEq, Prod.mk.injEq, Prod.mk.injEq] at hobserved
  obtain ⟨haccepted, hnumber, hcanonical⟩ := hobserved
  have hcanonical := of_decide_eq_false hcanonical
  refine ⟨node, hnode, haccepted, hcanonical, fun hlinear => hcanonical ?_⟩
  have hhead := hlinear.canonical node.chain.currentBlock (List.mem_of_mem_head? hlinear.head)
  rwa [show (dsImpl Env.sample true).numberU64 node.chain.currentBlock = 2 from hnumber] at hhead

end Okchain.Chain
