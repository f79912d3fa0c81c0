import Okchain.Consensus.Rejection

/-! Rules for computations that return, and when the checks of keys, bool maps and signatures do.

A computation returns when it ends with a value or with an error, not with a panic. Each rule is an equivalence,
so that what comes out at the end is exactly the inputs on which a procedure returns.
-/
namespace Okchain.Consensus
open Lib Protos Core State List

variable {e : Err} {p : PeerEndpoint} {b : Bytes} {ps : List PeerEndpoint} {bits : List Bool}
/-! ### Rules -/

/-- The computation ends with a value or with an error it returns. -/
def Returns {α : Type} (x : Except Err α) : Prop := ∀ e, x = .error e → Returned e

section

variable {α β : Type}

@[simp] theorem returns_ok (a : α) : Returns (.ok a : Except Err α) := nofun

@[simp] theorem returns_pure (a : α) : Returns (pure a : Except Err α) := nofun

@[simp] theorem returns_error : Returns (.error e : Except Err α) ↔ Returned e :=
  ⟨fun h => h e rfl, by rintro he _ ⟨⟩; exact he⟩

@[simp] theorem not_returned_panic {p : Panic} : ¬Returned (.panic p) := fun h => h p rfl

@[simp] theorem returned_crypto {e : CryptoErr} : Returned (.crypto e) := fun _ => nofun
@[simp] theorem returned_chain {e : Okchain.ChainErr} : Returned (.chain e) := fun _ => nofun
@[simp] theorem returned_consensus {e : ConsensusErr} : Returned (.consensus e) := fun _ => nofun

variable {x : Except Err α} {σ : Type} {s : σ} {c : Prop}

theorem returns_bind {f : α → Except Err β} : Returns (x >>= f) ↔ Returns x ∧ ∀ a, x = .ok a → Returns (f a) := by
  cases x with
  | error e =>
    show Returns (.error e) ↔ _
    simp
  | ok a =>
    show Returns (f a) ↔ _
    simp

theorem returned_replacedBy {e' : Err} (he : Returned e) : Returned (e'.replacedBy e) ↔ Returned e' := by
  cases e' with
  | panic p => exact Iff.rfl
  | _ => exact iff_of_true he fun _ => nofun

theorem returns_orError (he : Returned e) : Returns (orError e x) ↔ Returns x := by
  cases x with
  | ok a => exact Iff.rfl
  | error e' => rw [orError_error, returns_error, returns_error, returned_replacedBy he]

@[simp] theorem returns_deref {o : Option α} : Returns (deref o) ↔ o.isSome = true := by
  cases o <;> simp [deref]

@[simp] theorem returns_index {l : List α} {i : Nat} : Returns (index l i) ↔ i < l.length := by
  unfold index
  cases h : l[i]? with
  | none => simpa using h
  | some a =>
    obtain ⟨hi, -⟩ := List.getElem?_eq_some_iff.mp h
    simpa using hi

@[simp] theorem returns_decode {T : Type} (c : Codec T) (b : Bytes) : Returns (c.decode b) := by
  unfold Codec.decode
  split <;> simp

theorem returns_lift_bind {y : Except Err α} {f : α → Proc Err σ β} :
    Returns ((Proc.lift y >>= f) s).1 ↔ Returns y ∧ ∀ a, y = .ok a → Returns (f a s).1 := by
  cases y with
  | error e =>
    show Returns (.error e) ↔ _
    simp
  | ok a =>
    show Returns (f a s).1 ↔ _
    simp

theorem returns_ensure_bind [Decidable c] (he : Returned e) {f : PUnit → Proc Err σ β} :
    Returns ((Proc.ensure c e >>= f) s).1 ↔ (c → Returns (f ⟨⟩ s).1) := by
  by_cases hc : c
  · rw [Proc.bind_ensure hc]
    simp [hc]
  · rw [Proc.bind_ensure_not hc]
    simpa [hc] using he

theorem returns_ensure [Decidable c] (he : Returned e) : Returns ((Proc.ensure c e : Proc Err σ PUnit) s).1 := by
  unfold Proc.ensure
  split
  · exact returns_ok _
  · exact returns_error.mpr he

end

/-! ### Keys, signatures and hashes -/

section

variable {E : Env}

@[simp] theorem returns_deserializePub : Returns (deserializePub E b) ↔ b ≠ [] := by
  unfold deserializePub
  split
  · simpa
  · split <;> simpa

@[simp] theorem returns_deserializeSig : Returns (deserializeSig E b) ↔ b ≠ [] := by
  unfold deserializeSig
  split
  · simpa
  · split <;> simpa

@[simp] theorem returns_readPub : Returns (readPub E b) ↔ b ≠ [] := by
  unfold readPub
  split <;> simpa

@[simp] theorem returns_readSig : Returns (readSig E b) ↔ b ≠ [] := by
  unfold readSig
  split <;> simpa

variable {sig : E.bls.Sig} {cache : Bytes → Option Bytes} {sorted : List PeerEndpoint} {expected : Int}

@[simp] theorem returns_blsVerify {pub : E.bls.PubKey} {m : Bytes} : Returns (blsVerify E sig pub m) ↔ m ≠ [] := by
  unfold blsVerify
  split <;> simpa

/-- The keys can be compared: there is one at most, or each has the eight bytes that are read. -/
def Sortable (ps : List PeerEndpoint) : Prop := 2 ≤ ps.length → ∀ p ∈ ps, 8 ≤ p.pubkey.length

theorem returns_sortByPubkey : Returns (sortByPubkey E ps) ↔ Sortable ps := by
  unfold sortByPubkey Sortable
  split
  · rename_i h
    obtain ⟨hlength, hshort⟩ := h
    simpa [hlength] using hshort
  · rename_i h
    simpa using h

/-! ### Bool maps -/

def EveryBitMember (bits : List Bool) (ps : List PeerEndpoint) : Prop :=
  voteTickets bits = (selected bits ps).length

@[simp] theorem selected_nil (bits : List Bool) : selected bits [] = [] := by
  cases bits <;> rfl

theorem selected_false_cons (bits : List Bool) (ps : List PeerEndpoint) :
    selected (false :: bits) ps = selected bits ps.tail := by
  cases ps with
  | nil => simp
  | cons p ps => rfl

theorem voteTickets_cons (bit : Bool) (bits : List Bool) :
    voteTickets (bit :: bits) = (if bit then 1 else 0) + voteTickets bits := by
  unfold voteTickets
  cases bit <;> simp [Nat.add_comm]

theorem everyBitMember_false_cons : EveryBitMember (false :: bits) ps ↔ EveryBitMember bits ps.tail := by
  unfold EveryBitMember
  rw [selected_false_cons, voteTickets_cons]
  simp

theorem not_everyBitMember_nil : ¬EveryBitMember (true :: bits) [] := by
  unfold EveryBitMember
  rw [voteTickets_cons]
  simp

theorem everyBitMember_true_cons : EveryBitMember (true :: bits) (p :: ps) ↔ EveryBitMember bits ps := by
  unfold EveryBitMember
  rw [voteTickets_cons]
  show 1 + voteTickets bits = (p :: selected bits ps).length ↔ _
  rw [length_cons]
  omega

/-- The loop over the bits reads the key of the member of every set bit. -/
def BitsCovered (bits : List Bool) (ps : List PeerEndpoint) : Prop :=
  EveryBitMember bits ps ∧ ∀ p ∈ selected bits ps, p.pubkey ≠ []

theorem bitsCovered_true_cons : BitsCovered (true :: bits) (p :: ps) ↔ p.pubkey ≠ [] ∧ BitsCovered bits ps := by
  have hkeys : (∀ q ∈ selected (true :: bits) (p :: ps), q.pubkey ≠ []) ↔
      p.pubkey ≠ [] ∧ ∀ q ∈ selected bits ps, q.pubkey ≠ [] := forall_mem_cons
  unfold BitsCovered
  rw [everyBitMember_true_cons, hkeys]
  exact and_left_comm

theorem bitsCovered_false_cons : BitsCovered (false :: bits) ps ↔ BitsCovered bits ps.tail := by
  unfold BitsCovered
  rw [everyBitMember_false_cons, selected_false_cons]

theorem sumByBoolMap_covered (h : BitsCovered bits ps) :
    ∃ total, sumByBoolMap E bits ps = .ok (total, voteTickets bits) := by
  induction bits generalizing ps with
  | nil => exact ⟨0, rfl⟩
  | cons bit bits ih =>
    rw [voteTickets_cons]
    cases bit with
    | false =>
      obtain ⟨total, htotal⟩ := ih (bitsCovered_false_cons.mp h)
      exact ⟨total, by simpa [sumByBoolMap] using htotal⟩
    | true =>
      cases ps with
      | nil => exact absurd h.1 not_everyBitMember_nil
      | cons p ps =>
        obtain ⟨hkey, hrest⟩ := bitsCovered_true_cons.mp h
        obtain ⟨total, htotal⟩ := ih hrest
        refine ⟨(E.bls.deserializePub p.pubkey).getD 0 + total,
          except_bind_ok.mpr ⟨_, if_neg hkey, except_bind_ok.mpr ⟨_, htotal, ?_⟩⟩⟩
        rw [Nat.add_comm]
        rfl

theorem returns_sumByBoolMap : Returns (sumByBoolMap E bits ps) ↔ BitsCovered bits ps := by
  constructor
  · intro h
    induction bits generalizing ps with
    | nil => exact ⟨rfl, by simp [selected]⟩
    | cons bit bits ih =>
      cases bit with
      | false => exact bitsCovered_false_cons.mpr (ih h)
      | true =>
        cases ps with
        | nil => exact absurd (returns_error.mp h) not_returned_panic
        | cons p ps =>
          obtain ⟨hkey, hrest⟩ := returns_bind.mp h
          have hkey := returns_readPub.mp hkey
          exact bitsCovered_true_cons.mpr ⟨hkey, ih (returns_bind.mp (hrest _ (if_neg hkey))).1⟩
  · intro h
    obtain ⟨total, htotal⟩ := sumByBoolMap_covered h
    rw [htotal]
    exact returns_ok _

/-- The member's key is not read: it is empty, or does not parse. -/
def unread (E : Env) (p : PeerEndpoint) : Bool := p.pubkey = [] ∨ (E.bls.deserializePub p.pubkey).isNone

/-- The loop over the members stops at the first selected key that is not read, which must not be empty; if there
is none, every member must have a bit. -/
def MembersCovered (E : Env) (bits : List Bool) (ps : List PeerEndpoint) : Prop :=
  match (selected bits ps).find? (unread E) with
  | some p => p.pubkey ≠ []
  | none => ps.length ≤ bits.length

theorem membersCovered_true_cons : MembersCovered E (true :: bits) (p :: ps) ↔
      p.pubkey ≠ [] ∧ (unread E p = false → MembersCovered E bits ps) := by
  have hselected : selected (true :: bits) (p :: ps) = p :: selected bits ps := rfl
  unfold MembersCovered
  rw [hselected, find?_cons]
  cases hread : unread E p with
  | true => simp
  | false =>
    have hkey : p.pubkey ≠ [] := fun hnil => by simp [unread, hnil] at hread
    simp [hkey]

theorem deserializePub_isOk : (∃ pub, deserializePub E p.pubkey = .ok pub) ↔ unread E p = false := by
  unfold deserializePub unread
  by_cases hnil : p.pubkey = []
  · simp [hnil]
  · cases E.bls.deserializePub p.pubkey <;> simp [hnil]

theorem returns_sumSelected : Returns (sumSelected E bits ps) ↔ MembersCovered E bits ps := by
  induction ps generalizing bits with
  | nil => simp [sumSelected, MembersCovered]
  | cons p ps ih =>
    cases bits with
    | nil => simp [sumSelected, MembersCovered, selected]
    | cons bit bits =>
      cases bit with
      | false => simpa [sumSelected, MembersCovered, selected] using ih
      | true =>
        rw [membersCovered_true_cons, ← deserializePub_isOk]
        show Returns (deserializePub E p.pubkey >>= fun pub => sumSelected E bits ps >>= fun rest =>
          pure (pub + rest)) ↔ _
        rw [returns_bind, returns_deserializePub]
        refine and_congr_right fun _ => ?_
        constructor
        · rintro h ⟨pub, hpub⟩
          exact ih.mp (returns_bind.mp (h pub hpub)).1
        · intro h pub hpub
          exact returns_bind.mpr ⟨ih.mpr (h ⟨pub, hpub⟩), fun _ _ => returns_pure _⟩

theorem sumSelected_isOk : (∃ total, sumSelected E bits ps = .ok total) ↔
      (selected bits ps).find? (unread E) = none ∧ ps.length ≤ bits.length := by
  induction ps generalizing bits with
  | nil => simp [sumSelected]
  | cons p ps ih =>
    cases bits with
    | nil => simp [sumSelected]
    | cons bit bits =>
      cases bit with
      | false => simpa [sumSelected, selected] using ih
      | true =>
        have hselected : selected (true :: bits) (p :: ps) = p :: selected bits ps := rfl
        have hlength : (p :: ps).length ≤ (true :: bits).length ↔ ps.length ≤ bits.length := by simp
        have hfind : (p :: selected bits ps).find? (unread E) = none ↔
            unread E p = false ∧ (selected bits ps).find? (unread E) = none := by
          rw [find?_cons]
          cases unread E p <;> simp
        rw [hselected, hfind, hlength, and_assoc, ← ih, ← deserializePub_isOk]
        constructor
        · rintro ⟨total, h⟩
          obtain ⟨pub, hpub, h⟩ := except_bind_ok.mp h
          obtain ⟨rest, hrest, h⟩ := except_bind_ok.mp h
          exact ⟨⟨pub, hpub⟩, rest, hrest⟩
        · rintro ⟨⟨pub, hpub⟩, rest, hrest⟩
          exact ⟨pub + rest, except_bind_ok.mpr ⟨pub, hpub, except_bind_ok.mpr ⟨rest, hrest, rfl⟩⟩⟩

/-- `BlsMultiPubkeyVerify` returns: the loop does, and when it has read all keys there is one to compare with. -/
structure KeySumCovered (E : Env) (bits : List Bool) (ps : List PeerEndpoint) (key : Bytes) : Prop where
  members : MembersCovered E bits ps
  composed : (selected bits ps).find? (unread E) = none → key ≠ []

theorem returns_blsMultiPubkeyVerify {key : Bytes} :
    Returns (blsMultiPubkeyVerify E bits ps key) ↔ KeySumCovered E bits ps key := by
  unfold blsMultiPubkeyVerify
  rw [returns_bind, returns_sumSelected]
  constructor
  · rintro ⟨hmembers, h⟩
    refine ⟨hmembers, fun hread => ?_⟩
    have hlength : ps.length ≤ bits.length := by
      unfold MembersCovered at hmembers
      rwa [hread] at hmembers
    obtain ⟨total, htotal⟩ := sumSelected_isOk.mpr ⟨hread, hlength⟩
    exact returns_deserializePub.mp (returns_bind.mp (h total htotal)).1
  · rintro ⟨hmembers, hkey⟩
    refine ⟨hmembers, fun total htotal => ?_⟩
    obtain ⟨hread, -⟩ := sumSelected_isOk.mp ⟨total, htotal⟩
    refine returns_bind.mpr ⟨returns_deserializePub.mpr (hkey hread), fun pub _ => ?_⟩
    split <;> simp

theorem returns_selectedCoinbases : Returns (selectedCoinbases cache bits ps) ↔
      (∃ p ∈ selected bits ps, cache p.pubkey = none) ∨ EveryBitMember bits ps := by
  induction bits generalizing ps with
  | nil => simp [selectedCoinbases, EveryBitMember, voteTickets, selected]
  | cons bit bits ih =>
    cases bit with
    | false =>
      rw [everyBitMember_false_cons, selected_false_cons]
      exact ih
    | true =>
      cases ps with
      | nil => simp [selectedCoinbases, not_everyBitMember_nil]
      | cons p ps =>
        have hmem : (∃ q ∈ selected (true :: bits) (p :: ps), cache q.pubkey = none) ↔
            cache p.pubkey = none ∨ ∃ q ∈ selected bits ps, cache q.pubkey = none := exists_mem_cons_iff ..
        rw [everyBitMember_true_cons, hmem]
        unfold selectedCoinbases
        cases hcache : cache p.pubkey with
        | none => simp
        | some cb =>
          rw [returns_bind, ih]
          simp

/-- `CheckCoinBase2` returns: there is a first coinbase, and every set bit has a member, unless the coinbase of a
selected member is not known. -/
structure CoinBasesCovered (b : TxBlock) (members : List PeerEndpoint) (cache : Bytes → Option Bytes) : Prop where
  first : b.header.dsCoinBase ≠ []
  bits : (∃ p ∈ selected b.header.boolMap members, cache p.pubkey = none) ∨
    EveryBitMember b.header.boolMap members

theorem returns_checkCoinBase2 {b : TxBlock} {members : List PeerEndpoint} :
    Returns (checkCoinBase2 b members cache) ↔ CoinBasesCovered b members cache := by
  have hfirst : (0 < b.header.dsCoinBase.length) ↔ b.header.dsCoinBase ≠ [] := length_pos_iff
  unfold checkCoinBase2
  rw [returns_bind, returns_index, hfirst]
  constructor
  · rintro ⟨hne, h⟩
    obtain ⟨first, hindex⟩ : ∃ first, index b.header.dsCoinBase 0 = .ok first := by
      cases hcoins : b.header.dsCoinBase with
      | nil => exact absurd hcoins hne
      | cons first rest => exact ⟨first, rfl⟩
    exact ⟨hne, returns_selectedCoinbases.mp (returns_bind.mp (h first hindex)).1⟩
  · rintro ⟨hne, hbits⟩
    refine ⟨hne, fun first _ => returns_bind.mpr ⟨returns_selectedCoinbases.mpr hbits, fun rest _ => ?_⟩⟩
    split <;> simp

/-! ### Signatures -/

theorem deserializeSig_isOk :
    (∃ sig, deserializeSig E b = .ok sig) ↔ b ≠ [] ∧ (E.bls.deserializeSig b).isSome = true := by
  unfold deserializeSig
  by_cases hnil : b = []
  · simp [hnil]
  · cases E.bls.deserializeSig b <;> simp [hnil]

/-- The signatures of the second round can be checked: the collective signature is not empty; when it parses and
the bool map has the right length, the keys it selects are not empty; and when they are enough, neither is what
they signed. -/
structure Sig2Covered (E : Env) (sig2 : BoolMapSignature) (sorted : List PeerEndpoint) (signed : Bytes)
    (expected : Int) : Prop where
  signature : sig2.signature ≠ []
  bits : (E.bls.deserializeSig sig2.signature).isSome = true → sig2.boolMap.length = sorted.length →
    BitsCovered sig2.boolMap sorted
  signed : (E.bls.deserializeSig sig2.signature).isSome = true → sig2.boolMap.length = sorted.length →
    expected ≤ voteTickets sig2.boolMap → signed ≠ []

theorem returns_verifyMultiSignByBoolMap {hash : Bytes} :
    Returns (verifyMultiSignByBoolMap E bits sorted sig hash expected) ↔ (bits.length = sorted.length →
      BitsCovered bits sorted ∧ (expected ≤ voteTickets bits → hash ≠ [])) := by
  unfold verifyMultiSignByBoolMap
  by_cases hlength : bits.length = sorted.length
  · rw [if_neg (not_not.mpr hlength), returns_bind, returns_sumByBoolMap]
    simp only [hlength, forall_const]
    refine and_congr_right fun hbits => ?_
    obtain ⟨total, hsum⟩ := sumByBoolMap_covered hbits
    rw [hsum]
    by_cases hcount : expected ≤ voteTickets bits
    · have hgoOn : ¬((voteTickets bits : Int) < expected) := not_lt.mpr hcount
      simp only [Except.ok.injEq, forall_eq', hgoOn, if_false, hcount, forall_const]
      rw [returns_bind, returns_blsVerify]
      refine and_iff_left fun valid _ => ?_
      cases valid <;> simp
    · have hstop : (voteTickets bits : Int) < expected := not_le.mp hcount
      simp [hstop]
  · simp [hlength]

theorem returns_sig2Check {sig2 : BoolMapSignature} {signed : Bytes} :
    Returns (sig2Check E sig2 sorted signed expected) ↔ Sig2Covered E sig2 sorted signed expected := by
  unfold sig2Check
  rw [returns_bind, returns_deserializeSig]
  constructor
  · rintro ⟨hne, h⟩
    have hchecked : (E.bls.deserializeSig sig2.signature).isSome = true → sig2.boolMap.length = sorted.length →
        BitsCovered sig2.boolMap sorted ∧ (expected ≤ voteTickets sig2.boolMap → signed ≠ []) := by
      intro hsig
      obtain ⟨sig, hsig⟩ := deserializeSig_isOk.mpr ⟨hne, hsig⟩
      exact returns_verifyMultiSignByBoolMap.mp (h sig hsig)
    exact ⟨hne, fun hsig hlength => (hchecked hsig hlength).1, fun hsig hlength => (hchecked hsig hlength).2⟩
  · intro h
    refine ⟨h.signature, fun sig hsig => returns_verifyMultiSignByBoolMap.mpr fun hlength => ?_⟩
    obtain ⟨-, hsig⟩ := deserializeSig_isOk.mp ⟨sig, hsig⟩
    exact ⟨h.bits hsig hlength, h.signed hsig hlength⟩

/-- The seal of a block can be checked against a key that is there: the signature is not empty and the block has a
hash. -/
theorem returns_verifySeal {B : Type} [SealedBlock B] {b : B} (hkey : (getSeal b).multiPubKey ≠ []) :
    Returns (verifySeal E b) ↔ (getSeal b).signature ≠ [] ∧ Returns (digest E b) := by
  unfold verifySeal
  rw [returns_bind, returns_readPub]
  constructor
  · rintro ⟨-, h⟩
    obtain ⟨hsig, h⟩ := returns_bind.mp (h _ (if_neg hkey))
    have hsig := returns_readSig.mp hsig
    exact ⟨hsig, (returns_bind.mp (h _ (if_neg hsig))).1⟩
  · rintro ⟨hsig, hdigest⟩
    refine ⟨hkey, fun pub _ => returns_bind.mpr ⟨returns_readSig.mpr hsig, fun sig _ => ?_⟩⟩
    exact returns_bind.mpr ⟨hdigest, fun hash _ => returns_blsVerify.mpr (hash_ne_nil hash)⟩

@[simp] theorem returns_mHash {b : TxBlock} : Returns (b.mHash E) ↔ b.header.miner.isSome = true := by
  unfold TxBlock.mHash TxBlockHeader.hash TxBlockHeader.hashed
  cases b.header.miner with
  | none => exact iff_of_false (fun h => not_returned_panic (returns_error.mp h)) nofun
  | some m => exact iff_of_true (returns_ok _) rfl

end

end Okchain.Consensus
