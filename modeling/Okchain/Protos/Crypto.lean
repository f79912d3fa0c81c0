import Okchain.Protos.Hash

/-! Signature checks shared by the chains and the consensus.

The Go binding of the signature library passes `&buf[0]` to C, so an empty buffer panics before
anything is parsed or verified. The bool map of a block selects committee members by their position
in the committee sorted by public key.
-/
namespace Okchain
open Lib (Bytes)
open Protos List

section

variable (E : Env)

/-- `PubKey.Deserialize`. -/
def deserializePub (b : Bytes) : Except Err E.bls.PubKey :=
  if b = [] then .error (.panic .indexOutOfRange)
  else match E.bls.deserializePub b with
    | some p => .ok p
    | none => .error (.crypto .deserialize)

/-- `Sig.Deserialize`. -/
def deserializeSig (b : Bytes) : Except Err E.bls.Sig :=
  if b = [] then .error (.panic .indexOutOfRange)
  else match E.bls.deserializeSig b with
    | some s => .ok s
    | none => .error (.crypto .deserialize)

/-- `Sig.BLSVerify`. -/
def blsVerify (s : E.bls.Sig) (p : E.bls.PubKey) (m : Bytes) : Except Err Bool :=
  if m = [] then .error (.panic .indexOutOfRange) else .ok (E.bls.verify s p m)

/-- `BLSSigner.VerifyHash`: it never returns false without an error. -/
def verifyHash (msg sig pubKey : Bytes) : Except Err Bool := do
  let s ← deserializeSig E sig
  let pub ← deserializePub E pubKey
  let valid ← blsVerify E s pub msg
  if valid then return true else .error (.crypto .blsVerifyFailed)

/-- `sort.Sort(ByPubkey)`. Comparing two keys reads eight bytes of each. -/
def sortByPubkey (l : List PeerEndpoint) : Except Err (List PeerEndpoint) :=
  if 2 ≤ l.length ∧ l.any (fun p => p.pubkey.length < 8) then .error (.panic .indexOutOfRange)
  else .ok (E.sortPeers l)

/-- The sum of the keys a bool map selects. The loop runs over the peers, so a bool map that is too
short panics and bits past the last peer are never looked at. -/
def sumSelected : List Bool → List PeerEndpoint → Except Err E.bls.PubKey
  | _, [] => .ok 0
  | [], _ :: _ => .error (.panic .indexOutOfRange)
  | bit :: bits, p :: ps =>
    if bit then do
      let pub ← deserializePub E p.pubkey
      let rest ← sumSelected bits ps
      return pub + rest
    else sumSelected bits ps

def blsMultiPubkeyVerify (boolMap : List Bool) (sortPeer : List PeerEndpoint) (composedKey : Bytes) :
    Except Err Unit := do
  let checkPubkey ← sumSelected E boolMap sortPeer
  let composedPub ← deserializePub E composedKey
  if checkPubkey = composedPub then return () else .error (.crypto .composedPubkeyNotEqual)

end

/-- The coinbases `CheckCoinBase2` expects: the first one in the header, then the cached coinbase of
every selected member. Here the loop runs over the bool map, so a set bit past the last member
panics. -/
def selectedCoinbases (cache : Bytes → Option Bytes) :
    List Bool → List PeerEndpoint → Except Err (List Bytes)
  | [], _ => .ok []
  | false :: bits, ps => selectedCoinbases cache bits ps.tail
  | true :: _, [] => .error (.panic .indexOutOfRange)
  | true :: bits, p :: ps =>
    match cache p.pubkey with
    | none => .error (.crypto .coinbaseNotFound)
    | some cb => do return cb :: (← selectedCoinbases cache bits ps)

/-- `CheckCoinBase2`: the two lists are sorted and compared. -/
def checkCoinBase2 (b : TxBlock) (committeeSort : List PeerEndpoint) (cache : Bytes → Option Bytes) :
    Except Err Unit := do
  let first ← index b.header.dsCoinBase 0
  let rest ← selectedCoinbases cache b.header.boolMap committeeSort
  if (first :: rest).isPerm b.header.dsCoinBase then return ()
  else .error (.crypto .coinbasesNotMatch)

/-! ### What a successful check says -/

theorem except_bind_ok {ε α β : Type} {x : Except ε α} {f : α → Except ε β} {b : β} :
    x >>= f = .ok b ↔ ∃ a, x = .ok a ∧ f a = .ok b := by
  cases x with
  | error e => simp [bind, Except.bind]
  | ok a => simp [bind, Except.bind]

def selected : List Bool → List PeerEndpoint → List PeerEndpoint
  | bit :: bits, p :: ps => if bit then p :: selected bits ps else selected bits ps
  | _, _ => []

theorem selected_sublist (bits : List Bool) (ps : List PeerEndpoint) : (selected bits ps).Sublist ps := by
  induction bits generalizing ps with
  | nil => simp [selected]
  | cons bit bits ih =>
    cases ps with
    | nil => simp [selected]
    | cons p ps =>
      cases bit with
      | true => simpa [selected] using ih ps
      | false => simpa [selected] using (ih ps).cons p

variable {b : Bytes} {E : Env} {bits : List Bool} {ps l : List PeerEndpoint}

theorem deserializePub_ok {p : E.bls.PubKey} (h : deserializePub E b = .ok p) : E.bls.deserializePub b = some p := by
  unfold deserializePub at h
  split at h
  · cases h
  · split at h
    · cases h
      assumption
    · cases h

theorem deserializeSig_ok {s : E.bls.Sig} (h : deserializeSig E b = .ok s) : E.bls.deserializeSig b = some s := by
  unfold deserializeSig at h
  split at h
  · cases h
  · split at h
    · cases h
      assumption
    · cases h

theorem sumSelected_ok {total : E.bls.PubKey} (h : sumSelected E bits ps = .ok total) :
    ∃ pubs : List E.bls.PubKey, ((selected bits ps).map (·.pubkey)).map E.bls.deserializePub =
      pubs.map some ∧ pubs.sum = total := by
  induction ps generalizing bits total with
  | nil =>
    have hnil : selected bits [] = [] := by cases bits <;> rfl
    unfold sumSelected at h
    refine ⟨[], by rw [hnil]; rfl, ?_⟩
    exact Except.ok.inj h
  | cons p ps ih =>
    cases bits with
    | nil => exact nomatch h
    | cons bit bits =>
      cases bit with
      | false => exact ih h
      | true =>
        obtain ⟨pub, hpub, h⟩ := except_bind_ok.mp h
        obtain ⟨rest, hrest, h⟩ := except_bind_ok.mp h
        obtain ⟨pubs, hpubs, hsum⟩ := ih hrest
        refine ⟨pub :: pubs, ?_, ?_⟩
        · show E.bls.deserializePub p.pubkey :: _ = some pub :: _
          rw [deserializePub_ok hpub]
          exact congrArg _ hpubs
        · rw [sum_cons, hsum]
          exact Except.ok.inj h

theorem selectedCoinbases_length {cache : Bytes → Option Bytes}
    {cbs : List Bytes} (h : selectedCoinbases cache bits ps = .ok cbs) :
    (selected bits ps).length = voteTickets bits := by
  induction bits generalizing ps cbs with
  | nil => rfl
  | cons bit bits ih =>
    cases bit with
    | false =>
      have := ih h
      cases ps with
      | nil =>
        simpa [selected, voteTickets] using this
      | cons p ps => simpa [selected, voteTickets] using this
    | true =>
      cases ps with
      | nil => exact nomatch h
      | cons p ps =>
        unfold selectedCoinbases at h
        cases hc : cache p.pubkey with
        | none =>
          rw [hc] at h
          exact nomatch h
        | some cb =>
          rw [hc] at h
          obtain ⟨rest, hrest, _⟩ := except_bind_ok.mp h
          have := ih hrest
          simpa [selected, voteTickets] using this

theorem sortByPubkey_perm {sorted : List PeerEndpoint} (h : sortByPubkey E l = .ok sorted) : sorted.Perm l := by
  unfold sortByPubkey at h
  split at h
  · exact nomatch h
  · rw [← Except.ok.inj h]
    exact E.sortPeers_perm l

/-- When the first eight bytes of the keys differ, the order of the members does not matter. -/
theorem sortByPubkey_eq {m : List PeerEndpoint} (hperm : l.Perm m)
    (hlong : ∀ p ∈ m, 8 ≤ p.pubkey.length) (hdistinct : (m.map fun p => p.pubkey.take 8).Nodup) :
    sortByPubkey E l = .ok (E.sortPeers m) := by
  have hshort : l.any (fun p => p.pubkey.length < 8) = false := by
    simpa using fun p hp => hlong p (hperm.mem_iff.mp hp)
  have hinj : ∀ a b, a ∈ E.sortPeers l → b ∈ E.sortPeers m → a.sortKey ≤ b.sortKey →
      b.sortKey ≤ a.sortKey → a = b := by
    intro a b ha hb hab hba
    have ha : a ∈ m := hperm.mem_iff.mp ((E.sortPeers_perm l).mem_iff.mp ha)
    have hb : b ∈ m := (E.sortPeers_perm m).mem_iff.mp hb
    have hlength : (a.pubkey.take 8).length = (b.pubkey.take 8).length := by
      rw [length_take, length_take, min_eq_left (hlong a ha), min_eq_left (hlong b hb)]
    exact inj_on_of_nodup_map hdistinct ha hb
      (Lib.Rlp.ofBeBytes_inj hlength (le_antisymm hab hba))
  have hsorted : E.sortPeers l = E.sortPeers m :=
    List.Perm.eq_of_pairwise hinj (E.sortPeers_sorted l) (E.sortPeers_sorted m)
      (((E.sortPeers_perm l).trans hperm).trans (E.sortPeers_perm m).symm)
  unfold sortByPubkey
  rw [if_neg (by simp [hshort]), hsorted]

theorem blsMultiPubkeyVerify_ok {boolMap : List Bool}
    {composedKey : Bytes} {u : Unit} (h : blsMultiPubkeyVerify E boolMap ps composedKey = .ok u) :
    ∃ pubs : List E.bls.PubKey, ((selected boolMap ps).map (·.pubkey)).map E.bls.deserializePub =
      pubs.map some ∧ E.bls.deserializePub composedKey = some pubs.sum := by
  obtain ⟨total, htotal, h⟩ := except_bind_ok.mp h
  obtain ⟨composed, hcomposed, h⟩ := except_bind_ok.mp h
  obtain ⟨pubs, hpubs, hsum⟩ := sumSelected_ok htotal
  refine ⟨pubs, hpubs, ?_⟩
  rw [deserializePub_ok hcomposed, hsum]
  by_cases heq : total = composed
  · rw [heq]
  · rw [if_neg heq] at h
    exact nomatch h

theorem verifyHash_ok {msg sig pubKey : Bytes} {b : Bool} (h : verifyHash E msg sig pubKey = .ok b) :
    ∃ s p, E.bls.deserializeSig sig = some s ∧ E.bls.deserializePub pubKey = some p ∧
      E.bls.verify s p msg = true := by
  obtain ⟨s, hs, h⟩ := except_bind_ok.mp h
  obtain ⟨p, hp, h⟩ := except_bind_ok.mp h
  obtain ⟨valid, hvalid, h⟩ := except_bind_ok.mp h
  refine ⟨s, p, deserializeSig_ok hs, deserializePub_ok hp, ?_⟩
  cases valid with
  | false => exact nomatch h
  | true =>
    unfold blsVerify at hvalid
    split at hvalid
    · exact nomatch hvalid
    · exact Except.ok.inj hvalid

/-! ### A computable environment

For evaluating the model on concrete inputs: the linear signature scheme, a polynomial checksum for
Keccak-256 and insertion sort. -/

def checksum (b : Bytes) : Hash :=
  bytesToHash (Lib.Rlp.beBytes (b.foldl (fun acc d => (acc * 257 + d.toNat + 1) % 2 ^ 256) 0))

def Env.sample : Env where
  keccak := checksum
  bls := Lib.MultiSig.linear
  sortPeers := List.insertionSort (fun a b => a.sortKey ≤ b.sortKey)
  sortPeers_perm := List.perm_insertionSort _
  sortPeers_sorted := by
    have total : Std.Total (fun a b : PeerEndpoint => a.sortKey ≤ b.sortKey) :=
      ⟨fun a b => Nat.le_total a.sortKey b.sortKey⟩
    have trans : IsTrans PeerEndpoint (fun a b => a.sortKey ≤ b.sortKey) :=
      ⟨fun a b c => Nat.le_trans⟩
    exact List.pairwise_insertionSort _

end Okchain
