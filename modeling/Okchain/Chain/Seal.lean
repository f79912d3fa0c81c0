import Okchain.Chain.TxChain

/-! What the seal of a block proves.

A seal that is checked proves that a quorum of the committee signed the block. For transaction blocks
it is checked from the second block on, unless the block names the genesis DS block, which has no
committee; such a block needs no seal.
-/
namespace Okchain.Chain
open Lib Protos State Core

/-- The bytes of `signature` verify on `digest` under the sum of the members' keys. -/
def SealedBy (E : Env) (members : List PeerEndpoint) (signature digest : Bytes) : Prop :=
  ∃ (s : E.bls.Sig) (pubs : List E.bls.PubKey), E.bls.deserializeSig signature = some s ∧
    (members.map (·.pubkey)).map E.bls.deserializePub = pubs.map some ∧
    E.bls.verify s pubs.sum digest = true

theorem checkSeal_ok {E : Env} {committee sorted : List PeerEndpoint} {boolMap : List Bool}
    {multiPubKey signature : Bytes} {mHash : Except Err Hash}
    (h : checkSeal E committee boolMap multiPubKey signature mHash = .ok sorted) :
    sorted.Perm committee ∧ ∃ digest, mHash = .ok digest ∧
      SealedBy E (selected boolMap sorted) signature digest.bytes := by
  obtain ⟨sorted', hsort, h⟩ := except_bind_ok.mp h
  obtain ⟨_, hkey, h⟩ := except_bind_ok.mp h
  obtain ⟨digest, hdigest, h⟩ := except_bind_ok.mp h
  obtain ⟨valid, hvalid, h⟩ := except_bind_ok.mp h
  have hsorted : sorted' = sorted := by
    cases valid with
    | true => exact Except.ok.inj h
    | false => exact nomatch h
  subst hsorted
  obtain ⟨pubs, hpubs, hcomposed⟩ := blsMultiPubkeyVerify_ok (orError_ok.mp hkey)
  obtain ⟨s, p, hs, hp, hverify⟩ := verifyHash_ok (orError_ok.mp hvalid)
  rw [hcomposed, Option.some.injEq] at hp
  subst hp
  exact ⟨sortByPubkey_perm hsort, digest, hdigest, s, pubs, hs, hpubs, hverify⟩

/-- A quorum of the committee of `base`, all different, signed the block with its coinbases cut to the
first one. -/
def QuorumSealed (V : Validator) (signed : Bytes → Bytes → Prop) (base : DSBlock) (b : TxBlock) : Prop :=
  ∃ (members : List PeerEndpoint) (digest : Hash),
    (∀ p ∈ members, p ∈ base.body.committee) ∧ (members.map (·.pubkey)).Nodup ∧
    getToleranceSize base.body.committee.length ≤ members.length ∧
    sealHash V b = .ok digest ∧
    SealedBy V.machine.toEnv members b.header.signature digest.bytes ∧
    ∀ p ∈ members, signed p.pubkey digest.bytes

theorem verifySealBy_ok {V : Validator} {signed : Bytes → Bytes → Prop} {base : DSBlock} {b : TxBlock}
    {u : Unit} (h : verifySealBy V base b = .ok u) (hdistinct : (base.body.committee.map (·.pubkey)).Nodup)
    (hunforged : ∀ s, V.machine.bls.deserializeSig b.header.signature = some s →
      MultiSig.Unforged (base.body.committee.map (·.pubkey)) signed s) : QuorumSealed V signed base b := by
  obtain ⟨sorted, hseal, h⟩ := except_bind_ok.mp h
  obtain ⟨_, hcoin, h⟩ := except_bind_ok.mp h
  obtain ⟨hperm, digest, hdigest, s, pubs, hs, hpubs, hverify⟩ := checkSeal_ok hseal
  obtain ⟨first, _, hcoin⟩ := except_bind_ok.mp (orError_ok.mp hcoin)
  obtain ⟨cbs, hcbs, _⟩ := except_bind_ok.mp hcoin
  have hvotes : (selected b.header.boolMap sorted).length = b.getVoteTickets :=
    selectedCoinbases_length hcbs
  have hsub := selected_sublist b.header.boolMap sorted
  have hnodup : ((selected b.header.boolMap sorted).map (·.pubkey)).Nodup :=
    ((hperm.map _).nodup_iff.mpr hdistinct).sublist (hsub.map _)
  have hmembers : ∀ p ∈ selected b.header.boolMap sorted, p ∈ base.body.committee := fun p hp =>
    hperm.mem_iff.mp (hsub.subset hp)
  refine ⟨selected b.header.boolMap sorted, digest, hmembers, hnodup, ?_, hdigest, ⟨s, pubs, hs, hpubs, hverify⟩,
    fun p hp => ?_⟩
  · rw [hvotes]
    by_contra hlt
    rw [if_pos (not_le.mp hlt)] at h
    exact nomatch h
  · exact hunforged s hs _ _ hnodup (List.map_subset _ hmembers) ⟨pubs, hpubs, hverify⟩ _ (List.mem_map_of_mem hp)

/-- **The seal theorem.** An accepted transaction block above the first one that names a DS block above
genesis is signed by a quorum of that DS block's committee. -/
theorem sealed_by_quorum {V : Validator} {ds : DSBlockChain} {now : Int} {c : TxBlockChain} {b : TxBlock}
    {hot : StateDB} {signed : Bytes → Bytes → Prop} (hds : V.dsBC = some ds)
    (hok : txValidateBlock V now c b = .ok hot) (hnumber : 1 < b.header.blockNumber)
    (hgate : 1 ≤ b.header.dsBlockNum)
    (hdistinct : ∀ base, ds.getBlockByNumber b.header.dsBlockNum = some base →
      (base.body.committee.map (·.pubkey)).Nodup)
    (hunforged : ∀ base s, ds.getBlockByNumber b.header.dsBlockNum = some base →
      V.machine.bls.deserializeSig b.header.signature = some s →
      MultiSig.Unforged (base.body.committee.map (·.pubkey)) signed s) :
    ∃ base, ds.getBlockByNumber b.header.dsBlockNum = some base ∧ QuorumSealed V signed base b := by
  obtain ⟨-, -, hseal, -⟩ := txValidateBlock_ok hok
  unfold verifySeal at hseal
  rw [if_pos ⟨hnumber, hgate⟩, hds] at hseal
  dsimp only at hseal
  split at hseal
  · exact nomatch hseal
  · cases hbase : ds.getBlockByNumber b.header.dsBlockNum with
    | none =>
      rw [hbase] at hseal
      exact nomatch hseal
    | some base =>
      rw [hbase] at hseal
      exact ⟨base, rfl, verifySealBy_ok hseal (hdistinct base hbase) fun s => hunforged base s hbase⟩

/-! ### Sample blocks -/

/-- A node whose DS chain holds the sample blocks. -/
def sampleValidator : Validator := ⟨Machine.sample, some dsChainOfFirst, true⟩

/-- The block with the state root that executing it on `trie` gives. -/
def withRoot (trie : AccountTrie) (b : TxBlock) : TxBlock :=
  {b with header := {b.header with
    stateRoot := hashBytes ((validatedRoot Machine.sample trie b).map Prod.fst)}}

def txGenesis : TxBlock := sampleBlock 0 []

def txGenesisChain : TxBlockChain :=
  .genesis txGenesis (bytesToHash (hashBytes (txGenesis.hash Env.sample)))
    fun root => if root = default then some (sampleTrie 1) else none

/-- A block on `parent`, executed on `trie`, that names the DS block `ds`. -/
def txSample (trie : AccountTrie) (parent : TxBlock) (ds : DSBlock) : TxBlock :=
  withRoot trie {sampleBlock (parent.numberU64 + 1) [] with header := {(sampleBlock 0 []).header with
    blockNumber := parent.numberU64 + 1
    previousBlockHash := hashBytes (parent.hash Env.sample)
    dsBlockNum := ds.numberU64
    dsBlockHash := hashBytes (ds.hash Env.sample)}}

def txFirst : TxBlock := txSample (sampleTrie 1) txGenesis dsGenesis

def txChainOfFirst : TxBlockChain := (insertBlock (txImpl sampleValidator 100) txFirst txGenesisChain).2

def txFirstTrie : AccountTrie :=
  (txChainOfFirst.extra (bytesToHash txFirst.header.stateRoot)).getD fun _ => none

/-- A second block that names the first DS block, as its one member is asked to sign it. -/
def txToSeal : TxBlock :=
  withRoot txFirstTrie {txSample txFirstTrie txFirst dsFirst with
    header := {(txSample txFirstTrie txFirst dsFirst).header with
      dsCoinBase := [[9], []], boolMap := [true], multiPubKey := MultiSig.natBytes 5}}

def txSealed : TxBlock :=
  {txToSeal with header := {txToSeal.header with
    signature := MultiSig.natBytes
      (5 * MultiSig.messageNat (hashBytes (sealHash sampleValidator txToSeal)))}}

/-- The first DS block with a committee of three. -/
def dsThree : DSBlock := {dsFirst with body := ⟨[], [peerWithKey 5, peerWithKey 6, peerWithKey 7], []⟩}

def dsChainOfThree : DSBlockChain := (insertBlock (dsImpl Env.sample true) dsThree dsGenesisChain).2

def threeValidator : Validator := ⟨Machine.sample, some dsChainOfThree, true⟩

/-- The second block as two of the three are asked to sign it. -/
def txToSealByTwo : TxBlock :=
  withRoot txFirstTrie {txToSeal with header := {txToSeal.header with
    dsCoinBase := [[9], [], []], boolMap := [true, true, false], multiPubKey := MultiSig.natBytes 11}}

/-- The sum of the signatures of the keys 5 and 6. -/
def signatureOfTwo : Nat := 11 * MultiSig.messageNat (hashBytes (sealHash threeValidator txToSealByTwo))

def txSealedByTwo : TxBlock :=
  {txToSealByTwo with header := {txToSealByTwo.header with signature := MultiSig.natBytes signatureOfTwo}}

def threeKeys : List Bytes := dsThree.body.committee.map (·.pubkey)

def signedByTwo : Bytes → Bytes → Prop := MultiSig.leastSigned (B := MultiSig.linear) threeKeys signatureOfTwo

/-- The signature does not say that the third member has signed. -/
theorem not_signedByTwo : ¬signedByTwo (MultiSig.natBytes 7) (hashBytes (sealHash threeValidator txToSealByTwo)) := by
  rintro ⟨keys, hnodup, hsub, hcovers, hmem⟩
  have hpair : ([5, 6].map MultiSig.natBytes).map MultiSig.ofNatBytes = [5, 6].map some := by decide
  have hsum := MultiSig.linear_covers_sum hpair (hashBytes (sealHash threeValidator txToSealByTwo))
  rw [show [5, 6].sum = 11 from rfl] at hsum
  have hseparates : MultiSig.Separates (B := MultiSig.linear) threeKeys signatureOfTwo :=
    MultiSig.linear_separates _ (by decide +kernel)
  have hkeys := hseparates _ ([5, 6].map MultiSig.natBytes) keys (by decide) (by decide +kernel)
    hsum hnodup hsub hcovers hmem
  exact absurd hkeys (by decide)

/-- The block of the two is accepted, and the two have signed it. -/
theorem txSealedByTwo_by_quorum : (∃ base, dsChainOfThree.getBlockByNumber txSealedByTwo.header.dsBlockNum = some base ∧
      QuorumSealed threeValidator signedByTwo base txSealedByTwo) ∧
    ¬signedByTwo (MultiSig.natBytes 7) (hashBytes (sealHash threeValidator txToSealByTwo)) := by
  obtain ⟨hot, hok⟩ := exists_of_isOk
    (show (txValidateBlock threeValidator 100 txChainOfFirst txSealedByTwo).isOk = true by decide +kernel)
  have hcommittee : ∀ {base}, dsChainOfThree.getBlockByNumber txSealedByTwo.header.dsBlockNum = some base →
      base.body.committee = dsThree.body.committee := by
    intro base h
    have hbase : (dsChainOfThree.getBlockByNumber txSealedByTwo.header.dsBlockNum).map (·.body.committee) =
        some dsThree.body.committee := by decide +kernel
    rwa [h, Option.map_some, Option.some.injEq] at hbase
  refine ⟨sealed_by_quorum (V := threeValidator) rfl hok (by decide +kernel) (by decide +kernel) (fun base h => ?_)
    fun base s h hs => ?_, not_signedByTwo⟩
  · rw [hcommittee h]
    decide +kernel
  · rw [hcommittee h]
    have hread : threeValidator.machine.bls.deserializeSig txSealedByTwo.header.signature = some signatureOfTwo := by
      unfold txSealedByTwo
      exact MultiSig.ofNatBytes_natBytes _
    rw [← Option.some.inj (hs.symm.trans hread).symm]
    exact MultiSig.leastSigned_unforged _ _

/-- A second block that names the genesis DS block and carries no signature. -/
def txUnsealed : TxBlock := txSample txFirstTrie txFirst dsGenesis

/-- It is accepted. -/
theorem txUnsealed_accepted :
    (txValidateBlock sampleValidator 100 txChainOfFirst txUnsealed).isOk = true ∧
    1 < txUnsealed.header.blockNumber ∧
    ∀ members digest, ¬SealedBy Env.sample members txUnsealed.header.signature digest := by
  refine ⟨by decide +kernel, by decide +kernel, fun members digest ⟨s, _, hs, _⟩ => ?_⟩
  exact nomatch hs

end Okchain.Chain
