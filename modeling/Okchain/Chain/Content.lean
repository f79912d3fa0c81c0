import Okchain.Chain.Seal
import Okchain.Core.Twin

/-! What the hash of a block commits its content to.

The hash covers neither the gas used nor the state root, and of the transactions nothing but their
number. The committee's signature adds the signatures of the transactions, but no other part of them.
What is left is checked by executing the block, and execution does not look at everything either.
-/
variable {hot : StateDB}

namespace Okchain.Chain
open Lib Protos State Core List Except
open StateDB (new)
open Transaction (signature)

/-- Every block with the hash of `b` that is accepted on the chain, at any time, has the transactions,
the state root and the gas claim of `b`, unless the two headers collide. -/
def CommitsContent (V : Validator) (c : TxBlockChain) (b : TxBlock) : Prop :=
  ∀ now b' hot, txValidateBlock V now c b' = .ok hot →
    b'.hash V.machine.toEnv = b.hash V.machine.toEnv →
    (∀ l l', b.header.hashed = .ok l → b'.header.hashed = .ok l' → V.machine.NoCollision l' l) →
    b'.body.transactions = b.body.transactions ∧ b'.header.stateRoot = b.header.stateRoot ∧
      b'.header.gasUsed = b.header.gasUsed

/-- Neither the gas claim nor the transactions enter the hash. -/
theorem hash_retold (E : Env) (b : TxBlock) (gasUsed : UInt64) (txs : List Transaction) :
    (retold b gasUsed txs).hash E = b.hash E := rfl

theorem noCollision_retold {E : Env} {b : TxBlock} {gasUsed : UInt64} {txs : List Transaction}
    (l l' : List Okchain.Rlp.Encoded) (hl : b.header.hashed = .ok l)
    (hl' : (retold b gasUsed txs).header.hashed = .ok l') : E.NoCollision l' l := by
  have heq : l' = l := ok.inj (hl'.symm.trans hl)
  exact fun _ => by rw [heq]

/-! ### A twin is accepted -/

section

variable {V : Validator} {now : Int} {c : TxBlockChain} {b : TxBlock} {gasUsed : UInt64} {txs : List Transaction}

theorem verifyHeader_gasUsed {h parent : TxBlockHeader} (hok : verifyHeader V now h parent = .ok ⟨⟩)
    (hgas : gasUsed ≤ h.gasLimit) : verifyHeader V now {h with gasUsed := gasUsed} parent = .ok ⟨⟩ := by
  unfold verifyHeader at hok ⊢
  cases htime : h.timestamp with
  | none =>
    rw [htime] at hok
    exact nomatch hok
  | some t =>
    rw [htime] at hok
    dsimp only at hok ⊢
    rw [if_neg (UInt64.not_lt.mpr hgas)]
    split at hok
    · exact nomatch hok
    · rw [if_neg ‹_›]
      split at hok
      · exact nomatch hok
      · rw [if_neg ‹_›]
        split at hok
        · exact nomatch hok
        · rw [if_neg ‹_›]
          split at hok
          · exact nomatch hok
          · exact hok

theorem txVerifyHeader_retold (hok : txVerifyHeader V now c b.header = .ok ⟨⟩)
    (hgas : gasUsed ≤ b.header.gasLimit) : txVerifyHeader V now c (retold b gasUsed txs).header = .ok ⟨⟩ := by
  obtain ⟨hash, parent, hhash, hnew, hparent, hverify⟩ := txVerifyHeader_ok hok
  refine except_bind_ok.mpr ⟨hash, hhash, ?_⟩
  simp only [retold, hnew, hparent, Option.isSome_none, Bool.false_eq_true, if_false]
  exact verifyHeader_gasUsed hverify hgas

theorem validateBody_retold (hlen : txs.length = b.body.transactions.length) :
    validateBody V c (retold b gasUsed txs) = validateBody V c b := by
  have hlen' : (retold b gasUsed txs).body.transactions.length = b.body.transactions.length := hlen
  unfold validateBody
  rw [hlen']
  rfl

section
variable (hsigs : txs.map signature = b.body.transactions.map signature)
include hsigs

theorem sealHash_retold : sealHash V (retold b gasUsed txs) = sealHash V b := by
  have hbody : (retold b gasUsed txs).body.hash V.machine.toEnv = b.body.hash V.machine.toEnv := by
    have hofBytes := congrArg (map Okchain.Rlp.ofBytes) hsigs
    rw [map_map, map_map] at hofBytes
    exact congrArg (fun l => V.machine.hashList ([_, _] ++ b.body.microBlockHashes.map _ ++ l)) hofBytes
  unfold sealHash TxBlock.cutCoinBase TxBlock.mHash
  simp only [bind_assoc, pure_bind, hbody]
  rfl

theorem verifySeal_retold : verifySeal V (retold b gasUsed txs) = verifySeal V b := by
  unfold verifySeal verifySealBy
  simp only [sealHash_retold hsigs]
  rfl

end

theorem map_signature {txs' : List Transaction} (htxs : List.Forall₂ SameButVersion txs txs') :
    txs'.map signature = txs.map signature := by
  induction htxs with
  | nil => rfl
  | cons htx _ ih => rw [map_cons, map_cons, ih, htx]

theorem executeAndValidate_retold {trie : AccountTrie} (htxs : List.Forall₂ SameButVersion b.body.transactions txs)
    (hok : executeAndValidate V b (new trie) = (.ok ⟨⟩, hot)) :
    ∃ hot', executeAndValidate V (retold b gasUsed txs) (new trie) = (.ok ⟨⟩, hot') := by
  have hsame : SameButLogs (new trie) (new trie) :=
    ⟨rfl, fun _ => Nat.zero_le _, fun _ => Nat.zero_le _⟩
  have hrelates : Proc.Relates SameButLogs Eq (executeAndValidate V b)
      (executeAndValidate V (retold b gasUsed txs)) := by
    refine .bind (processedRoot_relates V.machine htxs true) fun r r' h => ?_
    subst h
    exact Proc.Respects.ensure
  have hrel := hrelates _ _ hsame
  rw [hok] at hrel
  rcases hrun : executeAndValidate V (retold b gasUsed txs) (new trie) with ⟨e | u, hot'⟩
  · rw [hrun] at hrel
    exact hrel.elim
  · exact ⟨hot', rfl⟩

theorem txValidateBlock_retold (hok : txValidateBlock V now c b = .ok hot)
    (hgas : gasUsed ≤ b.header.gasLimit) (htxs : List.Forall₂ SameButVersion b.body.transactions txs) :
    ∃ hot', txValidateBlock V now c (retold b gasUsed txs) = .ok hot' := by
  obtain ⟨hheader, hbody, hseal, parent, trie, hparent, htrie, hrun⟩ := txValidateBlock_ok hok
  obtain ⟨hot', hrun'⟩ := executeAndValidate_retold htxs hrun
  exact ⟨hot', txValidateBlock_of (txVerifyHeader_retold hheader hgas)
    ((validateBody_retold htxs.length_eq.symm).trans hbody) ((verifySeal_retold (map_signature htxs)).trans hseal)
    hparent htrie hrun'⟩

end

/-! ### What equal hashes leave open -/

theorem hash_ok {E : Env} {h : TxBlockHeader} {hash : Hash} (hok : h.hash E = .ok hash) :
    ∃ l, h.hashed = .ok l ∧ hash = E.hashList l := by
  obtain ⟨l, hl, hhash⟩ := except_bind_ok.mp hok
  exact ⟨l, hl, (ok.inj hhash).symm⟩

/-- Headers that are hashed alike agree in what an empty block is executed by. -/
theorem fields_of_hashed {h h' : TxBlockHeader} {l l' : List Okchain.Rlp.Encoded} (hl : h.hashed = .ok l)
    (hl' : h'.hashed = .ok l') (hitems : l'.map (·.item) = l.map (·.item)) :
    h'.previousBlockHash = h.previousBlockHash ∧ h'.blockNumber = h.blockNumber ∧
      h'.dsCoinBase = h.dsCoinBase ∧ h'.gasLimit = h.gasLimit ∧ h'.txNum = h.txNum := by
  have hstr : Function.Injective Lib.Rlp.Item.str := fun _ _ h => Lib.Rlp.Item.str.inj h
  have huint : ∀ {x y : UInt64}, Lib.Rlp.beBytes x.toNat = Lib.Rlp.beBytes y.toNat → x = y := fun h =>
    UInt64.toNat.inj (Lib.Rlp.beBytes_injective h)
  obtain ⟨m, -, hl⟩ := except_bind_ok.mp hl
  obtain ⟨m', -, hl'⟩ := except_bind_ok.mp hl'
  rw [← ok.inj hl, ← ok.inj hl'] at hitems
  simp only [map_cons, cons_append, List.cons.injEq, Okchain.Rlp.ofUint,
    Okchain.Rlp.ofBytes, Okchain.Rlp.ofByteSlices, Lib.Rlp.Item.str.injEq, Lib.Rlp.Item.list.injEq] at hitems
  obtain ⟨-, hparent, hnumber, hcoin, -, hlimit, -, -, htxNum, -⟩ := hitems
  exact ⟨hparent, huint hnumber, map_injective_iff.mpr hstr hcoin, huint hlimit, huint htxNum⟩

/-- Without transactions only the number and the coinbases of a block matter. -/
theorem processedRoot_nil {M : Machine} {b b' : TxBlock} {del : Bool} (hb : b.body.transactions = [])
    (hb' : b'.body.transactions = []) (hnumber : b'.header.blockNumber = b.header.blockNumber)
    (hcoin : b'.header.dsCoinBase = b.header.dsCoinBase) :
    processedRoot M del b' = processedRoot M del b := by
  have hnil : M.sortShards [] = [] := perm_nil.mp (M.sortShards_perm [])
  have hassign : ∀ b : TxBlock, b.body.transactions = [] →
      process M b = assignRwards M b.header 0 [] >>= fun _ => pure ([], 0) := by
    intro b hb
    unfold process
    rw [hb]
    rfl
  unfold processedRoot
  rw [hassign b hb, hassign b' hb']
  unfold assignRwards
  rw [hnil, hnumber, hcoin]
  rfl

/-- What an accepted block has been found to satisfy, as far as its content goes. -/
theorem content_of_accepted {V : Validator} {now : Int} {c : TxBlockChain} {b : TxBlock}
    (hok : txValidateBlock V now c b = .ok hot) :
    b.header.gasUsed ≤ b.header.gasLimit ∧ b.header.txNum.toNat = b.body.transactions.length ∧
    ∃ hash, b.hash V.machine.toEnv = .ok hash ∧
    ∃ parent trie root gas, c.getBlockByHash b.parentHash = some parent ∧
      c.extra (bytesToHash parent.header.stateRoot) = some trie ∧
      processedRoot V.machine true b (new trie) = (.ok (root, gas), hot) ∧
      b.header.stateRoot = root.bytes := by
  obtain ⟨hheader, hbody, -, parent, trie, hparent, htrie, hrun⟩ := txValidateBlock_ok hok
  obtain ⟨hash, parent', hhash, -, -, hverify⟩ := txVerifyHeader_ok hheader
  obtain ⟨⟨root, gas⟩, s, hprocess, hcheck⟩ := Proc.bind_ok.mp hrun
  obtain ⟨hroot, rfl⟩ := Proc.ensure_ok.mp hcheck
  refine ⟨?_, ?_, hash, hhash, parent, trie, root, gas, hparent, htrie, hprocess, hroot⟩
  · unfold verifyHeader at hverify
    cases htime : b.header.timestamp with
    | none =>
      rw [htime] at hverify
      exact nomatch hverify
    | some t =>
      rw [htime] at hverify
      dsimp only at hverify
      by_contra hgas
      rw [if_pos (UInt64.not_le.mp hgas)] at hverify
      split at hverify
      · exact nomatch hverify
      · split at hverify
        · exact nomatch hverify
        · split at hverify <;> exact nomatch hverify
  · obtain ⟨hash', -, hbody⟩ := except_bind_ok.mp hbody
    by_contra htxs
    split at hbody
    · exact nomatch hbody
    · split at hbody
      · exact nomatch hbody
      · split at hbody <;> exact nomatch hbody

/-- **The content theorem.** The hash of an accepted block commits to its content exactly when there is
nothing to choose: no gas to claim and no transaction. -/
theorem commitsContent_iff {V : Validator} {now : Int} {c : TxBlockChain} {b : TxBlock} {hot : StateDB}
    (hok : txValidateBlock V now c b = .ok hot) :
    CommitsContent V c b ↔ b.header.gasLimit = 0 ∧ b.header.txNum = 0 := by
  obtain ⟨hgas, hlen, hash, hhash, parent, trie, root, gas, hparent, htrie, hprocess, hroot⟩ :=
    content_of_accepted hok
  refine ⟨fun hcommits => ?_, fun ⟨hlimit, hnum⟩ now' b' hot' hok' hsame hfree => ?_⟩
  · have htwin : ∀ gasUsed txs, gasUsed ≤ b.header.gasLimit →
        List.Forall₂ SameButVersion b.body.transactions txs →
        txs = b.body.transactions ∧ gasUsed = b.header.gasUsed := by
      intro gasUsed txs hle htxs
      obtain ⟨hot', hok'⟩ := txValidateBlock_retold hok hle htxs
      obtain ⟨htx, -, hg⟩ := hcommits now _ hot' hok' (hash_retold ..) noCollision_retold
      exact ⟨htx, hg⟩
    have hrefl : List.Forall₂ SameButVersion b.body.transactions b.body.transactions :=
      List.forall₂_same.mpr fun _ _ => rfl
    refine ⟨?_, ?_⟩
    · rw [(htwin _ _ (UInt64.le_refl _) hrefl).2, (htwin 0 _ (UInt64.zero_le) hrefl).2]
    · cases htxs : b.body.transactions with
      | nil =>
        rw [htxs] at hlen
        exact UInt64.toNat.inj hlen
      | cons tx rest =>
        have hother : List.Forall₂ SameButVersion b.body.transactions
            ({tx with version := tx.version + 1} :: rest) := by
          rw [htxs]
          exact .cons rfl (List.forall₂_same.mpr fun _ _ => rfl)
        have heq := (htwin _ _ hgas hother).1
        rw [htxs, List.cons.injEq] at heq
        have hversion : tx.version + 1 = tx.version := congrArg Transaction.version heq.1
        simp at hversion
  · obtain ⟨hgas', hlen', hash', hhash', parent', trie', root', gas', hparent', htrie', hprocess', hroot'⟩ :=
      content_of_accepted hok'
    obtain ⟨l, hl, rfl⟩ := hash_ok hhash
    obtain ⟨l', hl', rfl⟩ := hash_ok hhash'
    rw [hhash, hhash', Except.ok.injEq] at hsame
    obtain ⟨hprev, hnumber, hcoin, hlimit', hnum'⟩ := fields_of_hashed hl hl' (hfree l l' hl hl' hsame)
    have hnil : b.body.transactions = [] := by
      rw [hnum] at hlen
      exact List.length_eq_zero_iff.mp hlen.symm
    have hnil' : b'.body.transactions = [] := by
      rw [hnum', hnum] at hlen'
      exact List.length_eq_zero_iff.mp hlen'.symm
    have hzero : ∀ {x : UInt64}, x ≤ 0 → x = 0 := fun h => UInt64.le_zero_iff.mp h
    refine ⟨by rw [hnil, hnil'], ?_, ?_⟩
    · have hparents : c.getBlockByHash b'.parentHash = c.getBlockByHash b.parentHash :=
        congrArg (fun prev => c.getBlockByHash (bytesToHash prev)) hprev
      rw [hparents, hparent, Option.some.injEq] at hparent'
      subst hparent'
      rw [htrie, Option.some.injEq] at htrie'
      subst htrie'
      rw [processedRoot_nil hnil hnil' hnumber hcoin, hprocess] at hprocess'
      rw [hroot, hroot', (Prod.mk.inj (Except.ok.inj (Prod.mk.inj hprocess').1)).1]
    · rw [hlimit', hlimit] at hgas'
      rw [hlimit] at hgas
      rw [hzero hgas, hzero hgas']

/-- A block without gas and without transactions. -/
def txBare : TxBlock := withRoot (sampleTrie 1) {txFirst with header := {txFirst.header with gasLimit := 0}}

theorem commitsContent_txBare : CommitsContent sampleValidator txGenesisChain txBare := by
  obtain ⟨hot, hok⟩ := exists_of_isOk
    (show (txValidateBlock sampleValidator 100 txGenesisChain txBare).isOk = true by decide +kernel)
  exact (commitsContent_iff hok).mpr ⟨rfl, rfl⟩

/-- The same signed block with another gas claim has the same hash and is accepted too. -/
theorem txSealed_gas_swapped :
    (txValidateBlock sampleValidator 100 txChainOfFirst txSealed).isOk = true ∧
    (txValidateBlock sampleValidator 100 txChainOfFirst (retold txSealed 1 [])).isOk = true ∧
    (retold txSealed 1 []).hash Env.sample = txSealed.hash Env.sample ∧
    (retold txSealed 1 []).header.gasUsed ≠ txSealed.header.gasUsed ∧
    ¬CommitsContent sampleValidator txChainOfFirst txSealed := by
  have hother : (txValidateBlock sampleValidator 100 txChainOfFirst (retold txSealed 1 [])).isOk = true := by
    decide +kernel
  have hgas : (retold txSealed 1 []).header.gasUsed ≠ txSealed.header.gasUsed := by decide +kernel
  refine ⟨by decide +kernel, hother, hash_retold .., hgas, fun hcommits => ?_⟩
  obtain ⟨hot, hok⟩ := exists_of_isOk hother
  exact hgas (hcommits 100 _ hot hok (hash_retold ..) noCollision_retold).2.2

end Okchain.Chain
