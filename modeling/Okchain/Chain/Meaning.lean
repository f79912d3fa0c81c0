import Okchain.Chain.Storage

/-! What the hash of a transaction says about its execution, after `protos/transaction.go`.

In the RLP encoding that is hashed a missing recipient and an empty one are the same, and the decoder never returns a
missing one. `AsMsg` makes a creation of a missing recipient and a call to the zero address of an empty one, so a
creation that was written to the block store or to the journal of the pool comes back as a call.
-/
namespace Okchain.Chain.Storage
open Lib Lib.Rlp Protos Okchain.Rlp Core List

/-- `Transaction.To`. -/
def transactionTo (t : Transaction) : Option Address :=
  match t.toAddr with
  | none => none
  | some recipient => some (bytesToAddress recipient)

/-- The two transactions become the same message and have the same recipient. -/
structure SameMeaning (M : Machine) (t t' : Transaction) : Prop where
  message : asMsg M t' = asMsg M t
  recipient : transactionTo t' = transactionTo t

/-! ### Equal hashes -/

variable {t t' : Transaction} {M : Machine} {txs : List Transaction}

/-- Transactions that are hashed alike differ in nothing that is executed, but for a recipient that is missing in
one and empty in the other. -/
theorem fields_of_transaction_hashed (h : t'.hashed.map Encoded.item = t.hashed.map Encoded.item) :
    t'.nonce = t.nonce ∧ t'.senderPubKey = t.senderPubKey ∧ t'.toAddr.getD [] = t.toAddr.getD [] ∧
      t'.amount = t.amount ∧ t'.data = t.data := by
  simp only [Transaction.hashed, map_cons, List.cons.injEq, ofUint, Okchain.Rlp.ofBytes, Item.str.injEq] at h
  obtain ⟨-, hnonce, hsender, hto, hamount, -, -, -, hdata, -⟩ := h
  exact ⟨uint64_of_item hnonce, hsender, hto, uint64_of_item hamount, hdata⟩

/-- Where the bytes of two recipients agree, the recipients do if they are both there or both missing. -/
theorem map_eq_map_iff {a b : Option Bytes} (h : a.getD [] = b.getD []) :
    a.map bytesToAddress = b.map bytesToAddress ↔ (a = none ↔ b = none) := by
  cases a with
  | none => cases b <;> simp
  | some x =>
    cases b with
    | none => simp
    | some y =>
      obtain rfl : x = y := h
      simp

theorem transactionTo_eq (t : Transaction) : transactionTo t = t.toAddr.map bytesToAddress := by
  unfold transactionTo
  cases t.toAddr <;> rfl

theorem sameMeaning_iff (h : t'.hashed.map Encoded.item = t.hashed.map Encoded.item) :
    SameMeaning M t t' ↔ (t'.toAddr = none ↔ t.toAddr = none) := by
  obtain ⟨hnonce, hsender, hto, hamount, hdata⟩ := fields_of_transaction_hashed h
  rw [← map_eq_map_iff hto]
  constructor
  · intro hsame
    exact congrArg Msg.recipient hsame.message
  · intro hrecipient
    refine ⟨?_, by rw [transactionTo_eq, transactionTo_eq, hrecipient]⟩
    unfold asMsg
    rw [hrecipient, hsender, hnonce, hamount, hdata]

/-- What comes back means what was written exactly if there was a recipient. -/
theorem sameMeaning_reread_iff : SameMeaning M t (reread t) ↔ t.toAddr ≠ none := by
  have hsame : SameMeaning M t (reread t) ↔ _ := sameMeaning_iff rfl
  tauto

theorem forall₂_reread_iff : List.Forall₂ (SameMeaning M) txs (txs.map reread) ↔ ∀ t ∈ txs, t.toAddr ≠ none := by
  rw [forall₂_map_right_iff, forall₂_same]
  exact forall₂_congr fun t _ => sameMeaning_reread_iff

/-! ### The journal of the pool -/

/-- `txJournal.insert`: the encoding is appended to the file. -/
def journalInsert (file : Bytes) (t : Transaction) : Bytes :=
  file ++ encodeToBytes transactionType (transactionValue t)

/-- The loop of `txJournal.load`, which ends with the first transaction that does not decode. -/
def journalLoad : Nat → Bytes → List Transaction
  | 0, _ => []
  | fuel + 1, input =>
    match decodeTransaction input with
    | .ok (t, rest) => t :: journalLoad fuel rest
    | .error _ => []

/-- The file after the transactions have been inserted. -/
def journalOf (txs : List Transaction) : Bytes := txs.foldl journalInsert []

/-- What is loaded from a file; a transaction takes at least a byte. -/
def loadJournal (file : Bytes) : List Transaction := journalLoad (file.length + 1) file

theorem encodeToBytes_transaction (t : Transaction) :
    encodeToBytes transactionType (transactionValue t) = encode (transactionItem t) := by
  obtain ⟨_, _, _, _, _, _, _, _, _, _, timestamp⟩ := t
  cases timestamp <;> rfl

theorem foldl_journalInsert (txs : List Transaction) (file : Bytes) :
    txs.foldl journalInsert file = file ++ encodeAll (txs.map transactionItem) := by
  induction txs generalizing file with
  | nil => exact (append_nil file).symm
  | cons t txs ih =>
    rw [foldl_cons, ih, journalInsert, encodeToBytes_transaction, map_cons, encodeAll, append_assoc]

theorem journalOf_eq (txs : List Transaction) : journalOf txs = encodeAll (txs.map transactionItem) :=
  foldl_journalInsert txs []

theorem journalLoad_encodeAll {fuel : Nat}
    (hsize : (encodeAll (txs.map transactionItem)).length < 2 ^ 64) (hfuel : txs.length < fuel) :
    journalLoad fuel (encodeAll (txs.map transactionItem)) = (txs.takeWhile (·.timestamp.isSome)).map reread := by
  induction txs generalizing fuel with
  | nil =>
    obtain ⟨fuel, rfl⟩ := Nat.exists_eq_succ_of_ne_zero (Nat.ne_of_gt hfuel)
    rfl
  | cons t txs ih =>
    obtain ⟨fuel, rfl⟩ := Nat.exists_eq_succ_of_ne_zero (Nat.ne_of_gt (Nat.zero_lt_of_lt hfuel))
    rw [map_cons, encodeAll, length_append] at hsize
    rw [map_cons, encodeAll, journalLoad]
    cases hstamp : t.timestamp with
    | none =>
      obtain ⟨e, -, herr⟩ := fails_transaction hstamp (by omega) (encodeAll (txs.map transactionItem))
      rw [herr, takeWhile_cons_of_neg (by rw [hstamp]; exact Bool.false_ne_true)]
      rfl
    | some stamp =>
      have hsome : t.timestamp.isSome = true := by rw [hstamp]; rfl
      rw [reads_transaction hsome (by omega),
        takeWhile_cons_of_pos (p := fun t : Transaction => t.timestamp.isSome) hsome]
      exact congrArg (reread t :: ·) (ih (by omega) (Nat.lt_of_succ_lt_succ hfuel))

theorem loadJournal_journalOf (hsize : (journalOf txs).length < 2 ^ 64) :
    loadJournal (journalOf txs) = (txs.takeWhile (·.timestamp.isSome)).map reread := by
  have hcount := length_le_length_encodeAll (txs.map transactionItem)
  rw [length_map, ← journalOf_eq] at hcount
  rw [journalOf_eq] at hsize hcount ⊢
  exact journalLoad_encodeAll hsize (Nat.lt_succ_of_le hcount)

theorem take_length_takeWhile {α : Type} (p : α → Bool) (l : List α) : l.take (l.takeWhile p).length = l.takeWhile p :=
  (prefix_iff_eq_take.mp (List.takeWhile_prefix p)).symm

/-! ### The meaning of a hash -/

/-- **The hash of a transaction and its meaning.** Two transactions with one hash mean the same exactly if both
have a recipient or neither has. So the transactions of a block that is read back mean what was written exactly if
all of them have one, and so do those loaded from the journal. -/
theorem transaction_meaning_iff (M : Machine) :
    (∀ t t' : Transaction, t'.hash M.toEnv = t.hash M.toEnv → M.NoCollision t'.hashed t.hashed →
      (SameMeaning M t t' ↔ (t'.toAddr = none ↔ t.toAddr = none))) ∧
    (∀ (b b' : TxBlock) (hash : Hash) (receipts : Option Bytes) (db db' : KvStore), b.hash M.toEnv = .ok hash →
      batchInsert M.toEnv receipts b db = .ok db' → Fits b → readBlock db' hash b.numberU64 = some b' →
      (List.Forall₂ (SameMeaning M) b.body.transactions b'.body.transactions ↔
        ∀ t ∈ b.body.transactions, t.toAddr ≠ none)) ∧
    (∀ txs : List Transaction, (journalOf txs).length < 2 ^ 64 →
      (List.Forall₂ (SameMeaning M) (txs.take (loadJournal (journalOf txs)).length) (loadJournal (journalOf txs)) ↔
        ∀ t ∈ txs.take (loadJournal (journalOf txs)).length, t.toAddr ≠ none)) := by
  refine ⟨fun t t' hhash hno => sameMeaning_iff (hno hhash), ?_, ?_⟩
  · intro b b' hash receipts db db' hhash hins hfits hread
    rw [readBlock_batchInsert hhash hins hfits] at hread
    unfold txReadBack at hread
    split at hread
    · rw [← Option.some.inj hread]
      exact forall₂_reread_iff
    · exact nomatch hread
  · intro txs hsize
    rw [loadJournal_journalOf hsize, List.length_map, take_length_takeWhile]
    exact forall₂_reread_iff

/-- Whether the transaction creates a contract when it is executed on the sender's account. -/
def creates (t : Transaction) : Option (List Bool) :=
  (processTx Machine.sample (sampleBlock 2 []) 0 t Progress.init (State.StateDB.new (sampleTrie 20000000))).1.toOption.map
    fun p => p.receipts.map (·.contractAddress.isSome)

/-- A creation is written to the journal and loaded as a call to the zero address. The two have one hash, and
executing them does different things. -/
theorem creation_comes_back_as_call : ∃ t t' : Transaction,
    t'.hash Env.sample = t.hash Env.sample ∧ Env.sample.NoCollision t'.hashed t.hashed ∧
    loadJournal (journalOf [t]) = [t'] ∧ asMsg Machine.sample t' ≠ asMsg Machine.sample t ∧
    transactionTo t = none ∧ transactionTo t' = some (bytesToAddress []) ∧
    creates t = some [true] ∧ creates t' = some [false] := by
  refine ⟨sampleTx none 0 0, reread (sampleTx none 0 0), rfl, fun _ => rfl,
    loadJournal_journalOf (by decide +kernel), fun h => ?_, rfl, rfl, by decide +kernel,
    by decide +kernel⟩
  exact nomatch congrArg Msg.recipient h

end Okchain.Chain.Storage
