import Okchain.Chain.Seal
import Okchain.Rlp.Reader
import Okchain.Server.MessageVerify

/-! Transaction blocks in the database, after `txblockchain/accessors_chain.go` and `rawdb`.

A block is stored as two RLP strings, its header and its body, under keys made of its number and its hash. What
comes back is the block, but for two things: a missing recipient comes back as an empty one, and a block that holds
a nil pointer does not come back at all.
-/
namespace Okchain.Chain.Storage
open Lib Lib.Rlp Protos Okchain.Rlp Core List Except

variable {x : Item} {h : TxBlockHeader} {key : Bytes}

/-! ### The structs as the encoder sees them -/

def timestampType : GoType := .struct [.uint, .uint]

def txBlockHeaderType : GoType :=
  .ptr (.struct [.uint, .ptr timestampType, .bytes, .uint, .slice .bytes, .slice .bytes, .bytes, .bytes, .uint,
    .uint, .uint, .bytes, .ptr Server.peerEndpointType, .uint, .slice .bool, .bytes, .bytes])

def byteSlices (l : List Bytes) : GoValue := .slice (l.map .bytes)

def txBlockHeaderValue (h : TxBlockHeader) : GoValue :=
  .ptr (.struct [.uint h.version.toNat, Server.timestampValue h.timestamp, .bytes h.previousBlockHash,
    .uint h.blockNumber.toNat, byteSlices h.dsCoinBase, byteSlices h.shardingLeadCoinBase, .bytes h.stateRoot,
    .bytes h.txRoot, .uint h.gasLimit.toNat, .uint h.gasUsed.toNat, .uint h.dsBlockNum.toNat, .bytes h.dsBlockHash,
    Server.peerEndpointValue h.miner, .uint h.txNum.toNat, .slice (h.boolMap.map .bool), .bytes h.signature,
    .bytes h.multiPubKey])

def transactionType : GoType :=
  .ptr (.struct [.uint, .uint, .bytes, .bytes, .uint, .bytes, .uint, .uint, .bytes, .bytes, .ptr timestampType])

def transactionValue (t : Transaction) : GoValue :=
  .ptr (.struct [.uint t.version.toNat, .uint t.nonce.toNat, .bytes t.senderPubKey, .bytes (t.toAddr.getD []),
    .uint t.amount.toNat, .bytes t.signature, .uint t.gasPrice.toNat, .uint t.gasLimit.toNat, .bytes t.code,
    .bytes t.data, Server.timestampValue t.timestamp])

def txBlockBodyType : GoType := .ptr (.struct [.uint, .slice .bytes, .slice transactionType, .bytes])

def txBlockBodyValue (b : TxBlockBody) : GoValue :=
  .ptr (.struct [.uint b.numberOfMicroBlock.toNat, byteSlices b.microBlockHashes,
    .slice (b.transactions.map transactionValue), .bytes b.currentBlockHash])

/-- `rlp.EncodeToBytes`. Its error is logged, and nothing is stored. -/
def encodeToBytes (t : GoType) (v : GoValue) : Bytes :=
  match encodeItem t v with
  | .ok item => encode item
  | .error _ => []

/-! ### The structs as the decoder sees them -/

def decodeUint64 : Decoder UInt64 := UInt64.ofNat <$> decodeUint 64

def decodeUint32 : Decoder UInt32 := UInt32.ofNat <$> decodeUint 32

def decodeTimestamp : Decoder Timestamp := inList do
  let second ← field decodeUint64
  let nanosecond ← field decodeUint64
  return ⟨second, nanosecond⟩

def decodePeerID : Decoder PeerID := inList do
  let name ← field decodeBytes
  return ⟨name⟩

def decodePeerEndpoint : Decoder PeerEndpoint := inList do
  let id ← field decodePeerID
  let address ← field decodeBytes
  let port ← field decodeUint32
  let pubkey ← field decodeBytes
  let roleid ← field decodeBytes
  let coinbase ← field decodeBytes
  return ⟨some id, address, port, pubkey, roleid, coinbase⟩

def decodeTxBlockHeader : Decoder TxBlockHeader := inList do
  let version ← field decodeUint32
  let timestamp ← field decodeTimestamp
  let previousBlockHash ← field decodeBytes
  let blockNumber ← field decodeUint64
  let dsCoinBase ← field (decodeListSlice decodeBytes)
  let shardingLeadCoinBase ← field (decodeListSlice decodeBytes)
  let stateRoot ← field decodeBytes
  let txRoot ← field decodeBytes
  let gasLimit ← field decodeUint64
  let gasUsed ← field decodeUint64
  let dsBlockNum ← field decodeUint64
  let dsBlockHash ← field decodeBytes
  let miner ← field decodePeerEndpoint
  let txNum ← field decodeUint64
  let boolMap ← field (decodeListSlice decodeBool)
  let signature ← field decodeBytes
  let multiPubKey ← field decodeBytes
  return ⟨version, some timestamp, previousBlockHash, blockNumber, dsCoinBase, shardingLeadCoinBase, stateRoot,
    txRoot, gasLimit, gasUsed, dsBlockNum, dsBlockHash, some miner, txNum, boolMap, signature, multiPubKey⟩

/-- A byte slice that has been decoded is not nil. -/
def decodeTransaction : Decoder Transaction := inList do
  let version ← field decodeUint32
  let nonce ← field decodeUint64
  let senderPubKey ← field decodeBytes
  let toAddr ← field decodeBytes
  let amount ← field decodeUint64
  let signature ← field decodeBytes
  let gasPrice ← field decodeUint64
  let gasLimit ← field decodeUint64
  let code ← field decodeBytes
  let data ← field decodeBytes
  let timestamp ← field decodeTimestamp
  return ⟨version, nonce, senderPubKey, some toAddr, amount, signature, gasPrice, gasLimit, code, data,
    some timestamp⟩

def decodeTxBlockBody : Decoder TxBlockBody := inList do
  let numberOfMicroBlock ← field decodeUint32
  let microBlockHashes ← field (decodeListSlice decodeBytes)
  let transactions ← field (decodeListSlice decodeTransaction)
  let currentBlockHash ← field decodeBytes
  return ⟨numberOfMicroBlock, microBlockHashes, transactions, currentBlockHash⟩

/-! ### Keys and values -/

abbrev KvStore := Bytes → Option Bytes

def KvStore.write (db : KvStore) (batch : List (Bytes × Bytes)) : KvStore :=
  batch.foldl (fun db put => Function.update db put.1 (some put.2)) db

/-- `encodeBlockNumber`: eight bytes. -/
def encodeBlockNumber (number : UInt64) : Bytes :=
  List.replicate (8 - (beBytes number.toNat).length) 0 ++ beBytes number.toNat

/-- `GetFullHeaderKey`: an "h" in front. -/
def getFullHeaderKey (number : UInt64) (hash : Hash) : Bytes := 104 :: (encodeBlockNumber number ++ hash.bytes)

/-- `GetBlockBodyKey`: a "b" in front. -/
def getBlockBodyKey (number : UInt64) (hash : Hash) : Bytes := 98 :: (encodeBlockNumber number ++ hash.bytes)

/-- `GetBlockReceiptsPrefixKey`: an "r" in front. -/
def getBlockReceiptsPrefixKey (number : UInt64) (hash : Hash) : Bytes :=
  114 :: (encodeBlockNumber number ++ hash.bytes)

/-- `GetHeaderNumberKey`: an "H" in front. -/
def getHeaderNumberKey (hash : Hash) : Bytes := 72 :: hash.bytes

/-- `GetTxLookupKey`: an "l" in front. -/
def getTxLookupKey (hash : Hash) : Bytes := 108 :: hash.bytes

/-- The key of `WriteCanonicalHash`: an "h" in front and an "n" behind. -/
def canonicalHashKey (number : UInt64) : Bytes := 104 :: (encodeBlockNumber number ++ [110])

def headBlockKey : Bytes := [76, 97, 115, 116, 66, 108, 111, 99, 107]

/-- `WriteBlock`: the body, the number under the hash, and the header. -/
def writeBlock (hash : Hash) (b : TxBlock) : List (Bytes × Bytes) :=
  [(getBlockBodyKey b.numberU64 hash, encodeToBytes txBlockBodyType (txBlockBodyValue b.body)),
    (getHeaderNumberKey hash, encodeBlockNumber b.numberU64),
    (getFullHeaderKey b.numberU64 hash, encodeToBytes txBlockHeaderType (txBlockHeaderValue b.header))]

def writeTxLookupEntries (E : Env) (hash : Hash) (b : TxBlock) : List (Bytes × Bytes) :=
  b.body.transactions.zipIdx.map fun (tx, i) => (getTxLookupKey (tx.hash E),
    encodeToBytes (.struct [.bytes, .uint, .uint]) (.struct [.bytes hash.bytes, .uint b.numberU64.toNat, .uint i]))

/-- The writes of `TxBlockChain.batchInsert`. The receipts, if there are any, go to the database before the
batch does; the nodes of the state have keys of their own kind and are left out. -/
def batchInsert (E : Env) (receipts : Option Bytes) (b : TxBlock) (db : KvStore) : Except Err KvStore := do
  let hash ← b.hash E
  let stored := match receipts with
    | some data => db.write [(getBlockReceiptsPrefixKey b.numberU64 hash, data)]
    | none => db
  return stored.write (writeBlock hash b ++ [(canonicalHashKey b.numberU64, hash.bytes), (headBlockKey, hash.bytes)]
    ++ writeTxLookupEntries E hash b)

/-- A stored value that has been decoded; what is not there, or empty, is nil. -/
def readValue {α : Type} (d : Decoder α) (db : KvStore) (key : Bytes) : Option α :=
  match db key with
  | none | some [] => none
  | some data => (decode d data).toOption

def readHeader (db : KvStore) (hash : Hash) (number : UInt64) : Option TxBlockHeader :=
  readValue decodeTxBlockHeader db (getFullHeaderKey number hash)

def readBody (db : KvStore) (hash : Hash) (number : UInt64) : Option TxBlockBody :=
  readValue decodeTxBlockBody db (getBlockBodyKey number hash)

def readBlock (db : KvStore) (hash : Hash) (number : UInt64) : Option TxBlock := do
  let header ← readHeader db hash number
  let body ← readBody db hash number
  return ⟨header, body⟩

/-! ### What is written -/

/-- A pointer to a struct; nil is the empty list. -/
def ptrItem {α : Type} (item : α → Item) : Option α → Item
  | some a => item a
  | none => .list []

def uintItem (n : Nat) : Item := .str (beBytes n)

def byteSlicesItem (l : List Bytes) : Item := .list (l.map .str)

def timestampItem (t : Timestamp) : Item := .list [uintItem t.second.toNat, uintItem t.nanosecond.toNat]

def peerIDItem (id : PeerID) : Item := .list [.str id.name]

def peerEndpointItem (p : PeerEndpoint) : Item :=
  .list [ptrItem peerIDItem p.id, .str p.address, uintItem p.port.toNat, .str p.pubkey, .str p.roleid, .str p.coinbase]

def boolItem (b : Bool) : Item := .str (if b then [1] else [])

def txBlockHeaderItem (h : TxBlockHeader) : Item :=
  .list [uintItem h.version.toNat, ptrItem timestampItem h.timestamp, .str h.previousBlockHash,
    uintItem h.blockNumber.toNat, byteSlicesItem h.dsCoinBase, byteSlicesItem h.shardingLeadCoinBase, .str h.stateRoot,
    .str h.txRoot, uintItem h.gasLimit.toNat, uintItem h.gasUsed.toNat, uintItem h.dsBlockNum.toNat,
    .str h.dsBlockHash, ptrItem peerEndpointItem h.miner, uintItem h.txNum.toNat, .list (h.boolMap.map boolItem),
    .str h.signature, .str h.multiPubKey]

def transactionItem (t : Transaction) : Item :=
  .list [uintItem t.version.toNat, uintItem t.nonce.toNat, .str t.senderPubKey, .str (t.toAddr.getD []),
    uintItem t.amount.toNat, .str t.signature, uintItem t.gasPrice.toNat, uintItem t.gasLimit.toNat, .str t.code,
    .str t.data, ptrItem timestampItem t.timestamp]

def txBlockBodyItem (b : TxBlockBody) : Item :=
  .list [uintItem b.numberOfMicroBlock.toNat, byteSlicesItem b.microBlockHashes,
    .list (b.transactions.map transactionItem), .str b.currentBlockHash]

theorem write_timestamp (t : Option Timestamp) :
    write (.ptr timestampType) (Server.timestampValue t) = .ok (ptrItem timestampItem t) := by
  cases t <;> rfl

theorem write_peerEndpoint (p : Option PeerEndpoint) :
    write (.ptr Server.peerEndpointType) (Server.peerEndpointValue p) = .ok (ptrItem peerEndpointItem p) := by
  cases p with
  | none => rfl
  | some p =>
    obtain ⟨id, _⟩ := p
    cases id <;> rfl

variable {ts : List GoType} {vs : List GoValue} {xs : List Item} {α : Type} {t : Transaction} {db : KvStore}
  {b : TxBlock} {E : Env}

theorem writeFields_cons {t : GoType} {v : GoValue}
    (hv : write t v = .ok x) (hvs : writeFields ts vs = .ok xs) : writeFields (t :: ts) (v :: vs) = .ok (x :: xs) := by
  rw [writeFields, hv, hvs]

theorem encodeToBytes_struct (htype : typeInfo (.ptr (.struct ts)) = .ok ()) (hvs : writeFields ts vs = .ok xs) :
    encodeToBytes (.ptr (.struct ts)) (.ptr (.struct vs)) = encode (.list xs) := by
  unfold encodeToBytes encodeItem
  rw [htype]
  rw [write, write, hvs]

theorem write_slice {t : GoType} {value : α → GoValue} {item : α → Item}
    (h : ∀ a, write t (value a) = .ok (item a)) (l : List α) :
    write (.slice t) (.slice (l.map value)) = .ok (.list (l.map item)) := by
  have helems : writeElems t (l.map value) = .ok (l.map item) := by
    induction l with
    | nil => rfl
    | cons a l ih =>
      rw [map_cons, writeElems, h a, ih]
      rfl
  rw [write, helems]

theorem write_byteSlices (l : List Bytes) : write (.slice .bytes) (byteSlices l) = .ok (byteSlicesItem l) :=
  write_slice (fun _ => rfl) l

theorem write_boolMap (l : List Bool) : write (.slice .bool) (.slice (l.map .bool)) = .ok (.list (l.map boolItem)) :=
  write_slice (fun _ => rfl) l

theorem encodeToBytes_header (h : TxBlockHeader) :
    encodeToBytes txBlockHeaderType (txBlockHeaderValue h) = encode (txBlockHeaderItem h) :=
  encodeToBytes_struct rfl <| writeFields_cons rfl <| writeFields_cons (write_timestamp _) <| writeFields_cons rfl <|
    writeFields_cons rfl <| writeFields_cons (write_byteSlices _) <| writeFields_cons (write_byteSlices _) <|
    writeFields_cons rfl <| writeFields_cons rfl <| writeFields_cons rfl <| writeFields_cons rfl <|
    writeFields_cons rfl <| writeFields_cons rfl <| writeFields_cons (write_peerEndpoint _) <| writeFields_cons rfl <|
    writeFields_cons (write_boolMap _) <| writeFields_cons rfl <| writeFields_cons rfl rfl

theorem write_transaction (t : Transaction) : write transactionType (transactionValue t) = .ok (transactionItem t) := by
  obtain ⟨_, _, _, _, _, _, _, _, _, _, timestamp⟩ := t
  cases timestamp <;> rfl

theorem encodeToBytes_body (b : TxBlockBody) :
    encodeToBytes txBlockBodyType (txBlockBodyValue b) = encode (txBlockBodyItem b) :=
  encodeToBytes_struct rfl <| writeFields_cons rfl <| writeFields_cons (write_byteSlices _) <|
    writeFields_cons (write_slice write_transaction _) <| writeFields_cons rfl rfl

/-! ### What is read -/

theorem reads_map {β : Type} {d : Decoder α} {a : α} (f : α → β) (h : Reads d x a) :
    Reads (f <$> d) x (f a) := fun hsize rest => map_ok f (h hsize rest)

theorem reads_uint64 (n : UInt64) : Reads decodeUint64 (uintItem n.toNat) n := by
  have hread := reads_map UInt64.ofNat (reads_uint (show n.toNat < 256 ^ (64 / 8) from n.toNat_lt))
  rwa [UInt64.ofNat_toNat] at hread

theorem uint64_of_item {x y : UInt64} (h : beBytes x.toNat = beBytes y.toNat) : x = y :=
  UInt64.toNat.inj (beBytes_injective h)

theorem reads_uint32 (n : UInt32) : Reads decodeUint32 (uintItem n.toNat) n := by
  have hread := reads_map UInt32.ofNat (reads_uint (show n.toNat < 256 ^ (32 / 8) from n.toNat_lt))
  rwa [UInt32.ofNat_toNat] at hread

theorem reads_byteSlices (l : List Bytes) : Reads (decodeListSlice decodeBytes) (byteSlicesItem l) l := by
  have hread := reads_slice (l := l) rfl fun b _ => reads_bytes b
  rwa [map_id'] at hread

theorem reads_boolMap (l : List Bool) : Reads (decodeListSlice decodeBool) (.list (l.map boolItem)) l := by
  have hread := reads_slice (l := l) rfl fun b _ => reads_bool b
  rwa [map_id'] at hread

theorem reads_timestamp (t : Timestamp) : Reads decodeTimestamp (timestampItem t) t :=
  ReadsAll.inList <| (reads_uint64 t.second).field.bind <| (reads_uint64 t.nanosecond).last

theorem reads_peerID (id : PeerID) : Reads decodePeerID (peerIDItem id) id :=
  ReadsAll.inList (reads_bytes id.name).last

theorem fails_timestamp : Fails decodeTimestamp (.list []) := fails_nil rfl

theorem fails_peerID : Fails decodePeerID (.list []) := fails_nil rfl

theorem reads_peerEndpoint {p : PeerEndpoint} {id : PeerID} (hid : p.id = some id) :
    Reads decodePeerEndpoint (peerEndpointItem p) p := by
  obtain ⟨_, address, port, pubkey, roleid, coinbase⟩ := p
  cases hid
  exact ReadsAll.inList <| (reads_peerID id).field.bind <| (reads_bytes address).field.bind <|
    (reads_uint32 port).field.bind <| (reads_bytes pubkey).field.bind <| (reads_bytes roleid).field.bind <|
    (reads_bytes coinbase).last

theorem fails_peerEndpoint {p : Option PeerEndpoint} (h : readableEndpoint p = false) :
    Fails decodePeerEndpoint (ptrItem peerEndpointItem p) := by
  match p with
  | none => exact fails_nil rfl
  | some ⟨none, _, _, _, _, _⟩ => exact FailsAll.inList fails_peerID.field.bind
  | some ⟨some _, _, _, _, _, _⟩ => exact nomatch h

def readableHeader (h : TxBlockHeader) : Bool := h.timestamp.isSome && readableEndpoint h.miner

theorem reads_header (hread : readableHeader h = true) : Reads decodeTxBlockHeader (txBlockHeaderItem h) h := by
  obtain ⟨version, timestamp, previousBlockHash, blockNumber, dsCoinBase, shardingLeadCoinBase, stateRoot, txRoot,
    gasLimit, gasUsed, dsBlockNum, dsBlockHash, miner, txNum, boolMap, signature, multiPubKey⟩ := h
  match timestamp, miner with
  | none, _ => exact nomatch hread
  | some t, none => exact nomatch hread
  | some t, some ⟨none, _, _, _, _, _⟩ => exact nomatch hread
  | some t, some ⟨some id, _, _, _, _, _⟩ =>
    exact ReadsAll.inList <| (reads_uint32 version).field.bind <| (reads_timestamp t).field.bind <|
      (reads_bytes previousBlockHash).field.bind <| (reads_uint64 blockNumber).field.bind <|
      (reads_byteSlices dsCoinBase).field.bind <| (reads_byteSlices shardingLeadCoinBase).field.bind <|
      (reads_bytes stateRoot).field.bind <| (reads_bytes txRoot).field.bind <| (reads_uint64 gasLimit).field.bind <|
      (reads_uint64 gasUsed).field.bind <| (reads_uint64 dsBlockNum).field.bind <|
      (reads_bytes dsBlockHash).field.bind <| (reads_peerEndpoint rfl).field.bind <| (reads_uint64 txNum).field.bind <|
      (reads_boolMap boolMap).field.bind <| (reads_bytes signature).field.bind <| (reads_bytes multiPubKey).last

theorem fails_header (hread : readableHeader h = false) : Fails decodeTxBlockHeader (txBlockHeaderItem h) := by
  obtain ⟨version, timestamp, previousBlockHash, blockNumber, dsCoinBase, shardingLeadCoinBase, stateRoot, txRoot,
    gasLimit, gasUsed, dsBlockNum, dsBlockHash, miner, txNum, boolMap, signature, multiPubKey⟩ := h
  cases timestamp with
  | none => exact FailsAll.inList <| (reads_uint32 version).field.bind_fails fails_timestamp.field.bind
  | some t =>
    -- the first twelve fields are read, the miner is not
    exact FailsAll.inList <| (reads_uint32 version).field.bind_fails <| (reads_timestamp t).field.bind_fails <|
      (reads_bytes previousBlockHash).field.bind_fails <| (reads_uint64 blockNumber).field.bind_fails <|
      (reads_byteSlices dsCoinBase).field.bind_fails <| (reads_byteSlices shardingLeadCoinBase).field.bind_fails <|
      (reads_bytes stateRoot).field.bind_fails <| (reads_bytes txRoot).field.bind_fails <|
      (reads_uint64 gasLimit).field.bind_fails <| (reads_uint64 gasUsed).field.bind_fails <|
      (reads_uint64 dsBlockNum).field.bind_fails <| (reads_bytes dsBlockHash).field.bind_fails
      (fails_peerEndpoint hread).field.bind

def reread (t : Transaction) : Transaction := {t with toAddr := some (t.toAddr.getD [])}

theorem reads_transaction (ht : t.timestamp.isSome = true) :
    Reads decodeTransaction (transactionItem t) (reread t) := by
  obtain ⟨version, nonce, senderPubKey, toAddr, amount, signature, gasPrice, gasLimit, code, data, timestamp⟩ := t
  cases timestamp with
  | none => exact nomatch ht
  | some stamp =>
    exact ReadsAll.inList <| (reads_uint32 version).field.bind <| (reads_uint64 nonce).field.bind <|
      (reads_bytes senderPubKey).field.bind <| (reads_bytes (toAddr.getD [])).field.bind <|
      (reads_uint64 amount).field.bind <| (reads_bytes signature).field.bind <| (reads_uint64 gasPrice).field.bind <|
      (reads_uint64 gasLimit).field.bind <| (reads_bytes code).field.bind <| (reads_bytes data).field.bind <|
      (reads_timestamp stamp).last

theorem fails_transaction (ht : t.timestamp = none) : Fails decodeTransaction (transactionItem t) := by
  obtain ⟨version, nonce, senderPubKey, toAddr, amount, signature, gasPrice, gasLimit, code, data, timestamp⟩ := t
  cases ht
  exact FailsAll.inList <| (reads_uint32 version).field.bind_fails <| (reads_uint64 nonce).field.bind_fails <|
    (reads_bytes senderPubKey).field.bind_fails <| (reads_bytes (toAddr.getD [])).field.bind_fails <|
    (reads_uint64 amount).field.bind_fails <| (reads_bytes signature).field.bind_fails <|
    (reads_uint64 gasPrice).field.bind_fails <| (reads_uint64 gasLimit).field.bind_fails <|
    (reads_bytes code).field.bind_fails <| (reads_bytes data).field.bind_fails fails_timestamp.field.bind

theorem reads_body {b : TxBlockBody} (hread : b.transactions.all (·.timestamp.isSome) = true) :
    Reads decodeTxBlockBody (txBlockBodyItem b) {b with transactions := b.transactions.map reread} := by
  have htxs : Reads (decodeListSlice decodeTransaction) (.list (b.transactions.map transactionItem))
      (b.transactions.map reread) :=
    reads_slice rfl fun t ht => reads_transaction (all_eq_true.mp hread t ht)
  exact ReadsAll.inList <| (reads_uint32 b.numberOfMicroBlock).field.bind <|
    (reads_byteSlices b.microBlockHashes).field.bind <| htxs.field.bind <| (reads_bytes b.currentBlockHash).last

theorem fails_body {b : TxBlockBody} (hread : b.transactions.all (·.timestamp.isSome) = false) :
    Fails decodeTxBlockBody (txBlockBodyItem b) := by
  obtain ⟨t, ht, hnone⟩ := all_eq_false.mp hread
  have helem : ∀ t ∈ b.transactions, Reads decodeTransaction (transactionItem t) (reread t) ∨
      Fails decodeTransaction (transactionItem t) := by
    intro t _
    cases hstamp : t.timestamp with
    | none => exact .inr (fails_transaction hstamp)
    | some stamp => exact .inl (reads_transaction (by rw [hstamp]; rfl))
  have htxs : Fails (decodeListSlice decodeTransaction) (.list (b.transactions.map transactionItem)) :=
    fails_slice helem ⟨t, ht, fails_transaction (by simpa using hnone)⟩
  exact FailsAll.inList <| (reads_uint32 b.numberOfMicroBlock).field.bind_fails <|
    (reads_byteSlices b.microBlockHashes).field.bind_fails htxs.field.bind

/-! ### The store -/

theorem write_append (db : KvStore) (xs ys : List (Bytes × Bytes)) : db.write (xs ++ ys) = (db.write xs).write ys :=
  foldl_append

theorem write_of_notMem {batch : List (Bytes × Bytes)} (h : ∀ put ∈ batch, put.1 ≠ key) : db.write batch key = db key := by
  induction batch generalizing db with
  | nil => rfl
  | cons put batch ih =>
    rw [forall_mem_cons] at h
    show KvStore.write (Function.update db put.1 (some put.2)) batch key = _
    rw [ih h.2, Function.update_of_ne h.1.symm]

/-- The last write of a key is what is found under it. -/
theorem write_last (front : List (Bytes × Bytes)) {back : List (Bytes × Bytes)} {value : Bytes}
    (h : ∀ put ∈ back, put.1 ≠ key) : db.write (front ++ (key, value) :: back) key = some value := by
  rw [write_append]
  show KvStore.write (Function.update _ key (some value)) back key = _
  rw [write_of_notMem h, Function.update_self]

theorem head?_ne {a b : UInt8} {k l : Bytes} (h : a ≠ b) : a :: k ≠ b :: l := fun heq => h (cons.inj heq).1

theorem txLookup_key_ne {hash : Hash} {first : UInt8} (hfirst : 108 ≠ first) :
    ∀ put ∈ writeTxLookupEntries E hash b, put.1 ≠ first :: key := by
  intro put hput
  obtain ⟨⟨tx, i⟩, _, rfl⟩ := mem_map.mp hput
  exact head?_ne hfirst

theorem canonicalHashKey_ne (number : UInt64) (hash : Hash) :
    canonicalHashKey number ≠ getFullHeaderKey number hash := by
  intro heq
  have hlength := congrArg length heq
  simp [canonicalHashKey, getFullHeaderKey, hash.size] at hlength

section Insert
variable {E : Env} {receipts : Option Bytes} {b : TxBlock} {db db' : KvStore} {hash : Hash}

section
variable (hhash : b.hash E = .ok hash) (hins : batchInsert E receipts b db = .ok db')
include hhash hins

theorem batchInsert_header : db' (getFullHeaderKey b.numberU64 hash) = some (encode (txBlockHeaderItem b.header)) := by
  obtain ⟨hash', hhash', hins⟩ := except_bind_ok.mp hins
  obtain rfl : hash = hash' := ok.inj (hhash.symm.trans hhash')
  rw [← ok.inj hins, ← encodeToBytes_header]
  refine write_last [_, _] fun put hput => ?_
  rcases mem_cons.mp hput with rfl | hput
  · exact canonicalHashKey_ne _ _
  rcases mem_cons.mp hput with rfl | hput
  · exact head?_ne (by decide)
  · exact txLookup_key_ne (by decide) put hput

theorem batchInsert_body : db' (getBlockBodyKey b.numberU64 hash) = some (encode (txBlockBodyItem b.body)) := by
  obtain ⟨hash', hhash', hins⟩ := except_bind_ok.mp hins
  obtain rfl : hash = hash' := ok.inj (hhash.symm.trans hhash')
  rw [← ok.inj hins, ← encodeToBytes_body]
  refine write_last [] fun put hput => ?_
  rcases mem_append.mp hput with hput | hput
  · have hkinds : ∀ put ∈ [(getHeaderNumberKey hash, encodeBlockNumber b.numberU64),
        (getFullHeaderKey b.numberU64 hash, encodeToBytes txBlockHeaderType (txBlockHeaderValue b.header)),
        (canonicalHashKey b.numberU64, hash.bytes), (headBlockKey, hash.bytes)],
        put.1 ≠ getBlockBodyKey b.numberU64 hash := by
      simp [getHeaderNumberKey, getFullHeaderKey, canonicalHashKey, headBlockKey, getBlockBodyKey]
    exact hkinds put hput
  · exact txLookup_key_ne (by decide) put hput

end

theorem readValue_of {α : Type} {d : Decoder α} (h : db key = some (encode x)) :
    readValue d db key = (decode d (encode x)).toOption := by
  unfold readValue
  rw [h]
  cases hx : encode x with
  | nil => exact absurd hx (encode_ne_nil x)
  | cons y ys => rfl

/-- The header and the body are byte slices of a length that is an integer. -/
structure Fits (b : TxBlock) : Prop where
  header : (encode (txBlockHeaderItem b.header)).length < 2 ^ 64
  body : (encode (txBlockBodyItem b.body)).length < 2 ^ 64

/-- The database gives back what the chain model says it does. -/
theorem readBlock_batchInsert (hhash : b.hash E = .ok hash) (hins : batchInsert E receipts b db = .ok db')
    (hfits : Fits b) : readBlock db' hash b.numberU64 = txReadBack b := by
  unfold readBlock readHeader readBody txReadBack
  rw [readValue_of (batchInsert_header hhash hins), readValue_of (batchInsert_body hhash hins)]
  cases hheader : readableHeader b.header with
  | false =>
    obtain ⟨e, he⟩ := decode_of_fails (fails_header hheader) hfits.header
    rw [he, if_neg (by rw [show (b.header.timestamp.isSome && readableEndpoint b.header.miner) = false from hheader]; simp)]
    rfl
  | true =>
    rw [decode_of_reads (reads_header hheader) hfits.header,
      show (b.header.timestamp.isSome && readableEndpoint b.header.miner) = true from hheader]
    cases hbody : b.body.transactions.all (·.timestamp.isSome) with
    | false =>
      obtain ⟨e, he⟩ := decode_of_fails (fails_body hbody) hfits.body
      rw [he]
      rfl
    | true =>
      rw [decode_of_reads (reads_body hbody) hfits.body]
      rfl

end Insert

/-! ### Accepted blocks -/

/-- `ReadBlock` at the hash and the number of the block returns a block with the same two hashes, and the
block is found as the parent of one that names it. -/
def ReadsBack (E : Env) (db : KvStore) (b : TxBlock) : Prop :=
  ∃ hash b', b.hash E = .ok hash ∧ readBlock db hash b.numberU64 = some b' ∧ b'.hash E = b.hash E ∧
    b'.mHash E = b.mHash E ∧ ∀ child : TxBlock, child.header.previousBlockHash = hash.bytes →
      child.numberU64 = b.numberU64 + 1 → readBlock db child.parentHash (child.numberU64 - 1) = some b'

/-- The pointers validation does not look at: the id of the miner and the times of the transactions. -/
structure NoNilPointer (b : TxBlock) : Prop where
  minerId : ∀ miner ∈ b.header.miner, miner.id ≠ none
  timestamps : ∀ t ∈ b.body.transactions, t.timestamp ≠ none

theorem accepted_header {V : Validator} {now : Int} {c : TxBlockChain} {u : Unit}
    (hok : txVerifyHeader V now c h = .ok u) :
    h.timestamp.isSome = true ∧ ∃ hash miner, h.hash V.machine.toEnv = .ok hash ∧ h.miner = some miner := by
  obtain ⟨hash, parent, hhash, _, _, hverify⟩ := txVerifyHeader_ok hok
  refine ⟨?_, hash, ?_⟩
  · unfold verifyHeader at hverify
    cases ht : h.timestamp with
    | none =>
      rw [ht] at hverify
      exact nomatch hverify
    | some t => rfl
  · obtain ⟨fields, hfields, _⟩ := except_bind_ok.mp hhash
    obtain ⟨miner, hminer, _⟩ := except_bind_ok.mp hfields
    exact ⟨miner, hhash, deref_ok.mp hminer⟩

theorem txReadBack_isSome_iff {miner : PeerEndpoint} (ht : b.header.timestamp.isSome = true)
    (hminer : b.header.miner = some miner) : (txReadBack b).isSome = true ↔ NoNilPointer b := by
  have hbool : (txReadBack b).isSome = (miner.id.isSome && b.body.transactions.all (·.timestamp.isSome)) := by
    unfold txReadBack
    rw [ht, hminer]
    split
    · rename_i h
      exact h.symm
    · rename_i h
      exact (Bool.eq_false_of_not_eq_true h).symm
  rw [hbool, Bool.and_eq_true, all_eq_true]
  constructor
  · rintro ⟨hid, htxs⟩
    refine ⟨fun m hm hnone => ?_, fun t ht hnone => ?_⟩
    · obtain rfl : miner = m := Option.some.inj (hminer.symm.trans hm)
      rw [hnone] at hid
      exact nomatch hid
    · have := htxs t ht
      rw [hnone] at this
      exact nomatch this
  · intro h
    exact ⟨Option.isSome_iff_ne_none.mpr (h.minerId miner hminer),
      fun t ht => Option.isSome_iff_ne_none.mpr (h.timestamps t ht)⟩

/-- What comes back has the hashes of what was stored: of a transaction only the signature is hashed. -/
theorem txReadBack_hashes {b' : TxBlock} (h : txReadBack b = some b') :
    b'.hash E = b.hash E ∧ b'.mHash E = b.mHash E := by
  unfold txReadBack at h
  split at h
  · cases h
    refine ⟨rfl, ?_⟩
    unfold TxBlock.mHash TxBlockBody.hash TxBlockBody.hashed
    simp only [map_map]
    rfl
  · exact nomatch h

/-- An accepted block can be read back exactly when it has no nil pointer where nobody looks. -/
theorem readsBack_iff {V : Validator} {now : Int} {c : TxBlockChain} {b : TxBlock} {hot : State.StateDB}
    {receipts : Option Bytes} {db db' : KvStore} (hok : txValidateBlock V now c b = .ok hot)
    (hins : batchInsert V.machine.toEnv receipts b db = .ok db') (hfits : Fits b) :
    ReadsBack V.machine.toEnv db' b ↔ NoNilPointer b := by
  obtain ⟨hheader, _⟩ := txValidateBlock_ok hok
  obtain ⟨ht, hash, miner, hhash, hminer⟩ := accepted_header hheader
  have hread := readBlock_batchInsert hhash hins hfits
  rw [← txReadBack_isSome_iff ht hminer]
  constructor
  · rintro ⟨hash', b', hhash', hb', _⟩
    obtain rfl : hash = hash' := Except.ok.inj (hhash.symm.trans hhash')
    rw [← hread, hb']
    rfl
  · intro hsome
    obtain ⟨b', hb'⟩ := Option.isSome_iff_exists.mp hsome
    obtain ⟨hsame, hseal⟩ := txReadBack_hashes hb'
    refine ⟨hash, b', hhash, hread.trans hb', hsame, hseal, fun child hparent hnumber => ?_⟩
    have hfound : child.parentHash = hash := by
      show bytesToHash child.header.previousBlockHash = hash
      rw [hparent]
      exact FixedBytes.ofBytes_bytes hash
    rw [hfound, hnumber, add_sub_cancel_right]
    exact hread.trans hb'

def emptyDb : KvStore := fun _ => none

theorem readsBack_txFirst : ∃ db', batchInsert sampleValidator.machine.toEnv none txFirst emptyDb = .ok db' ∧
    ReadsBack sampleValidator.machine.toEnv db' txFirst := by
  obtain ⟨hot, hok⟩ := exists_of_isOk
    (show (txValidateBlock sampleValidator 100 txGenesisChain txFirst).isOk = true by decide +kernel)
  obtain ⟨db', hins⟩ := exists_of_isOk
    (show (batchInsert sampleValidator.machine.toEnv none txFirst emptyDb).isOk = true by decide +kernel)
  refine ⟨db', hins, (readsBack_iff hok hins ⟨by decide +kernel, by decide +kernel⟩).mpr ⟨?_, nofun⟩⟩
  decide

def txNameless : TxBlock :=
  {txFirst with header := {txFirst.header with miner := txFirst.header.miner.map fun p => {p with id := none}}}

/-- It is accepted and written, and is not found again. -/
theorem txNameless_lost : (txValidateBlock sampleValidator 100 txGenesisChain txNameless).isOk = true ∧
    ∃ db', batchInsert sampleValidator.machine.toEnv none txNameless emptyDb = .ok db' ∧
      ¬ ReadsBack sampleValidator.machine.toEnv db' txNameless := by
  obtain ⟨db', hins⟩ := exists_of_isOk
    (show (batchInsert sampleValidator.machine.toEnv none txNameless emptyDb).isOk = true by decide +kernel)
  refine ⟨by decide +kernel, db', hins, ?_⟩
  rintro ⟨hash, b', hhash, hread, _⟩
  rw [readBlock_batchInsert hhash hins ⟨by decide +kernel, by decide +kernel⟩] at hread
  exact nomatch hread

end Okchain.Chain.Storage
