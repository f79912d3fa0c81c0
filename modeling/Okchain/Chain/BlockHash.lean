import Okchain.Chain.Storage

/-! The hashes of earlier blocks that a contract can ask for, after `GetHashFn`.

All calls share a cache. What is not in it is looked for by walking back from the block, and every header that is
passed leaves the hash of its parent in the cache. The walk takes the number of a header, and the keys of the cache,
from `TxNum`, which counts the transactions of a block.
-/
namespace Okchain.Chain.BlockHash
open Lib Protos Chain.Storage List Option Except
open UInt64 (le_iff_toNat_le lt_iff_toNat_lt ne_of_lt not_lt ofNat ofNat_toNat toNat toNat_inj)

/-- `TxBlockHeader.ParentHash`. -/
def parentHash (h : TxBlockHeader) : Hash := bytesToHash h.previousBlockHash

/-- The number under which `GetHashFn` looks for the parent of a header, and caches its hash. -/
def parentKey (h : TxBlockHeader) : UInt64 := h.txNum - 1

/-- A `map[uint64]common.Hash`. -/
abbrev Cache := UInt64 → Option Hash

def Cache.note (cache : Cache) (h : TxBlockHeader) : Cache :=
  Function.update cache (parentKey h) (some (parentHash h))

theorem Cache.note_self (cache : Cache) (h : TxBlockHeader) : cache.note h (parentKey h) = some (parentHash h) :=
  Function.update_self _ _ _

theorem Cache.note_of_ne {cache : Cache} {key : UInt64} (hne : key ≠ parentKey h) :
    cache.note h key = cache key := Function.update_of_ne hne _ _

def Cache.start (ref : TxBlockHeader) : Cache := Cache.note (fun _ => none) ref

section

variable (getHeader : Hash → UInt64 → Option TxBlockHeader)

/-- The loop of `GetHashFn`, which looks for the header with the given hash and number; no result means that it has
not ended yet. -/
def walk (n : UInt64) : Nat → Cache → Hash → UInt64 → Option (Hash × Cache)
  | 0, _, _, _ => none
  | fuel + 1, cache, hash, number =>
    match getHeader hash number with
    | none => some (default, cache)
    | some header =>
      if n = parentKey header then some (parentHash header, cache.note header)
      else walk n fuel (cache.note header) (parentHash header) (parentKey header)

/-- A call of the function that `GetHashFn` returns. There is no cache before the first. -/
def getHash (ref : TxBlockHeader) (fuel : Nat) (n : UInt64) (cache : Option Cache) : Option (Hash × Cache) :=
  let cache := cache.getD (.start ref)
  match cache n with
  | some hash => some (hash, cache)
  | none => walk getHeader n fuel cache (parentHash ref) (parentKey ref)

def answers (ref : TxBlockHeader) (fuel : Nat) : List UInt64 → Option Cache → Option (List Hash)
  | [], _ => some []
  | n :: ns, cache => do
    let (hash, cache) ← getHash getHeader ref fuel n cache
    return hash :: (← answers ref fuel ns (some cache))

end

/-! ### Stored headers -/

/-- Headers are found under their own hash and number. -/
def Owned (E : Env) (getHeader : Hash → UInt64 → Option TxBlockHeader) : Prop :=
  ∀ {hash number h}, getHeader hash number = some h → h.hash E = .ok hash ∧ h.blockNumber = number

/-- A database whose headers are where `WriteHeader` puts them. No two of them have one hash, and none has the
zero hash. -/
structure HeaderStore (E : Env) where
  getHeader : Hash → UInt64 → Option TxBlockHeader
  own : Owned E getHeader
  noCollision : ∀ {hash hash' number number' h h' m m'}, getHeader hash number = some h →
    getHeader hash' number' = some h' → h.hashed = .ok m → h'.hashed = .ok m' → E.NoCollision m m'
  zero : ∀ number, getHeader default number = none

/-- A chain of stored headers from genesis to a block. -/
structure HeaderChain {E : Env} (S : HeaderStore E) where
  header : Nat → TxBlockHeader
  hash : Nat → Hash
  height : UInt64
  number : (header height.toNat).blockNumber = height
  stored : ∀ i, i < height.toNat → S.getHeader (hash i) (UInt64.ofNat i) = some (header i)
  linked : ∀ i, i < height.toNat → parentHash (header (i + 1)) = hash i

variable {E : Env} {S : HeaderStore E}
variable {h : TxBlockHeader} {number : UInt64} {answer hash : Hash} {i : Nat} {cache' : Cache}

def HeaderChain.ref (c : HeaderChain S) : TxBlockHeader := c.header c.height.toNat

/-- What a contract should get: the hash of the ancestor at a height below the block's, and zero otherwise. -/
def HeaderChain.ancestor (c : HeaderChain S) (n : UInt64) : Hash := if n < c.height then c.hash n.toNat else default

/-- All queries are answered, in any order, with the hashes of the ancestors. -/
def Answered (c : HeaderChain S) : Prop :=
  ∀ ns : List UInt64, ∃ fuel, answers S.getHeader c.ref fuel ns none = some (ns.map c.ancestor)

/-- The count of transactions is the number of the block, up to the first, and genesis gets into nobody's way. -/
structure Numbered (c : HeaderChain S) : Prop where
  txNum : ∀ i, i < c.height.toNat → (c.header (i + 1)).txNum = UInt64.ofNat (i + 1)
  genesisParent : parentHash (c.header 0) = default
  genesisTxNum : 0 < c.height → (c.header 0).txNum = 0 ∨ c.height < (c.header 0).txNum

/-! ### Where headers are written -/

theorem length_encodeBlockNumber (number : UInt64) : (encodeBlockNumber number).length = 8 := by
  have hle := Rlp.length_beBytes_le (k := 8) number.toNat_lt
  rw [encodeBlockNumber, length_append, length_replicate]
  omega

variable {number' : UInt64} {hash' : Hash} {receipts : Option Bytes} {b : TxBlock} {db db' : KvStore}
  {h' : TxBlockHeader}

theorem encodeBlockNumber_injective (h : encodeBlockNumber number = encodeBlockNumber number') : number = number' := by
  have hvalue := congrArg Rlp.ofBeBytes h
  unfold encodeBlockNumber at hvalue
  rw [Rlp.ofBeBytes_zeros, Rlp.ofBeBytes_zeros, Rlp.ofBeBytes_beBytes, Rlp.ofBeBytes_beBytes] at hvalue
  exact toNat_inj.mp hvalue

theorem getFullHeaderKey_injective
    (h : getFullHeaderKey number hash = getFullHeaderKey number' hash') : number = number' ∧ hash = hash' := by
  have hlength : (encodeBlockNumber number).length = (encodeBlockNumber number').length := by
    rw [length_encodeBlockNumber, length_encodeBlockNumber]
  obtain ⟨hnumber, hbytes⟩ := append_inj (cons.inj h).2 hlength
  exact ⟨encodeBlockNumber_injective hnumber, FixedBytes.ext_bytes hbytes⟩

theorem batchInsert_other (hhash : b.hash E = .ok hash) (hins : Storage.batchInsert E receipts b db = .ok db')
    (hother : getFullHeaderKey b.numberU64 hash ≠ getFullHeaderKey number hash') :
    db' (getFullHeaderKey number hash') = db (getFullHeaderKey number hash') := by
  obtain ⟨hash'', hhash', hins⟩ := except_bind_ok.mp hins
  obtain rfl : hash = hash'' := ok.inj (hhash.symm.trans hhash')
  rw [← ok.inj hins]
  have hcanonical : canonicalHashKey b.numberU64 ≠ getFullHeaderKey number hash' := by
    intro heq
    have hlength := congrArg length heq
    simp [canonicalHashKey, getFullHeaderKey, length_encodeBlockNumber, hash'.size] at hlength
  rw [write_of_notMem]
  · cases receipts with
    | none => rfl
    | some data =>
      have hkind : getBlockReceiptsPrefixKey b.numberU64 hash ≠ getFullHeaderKey number hash' := head?_ne (by decide)
      exact write_of_notMem (forall_mem_singleton.mpr hkind)
  · intro put hput
    rcases mem_append.mp hput with hput | hput
    · simp only [writeBlock, cons_append, nil_append, mem_cons, not_mem_nil, or_false] at hput
      rcases hput with rfl | rfl | rfl | rfl | rfl
      · exact head?_ne (by decide)
      · exact head?_ne (by decide)
      · exact hother
      · exact hcanonical
      · exact head?_ne (by decide)
    · exact txLookup_key_ne (by decide) put hput

/-- The headers of a database stay where they belong when a block is inserted. -/
theorem owned_batchInsert (hdb : Owned E (readHeader db))
    (hins : Storage.batchInsert E receipts b db = .ok db') (hfits : Fits b) : Owned E (readHeader db') := by
  intro hash' number h hread
  obtain ⟨hash, hhash, -⟩ := except_bind_ok.mp hins
  by_cases heq : getFullHeaderKey b.numberU64 hash = getFullHeaderKey number hash'
  · obtain ⟨rfl, rfl⟩ := getFullHeaderKey_injective heq
    unfold readHeader at hread
    rw [readValue_of (batchInsert_header hhash hins)] at hread
    cases hreadable : readableHeader b.header with
    | false =>
      obtain ⟨e, he⟩ := Rlp.decode_of_fails (fails_header hreadable) hfits.header
      rw [he] at hread
      exact nomatch hread
    | true =>
      rw [Rlp.decode_of_reads (reads_header hreadable) hfits.header] at hread
      rw [← some.inj hread]
      exact ⟨hhash, rfl⟩
  · unfold readHeader readValue at hread
    rw [batchInsert_other hhash hins heq] at hread
    exact hdb hread

/-- The genesis block and a block on it, with receipts. -/
theorem owned_first : ∃ db db', Storage.batchInsert .sample none txGenesis emptyDb = .ok db ∧
    Storage.batchInsert .sample (some [1]) txFirst db = .ok db' ∧ Owned .sample (readHeader db') := by
  have hboth : (Storage.batchInsert .sample none txGenesis emptyDb >>=
      Storage.batchInsert .sample (some [1]) txFirst).isOk = true := by decide +kernel
  obtain ⟨db', hboth⟩ := Core.exists_of_isOk hboth
  obtain ⟨db, hgenesis, hfirst⟩ := except_bind_ok.mp hboth
  have hempty : Owned .sample (readHeader emptyDb) := fun h => nomatch h
  have howned : Owned .sample (readHeader db) := owned_batchInsert hempty hgenesis (by constructor <;> decide +kernel)
  exact ⟨db, db', hgenesis, hfirst, owned_batchInsert howned hfirst (by constructor <;> decide +kernel)⟩

/-! ### Looking for the parent -/

theorem blockNumber_of_hashed {m m' : List Okchain.Rlp.Encoded} (hm : h.hashed = .ok m)
    (hm' : h'.hashed = .ok m') (heq : m.map Okchain.Rlp.Encoded.item = m'.map Okchain.Rlp.Encoded.item) :
    h.blockNumber = h'.blockNumber := by
  obtain ⟨miner, -, hm⟩ := except_bind_ok.mp hm
  obtain ⟨miner', -, hm'⟩ := except_bind_ok.mp hm'
  rw [← ok.inj hm, ← ok.inj hm'] at heq
  simp only [map_cons, cons_append, List.cons.injEq, Okchain.Rlp.ofUint, Rlp.Item.str.injEq] at heq
  exact uint64_of_item heq.2.2.1

theorem HeaderStore.number_unique {n n' : UInt64} (hget : S.getHeader hash n = some h)
    (hget' : S.getHeader hash n' = some h') : n = n' := by
  obtain ⟨hhash, hnumber⟩ := S.own hget
  obtain ⟨hhash', hnumber'⟩ := S.own hget'
  obtain ⟨m, hm, hkeccak⟩ := except_bind_ok.mp hhash
  obtain ⟨m', hm', hkeccak'⟩ := except_bind_ok.mp hhash'
  have hitems := S.noCollision hget hget' hm hm' (ok.inj (hkeccak.trans hkeccak'.symm))
  rw [← hnumber, ← hnumber', blockNumber_of_hashed hm hm' hitems]

variable {c : HeaderChain S} {n : UInt64} {fuel : Nat} {cache : Cache}

theorem toNat_ofNat_lt (c : HeaderChain S) (hi : i ≤ c.height.toNat) : (ofNat i).toNat = i :=
  UInt64.toNat_ofNat_of_lt' (hi.trans_lt c.height.toNat_lt)

theorem parentKey_eq_iff : parentKey h = ofNat i ↔ h.txNum = ofNat (i + 1) := by
  rw [parentKey, UInt64.sub_eq_iff_eq_add, UInt64.ofNat_add]
  rfl

theorem hash_ne_default (hi : i < c.height.toNat) : c.hash i ≠ default := by
  intro h
  have hstored := c.stored i hi
  rw [h, S.zero] at hstored
  exact nomatch hstored

theorem ancestor_ofNat (hi : i < c.height.toNat) : c.ancestor (ofNat i) = c.hash i := by
  unfold HeaderChain.ancestor
  rw [if_pos (lt_iff_toNat_lt.mpr ((toNat_ofNat_lt c hi.le).symm ▸ hi)), toNat_ofNat_lt c hi.le]

theorem exists_ref_eq (hpos : 0 < c.height.toNat) : ∃ top, c.height.toNat = top + 1 ∧ c.ref = c.header (top + 1) := by
  refine ⟨c.height.toNat - 1, by omega, ?_⟩
  unfold HeaderChain.ref
  rw [Nat.sub_add_cancel hpos]

theorem ancestor_of_le (h : c.height ≤ n) : c.ancestor n = default := if_neg (not_lt.mpr h)

theorem walk_parent (hi : i < c.height.toNat) (hnum : (c.header (i + 1)).txNum = ofNat (i + 1)) :
    walk S.getHeader n (fuel + 1) cache (parentHash (c.header (i + 1))) (parentKey (c.header (i + 1))) =
      if n = parentKey (c.header i) then some (parentHash (c.header i), cache.note (c.header i))
      else walk S.getHeader n fuel (cache.note (c.header i)) (parentHash (c.header i)) (parentKey (c.header i)) := by
  rw [walk, c.linked i hi, parentKey_eq_iff.mpr hnum, c.stored i hi]

theorem walk_nowhere (hi : i < c.height.toNat) (hnum : (c.header (i + 1)).txNum ≠ ofNat (i + 1)) :
    walk S.getHeader n (fuel + 1) cache (parentHash (c.header (i + 1))) (parentKey (c.header (i + 1))) =
      some (default, cache) := by
  rw [walk, c.linked i hi]
  cases hget : S.getHeader (c.hash i) (parentKey (c.header (i + 1))) with
  | none => rfl
  | some h => exact absurd (parentKey_eq_iff.mp (S.number_unique hget (c.stored i hi))) hnum

/-! ### Right answers -/

/-- What is cached is right, and the parent of the block is cached. -/
structure Trusted (c : HeaderChain S) (cache : Cache) : Prop where
  right : ∀ key hash, cache key = some hash → hash = c.ancestor key
  parent : cache (parentKey c.ref) ≠ none

theorem Numbered.height_le (h : Numbered c) (hpos : 0 < c.height) : c.height ≤ parentKey (c.header 0) := by
  rw [parentKey, le_iff_toNat_le]
  rcases h.genesisTxNum hpos with hzero | hlater
  · rw [hzero]
    exact Nat.le_of_lt_succ c.height.toNat_lt
  · have hone : (1 : UInt64) ≤ (c.header 0).txNum :=
      le_iff_toNat_le.mpr (Nat.one_le_of_lt (lt_iff_toNat_lt.mp hlater))
    rw [UInt64.toNat_sub_of_le _ _ hone]
    exact Nat.le_sub_one_of_lt (lt_iff_toNat_lt.mp hlater)

theorem Numbered.parent_eq (h : Numbered c) (hi : i ≤ c.height.toNat) :
    parentHash (c.header i) = c.ancestor (parentKey (c.header i)) := by
  cases i with
  | succ i => rw [parentKey_eq_iff.mpr (h.txNum i hi), ancestor_ofNat hi, c.linked i hi]
  | zero =>
    rw [h.genesisParent]
    by_cases hpos : 0 < c.height
    · rw [ancestor_of_le (h.height_le hpos)]
    · exact (ancestor_of_le (not_lt.mp fun hlt => hpos (lt_iff_toNat_lt.mpr (Nat.zero_lt_of_lt (lt_iff_toNat_lt.mp hlt))))).symm

theorem Trusted.note (h : Trusted c cache) (hnum : Numbered c) (hi : i ≤ c.height.toNat) :
    Trusted c (cache.note (c.header i)) := by
  constructor
  · intro key hash hkey
    by_cases heq : key = parentKey (c.header i)
    · rw [heq, Cache.note_self] at hkey
      rw [heq, ← hnum.parent_eq hi, some.inj hkey]
    · rw [Cache.note_of_ne heq] at hkey
      exact h.right key hash hkey
  · by_cases heq : parentKey c.ref = parentKey (c.header i)
    · rw [heq, Cache.note_self]
      exact some_ne_none _
    · rw [Cache.note_of_ne heq]
      exact h.parent

theorem trusted_start (h : Numbered c) : Trusted c (.start c.ref) := by
  constructor
  · intro key hash hkey
    unfold Cache.start at hkey
    by_cases heq : key = parentKey c.ref
    · rw [heq, Cache.note_self] at hkey
      rw [heq, ← some.inj hkey]
      exact h.parent_eq le_rfl
    · rw [Cache.note_of_ne heq] at hkey
      exact nomatch hkey
  · rw [Cache.start, Cache.note_self]
    exact some_ne_none _

/-- The walk from the parent of a header finds what is asked for, unless it lies above. -/
theorem walk_right (h : Numbered c) (hcache : Trusted c cache) (hi : i ≤ c.height.toNat)
    (hbelow : n.toNat < c.height.toNat → n.toNat + 1 < i) :
    ∃ cache', walk S.getHeader n (i + 1) cache (parentHash (c.header i)) (parentKey (c.header i)) =
      some (c.ancestor n, cache') ∧ Trusted c cache' := by
  induction i generalizing cache with
  | zero =>
    refine ⟨cache, ?_, hcache⟩
    have hle : c.height ≤ n := le_iff_toNat_le.mpr (Nat.le_of_not_lt fun hlt => Nat.not_lt_zero _ (hbelow hlt))
    rw [walk, h.genesisParent, S.zero, ancestor_of_le hle]
  | succ i ih =>
    rw [walk_parent hi (h.txNum i hi)]
    have hle : i ≤ c.height.toNat := Nat.le_of_lt hi
    have hnoted := hcache.note h hle
    split
    next heq => exact ⟨_, by rw [heq, ← h.parent_eq hle], hnoted⟩
    next hne =>
      refine ih hnoted hle fun hlt => ?_
      -- the header at `i` would have answered for its own parent
      refine Nat.lt_of_le_of_ne (Nat.le_of_lt_succ (hbelow hlt)) fun heq => hne ?_
      obtain ⟨j, rfl⟩ : ∃ j, i = j + 1 := ⟨n.toNat, heq.symm⟩
      rw [parentKey_eq_iff.mpr (h.txNum j hle), ← Nat.succ.inj heq]
      exact ofNat_toNat.symm

theorem getHash_right (h : Numbered c) {cache : Option Cache} (hcache : Trusted c (cache.getD (.start c.ref)))
    (n : UInt64) : ∃ cache', getHash S.getHeader c.ref (c.height.toNat + 1) n cache = some (c.ancestor n, cache') ∧
      Trusted c cache' := by
  unfold getHash
  dsimp only
  cases hhit : cache.getD (.start c.ref) n with
  | some hash => exact ⟨_, by rw [hcache.right n hash hhit], hcache⟩
  | none =>
    refine walk_right h hcache le_rfl fun hlt => Nat.lt_of_le_of_ne hlt fun heq => hcache.parent ?_
    obtain ⟨top, htop, href⟩ := exists_ref_eq (Nat.zero_lt_of_lt hlt)
    have hkey : parentKey c.ref = n := by
      rw [href, parentKey_eq_iff.mpr (h.txNum top (by omega)), ← Nat.succ.inj (heq.trans htop)]
      exact ofNat_toNat
    rw [hkey]
    exact hhit

theorem answers_right (h : Numbered c) (cache : Option Cache) (hcache : Trusted c (cache.getD (.start c.ref)))
    (ns : List UInt64) :
    answers S.getHeader c.ref (c.height.toNat + 1) ns cache = some (ns.map c.ancestor) := by
  induction ns generalizing cache with
  | nil => rfl
  | cons n ns ih =>
    obtain ⟨cache', hget, hcache'⟩ := getHash_right h hcache n
    rw [answers, hget]
    show (answers S.getHeader c.ref (c.height.toNat + 1) ns (some cache') >>= _) = _
    rw [ih (some cache') hcache']
    rfl

/-! ### Wrong answers -/

theorem walk_misses {j k : Nat} (hjk : j < k) (hk : k ≤ c.height.toNat)
    (hnum : ∀ i, j < i → i < k → (c.header (i + 1)).txNum = ofNat (i + 1))
    (hj : (c.header (j + 1)).txNum ≠ ofNat (j + 1))
    (hwalk : walk S.getHeader (ofNat j) fuel cache (parentHash (c.header k)) (parentKey (c.header k)) =
      some (answer, cache')) : answer = default := by
  induction k, hjk using Nat.le_induction generalizing fuel cache with
  | base =>
    cases fuel with
    | zero => exact nomatch hwalk
    | succ fuel =>
      rw [walk_nowhere hk hj] at hwalk
      exact (Prod.mk.inj (some.inj hwalk)).1.symm
  | succ k hjk ih =>
    cases fuel with
    | zero => exact nomatch hwalk
    | succ fuel =>
      rw [walk_parent hk (hnum k hjk (Nat.lt_succ_self k)), if_neg] at hwalk
      · exact ih (Nat.le_of_lt hk) (fun i hji hik => hnum i hji (Nat.lt_succ_of_lt hik)) hwalk
      · intro hkey
        obtain ⟨i, rfl⟩ : ∃ i, k = i + 1 := ⟨k - 1, by omega⟩
        have hsame := parentKey_eq_iff.mp hkey.symm
        by_cases hij : j = i
        · exact hj (hij ▸ hsame)
        · rw [hnum i (by omega) (by omega)] at hsame
          have hnat := congrArg toNat hsame
          rw [toNat_ofNat_lt c (by omega), toNat_ofNat_lt c (by omega)] at hnat
          omega

theorem Answered.one (h : Answered c) (n : UInt64) :
    ∃ fuel cache', getHash S.getHeader c.ref fuel n none = some (c.ancestor n, cache') := by
  obtain ⟨fuel, hrun⟩ := h [n]
  obtain ⟨⟨answer, cache'⟩, hget, hrest⟩ := bind_eq_some_iff.mp hrun
  obtain ⟨_, _, hanswer⟩ := bind_eq_some_iff.mp hrest
  obtain ⟨rfl, -⟩ := cons.inj (some.inj hanswer)
  exact ⟨fuel, cache', hget⟩

theorem Answered.two (h : Answered c) (n n' : UInt64) :
    ∃ fuel cache' cache'', getHash S.getHeader c.ref fuel n none = some (c.ancestor n, cache') ∧
      getHash S.getHeader c.ref fuel n' (some cache') = some (c.ancestor n', cache'') := by
  obtain ⟨fuel, hrun⟩ := h [n, n']
  obtain ⟨⟨answer, cache'⟩, hget, hrest⟩ := bind_eq_some_iff.mp hrun
  obtain ⟨_, hrun', hanswer⟩ := bind_eq_some_iff.mp hrest
  obtain ⟨⟨answer', cache''⟩, hget', hrest'⟩ := bind_eq_some_iff.mp hrun'
  obtain ⟨_, hnil, hanswer'⟩ := bind_eq_some_iff.mp hrest'
  obtain ⟨rfl, htail⟩ := cons.inj (some.inj hanswer)
  rw [← some.inj hanswer'] at htail
  obtain ⟨rfl, -⟩ := cons.inj htail
  exact ⟨fuel, cache', cache'', hget, hget'⟩

theorem getHash_start (hne : n ≠ parentKey c.ref) : getHash S.getHeader c.ref fuel n none =
      walk S.getHeader n fuel (.start c.ref) (parentHash c.ref) (parentKey c.ref) := by
  have hmiss : Cache.start c.ref n = none := Cache.note_of_ne hne
  unfold getHash
  dsimp only [getD_none]
  rw [hmiss]

/-- Correct answers make every count the number of its block, from the top down. -/
theorem Answered.txNum (h : Answered c) {d : Nat} (hd : d ≤ c.height.toNat) :
    ∀ i, c.height.toNat ≤ i + d → i < c.height.toNat → (c.header (i + 1)).txNum = ofNat (i + 1) := by
  induction d with
  | zero =>
    intro i hle hlt
    exact absurd hlt (Nat.not_lt.mpr hle)
  | succ d ih =>
    intro j hle hlt
    by_contra hne
    have habove : ∀ i, j < i → i < c.height.toNat → (c.header (i + 1)).txNum = ofNat (i + 1) :=
      fun i hji => ih (Nat.le_of_succ_le hd) i (by omega)
    obtain ⟨fuel, cache', hget⟩ := h.one (ofNat j)
    rw [getHash_start, ancestor_ofNat hlt] at hget
    · exact hash_ne_default hlt (walk_misses hlt le_rfl habove hne hget)
    · intro hkey
      obtain ⟨top, htop, href⟩ := exists_ref_eq (Nat.zero_lt_of_lt hlt)
      rw [href] at hkey
      have hsame := parentKey_eq_iff.mp hkey.symm
      by_cases hj : j = top
      · exact hne (hj ▸ hsame)
      · rw [habove top (by omega) (by omega)] at hsame
        have hnat := congrArg toNat hsame
        rw [toNat_ofNat_lt c (by omega), toNat_ofNat_lt c (by omega)] at hnat
        omega

section

variable (hnum : ∀ i, i < c.height.toNat → (c.header (i + 1)).txNum = UInt64.ofNat (i + 1))

include hnum

theorem parentKey_ref (hpos : 0 < c.height.toNat) : parentKey c.ref = ofNat (c.height.toNat - 1) := by
  obtain ⟨top, htop, href⟩ := exists_ref_eq hpos
  rw [href, htop]
  exact parentKey_eq_iff.mpr (hnum top (by omega))

theorem walk_genesis (hi : i < c.height.toNat) (hkey : c.height ≤ parentKey (c.header 0))
    (hwalk : walk S.getHeader (parentKey (c.header 0)) fuel cache (parentHash (c.header (i + 1)))
      (parentKey (c.header (i + 1))) = some (answer, cache')) : answer = parentHash (c.header 0) := by
  induction i generalizing fuel cache with
  | zero =>
    cases fuel with
    | zero => exact nomatch hwalk
    | succ fuel =>
      rw [walk_parent hi (hnum 0 hi), if_pos rfl] at hwalk
      exact (Prod.mk.inj (some.inj hwalk)).1.symm
  | succ i ih =>
    cases fuel with
    | zero => exact nomatch hwalk
    | succ fuel =>
      rw [walk_parent hi (hnum (i + 1) hi), if_neg] at hwalk
      · exact ih (Nat.lt_of_succ_lt hi) hwalk
      · intro heq
        rw [heq, parentKey_eq_iff.mpr (hnum i (Nat.lt_of_succ_lt hi)), le_iff_toNat_le,
          toNat_ofNat_lt c (by omega)] at hkey
        omega

/-- Where genesis has the key of another ancestor, a walk past genesis spoils that entry: either it is on the chain,
and will come to genesis, or the entry is wrong already. It is never made right, since a right one leads back to the
chain. -/
theorem walk_spoils (hkey : parentKey (c.header 0) < c.height)
    (hwalk : walk S.getHeader c.height fuel cache hash number = some (answer, cache'))
    (h : (∃ i, i < c.height.toNat ∧ hash = c.hash i ∧ number = ofNat i) ∨
      ∃ wrong, cache (parentKey (c.header 0)) = some wrong ∧ wrong ≠ c.ancestor (parentKey (c.header 0))) :
    ∃ wrong, cache' (parentKey (c.header 0)) = some wrong ∧ wrong ≠ c.ancestor (parentKey (c.header 0)) := by
  have hlt := lt_iff_toNat_lt.mp hkey
  -- an entry under the key of genesis is wrong, or continues on the chain
  have hnote : ∀ (cache : Cache) (header : TxBlockHeader), parentKey header = parentKey (c.header 0) →
      (∃ i, i < c.height.toNat ∧ parentHash header = c.hash i ∧ parentKey header = ofNat i) ∨
      ∃ wrong, cache.note header (parentKey (c.header 0)) = some wrong ∧ wrong ≠ c.ancestor (parentKey (c.header 0)) := by
    intro cache header heq
    by_cases hright : parentHash header = c.ancestor (parentKey (c.header 0))
    · refine .inl ⟨_, hlt, ?_, by rw [heq]; exact ofNat_toNat.symm⟩
      rw [hright]
      exact if_pos hkey
    · exact .inr ⟨_, by rw [← heq]; exact Cache.note_self _ _, hright⟩
  induction fuel generalizing cache hash number with
  | zero => exact nomatch hwalk
  | succ fuel ih =>
    rw [walk] at hwalk
    rcases h with ⟨i, hi, rfl, rfl⟩ | ⟨wrong, hcached, hwrong⟩
    · rw [c.stored i hi] at hwalk
      dsimp only at hwalk
      cases i with
      | zero =>
        rw [if_neg (fun heq => (ne_of_lt hkey) heq.symm)] at hwalk
        exact ih hwalk (hnote cache _ rfl)
      | succ i =>
        have hi' : i < c.height.toNat := Nat.lt_of_succ_lt hi
        rw [parentKey_eq_iff.mpr (hnum i hi'), c.linked i hi', if_neg] at hwalk
        · exact ih hwalk (.inl ⟨i, hi', rfl, rfl⟩)
        · intro heq
          have hnat := congrArg toNat heq
          rw [toNat_ofNat_lt c hi'.le] at hnat
          omega
    · cases hget : S.getHeader hash number with
      | none =>
        rw [hget] at hwalk
        rw [← (Prod.mk.inj (some.inj hwalk)).2]
        exact ⟨wrong, hcached, hwrong⟩
      | some header =>
        rw [hget] at hwalk
        dsimp only at hwalk
        by_cases heq : parentKey header = parentKey (c.header 0)
        · rw [if_neg (fun hheight => (ne_of_lt hkey) (heq.symm.trans hheight.symm))] at hwalk
          exact ih hwalk (hnote cache header heq)
        · have hkept : cache.note header (parentKey (c.header 0)) = some wrong := by
            rw [← hcached]
            exact Cache.note_of_ne (Ne.symm heq)
          split at hwalk
          · rw [← (Prod.mk.inj (some.inj hwalk)).2]
            exact ⟨wrong, hkept, hwrong⟩
          · exact ih hwalk (.inr ⟨wrong, hkept, hwrong⟩)

theorem Answered.genesisKey (h : Answered c) (hpos : 0 < c.height.toNat) : c.height ≤ parentKey (c.header 0) := by
  by_contra hlt
  have hkey := UInt64.not_le.mp hlt
  obtain ⟨fuel, cache', cache'', hget, hget'⟩ := h.two c.height (parentKey (c.header 0))
  have hstart := parentKey_ref hnum hpos
  rw [getHash_start] at hget
  · have hon : ∃ i, i < c.height.toNat ∧ parentHash c.ref = c.hash i ∧ parentKey c.ref = ofNat i := by
      obtain ⟨top, htop, href⟩ := exists_ref_eq hpos
      refine ⟨top, by omega, ?_, by rw [hstart, htop]; rfl⟩
      rw [href]
      exact c.linked top (by omega)
    obtain ⟨wrong, hcached, hwrong⟩ := walk_spoils hnum hkey hget (.inl hon)
    unfold getHash at hget'
    dsimp only [getD_some] at hget'
    rw [hcached] at hget'
    exact hwrong (Prod.mk.inj (some.inj hget')).1
  · intro heq
    rw [hstart] at heq
    have hnat := congrArg toNat heq
    rw [toNat_ofNat_lt c (by omega)] at hnat
    omega

theorem Answered.genesisParent (h : Answered c) : parentHash (c.header 0) = default := by
  obtain ⟨fuel, cache', hget⟩ := h.one (parentKey (c.header 0))
  by_cases hpos : 0 < c.height.toNat
  · have hkey := h.genesisKey hnum hpos
    have hanswer := ancestor_of_le hkey
    rw [hanswer, getHash_start] at hget
    · obtain ⟨top, htop, href⟩ := exists_ref_eq hpos
      rw [href] at hget
      exact (walk_genesis hnum (by omega) hkey hget).symm
    · intro heq
      rw [heq, parentKey_ref hnum hpos, le_iff_toNat_le, toNat_ofNat_lt c (by omega)] at hkey
      omega
  · have hzero : c.height.toNat = 0 := Nat.eq_zero_of_not_pos hpos
    have hle : c.height ≤ parentKey (c.header 0) := le_iff_toNat_le.mpr (by omega)
    have hhit : Cache.start c.ref (parentKey (c.header 0)) = some (parentHash (c.header 0)) := by
      unfold HeaderChain.ref
      rw [hzero]
      exact Cache.note_self _ _
    unfold getHash at hget
    dsimp only [getD_none] at hget
    rw [hhit, ancestor_of_le hle] at hget
    exact (Prod.mk.inj (some.inj hget)).1

end

theorem txNum_of_le_parentKey {height : UInt64} (hle : height ≤ parentKey h) : h.txNum = 0 ∨ height < h.txNum := by
  by_cases hzero : h.txNum = 0
  · exact .inl hzero
  · right
    have hone : (1 : UInt64) ≤ h.txNum :=
      le_iff_toNat_le.mpr (Nat.one_le_iff_ne_zero.mpr fun heq => hzero (toNat_inj.mp heq))
    rw [parentKey, le_iff_toNat_le, UInt64.toNat_sub_of_le _ _ hone] at hle
    have hpos : 1 ≤ h.txNum.toNat := le_iff_toNat_le.mp hone
    exact lt_iff_toNat_lt.mpr (Nat.lt_of_le_pred hpos hle)

/-- **The hashes of earlier blocks.** For every chain of stored headers, every sequence of queries is answered with
the hashes of the ancestors, and with zero at and above the height of the block, exactly if each header's count of
transactions is its number. -/
theorem blockHash_iff (E : Env) (S : HeaderStore E) (c : HeaderChain S) : Answered c ↔ Numbered c := by
  constructor
  · intro h
    have hnum : ∀ i, i < c.height.toNat → (c.header (i + 1)).txNum = UInt64.ofNat (i + 1) :=
      fun i hi => h.txNum le_rfl i (Nat.le_add_left _ _) hi
    refine ⟨hnum, h.genesisParent hnum, fun hpos => txNum_of_le_parentKey ?_⟩
    exact h.genesisKey hnum (UInt64.lt_iff_toNat_lt.mp hpos)
  · intro h ns
    exact ⟨c.height.toNat + 1, answers_right h none (trusted_start h) ns⟩

/-! ### A block with transactions -/

def genesisHash : Hash := bytesToHash (hashBytes (txGenesis.hash Env.sample))

def genesisStore : HeaderStore Env.sample where
  getHeader hash number := if hash = genesisHash ∧ number = 0 then some txGenesis.header else none
  own := by
    intro hash number h hget
    dsimp only at hget
    split at hget
    next hkey =>
      obtain ⟨rfl, rfl⟩ := hkey
      rw [← Option.some.inj hget]
      exact ⟨by decide +kernel, rfl⟩
    next => exact nomatch hget
  noCollision := by
    intro hash hash' number number' h h' m m' hget hget' hm hm'
    split at hget
    · split at hget'
      · rw [← Option.some.inj hget] at hm
        rw [← Option.some.inj hget', hm] at hm'
        rw [Except.ok.inj hm']
        exact fun _ => rfl
      · exact nomatch hget'
    · exact nomatch hget
  zero number := if_neg fun hkey => absurd hkey.1 (by decide +kernel)

def fiveTransactions : HeaderChain genesisStore where
  header i := if i = 0 then txGenesis.header else {txFirst.header with txNum := 5}
  hash _ := genesisHash
  height := 1
  number := rfl
  stored i hi := by
    obtain rfl : i = 0 := Nat.lt_one_iff.mp hi
    rfl
  linked i hi := by
    obtain rfl : i = 0 := Nat.lt_one_iff.mp hi
    decide +kernel

/-- The hash of genesis is returned for block 4, which is not there yet, and zero for block 0. -/
theorem blockHash_by_txNum : fiveTransactions.ancestor 0 = genesisHash ∧ fiveTransactions.ancestor 4 = default ∧
    genesisHash ≠ default ∧
    answers genesisStore.getHeader fiveTransactions.ref 2 [0, 4] none = some [default, genesisHash] :=
  ⟨rfl, rfl, by decide +kernel, by decide +kernel⟩

end Okchain.Chain.BlockHash
