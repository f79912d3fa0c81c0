import Okchain.Chain.FutureBlocks
import Okchain.Consensus.Population
import Okchain.Lib.Run

/-! The cache of coinbases, after `Pubkey2Coinbase`.

Consensus looks coinbases up in a cache, `VerifySeal` in the DS block. The cache is loaded from the block that an
event brings; `DSBlockChain.InsertBlock` and the start of the chain post one, `ProcFutureBlocks` does not. Of several
entries for a key the cache keeps the last and the block gives the first. An empty key is looked up under another text
than it is stored under.
-/
variable {p : PeerEndpoint}

namespace Okchain.Consensus
open Lib Protos Chain List
open UInt8 (ofNat)

/-! ### Hex texts -/

/-- `hexutil.Encode`. -/
def hexutilEncode (b : Bytes) : Bytes := 48 :: 120 :: hexEncode b

/-- `common.ToHex`. -/
def toHex (b : Bytes) : Bytes := 48 :: 120 :: if hexEncode b = [] then [48] else hexEncode b

def hexValue (d : UInt8) : Option UInt8 :=
  if 48 ≤ d ∧ d ≤ 57 then some (d - 48)
  else if 97 ≤ d ∧ d ≤ 102 then some (d - 87)
  else if 65 ≤ d ∧ d ≤ 70 then some (d - 55)
  else none

/-- `hex.DecodeString`. -/
def hexDecode : Bytes → Option Bytes
  | [] => some []
  | [_] => none
  | high :: low :: rest => do
    let high ← hexValue high
    let low ← hexValue low
    return (high * 16 + low) :: (← hexDecode rest)

/-- `hexutil.MustDecode`, which panics without a result. -/
def mustDecode : Bytes → Option Bytes
  | 48 :: 120 :: digits => hexDecode digits
  | 48 :: 88 :: digits => hexDecode digits
  | _ => none

theorem hexValue_hexDigit (x : UInt8) :
    hexValue (hexDigit (x / 16)) = some (x / 16) ∧ hexValue (hexDigit (x % 16)) = some (x % 16) ∧
      x / 16 * 16 + x % 16 = x := by
  have hall : ∀ n : Fin 256, hexValue (hexDigit (ofNat n / 16)) = some (ofNat n / 16) ∧
      hexValue (hexDigit (ofNat n % 16)) = some (ofNat n % 16) ∧
      ofNat n / 16 * 16 + ofNat n % 16 = ofNat n := by
    decide +kernel
  have hx := hall ⟨x.toNat, x.toNat_lt⟩
  rwa [UInt8.ofNat_toNat] at hx

theorem hexDecode_hexEncode (b : Bytes) : hexDecode (hexEncode b) = some b := by
  induction b with
  | nil => rfl
  | cons x b ih =>
    obtain ⟨hhigh, hlow, hbyte⟩ := hexValue_hexDigit x
    show hexDecode (hexDigit (x / 16) :: hexDigit (x % 16) :: hexEncode b) = _
    rw [hexDecode, hhigh, hlow, ih]
    exact congrArg (fun y => some (y :: b)) hbyte

theorem mustDecode_hexutilEncode (b : Bytes) : mustDecode (hexutilEncode b) = some b := hexDecode_hexEncode b

theorem hexutilEncode_injective {a b : Bytes} (h : hexutilEncode a = hexutilEncode b) : a = b := by
  have hdecoded := congrArg mustDecode h
  rw [mustDecode_hexutilEncode, mustDecode_hexutilEncode] at hdecoded
  exact Option.some.inj hdecoded

theorem hexEncode_cons_ne_nil (x : UInt8) (b : Bytes) : hexEncode (x :: b) ≠ [] := cons_ne_nil _ _

theorem toHex_of_ne_nil {key : Bytes} (h : key ≠ []) : toHex key = hexutilEncode key := by
  cases key with
  | nil => exact absurd rfl h
  | cons x b => rw [toHex, if_neg (hexEncode_cons_ne_nil x b), hexutilEncode]

theorem hexutilEncode_ne_toHex_nil (b : Bytes) : hexutilEncode b ≠ toHex [] := by
  cases b with
  | nil => decide
  | cons x b =>
    intro h
    exact nomatch (cons.inj (cons.inj (cons.inj h).2).2).2

/-! ### The cache -/

def listed (b : DSBlock) : List PeerEndpoint := b.body.committee ++ b.body.shardingNodes

/-- The LRU cache of `Pubkey2Coinbase`, from texts to texts, as long as nothing is evicted. -/
abbrev Pk2cb := Bytes → Option Bytes

def loadPk2Coinbase (cache : Pk2cb) (l : List PeerEndpoint) : Pk2cb :=
  l.foldl (fun cache p => Function.update cache (hexutilEncode p.pubkey) (some (hexutilEncode p.coinbase))) cache

/-- `Pubkey2Coinbase.Reset`. -/
def resetCache (cache : Pk2cb) (b : DSBlock) : Pk2cb :=
  loadPk2Coinbase (loadPk2Coinbase cache b.body.committee) b.body.shardingNodes

/-- `Pubkey2Coinbase.GetCoinbaseByPubkey`; without a result it panics. -/
def cachedCoinbase (cache : Pk2cb) (pubkey : Bytes) : Option (Option Bytes) :=
  match cache (toHex pubkey) with
  | some scb => (mustDecode scb).map some
  | none => some none

def lastCoinbase (l : List PeerEndpoint) (key : Bytes) : Option Bytes :=
  (l.reverse.find? (·.pubkey = key)).map (·.coinbase)

theorem lastCoinbase_append_singleton (l : List PeerEndpoint) (p : PeerEndpoint) (key : Bytes) :
    lastCoinbase (l ++ [p]) key = if p.pubkey = key then some p.coinbase else lastCoinbase l key := by
  unfold lastCoinbase
  by_cases h : p.pubkey = key <;> simp [h]

theorem lastCoinbase_append {l l' : List PeerEndpoint} (hp : p ∈ l') :
    lastCoinbase (l ++ l') p.pubkey = lastCoinbase l' p.pubkey := by
  have hfound : (l'.reverse.find? (·.pubkey = p.pubkey)).isSome := by
    rw [find?_isSome]
    exact ⟨p, mem_reverse.mpr hp, decide_eq_true rfl⟩
  unfold lastCoinbase
  rw [reverse_append, find?_append]
  cases hfind : l'.reverse.find? (·.pubkey = p.pubkey) with
  | none =>
    rw [hfind] at hfound
    exact nomatch hfound
  | some q => rfl

theorem loadPk2Coinbase_append (cache : Pk2cb) (l l' : List PeerEndpoint) :
    loadPk2Coinbase cache (l ++ l') = loadPk2Coinbase (loadPk2Coinbase cache l) l' := foldl_append

theorem resetCache_eq (cache : Pk2cb) (b : DSBlock) : resetCache cache b = loadPk2Coinbase cache (listed b) :=
  (loadPk2Coinbase_append cache b.body.committee b.body.shardingNodes).symm

/-- What handling the events of some blocks leaves in the cache. -/
def cacheOf (blocks : List DSBlock) : Pk2cb := blocks.foldl resetCache fun _ => none

theorem cacheOf_eq (blocks : List DSBlock) :
    cacheOf blocks = loadPk2Coinbase (fun _ => none) (blocks.flatMap listed) := by
  unfold cacheOf
  generalize (fun _ => none : Pk2cb) = cache
  induction blocks generalizing cache with
  | nil => rfl
  | cons b blocks ih => rw [foldl_cons, ih, resetCache_eq, flatMap_cons, loadPk2Coinbase_append]

theorem loadPk2Coinbase_get (l : List PeerEndpoint) (key : Bytes) :
    loadPk2Coinbase (fun _ => none) l (hexutilEncode key) = (lastCoinbase l key).map hexutilEncode := by
  induction l using reverseRecOn with
  | nil => rfl
  | append_singleton l p ih =>
    rw [loadPk2Coinbase_append, lastCoinbase_append_singleton]
    show Function.update (loadPk2Coinbase (fun _ => none) l) (hexutilEncode p.pubkey) (some (hexutilEncode p.coinbase))
      (hexutilEncode key) = _
    by_cases h : p.pubkey = key
    · rw [if_pos h, h, Function.update_self, Option.map_some]
    · rw [if_neg h, Function.update_of_ne fun heq => h (hexutilEncode_injective heq).symm, ih]

theorem loadPk2Coinbase_empty (l : List PeerEndpoint) : loadPk2Coinbase (fun _ => none) l (toHex []) = none := by
  induction l using reverseRecOn with
  | nil => rfl
  | append_singleton l p ih =>
    rw [loadPk2Coinbase_append]
    show Function.update (loadPk2Coinbase (fun _ => none) l) (hexutilEncode p.pubkey) (some (hexutilEncode p.coinbase)) (toHex []) = _
    rw [Function.update_of_ne (hexutilEncode_ne_toHex_nil p.pubkey).symm, ih]

/-- A lookup in the cache never panics; it finds the last coinbase, unless the key is empty. -/
theorem cachedCoinbase_cacheOf (blocks : List DSBlock) (key : Bytes) :
    cachedCoinbase (cacheOf blocks) key = some (if key = [] then none else lastCoinbase (blocks.flatMap listed) key) := by
  unfold cachedCoinbase
  rw [cacheOf_eq]
  by_cases h : key = []
  · rw [if_pos h, h, loadPk2Coinbase_empty]
  · rw [if_neg h, toHex_of_ne_nil h, loadPk2Coinbase_get]
    cases lastCoinbase (blocks.flatMap listed) key with
    | none => rfl
    | some coinbase => exact congrArg (Option.map some) (mustDecode_hexutilEncode coinbase)

/-! ### A node -/

/-- The DS chain of a node, its cache, the blocks of the events that have been handled and of those that have only been
posted, oldest first. -/
structure CachingNode where
  chain : DSBlockChain
  pk2cb : Pk2cb
  handled : List DSBlock
  posted : List DSBlock

def CachingNode.start (c : DSBlockChain) : CachingNode := ⟨c, fun _ => none, [], [c.currentBlock]⟩

inductive CachingAct
  | insert (b : DSBlock)
  | procFutureBlocks (order : List DSBlock)
  | handle

section

variable (E : Env) (signer : Bool)

/-- `DSBlockChain.InsertBlock`: a block that has been inserted is posted. -/
def CachingNode.insert (s : CachingNode) (b : DSBlock) : CachingNode :=
  match insertBlock (dsImpl E signer) b s.chain with
  | (.ok _, c) => {s with chain := c, posted := s.posted ++ [b]}
  | (.error _, c) => {s with chain := c}

inductive CachingStep (s : CachingNode) : CachingAct → CachingNode → Prop
  | insert (b) : CachingStep s (.insert b) (s.insert E signer b)
  | pass {order} : FutureOrder (dsImpl E signer).toIBlock s.chain order →
      CachingStep s (.procFutureBlocks order) {s with chain := procFutureBlocks (dsImpl E signer) order s.chain}
  | handle {b rest} : s.posted = b :: rest →
      CachingStep s .handle {s with pk2cb := resetCache s.pk2cb b, handled := s.handled ++ [b], posted := rest}

end

/-- The cache when all that is posted has been handled. -/
def CachingNode.settled (s : CachingNode) : Pk2cb := s.posted.foldl resetCache s.pk2cb

/-- Once the posted events are handled, the cache has the coinbases of the head's peers as the head has them. -/
def CoinbasesAgree (s : CachingNode) : Prop :=
  ∀ p ∈ listed s.chain.currentBlock,
    cachedCoinbase s.settled p.pubkey = some (s.chain.currentBlock.getCoinbaseByPubkey p.pubkey)

/-- Every peer of a block has a key, and the last one with this key in some blocks has the coinbase of the first one in
the block. -/
def ListedAlike (blocks : List DSBlock) (b : DSBlock) : Prop :=
  ∀ p ∈ listed b, p.pubkey ≠ [] ∧ lastCoinbase (blocks.flatMap listed) p.pubkey = b.getCoinbaseByPubkey p.pubkey

/-- The step loads the cache with what the new head says: an accepted block agrees with itself, and so do the blocks
that have been posted with the head after a pass over the future blocks. -/
def LoadsHead (E : Env) (signer : Bool) (s : CachingNode) : CachingAct → Prop
  | .insert b => dsValidateBlock E signer s.chain b = .ok ⟨⟩ → (∃ hash, b.hash E = .ok hash) → ListedAlike [b] b
  | .procFutureBlocks order =>
    (procFutureBlocks (dsImpl E signer) order s.chain).currentBlock = s.chain.currentBlock ∨
      ListedAlike (s.handled ++ s.posted) (procFutureBlocks (dsImpl E signer) order s.chain).currentBlock
  | .handle => True

/-! ### Agreement -/

variable {E : Env} {signer : Bool} {s t : CachingNode} {b : DSBlock}

/-- The cache is made of the blocks whose events have been handled. -/
def Loaded (s : CachingNode) : Prop := s.pk2cb = cacheOf s.handled

theorem Loaded.settled_eq (h : Loaded s) : s.settled = cacheOf (s.handled ++ s.posted) := by
  unfold CachingNode.settled cacheOf
  rw [foldl_append, h]
  rfl

theorem getCoinbaseByPubkey_isSome (hp : p ∈ listed b) : (b.getCoinbaseByPubkey p.pubkey).isSome := by
  unfold DSBlock.getCoinbaseByPubkey
  rw [Option.isSome_map, find?_isSome]
  exact ⟨p, hp, decide_eq_true rfl⟩

theorem coinbasesAgree_iff (h : Loaded s) :
    CoinbasesAgree s ↔ ListedAlike (s.handled ++ s.posted) s.chain.currentBlock := by
  refine forall₂_congr fun p hp => ?_
  have hsome := getCoinbaseByPubkey_isSome hp
  rw [h.settled_eq, cachedCoinbase_cacheOf, Option.some.injEq]
  by_cases hkey : p.pubkey = []
  · rw [if_pos hkey]
    constructor
    · intro heq
      rw [← heq] at hsome
      exact nomatch hsome
    · exact fun hrec => absurd hkey hrec.1
  · rw [if_neg hkey, and_iff_right hkey]

theorem listedAlike_append_singleton (blocks : List DSBlock) : ListedAlike (blocks ++ [b]) b ↔ ListedAlike [b] b := by
  refine forall₂_congr fun p hp => and_congr_right fun _ => ?_
  have hmem : p ∈ [b].flatMap listed := by rwa [flatMap_singleton]
  rw [flatMap_append, lastCoinbase_append hmem]

/-- A step that loads the head keeps the agreement, and every other step breaks it. -/
theorem CachingStep.keeps_iff {a : CachingAct} (hstep : CachingStep E signer s a t) (h : Loaded s)
    (hagree : CoinbasesAgree s) : Loaded t ∧ (CoinbasesAgree t ↔ LoadsHead E signer s a) := by
  have hbefore := (coinbasesAgree_iff h).mp hagree
  cases hstep with
  | insert b =>
    unfold CachingNode.insert
    cases hrun : insertBlock (dsImpl E signer) b s.chain with
    | mk result c =>
      cases result with
      | error e =>
        have hloaded : Loaded {s with chain := c} := h
        refine ⟨hloaded, ?_⟩
        rw [coinbasesAgree_iff hloaded]
        rw [(insertBlock_error hrun).2.2]
        refine iff_of_true hbefore fun hok ⟨hash, hhash⟩ => ?_
        rcases insertBlock_cases (I := dsImpl E signer) hhash (fun _ x => ⟨x, rfl⟩) with
          ⟨hinserted, -⟩ | ⟨hrefused, -⟩
        · rw [hrun] at hinserted
          exact nomatch hinserted
        · exact absurd hok (hrefused _)
      | ok u =>
        obtain ⟨⟨_, hok⟩, hhash, hhead⟩ := insertBlock_inserts hrun
        have hloaded : Loaded {s with chain := c, posted := s.posted ++ [b]} := h
        refine ⟨hloaded, ?_⟩
        rw [coinbasesAgree_iff hloaded]
        rw [hhead, ← append_assoc, listedAlike_append_singleton]
        exact ⟨fun hrecorded _ _ => hrecorded, fun hloads => hloads hok hhash⟩
  | @pass order horder =>
    have hloaded : Loaded {s with chain := procFutureBlocks (dsImpl E signer) order s.chain} := h
    refine ⟨hloaded, (coinbasesAgree_iff hloaded).trans ⟨.inr, ?_⟩⟩
    rintro (hsame | hrecorded)
    · rw [hsame]
      exact hbefore
    · exact hrecorded
  | @handle b rest hposted =>
    have hloaded : Loaded {s with pk2cb := resetCache s.pk2cb b, handled := s.handled ++ [b], posted := rest} := by
      show resetCache s.pk2cb b = cacheOf (s.handled ++ [b])
      rw [h, cacheOf, cacheOf, foldl_append]
      rfl
    refine ⟨hloaded, ?_⟩
    rw [coinbasesAgree_iff hloaded]
    rw [append_assoc, singleton_append, ← hposted]
    exact iff_of_true hbefore trivial

theorem loaded_start (c : DSBlockChain) : Loaded (.start c) := rfl

/-- **The cache and the head agree.** In a run from any chain, once what is posted has been handled, the cache gives
for every peer of the head the coinbase that the head gives, after every prefix of the run, exactly if this holds of
the block the chain starts with and every step loads the new head. -/
theorem coinbases_agree_iff (E : Env) (signer : Bool) (c : DSBlockChain) (acts : List CachingAct) :
    Throughout (CachingStep E signer) CoinbasesAgree acts (.start c) ↔
      ListedAlike [c.currentBlock] c.currentBlock ∧ EachStep (CachingStep E signer) (LoadsHead E signer) acts (.start c) := by
  have hstart : CoinbasesAgree (.start c) ↔ ListedAlike [c.currentBlock] c.currentBlock :=
    coinbasesAgree_iff (loaded_start c)
  have hrun : CoinbasesAgree (.start c) → (Throughout (CachingStep E signer) CoinbasesAgree acts (.start c) ↔
      EachStep (CachingStep E signer) (LoadsHead E signer) acts (.start c)) := by
    intro hagree
    refine throughout_iff (J := fun s => Loaded s ∧ CoinbasesAgree s) (fun s hs => hs.2) ?_ ?_ acts
      ⟨loaded_start c, hagree⟩
    · intro s a t hs hstep hloads
      obtain ⟨hloaded, hiff⟩ := hstep.keeps_iff hs.1 hs.2
      exact ⟨hloaded, hiff.mpr hloads⟩
    · intro s a t hs hstep hloads hagree'
      exact hloads ((hstep.keeps_iff hs.1 hs.2).2.mp hagree')
  constructor
  · intro h
    exact ⟨hstart.mp h.start, (hrun h.start).mp h⟩
  · rintro ⟨hrecorded, heach⟩
    exact (hrun (hstart.mpr hrecorded)).mpr heach

/-! ### A future block -/

/-- A second block with a new member in its committee. -/
def withNewMember : DSBlock := dsSecond 0 [peerWithKey 5, {peerWithKey 6 with coinbase := [7]}]

def earlyInsert : CachingNode :=
  ((CachingNode.start dsGenesisChain).insert Env.sample true withNewMember).insert Env.sample true dsFirst

/-- The pass over the future blocks makes the second block the head, and no event brings its new member into the
cache. -/
theorem future_block_not_loaded : ∃ t, CachingStep Env.sample true earlyInsert (.procFutureBlocks [withNewMember]) t ∧
    t.chain.currentBlock = withNewMember ∧ (listed withNewMember).map (·.coinbase) = [[], [7]] ∧
    (listed withNewMember).map (fun p => withNewMember.getCoinbaseByPubkey p.pubkey) = [some [], some [7]] ∧
    (listed withNewMember).map (fun p => cachedCoinbase t.settled p.pubkey) = [some (some []), some none] :=
  ⟨_, .pass (by decide +kernel), by decide +kernel, by decide +kernel, by decide +kernel, by decide +kernel⟩

end Okchain.Consensus
