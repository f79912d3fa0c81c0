import Mathlib.Data.List.Pairwise
import Okchain.Protos.Types

/-! The transactions of one account, after `core/txpool/tx_list.go`.

The heap of nonces and the cache of a `txSortedMap` say nothing its map does not, so the model keeps the transactions
alone, in the order of their nonces. A `txList` adds the price rule for replacing a transaction, and two caps that let
`Filter` return early. Pending lists are meant to be without gaps (`InOrder`).
-/
variable {k : Nat}

namespace Okchain.Txpool
open Protos List
open UInt64 (le_trans lt_iff_toNat_lt not_lt toNat toNat_inj)

structure TxSortedMap where
  items : List Transaction
  sorted : items.Pairwise (fun a b => a.nonce < b.nonce)

namespace TxSortedMap

def empty : TxSortedMap := ⟨[], .nil⟩

def get (m : TxSortedMap) (nonce : UInt64) : Option Transaction := m.items.find? (·.nonce = nonce)

def restrict (m : TxSortedMap) (keep : Transaction → Bool) : TxSortedMap :=
  ⟨m.items.filter keep, m.sorted.filter keep⟩

def put (m : TxSortedMap) (tx : Transaction) : TxSortedMap where
  items := m.items.filter (·.nonce < tx.nonce) ++ tx :: m.items.filter (tx.nonce < ·.nonce)
  sorted := by
    have hbelow : ∀ a ∈ m.items.filter (·.nonce < tx.nonce), a.nonce < tx.nonce := by simp
    have habove : ∀ b ∈ m.items.filter (tx.nonce < ·.nonce), tx.nonce < b.nonce := by simp
    refine List.pairwise_append.mpr ⟨m.sorted.filter _, .cons habove (m.sorted.filter _), ?_⟩
    intro a ha b hb
    cases hb with
    | head => exact hbelow a ha
    | tail _ hb => exact UInt64.lt_trans (hbelow a ha) (habove b hb)

/-- `Forward`: what is below the threshold, and the rest. -/
def forward (m : TxSortedMap) (threshold : UInt64) : List Transaction × TxSortedMap :=
  (m.items.filter (·.nonce < threshold), m.restrict fun tx => !decide (tx.nonce < threshold))

/-- `Filter`: what has the property, and the rest. -/
def filter (m : TxSortedMap) (drop : Transaction → Bool) : List Transaction × TxSortedMap :=
  (m.items.filter drop, m.restrict fun tx => !drop tx)

/-- `Cap`: the highest nonces are dropped first. -/
def cap (m : TxSortedMap) (threshold : Nat) : List Transaction × TxSortedMap :=
  ((m.items.drop threshold).reverse, ⟨m.items.take threshold, m.sorted.take⟩)

def remove (m : TxSortedMap) (nonce : UInt64) : Bool × TxSortedMap :=
  ((m.get nonce).isSome, m.restrict fun tx => tx.nonce != nonce)

/-- The loop of `Ready`: the transactions whose nonces go up one by one from `next`, and the rest. -/
def takeRun : UInt64 → List Transaction → List Transaction × List Transaction
  | _, [] => ([], [])
  | next, tx :: rest =>
    if tx.nonce = next then (tx :: (takeRun (next + 1) rest).1, (takeRun (next + 1) rest).2)
    else ([], tx :: rest)

theorem takeRun_append (next : UInt64) (l : List Transaction) : (takeRun next l).1 ++ (takeRun next l).2 = l := by
  induction l generalizing next with
  | nil => rfl
  | cons tx rest ih =>
    unfold takeRun
    split
    · exact congrArg (tx :: ·) (ih (next + 1))
    · rfl

def ready (m : TxSortedMap) (start : UInt64) : List Transaction × TxSortedMap :=
  match m.items.head? with
  | none => ([], m)
  | some first =>
    if start < first.nonce then ([], m)
    else ((takeRun first.nonce m.items).1, {
      items := (takeRun first.nonce m.items).2
      sorted := (List.pairwise_append.mp ((takeRun_append first.nonce m.items).symm ▸ m.sorted)).2.1})

end TxSortedMap

/-- `Transaction.Cost`. -/
def cost (tx : Transaction) : Nat := tx.gasPrice.toNat * tx.gasLimit.toNat + tx.amount.toNat

structure TxList where
  strict : Bool
  txs : TxSortedMap
  costcap : Int
  gascap : UInt64

namespace TxList

/-- `newTxList`. -/
def new (strict : Bool) : TxList := ⟨strict, .empty, 0, 0⟩

def flatten (l : TxList) : List Transaction := l.txs.items

def len (l : TxList) : Nat := l.txs.items.length

/-- `Empty`. -/
def isEmpty (l : TxList) : Bool := l.len == 0

def overlaps (l : TxList) (tx : Transaction) : Bool := (l.txs.get tx.nonce).isSome

/-- The price a replacement has to reach; the percentage is a signed number in the source. -/
def bumped (old : Transaction) (priceBump : UInt64) : Int :=
  (old.gasPrice.toNat : Int) * (100 + priceBump.toInt64).toInt / 100

/-- `Add`: refused if the transaction it would replace is as good, else the transaction that was replaced
and the list. -/
def add (l : TxList) (tx : Transaction) (priceBump : UInt64) : Option (Option Transaction × TxList) :=
  let old := l.txs.get tx.nonce
  if old.any fun o => decide (tx.gasPrice ≤ o.gasPrice) || decide ((tx.gasPrice.toNat : Int) < bumped o priceBump) then
    none
  else some (old, {l with
    txs := l.txs.put tx
    costcap := max l.costcap (cost tx)
    gascap := if l.gascap < tx.gasLimit then tx.gasLimit else l.gascap})

def forward (l : TxList) (threshold : UInt64) : List Transaction × TxList :=
  ((l.txs.forward threshold).1, {l with txs := (l.txs.forward threshold).2})

def lowest (removed : List Transaction) : UInt64 :=
  removed.foldl (fun low tx => if tx.nonce < low then tx.nonce else low) 0xFFFFFFFFFFFFFFFF

/-- `Filter`: what exceeds the gas limit, what a strict list cannot hold without it, and the rest. The cost
only decides whether the list is looked through at all. -/
def filter (l : TxList) (costLimit : Int) (gasLimit : UInt64) : List Transaction × List Transaction × TxList :=
  if l.costcap ≤ costLimit ∧ l.gascap ≤ gasLimit then ([], [], l)
  else
    let capped := {l with costcap := costLimit, gascap := gasLimit}
    let excess := l.txs.filter fun tx => gasLimit < tx.gasLimit
    if l.strict ∧ excess.1 ≠ [] then
      let above := excess.2.filter fun tx => lowest excess.1 < tx.nonce
      (excess.1, above.1, {capped with txs := above.2})
    else (excess.1, [], {capped with txs := excess.2})

def cap (l : TxList) (threshold : Nat) : List Transaction × TxList :=
  ((l.txs.cap threshold).1, {l with txs := (l.txs.cap threshold).2})

/-- `Remove`: nothing if the nonce is not in the list, else what a strict list cannot hold without it, and
the rest. -/
def remove (l : TxList) (tx : Transaction) : Option (List Transaction × TxList) :=
  let removed := l.txs.remove tx.nonce
  if removed.1 then
    if l.strict then
      let above := removed.2.filter fun t => tx.nonce < t.nonce
      some (above.1, {l with txs := above.2})
    else some ([], {l with txs := removed.2})
  else none

def ready (l : TxList) (start : UInt64) : List Transaction × TxList :=
  ((l.txs.ready start).1, {l with txs := (l.txs.ready start).2})

end TxList

/-! ### Lists without gaps -/

/-- The nonces are `n`, `n + 1` and so on. -/
def InOrder : Nat → List Transaction → Prop
  | _, [] => True
  | n, tx :: rest => tx.nonce.toNat = n ∧ InOrder (n + 1) rest

section

variable {n m : Nat} {l r : List Transaction} {tx : Transaction}

theorem inOrder_append : InOrder n (l ++ r) ↔ InOrder n l ∧ InOrder (n + l.length) r := by
  induction l generalizing n with
  | nil => simp [InOrder]
  | cons tx rest ih =>
    have hlen : n + (tx :: rest).length = n + 1 + rest.length := by
      rw [length_cons]
      omega
    rw [cons_append, hlen]
    simp only [InOrder, ih]
    rw [and_assoc]

section
variable (h : InOrder n l)
include h

theorem InOrder.bounds (htx : tx ∈ l) : n ≤ tx.nonce.toNat ∧ tx.nonce.toNat < n + l.length := by
  induction l generalizing n with
  | nil => exact nomatch htx
  | cons first rest ih =>
    rw [length_cons]
    cases htx with
    | head =>
      have := h.1
      omega
    | tail _ htx =>
      have := ih h.2 htx
      omega

theorem InOrder.take (m : Nat) : InOrder n (l.take m) :=
  (inOrder_append.mp (l.take_append_drop m |>.symm ▸ h)).1

theorem InOrder.drop (hm : m ≤ l.length) : InOrder (n + m) (l.drop m) := by
  have := (inOrder_append.mp (l.take_append_drop m |>.symm ▸ h)).2
  rwa [length_take, Nat.min_eq_left hm] at this

/-- A nonce splits the list in two. -/
theorem InOrder.filter_split : l.filter (fun tx => decide (tx.nonce.toNat < m)) = l.take (m - n) ∧
    l.filter (fun tx => !decide (tx.nonce.toNat < m)) = l.drop (m - n) := by
  induction l generalizing n with
  | nil => simp
  | cons first rest ih =>
    obtain ⟨hfirst, hrest⟩ := h
    obtain ⟨hbelow, habove⟩ := ih hrest
    by_cases hm : n < m
    · have hlt : decide (first.nonce.toNat < m) = true := by simpa [hfirst] using hm
      have hstep : m - n = m - (n + 1) + 1 := by omega
      rw [hstep, take_succ_cons, drop_succ_cons, ← hbelow, ← habove]
      simp [hlt]
    · have hge : decide (first.nonce.toNat < m) = false := by simpa [hfirst] using hm
      rw [Nat.sub_eq_zero_of_le (by omega)] at hbelow habove ⊢
      simpa [hge, hbelow] using habove

end

/-- The loop of `Ready` returns a list without gaps. -/
theorem takeRun_inOrder (next : UInt64) (l : List Transaction) (hl : l.Pairwise (fun a b => a.nonce < b.nonce)) :
    InOrder next.toNat (TxSortedMap.takeRun next l).1 := by
  induction l generalizing next with
  | nil => exact trivial
  | cons tx rest ih =>
    unfold TxSortedMap.takeRun
    split
    · rename_i hnonce
      refine ⟨congrArg toNat hnonce, ?_⟩
      have hrest := ih (next + 1) hl.of_cons
      -- the next nonce wraps only if nothing can follow
      by_cases hwrap : next.toNat + 1 < 2 ^ 64
      · rwa [UInt64.toNat_add, show (1 : UInt64).toNat = 1 from rfl, Nat.mod_eq_of_lt hwrap] at hrest
      · have hnone : rest = [] := by
          refine eq_nil_iff_forall_not_mem.mpr fun b hb => ?_
          have hlt := lt_iff_toNat_lt.mp (rel_of_pairwise_cons hl hb)
          have hb := b.nonce.toNat_lt
          rw [hnonce] at hlt
          omega
        rw [hnone]
        exact trivial
    · exact trivial

end

/-! ### What the operations leave -/

namespace TxSortedMap

variable {m : TxSortedMap} {n : Nat} {tx t : Transaction}

theorem eq_of_nonce_eq {a b : Transaction} (ha : a ∈ m.items) (hb : b ∈ m.items) (h : a.nonce = b.nonce) : a = b := by
  by_contra hne
  have hpair : m.items.Pairwise fun a b => a.nonce ≠ b.nonce :=
    m.sorted.imp fun {a b} hlt (heq : a.nonce = b.nonce) => UInt64.lt_irrefl b.nonce (heq ▸ hlt)
  have hsymm : Std.Symm fun a b : Transaction => a.nonce ≠ b.nonce := ⟨fun _ _ h => h.symm⟩
  exact hpair.forall ha hb hne h

theorem get_isSome_iff : (m.get tx.nonce).isSome ↔ ∃ t ∈ m.items, t.nonce = tx.nonce := by
  unfold get
  simp

theorem put_perm (m : TxSortedMap) (tx : Transaction) :
    (m.put tx).items.Perm (tx :: m.items.filter (·.nonce ≠ tx.nonce)) := by
  have hsplit := filter_append_perm (fun t : Transaction => decide (t.nonce < tx.nonce))
    (m.items.filter (·.nonce ≠ tx.nonce))
  have hbelow : (m.items.filter (·.nonce ≠ tx.nonce)).filter (fun t => decide (t.nonce < tx.nonce)) =
      m.items.filter (·.nonce < tx.nonce) := by
    rw [filter_filter]
    refine filter_congr fun t _ => ?_
    rw [← Bool.decide_and, decide_eq_decide, lt_iff_toNat_lt, Ne, ← toNat_inj]
    omega
  have habove : (m.items.filter (·.nonce ≠ tx.nonce)).filter (fun t => !decide (t.nonce < tx.nonce)) =
      m.items.filter (tx.nonce < ·.nonce) := by
    rw [filter_filter]
    refine filter_congr fun t _ => ?_
    rw [← decide_not, ← Bool.decide_and, decide_eq_decide, lt_iff_toNat_lt, lt_iff_toNat_lt, Ne, ← toNat_inj]
    omega
  rw [hbelow, habove] at hsplit
  exact perm_middle.trans (hsplit.cons tx)

theorem filter_nonce_lt (l : List Transaction) (nonce : UInt64) :
    l.filter (·.nonce < nonce) = l.filter (fun t => decide (t.nonce.toNat < nonce.toNat)) :=
  filter_congr fun t _ => by simp [lt_iff_toNat_lt]

section
variable (h : InOrder n m.items)
include h

theorem put_items :
    (m.put tx).items = m.items.take (tx.nonce.toNat - n) ++ tx :: m.items.drop (tx.nonce.toNat + 1 - n) := by
  have habove : m.items.filter (tx.nonce < ·.nonce) =
      m.items.filter (fun t => !decide (t.nonce.toNat < tx.nonce.toNat + 1)) := by
    refine filter_congr fun t _ => ?_
    rw [← decide_not, decide_eq_decide, lt_iff_toNat_lt]
    omega
  unfold put
  dsimp only
  rw [filter_nonce_lt, habove, h.filter_split.1, h.filter_split.2]

theorem put_next (hnext : tx.nonce.toNat = n + m.items.length) : (m.put tx).items = m.items ++ [tx] := by
  rw [put_items h, take_of_length_le (by omega), drop_of_length_le (by omega)]

theorem put_replace (hold : (m.get tx.nonce).isSome = true) :
    InOrder n (m.put tx).items ∧ (m.put tx).items.length = m.items.length := by
  obtain ⟨old, hmem, hnonce⟩ := get_isSome_iff.mp hold
  have hbounds := h.bounds hmem
  rw [hnonce] at hbounds
  have htake : (m.items.take (tx.nonce.toNat - n)).length = tx.nonce.toNat - n := by
    rw [length_take]
    omega
  rw [put_items h]
  refine ⟨inOrder_append.mpr ⟨h.take _, ?_, ?_⟩, ?_⟩
  · omega
  · rw [htake]
    have hdrop := h.drop (m := tx.nonce.toNat + 1 - n) (by omega)
    rwa [show n + (tx.nonce.toNat + 1 - n) = n + (tx.nonce.toNat - n) + 1 by omega] at hdrop
  · rw [length_append, length_cons, length_drop]
    omega

end

theorem ready_append (m : TxSortedMap) (start : UInt64) : (m.ready start).1 ++ (m.ready start).2.items = m.items := by
  unfold ready
  cases m.items.head? with
  | none => rfl
  | some first =>
    dsimp only
    split
    · rfl
    · exact takeRun_append _ _

/-- What is ready has no gaps and begins with the lowest nonce, which is not above the start. -/
theorem ready_inOrder (m : TxSortedMap) (start : UInt64) : (m.ready start).1 = [] ∨
    ∃ first ∈ m.items, first.nonce ≤ start ∧ InOrder first.nonce.toNat (m.ready start).1 := by
  unfold ready
  cases hfirst : m.items.head? with
  | none => exact .inl rfl
  | some first =>
    dsimp only
    split
    · exact .inl rfl
    · rename_i hstart
      exact .inr ⟨first, mem_of_mem_head? hfirst, not_lt.mp hstart, takeRun_inOrder _ _ m.sorted⟩

end TxSortedMap

namespace TxList

variable {l l' : TxList} {n : Nat} {tx t : Transaction} {old : Option Transaction} {txs invalids : List Transaction}

theorem add_some {bump : UInt64} (h : l.add tx bump = some (old, l')) :
    l'.flatten = (l.txs.put tx).items ∧ l'.strict = l.strict ∧ old = l.txs.get tx.nonce := by
  unfold add at h
  dsimp only at h
  split at h
  · exact nomatch h
  · cases h
    exact ⟨rfl, rfl, rfl⟩

theorem add_new (bump : UInt64) (h : l.txs.get tx.nonce = none) : ∃ l', l.add tx bump = some (none, l') := by
  unfold add
  rw [h]
  exact ⟨_, rfl⟩

theorem flatten_getD (o : Option TxList) (strict : Bool) :
    (o.getD (.new strict)).flatten = (o.map flatten).getD [] := by
  cases o with
  | none => rfl
  | some l => rfl

theorem ready_append (l : TxList) (start : UInt64) : (l.ready start).1 ++ (l.ready start).2.flatten = l.flatten :=
  l.txs.ready_append start

theorem lowest_spec (l : List Transaction) (hne : l ≠ []) :
    (∀ t ∈ l, lowest l ≤ t.nonce) ∧ ∃ t ∈ l, t.nonce = lowest l := by
  have hfold : ∀ (l : List Transaction) (low : UInt64),
      let r := l.foldl (fun low tx => if tx.nonce < low then tx.nonce else low) low
      r ≤ low ∧ (∀ t ∈ l, r ≤ t.nonce) ∧ (r = low ∨ ∃ t ∈ l, t.nonce = r) := by
    intro l
    induction l with
    | nil => exact fun low => ⟨UInt64.le_refl low, fun _ h => (nomatch h), .inl rfl⟩
    | cons first rest ih =>
      intro low
      obtain ⟨hlow, hrest, hmem⟩ := ih (if first.nonce < low then first.nonce else low)
      rw [foldl_cons]
      by_cases hlt : first.nonce < low
      · rw [if_pos hlt] at hlow hrest hmem ⊢
        refine ⟨le_trans hlow (UInt64.le_of_lt hlt), fun t ht => ?_, .inr ?_⟩
        · cases ht with
          | head => exact hlow
          | tail _ ht => exact hrest t ht
        · rcases hmem with heq | ⟨t, ht, heq⟩
          · exact ⟨first, mem_cons_self, heq.symm⟩
          · exact ⟨t, mem_cons_of_mem _ ht, heq⟩
      · rw [if_neg hlt] at hlow hrest hmem ⊢
        refine ⟨hlow, fun t ht => ?_, hmem.imp_right fun ⟨t, ht, heq⟩ => ⟨t, mem_cons_of_mem _ ht, heq⟩⟩
        cases ht with
        | head => exact le_trans hlow (not_lt.mp hlt)
        | tail _ ht => exact hrest t ht
  obtain ⟨-, hle, hmem⟩ := hfold l 0xFFFFFFFFFFFFFFFF
  refine ⟨hle, hmem.elim (fun hmax => ?_) id⟩
  -- the lowest is the greatest number there is, so all have it
  obtain ⟨t, ht⟩ := exists_mem_of_ne_nil l hne
  have hge := UInt64.le_iff_toNat_le.mp (hle t ht)
  rw [hmax] at hge
  have hlt := t.nonce.toNat_lt
  refine ⟨t, ht, toNat_inj.mp ?_⟩
  show t.nonce.toNat = (l.foldl _ _ : UInt64).toNat
  rw [hmax]
  have : (0xFFFFFFFFFFFFFFFF : UInt64).toNat = 2 ^ 64 - 1 := rfl
  omega

/-- An operation cuts a list without gaps: it keeps the first `k` transactions, and what it gives up lies
above them. -/
structure Cuts (n k : Nat) (l l' : TxList) (postponed : List Transaction) : Prop where
  le : k ≤ l.len
  kept : l'.flatten = l.flatten.take k
  strict : l'.strict = l.strict
  above : ∀ t ∈ postponed, t ∈ l.flatten ∧ n + k ≤ t.nonce.toNat

theorem Cuts.inOrder (hc : Cuts n k l l' txs) (h : InOrder n l.flatten) : InOrder n l'.flatten :=
  hc.kept ▸ h.take k

theorem Cuts.length (hc : Cuts n k l l' txs) : l'.flatten.length = k := by
  rw [hc.kept, length_take]
  exact Nat.min_eq_left hc.le

theorem Cuts.refl (n : Nat) (l : TxList) : Cuts n l.len l l [] :=
  ⟨Nat.le_refl _, (take_length).symm, rfl, fun _ h => (nomatch h)⟩

section
variable (h : InOrder n l.flatten)
include h

theorem cap_cuts (hk : k ≤ l.len) : Cuts n k l (l.cap k).2 (l.cap k).1 := by
  refine ⟨hk, rfl, rfl, fun t ht => ?_⟩
  have ht : t ∈ l.flatten.drop k := mem_reverse.mp ht
  exact ⟨mem_of_mem_drop ht, ((h.drop hk).bounds ht).1⟩

theorem remove_cuts (hstrict : l.strict = true) (hr : l.remove tx = some (invalids, l')) :
    ∃ k, tx.nonce.toNat = n + k ∧ k < l.len ∧ Cuts n k l l' invalids := by
  unfold remove at hr
  dsimp only at hr
  split at hr
  · rename_i hin
    cases hr
    obtain ⟨t, ht, hnonce⟩ := TxSortedMap.get_isSome_iff.mp hin
    have hbounds := h.bounds ht
    rw [hnonce] at hbounds
    refine ⟨tx.nonce.toNat - n, by omega, ?_, ?_, ?_, rfl, fun t ht => ?_⟩
    · show _ < l.flatten.length
      omega
    · show _ ≤ l.flatten.length
      omega
    · rw [← h.filter_split.1]
      show (l.txs.items.filter _).filter _ = l.txs.items.filter _
      rw [filter_filter]
      refine filter_congr fun t _ => ?_
      rw [bne, ← decide_not, Bool.beq_eq_decide_eq, ← decide_not, ← Bool.decide_and, decide_eq_decide,
        lt_iff_toNat_lt, ← toNat_inj]
      omega
    · obtain ⟨ht, habove⟩ := mem_filter.mp ht
      refine ⟨mem_of_mem_filter ht, ?_⟩
      have := lt_iff_toNat_lt.mp (of_decide_eq_true habove)
      omega
  · exact nomatch hr

theorem filter_cuts (hstrict : l.strict = true) (costLimit : Int) (gasLimit : UInt64) :
    ∃ k, Cuts n k l (l.filter costLimit gasLimit).2.2 (l.filter costLimit gasLimit).2.1 := by
  unfold filter
  dsimp only
  split
  · exact ⟨l.len, .refl n l⟩
  split
  · rename_i hover
    obtain ⟨hle, worst, hworst, hlow⟩ := lowest_spec _ hover.2
    obtain ⟨hmem, hgas⟩ := mem_filter.mp hworst
    have hbounds := h.bounds hmem
    generalize lowest _ = low at hle hlow ⊢
    rw [hlow] at hbounds
    refine ⟨low.toNat - n, ?_, ?_, rfl, fun t ht => ?_⟩
    · show _ ≤ l.flatten.length
      omega
    · rw [← h.filter_split.1]
      show (l.txs.items.filter _).filter _ = l.txs.items.filter _
      rw [filter_filter]
      refine filter_congr fun t ht => ?_
      rw [← decide_not, ← decide_not, ← Bool.decide_and, decide_eq_decide, lt_iff_toNat_lt]
      constructor
      · intro ⟨hnot, hfits⟩
        -- the transaction with the lowest nonce is the one that does not fit
        have hne : t.nonce ≠ low := fun heq => hfits (by
          rw [TxSortedMap.eq_of_nonce_eq ht hmem (heq.trans hlow.symm)]
          exact of_decide_eq_true hgas)
        have hne : t.nonce.toNat ≠ low.toNat := fun heq => hne (toNat_inj.mp heq)
        omega
      · intro hlt
        refine ⟨by omega, fun hgas => ?_⟩
        have := UInt64.le_iff_toNat_le.mp (hle t (mem_filter.mpr ⟨ht, decide_eq_true hgas⟩))
        omega
    · obtain ⟨ht, habove⟩ := mem_filter.mp ht
      have := lt_iff_toNat_lt.mp (of_decide_eq_true habove)
      exact ⟨mem_of_mem_filter ht, by omega⟩
  · rename_i hnone
    have hfits : (l.txs.filter fun tx => gasLimit < tx.gasLimit).1 = [] := by
      by_contra hne
      exact hnone ⟨hstrict, hne⟩
    have hall : ∀ t ∈ l.txs.items, ¬gasLimit < t.gasLimit := by
      have := filter_eq_nil_iff.mp hfits
      simpa using this
    refine ⟨l.len, Nat.le_refl _, ?_, rfl, fun _ ht => (nomatch ht)⟩
    show l.txs.items.filter _ = l.flatten.take l.flatten.length
    rw [take_length, filter_eq_self.mpr]
    · rfl
    · simpa using hall

end

theorem mem_forward (ht : t ∈ (l.forward threshold).2.flatten) : t ∈ l.flatten ∧ threshold ≤ t.nonce := by
  obtain ⟨ht, hge⟩ := mem_filter.mp ht
  exact ⟨ht, not_lt.mp (by simpa using hge)⟩

theorem filter_strict (l : TxList) (costLimit : Int) (gasLimit : UInt64) :
    (l.filter costLimit gasLimit).2.2.strict = l.strict := by
  unfold filter
  dsimp only
  split
  · rfl
  split <;> rfl

theorem forward_perm (l : TxList) (threshold : UInt64) :
    ((l.forward threshold).1 ++ (l.forward threshold).2.flatten).Perm l.flatten :=
  filter_append_perm _ _

theorem filter_perm (l : TxList) (costLimit : Int) (gasLimit : UInt64) :
    ((l.filter costLimit gasLimit).1 ++ ((l.filter costLimit gasLimit).2.1 ++
      (l.filter costLimit gasLimit).2.2.flatten)).Perm l.flatten := by
  unfold filter
  dsimp only
  split
  · exact .refl _
  have hover := filter_append_perm (fun tx : Transaction => decide (gasLimit < tx.gasLimit)) l.flatten
  split
  · exact ((filter_append_perm _ _).append_left _).trans hover
  · exact hover

theorem mem_filter {costLimit : Int} {gasLimit : UInt64} (t : Transaction)
    (ht : t ∈ (l.filter costLimit gasLimit).2.1 ∨ t ∈ (l.filter costLimit gasLimit).2.2.flatten) : t ∈ l.flatten :=
  (l.filter_perm costLimit gasLimit).subset (mem_append_right _ (mem_append.mpr ht))

/-- A list that is not strict gives nothing back. -/
theorem filter_loose {l : TxList} (h : l.strict = false) (costLimit : Int) (gasLimit : UInt64) :
    (l.filter costLimit gasLimit).2.1 = [] := by
  unfold filter
  split
  · rfl
  · rw [if_neg (by simp [h])]

theorem cap_perm (l : TxList) (k : Nat) : ((l.cap k).1 ++ (l.cap k).2.flatten).Perm l.flatten := by
  have hreverse : ((l.cap k).1 ++ (l.cap k).2.flatten).Perm (l.flatten.drop k ++ l.flatten.take k) :=
    (reverse_perm _).append_right _
  refine hreverse.trans (perm_append_comm.trans ?_)
  rw [take_append_drop]

theorem mem_cap (t : Transaction) (ht : t ∈ (l.cap k).1 ∨ t ∈ (l.cap k).2.flatten) : t ∈ l.flatten :=
  (l.cap_perm k).subset (mem_append.mpr ht)

theorem remove_perm (hr : l.remove tx = some (invalids, l')) :
    (l.flatten.filter (·.nonce = tx.nonce) ++ (invalids ++ l'.flatten)).Perm l.flatten := by
  have hgone := filter_append_perm (fun t : Transaction => decide (t.nonce = tx.nonce)) l.flatten
  unfold remove at hr
  dsimp only at hr
  split at hr
  · split at hr
    · cases hr
      refine List.Perm.trans ?_ hgone
      exact (filter_append_perm _ _).append_left _
    · cases hr
      exact hgone
  · exact nomatch hr

theorem mem_remove (hr : l.remove tx = some (invalids, l')) (t : Transaction) (ht : t ∈ invalids ∨ t ∈ l'.flatten) :
    t ∈ l.flatten :=
  (remove_perm hr).subset (mem_append_right _ (mem_append.mpr ht))

end TxList

end Okchain.Txpool
