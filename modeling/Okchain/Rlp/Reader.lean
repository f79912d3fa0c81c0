import Okchain.Rlp.Writer

/-! The decoder of `common/rlp`.

A `Stream` hands out the next value of the innermost open list. Its stack of open lists is the stack of calls here: to
open a list is to go on with its content alone, and to end it is to have nothing left. `EOL`, the end of the innermost
list, tells the loop over a slice to stop; in a struct it means that a field is missing.
-/
namespace Okchain.Rlp
open Lib Lib.Rlp
open UInt8 (lt_iff_toNat_lt ofNat toNat_add toNat_ofNat')
open List hiding head

inductive DecodeErr
  | eol
  | unexpectedEOF
  | tooLarge
  | canonInt
  | canonSize
  | expectedString
  | expectedList
  | uintOverflow
  | invalidBool
  | notAtEOL
  | tooFewElements
  deriving DecidableEq, Repr

abbrev Decoder (α : Type) := StateT Bytes (Except DecodeErr) α

inductive Kind
  | byte (byteval : UInt8)
  | string (size : Nat)
  | list (size : Nat)
  deriving DecidableEq

def Kind.size : Kind → Nat
  | .byte _ => 0
  | .string size => size
  | .list size => size

/-! ### The stream -/

/-- `readUint`. A leading zero is looked for in numbers of more than one byte. -/
def readUint (size : Nat) : Decoder Nat := fun input =>
  if size = 0 then .ok (0, input)
  else if input.length < size then .error .tooLarge
  else if size ≠ 1 ∧ input.head? = some 0 then .error .canonSize
  else .ok (ofBeBytes (input.take size), input.drop size)

/-- The size that follows a tag, which must not fit the tag itself. -/
def readSize (bytes : UInt8) : Decoder Nat := do
  let size ← readUint bytes.toNat
  if size < 56 then throw .canonSize else return size

def readKind : Decoder Kind
  | [] => .error .unexpectedEOF
  | b :: input =>
    if b < 0x80 then .ok (.byte b, input)
    else if b < 0xB8 then .ok (.string (b - 0x80).toNat, input)
    else if b < 0xC0 then (.string <$> readSize (b - 0xB7)) input
    else if b < 0xF8 then .ok (.list (b - 0xC0).toNat, input)
    else (.list <$> readSize (b - 0xF7)) input

/-- `Stream.Kind`. -/
def kind : Decoder Kind := fun input =>
  if input = [] then .error .eol
  else match readKind input with
    | .error e => .error e
    | .ok (k, rest) => if rest.length < k.size then .error .tooLarge else .ok (k, rest)

/-- The next `size` bytes; `kind` has made sure that they are there. -/
def readFull (size : Nat) : Decoder Bytes := fun input => .ok (input.take size, input.drop size)

/-- `Stream.Bytes`. -/
def decodeBytes : Decoder Bytes := do
  match ← kind with
  | .byte b => return [b]
  | .string size =>
    let b ← readFull size
    if size = 1 ∧ b.all (· < 128) then throw .canonSize else return b
  | .list _ => throw .expectedString

/-- A leading zero in a number that is not a size. -/
def canonInt (d : Decoder Nat) : Decoder Nat := fun input =>
  match d input with
  | .error .canonSize => .error .canonInt
  | r => r

/-- `Stream.uint`. -/
def decodeUint (maxbits : Nat) : Decoder Nat := do
  match ← kind with
  | .byte b => if b = 0 then throw .canonInt else return b.toNat
  | .string size =>
    if maxbits / 8 < size then throw .uintOverflow
    else
      let v ← canonInt (readUint size)
      if 0 < size ∧ v < 128 then throw .canonSize else return v
  | .list _ => throw .expectedString

/-- `Stream.Bool`. -/
def decodeBool : Decoder Bool := do
  match ← decodeUint 8 with
  | 0 => return false
  | 1 => return true
  | _ => throw .invalidBool

/-- `List`, what is done inside, and `ListEnd`. -/
def inList {α : Type} (d : Decoder α) : Decoder α := do
  match ← kind with
  | .list size =>
    let content ← readFull size
    match d content with
    | .error e => throw e
    | .ok (a, left) => if left = [] then return a else throw .notAtEOL
  | _ => throw .expectedList

/-! ### Structs and slices -/

def field {α : Type} (d : Decoder α) : Decoder α := fun input =>
  match d input with
  | .error .eol => .error .tooFewElements
  | r => r

/-- `decodeSliceElems`, which stops when an element meets the end of the list. -/
def decodeSliceElems {α : Type} (d : Decoder α) : Nat → Decoder (List α)
  | 0, _ => .error .tooLarge
  | fuel + 1, input =>
    match d input with
    | .error .eol => .ok ([], input)
    | .error e => .error e
    | .ok (a, rest) =>
      match decodeSliceElems d fuel rest with
      | .error e => .error e
      | .ok (as, left) => .ok (a :: as, left)

/-- `decodeListSlice`. An element takes at least a byte, so there are fewer than bytes. -/
def decodeListSlice {α : Type} (d : Decoder α) : Decoder (List α) :=
  inList fun content => decodeSliceElems d (content.length + 1) content

/-- `rlp.Decode` into a value: what is left of the input is not looked at. -/
def decode {α : Type} (d : Decoder α) (data : Bytes) : Except DecodeErr α := (d data).map Prod.fst

example : decode (inList do return (← field decodeBytes, ← field (decodeUint 64)))
    [0xC7, 0x83, 0x63, 0x61, 0x74, 0x82, 4, 0] = .ok ([0x63, 0x61, 0x74], 1024) := by decide

/-! ### Reading what has been written -/

theorem readUint_beBytes (n : Nat) (rest : Bytes) :
    readUint (beBytes n).length (beBytes n ++ rest) = .ok (n, rest) := by
  unfold readUint
  by_cases hn : n = 0
  · subst hn
    rfl
  · have hpos : 0 < (beBytes n).length := length_pos_of_ne_nil (beBytes_ne_nil hn)
    obtain ⟨d, ds, hd⟩ := exists_cons_of_ne_nil (beBytes_ne_nil hn)
    have hhead : (beBytes n ++ rest).head? ≠ some 0 := by
      have := beBytes_head?_ne n
      rw [hd] at this ⊢
      exact this
    rw [if_neg hpos.ne', if_neg (by rw [length_append]; omega), if_neg (fun h => hhead h.2),
      take_left, drop_left, ofBeBytes_beBytes]

variable {size : Nat} {α β : Type} {d : Decoder α} {input rest content : Bytes} {a : α} {f : α → Decoder β} {x : Item}

theorem readSize_beBytes (hlarge : 56 ≤ size) (hsize : size < 2 ^ 64) (rest : Bytes) :
    readSize (ofNat (beBytes size).length) (beBytes size ++ rest) = .ok (size, rest) := by
  have hbytes : (beBytes size).length ≤ 8 := length_beBytes_le hsize
  have htoNat : (ofNat (beBytes size).length).toNat = (beBytes size).length := by
    rw [toNat_ofNat']
    omega
  show (readUint _ _ >>= fun r => (if r.1 < 56 then throw DecodeErr.canonSize else pure r.1 : Decoder Nat) r.2) = _
  rw [htoNat, readUint_beBytes]
  show (if size < 56 then throw DecodeErr.canonSize else pure size : Decoder Nat) rest = _
  rw [if_neg (by omega)]
  rfl

theorem small_tag (small : UInt8) (hsmall : small.toNat ≤ 200) (hsize : size < 56) :
    (small + ofNat size).toNat = small.toNat + size ∧ (small + ofNat size - small).toNat = size := by
  rw [UInt8.add_comm small, UInt8.add_sub_cancel, toNat_add, toNat_ofNat']
  omega

/-- A tag that announces the size of the content, which takes between one and eight bytes. -/
theorem large_tag (large : UInt8) (hlarge : large.toNat ≤ 247) (hpos : size ≠ 0) (hsize : size < 2 ^ 64) :
    (large.toNat < (large + ofNat (beBytes size).length).toNat ∧
      (large + ofNat (beBytes size).length).toNat ≤ large.toNat + 8) ∧
    large + ofNat (beBytes size).length - large = ofNat (beBytes size).length := by
  have hnonempty : 0 < (beBytes size).length := length_pos_of_ne_nil (beBytes_ne_nil hpos)
  have hbytes : (beBytes size).length ≤ 8 := length_beBytes_le hsize
  rw [UInt8.add_comm large, UInt8.add_sub_cancel, toNat_add, toNat_ofNat']
  refine ⟨?_, rfl⟩
  omega

section Tags
variable {b : UInt8} (input : Bytes)

theorem readKind_smallString (hlow : 0x80 ≤ b.toNat) (hhigh : b.toNat < 0xB8) :
    readKind (b :: input) = .ok (.string (b - 0x80).toNat, input) := by
  rw [readKind, if_neg (by rw [lt_iff_toNat_lt]; exact hlow.not_gt), if_pos (lt_iff_toNat_lt.mpr hhigh)]

theorem readKind_largeString (hlow : 0xB8 ≤ b.toNat) (hhigh : b.toNat < 0xC0) :
    readKind (b :: input) = (.string <$> readSize (b - 0xB7)) input := by
  rw [readKind, if_neg (by rw [lt_iff_toNat_lt]; exact (by omega : ¬ b.toNat < 128)),
    if_neg (by rw [lt_iff_toNat_lt]; exact hlow.not_gt), if_pos (lt_iff_toNat_lt.mpr hhigh)]

theorem readKind_smallList (hlow : 0xC0 ≤ b.toNat) (hhigh : b.toNat < 0xF8) :
    readKind (b :: input) = .ok (.list (b - 0xC0).toNat, input) := by
  rw [readKind, if_neg (by rw [lt_iff_toNat_lt]; exact (by omega : ¬ b.toNat < 128)),
    if_neg (by rw [lt_iff_toNat_lt]; exact (by omega : ¬ b.toNat < 184)),
    if_neg (by rw [lt_iff_toNat_lt]; exact hlow.not_gt), if_pos (lt_iff_toNat_lt.mpr hhigh)]

theorem readKind_largeList (hlow : 0xF8 ≤ b.toNat) : readKind (b :: input) = (.list <$> readSize (b - 0xF7)) input := by
  rw [readKind, if_neg (by rw [lt_iff_toNat_lt]; exact (by omega : ¬ b.toNat < 128)),
    if_neg (by rw [lt_iff_toNat_lt]; exact (by omega : ¬ b.toNat < 184)),
    if_neg (by rw [lt_iff_toNat_lt]; exact (by omega : ¬ b.toNat < 192)),
    if_neg (by rw [lt_iff_toNat_lt]; exact hlow.not_gt)]

end Tags

theorem map_ok (f : α → β) (h : d input = .ok (a, rest)) : (f <$> d) input = .ok (f a, rest) := by
  show (d input).map (fun r => (f r.1, r.2)) = _
  rw [h]
  rfl

theorem readKind_string (hsize : size < 2 ^ 64) (rest : Bytes) :
    readKind (head 0x80 0xB7 size ++ rest) = .ok (.string size, rest) := by
  unfold head
  split
  case isTrue hsmall =>
    obtain ⟨htag, hvalue⟩ := small_tag 0x80 (by decide) hsmall
    refine (readKind_smallString rest (htag ▸ Nat.le_add_right _ _) (htag ▸ ?_)).trans (by rw [hvalue])
    exact Nat.add_lt_add_left hsmall 128
  case isFalse hlarge =>
    obtain ⟨⟨hlow, hhigh⟩, hvalue⟩ := large_tag 0xB7 (by decide) (show size ≠ 0 by omega) hsize
    refine (readKind_largeString (beBytes size ++ rest) hlow (Nat.lt_succ_of_le hhigh)).trans ?_
    rw [hvalue]
    exact map_ok Kind.string (readSize_beBytes (not_lt.mp hlarge) hsize rest)

theorem readKind_list (hsize : size < 2 ^ 64) (rest : Bytes) :
    readKind (head 0xC0 0xF7 size ++ rest) = .ok (.list size, rest) := by
  unfold head
  split
  case isTrue hsmall =>
    obtain ⟨htag, hvalue⟩ := small_tag 0xC0 (by decide) hsmall
    refine (readKind_smallList rest (htag ▸ Nat.le_add_right _ _) (htag ▸ ?_)).trans (by rw [hvalue])
    exact Nat.add_lt_add_left hsmall 192
  case isFalse hlarge =>
    obtain ⟨⟨hlow, _⟩, hvalue⟩ := large_tag 0xF7 (by decide) (show size ≠ 0 by omega) hsize
    refine (readKind_largeList (beBytes size ++ rest) hlow).trans ?_
    rw [hvalue]
    exact map_ok Kind.list (readSize_beBytes (not_lt.mp hlarge) hsize rest)

theorem head_ne_nil (small large : UInt8) (size : Nat) : head small large size ≠ [] := by
  unfold head
  split <;> simp

theorem kind_of_readKind {k : Kind} (hinput : input ≠ []) (h : readKind input = .ok (k, rest))
    (hsize : k.size ≤ rest.length) : kind input = .ok (k, rest) := by
  unfold kind
  rw [if_neg hinput, h]
  show (if _ then _ else _) = _
  rw [if_neg hsize.not_gt]

theorem kind_byte {b : UInt8} (hb : b ≤ 0x7f) (rest : Bytes) : kind (b :: rest) = .ok (.byte b, rest) := by
  refine kind_of_readKind (cons_ne_nil _ _) ?_ (Nat.zero_le _)
  have hlow : b < 0x80 := lt_iff_toNat_lt.mpr (Nat.lt_succ_of_le (UInt8.le_iff_toNat_le.mp hb))
  rw [readKind, if_pos hlow]

theorem kind_string (hsize : content.length < 2 ^ 64) (rest : Bytes) :
    kind (head 0x80 0xB7 content.length ++ (content ++ rest)) = .ok (.string content.length, content ++ rest) :=
  kind_of_readKind (by simp [head_ne_nil]) (readKind_string hsize _) (by simp [Kind.size])

theorem kind_list (hsize : content.length < 2 ^ 64) (rest : Bytes) :
    kind (head 0xC0 0xF7 content.length ++ (content ++ rest)) = .ok (.list content.length, content ++ rest) :=
  kind_of_readKind (by simp [head_ne_nil]) (readKind_list hsize _) (by simp [Kind.size])

theorem bind_eq (h : d input = .ok (a, rest)) : (d >>= f) input = f a rest := by
  show (d input >>= fun r => f r.1 r.2) = _
  rw [h]
  rfl

theorem bind_error {e : DecodeErr} (h : d input = .error e) : (d >>= f) input = .error e := by
  show (d input >>= fun r => f r.1 r.2) = _
  rw [h]
  rfl

/-- The decoder returns `a` from the bytes of the item, whatever follows them. Sizes are `uint64`. -/
def Reads {α : Type} (d : Decoder α) (item : Item) (a : α) : Prop :=
  (encode item).length < 2 ^ 64 → ∀ rest, d (encode item ++ rest) = .ok (a, rest)

/-- A string is its own encoding, or has a header. -/
theorem encodeString_cases (b : Bytes) : (∃ x, b = [x] ∧ x ≤ 0x7f ∧ encodeString b = [x]) ∨
      (¬ (b.length = 1 ∧ b.all (· < 128)) ∧ encodeString b = head 0x80 0xB7 b.length ++ b) := by
  match b with
  | [] => exact .inr ⟨by simp, rfl⟩
  | [x] =>
    by_cases hx : x ≤ 0x7f
    · exact .inl ⟨x, rfl, hx, by rw [encodeString, if_pos hx]⟩
    · refine .inr ⟨fun h => hx ?_, by rw [encodeString, if_neg hx]; rfl⟩
      have hlow : x < 128 := by simpa using h.2
      exact UInt8.le_iff_toNat_le.mpr (Nat.le_of_lt_succ hlow)
  | _ :: _ :: _ => exact .inr ⟨by simp, rfl⟩

theorem reads_bytes (b : Bytes) : Reads decodeBytes (.str b) b := by
  intro hsize rest
  rw [encode] at hsize ⊢
  rcases encodeString_cases b with ⟨x, rfl, hx, henc⟩ | ⟨hcanon, henc⟩
  · rw [henc]
    exact bind_eq (kind_byte hx rest)
  · rw [henc, length_append] at hsize
    rw [henc, append_assoc]
    refine (bind_eq (kind_string (by omega) rest)).trans ?_
    show (if b.length = 1 ∧ ((b ++ rest).take b.length).all (· < 128) then throw DecodeErr.canonSize
      else pure ((b ++ rest).take b.length) : Decoder Bytes) ((b ++ rest).drop b.length) = _
    rw [take_left, drop_left, if_neg hcanon]
    rfl

theorem reads_uint {bits n : Nat} (hn : n < 256 ^ (bits / 8)) : Reads (decodeUint bits) (.str (beBytes n)) n := by
  intro hsize rest
  rw [encode] at hsize ⊢
  rcases encodeString_cases (beBytes n) with ⟨x, hb, hx, henc⟩ | ⟨hcanon, henc⟩
  · rw [henc]
    have hx0 : x ≠ 0 := by
      have := beBytes_head?_ne n
      rw [hb] at this
      exact fun h => this (congrArg some h)
    have hvalue : x.toNat = n := by
      have := ofBeBytes_beBytes n
      rw [hb] at this
      simpa [ofBeBytes] using this
    refine (bind_eq (kind_byte hx rest)).trans ?_
    show (if x = 0 then throw DecodeErr.canonInt else pure x.toNat : Decoder Nat) rest = _
    rw [if_neg hx0, hvalue]
    rfl
  · rw [henc, length_append] at hsize
    rw [henc, append_assoc]
    have hlarge : ¬ (0 < (beBytes n).length ∧ n < 128) := by
      rintro ⟨hpos, hlow⟩
      have hlength : (beBytes n).length = 1 := by
        have := length_beBytes_le (n := n) (k := 1) (by omega)
        omega
      refine hcanon ⟨hlength, ?_⟩
      obtain ⟨x, hx⟩ := length_eq_one_iff.mp hlength
      have hvalue := ofBeBytes_beBytes n
      rw [hx] at hvalue ⊢
      have hx : x.toNat = n := by simpa [ofBeBytes] using hvalue
      have hlt : x < 128 := lt_iff_toNat_lt.mpr (by rw [hx]; exact hlow)
      simpa using hlt
    refine (bind_eq (kind_string (by omega) rest)).trans ?_
    show (if bits / 8 < (beBytes n).length then _ else _ : Decoder Nat) _ = _
    rw [if_neg (length_beBytes_le hn).not_gt]
    have hread : canonInt (readUint (beBytes n).length) (beBytes n ++ rest) = .ok (n, rest) := by
      unfold canonInt
      rw [readUint_beBytes]
    refine (bind_eq hread).trans ?_
    rw [if_neg hlarge]
    rfl

theorem reads_bool (b : Bool) : Reads decodeBool (.str (if b then [1] else [])) b := by
  intro hsize rest
  cases b with
  | false => exact bind_eq (reads_uint (show 0 < 256 ^ (8 / 8) by decide) hsize rest)
  | true => exact bind_eq (reads_uint (show 1 < 256 ^ (8 / 8) by decide) hsize rest)

/-! ### Lists -/

section Lists
variable {α β γ : Type} {d : Decoder α} {f : α → Decoder β} {a : α} {b : β} {xs ys : List Item} {x : Item}

theorem encodeAll_append (xs ys : List Item) : encodeAll (xs ++ ys) = encodeAll xs ++ encodeAll ys := by
  induction xs with
  | nil => rfl
  | cons x xs ih => rw [cons_append, encodeAll, encodeAll, ih, append_assoc]

theorem encode_ne_nil (x : Item) : encode x ≠ [] := by
  cases x with
  | str b =>
    rw [encode]
    rcases encodeString_cases b with ⟨y, _, _, henc⟩ | ⟨_, henc⟩
    · rw [henc]
      exact cons_ne_nil _ _
    · rw [henc]
      simp [head_ne_nil]
  | list l =>
    rw [encode]
    simp [head_ne_nil]

/-- The decoder returns `a` from the bytes of several items in a row. -/
def ReadsAll (d : Decoder α) (xs : List Item) (a : α) : Prop :=
  (encodeAll xs).length < 2 ^ 64 → ∀ rest, d (encodeAll xs ++ rest) = .ok (a, rest)

/-- The decoder does not get through the bytes of several items. -/
def FailsAll (d : Decoder α) (xs : List Item) : Prop :=
  (encodeAll xs).length < 2 ^ 64 → ∀ rest, ∃ e, e ≠ .eol ∧ d (encodeAll xs ++ rest) = .error e

def Fails (d : Decoder α) (x : Item) : Prop :=
  (encode x).length < 2 ^ 64 → ∀ rest, ∃ e, e ≠ .eol ∧ d (encode x ++ rest) = .error e

theorem readsAll_pure : ReadsAll (pure a) [] a := fun _ _ => rfl

theorem ReadsAll.bind (hd : ReadsAll d xs a) (hf : ReadsAll (f a) ys b) : ReadsAll (d >>= f) (xs ++ ys) b := by
  intro hsize rest
  rw [encodeAll_append] at hsize ⊢
  rw [length_append] at hsize
  rw [append_assoc]
  exact (bind_eq (hd (by omega) _)).trans (hf (by omega) rest)

theorem FailsAll.bind (hd : FailsAll d xs) : FailsAll (d >>= f) (xs ++ ys) := by
  intro hsize rest
  rw [encodeAll_append] at hsize ⊢
  rw [length_append] at hsize
  rw [append_assoc]
  obtain ⟨e, he, herr⟩ := hd (by omega) (encodeAll ys ++ rest)
  exact ⟨e, he, bind_error herr⟩

theorem ReadsAll.bind_fails (hd : ReadsAll d xs a) (hf : FailsAll (f a) ys) : FailsAll (d >>= f) (xs ++ ys) := by
  intro hsize rest
  rw [encodeAll_append] at hsize ⊢
  rw [length_append] at hsize
  rw [append_assoc]
  obtain ⟨e, he, herr⟩ := hf (by omega) rest
  exact ⟨e, he, (bind_eq (hd (by omega) _)).trans herr⟩

theorem Reads.field (hd : Reads d x a) : ReadsAll (field d) [x] a := by
  intro hsize rest
  rw [encodeAll, encodeAll, append_nil] at hsize ⊢
  unfold Rlp.field
  rw [hd hsize rest]

theorem Reads.last {g : α → β} (hd : Reads d x a) : ReadsAll (Rlp.field d >>= fun a => pure (g a)) [x] (g a) :=
  hd.field.bind readsAll_pure

theorem Fails.field (hd : Fails d x) : FailsAll (field d) [x] := by
  intro hsize rest
  rw [encodeAll, encodeAll, append_nil] at hsize ⊢
  obtain ⟨e, he, herr⟩ := hd hsize rest
  refine ⟨e, he, ?_⟩
  unfold Rlp.field
  rw [herr]
  cases e <;> first | rfl | exact absurd rfl he

theorem length_encodeAll_lt (hsize : (encode (.list xs)).length < 2 ^ 64) : (encodeAll xs).length < 2 ^ 64 := by
  rw [encode, length_append] at hsize
  omega

theorem inList_eq (hsize : (encode (.list xs)).length < 2 ^ 64) (rest : Bytes) :
    inList d (encode (.list xs) ++ rest) = (do
      match d (encodeAll xs) with
      | .error e => throw e
      | .ok (a, left) => if left = [] then return a else throw DecodeErr.notAtEOL : Decoder α) rest := by
  rw [encode, append_assoc]
  refine (bind_eq (kind_list (length_encodeAll_lt hsize) rest)).trans ?_
  refine (bind_eq (show readFull _ _ = _ from rfl)).trans ?_
  rw [take_left, drop_left]

theorem ReadsAll.inList (hd : ReadsAll d xs a) : Reads (inList d) (.list xs) a := by
  intro hsize rest
  have hcontent := hd (length_encodeAll_lt hsize) []
  rw [append_nil] at hcontent
  rw [inList_eq hsize, hcontent]
  rfl

theorem inList_error {e : DecodeErr} (hsize : (encode (.list xs)).length < 2 ^ 64) (hd : d (encodeAll xs) = .error e)
    (rest : Bytes) : inList d (encode (.list xs) ++ rest) = .error e := by
  rw [inList_eq hsize, hd]
  rfl

theorem FailsAll.inList (hd : FailsAll d xs) : Fails (inList d) (.list xs) := by
  intro hsize rest
  obtain ⟨e, he, herr⟩ := hd (length_encodeAll_lt hsize) []
  rw [append_nil] at herr
  exact ⟨e, he, inList_error hsize herr rest⟩

/-- A struct with a field is not read from a nil pointer. -/
theorem fails_nil (hd : d [] = .error .eol) : Fails (inList (field d >>= f)) (.list []) := by
  intro hsize rest
  have hfield : field d [] = .error .tooFewElements := by
    unfold Rlp.field
    rw [hd]
  exact ⟨.tooFewElements, by decide, inList_error hsize (bind_error hfield) rest⟩

/-! ### Slices -/

variable {l : List γ} {item : γ → Item} {value : γ → α}

theorem decodeSliceElems_reads {fuel : Nat} (hend : d [] = .error .eol) (hl : ∀ y ∈ l, Reads d (item y) (value y))
    (hsize : (encodeAll (l.map item)).length < 2 ^ 64) (hfuel : l.length < fuel) :
    decodeSliceElems d fuel (encodeAll (l.map item)) = .ok (l.map value, []) := by
  induction l generalizing fuel with
  | nil =>
    obtain ⟨fuel, rfl⟩ := Nat.exists_eq_succ_of_ne_zero (Nat.ne_of_gt hfuel)
    rw [decodeSliceElems, map_nil, encodeAll, hend]
    rfl
  | cons y l ih =>
    obtain ⟨fuel, rfl⟩ := Nat.exists_eq_succ_of_ne_zero (Nat.ne_of_gt (Nat.zero_lt_of_lt hfuel))
    rw [map_cons, encodeAll, length_append] at hsize
    have hrest := ih (fun z hz => hl z (mem_cons_of_mem y hz)) (by omega) (Nat.lt_of_succ_lt_succ hfuel)
    rw [decodeSliceElems, map_cons, encodeAll, hl y mem_cons_self (by omega)]
    dsimp only
    rw [hrest]
    rfl

theorem length_le_length_encodeAll (xs : List Item) : xs.length ≤ (encodeAll xs).length := by
  induction xs with
  | nil => exact le_rfl
  | cons x xs ih =>
    have hpos := length_pos_of_ne_nil (encode_ne_nil x)
    rw [encodeAll, length_append, length_cons]
    omega

theorem reads_slice (hend : d [] = .error .eol) (hl : ∀ y ∈ l, Reads d (item y) (value y)) :
    Reads (decodeListSlice d) (.list (l.map item)) (l.map value) := by
  intro hsize rest
  have hcount := length_le_length_encodeAll (l.map item)
  rw [length_map] at hcount
  have helems := decodeSliceElems_reads hend hl (length_encodeAll_lt hsize) (Nat.lt_succ_of_le hcount)
  unfold decodeListSlice
  rw [inList_eq hsize, helems]
  rfl

/-- One element that fails fails the slice. -/
theorem decodeSliceElems_fails (fuel : Nat) (hl : ∀ y ∈ l, Reads d (item y) (value y) ∨ Fails d (item y))
    (hfail : ∃ y ∈ l, Fails d (item y)) (hsize : (encodeAll (l.map item)).length < 2 ^ 64) :
    ∃ e, e ≠ .eol ∧ decodeSliceElems d fuel (encodeAll (l.map item)) = .error e := by
  induction l generalizing fuel with
  | nil => exact (nomatch hfail)
  | cons y l ih =>
    cases fuel with
    | zero => exact ⟨.tooLarge, by decide, rfl⟩
    | succ fuel =>
      rw [map_cons, encodeAll, length_append] at hsize
      rw [decodeSliceElems, map_cons, encodeAll]
      by_cases hbad : Fails d (item y)
      · obtain ⟨e, he, herr⟩ := hbad (by omega) (encodeAll (l.map item))
        rw [herr]
        refine ⟨e, he, ?_⟩
        cases e <;> first | rfl | exact absurd rfl he
      · have hrest : ∃ z ∈ l, Fails d (item z) := by
          obtain ⟨z, hz, hzbad⟩ := hfail
          rcases mem_cons.mp hz with rfl | hz
          · exact absurd hzbad hbad
          · exact ⟨z, hz, hzbad⟩
        obtain ⟨e, he, herr⟩ := ih fuel (fun z hz => hl z (mem_cons_of_mem y hz)) hrest (by omega)
        have hread := (hl y mem_cons_self).resolve_right hbad
        rw [hread (by omega)]
        dsimp only
        rw [herr]
        exact ⟨e, he, rfl⟩

theorem fails_slice (hl : ∀ y ∈ l, Reads d (item y) (value y) ∨ Fails d (item y))
    (hfail : ∃ y ∈ l, Fails d (item y)) : Fails (decodeListSlice d) (.list (l.map item)) := by
  intro hsize rest
  obtain ⟨e, he, herr⟩ := decodeSliceElems_fails ((encodeAll (l.map item)).length + 1) hl hfail
    (length_encodeAll_lt hsize)
  exact ⟨e, he, inList_error (d := fun content => decodeSliceElems d (content.length + 1) content) hsize herr rest⟩

end Lists

theorem decode_of_reads (h : Reads d x a) (hsize : (encode x).length < 2 ^ 64) : decode d (encode x) = .ok a := by
  have hread := h hsize []
  rw [append_nil] at hread
  unfold decode
  rw [hread]
  rfl

theorem decode_of_fails (h : Fails d x) (hsize : (encode x).length < 2 ^ 64) : ∃ e, decode d (encode x) = .error e := by
  obtain ⟨e, _, hread⟩ := h hsize []
  rw [append_nil] at hread
  refine ⟨e, ?_⟩
  unfold decode
  rw [hread]
  rfl

end Okchain.Rlp
