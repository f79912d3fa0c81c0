import Okchain.Lib.Rlp

/-! The reflective encoder of `common/rlp`.

`rlp.Encode` first looks up a writer for the type of its argument, which fails for types RLP has no encoding for, signed
integers among them, and only then visits the value. A type error anywhere inside a struct is an error of the whole
struct, whatever the values of its fields are.
-/
namespace Okchain.Rlp
open Lib Lib.Rlp

/-- Go types, as far as the encoder tells them apart. -/
inductive GoType
  | uint
  | int
  | bool
  | string
  | bytes
  | bigInt
  | interface
  | slice (elem : GoType)
  | ptr (elem : GoType)
  | struct (fields : List GoType)

/-- Go values. A value is read at a type; `nil` serves every type that has it. -/
inductive GoValue
  | uint (n : Nat)
  | int (i : Int)
  | bool (b : Bool)
  | string (s : Bytes)
  | bytes (b : Bytes)
  | bigInt (i : Int)
  | interface (t : GoType) (v : GoValue)
  | slice (vs : List GoValue)
  | ptr (v : GoValue)
  | struct (vs : List GoValue)
  | nil

inductive RlpErr
  | notSerializable
  | negativeBigInt
  | illTyped
  deriving DecidableEq, Repr

mutual
/-- `cachedTypeInfo`: whether a writer can be made for a type. -/
def typeInfo : GoType → Except RlpErr Unit
  | .int => .error .notSerializable
  | .slice t => typeInfo t
  | .ptr t => typeInfo t
  | .struct ts => structFields ts
  | .uint | .bool | .string | .bytes | .bigInt | .interface => .ok ()

/-- `structFields`: the first field without a writer fails the struct. -/
def structFields : List GoType → Except RlpErr Unit
  | [] => .ok ()
  | t :: ts =>
    match typeInfo t with
    | .ok _ => structFields ts
    | .error e => .error e
end

/-- What `nil` encodes as: the empty list for lists, structs and interfaces, the zero value's
encoding otherwise. -/
def nilItem : GoType → Item
  | .uint | .int | .bool | .string | .bytes | .bigInt => .str []
  | .interface | .slice _ | .struct _ => .list []
  | .ptr t => nilItem t

mutual
def write : GoType → GoValue → Except RlpErr Item
  | .uint, .uint n => .ok (.str (beBytes n))
  | .bool, .bool b => .ok (.str (if b then [1] else []))
  | .string, .string s => .ok (.str s)
  | .bytes, .bytes b => .ok (.str b)
  | .bigInt, .bigInt i => if i < 0 then .error .negativeBigInt else .ok (.str (beBytes i.toNat))
  | .interface, .interface t v =>
    -- the dynamic type is looked up when the value is met
    match typeInfo t with
    | .ok _ => write t v
    | .error e => .error e
  | .slice t, .slice vs =>
    match writeElems t vs with
    | .ok items => .ok (.list items)
    | .error e => .error e
  | .struct ts, .struct vs =>
    match writeFields ts vs with
    | .ok items => .ok (.list items)
    | .error e => .error e
  | .ptr t, .ptr v => write t v
  | t, .nil => .ok (nilItem t)
  | _, _ => .error .illTyped

def writeElems : GoType → List GoValue → Except RlpErr (List Item)
  | _, [] => .ok []
  | t, v :: vs =>
    match write t v, writeElems t vs with
    | .ok x, .ok xs => .ok (x :: xs)
    | .error e, _ => .error e
    | .ok _, .error e => .error e

def writeFields : List GoType → List GoValue → Except RlpErr (List Item)
  | [], [] => .ok []
  | t :: ts, v :: vs =>
    match write t v, writeFields ts vs with
    | .ok x, .ok xs => .ok (x :: xs)
    | .error e, _ => .error e
    | .ok _, .error e => .error e
  | _, _ => .error .illTyped
end

/-- `rlp.Encode`: nothing is written unless the whole value can be. -/
def encodeItem (t : GoType) (v : GoValue) : Except RlpErr Item :=
  match typeInfo t with
  | .ok _ => write t v
  | .error e => .error e

/-- What a hash function that ignores the error of `rlp.Encode` has been fed. -/
def hashedBytes (t : GoType) (v : GoValue) : Bytes :=
  match encodeItem t v with
  | .ok item => encode item
  | .error _ => []

/-! ### Lists of interface values

Block hashes are taken over `[]interface{}` literals. Each element carries its own type. -/

/-- An interface value together with the item it encodes as. -/
structure Encoded where
  value : GoValue
  item : Item
  encodes : write .interface value = .ok item

def ofUint (n : Nat) : Encoded := ⟨.interface .uint (.uint n), .str (beBytes n), rfl⟩
def ofBytes (b : Bytes) : Encoded := ⟨.interface .bytes (.bytes b), .str b, rfl⟩
def ofString (s : Bytes) : Encoded := ⟨.interface .string (.string s), .str s, rfl⟩

theorem writeElems_bytes (l : List Bytes) : writeElems .bytes (l.map .bytes) = .ok (l.map .str) := by
  induction l with
  | nil => rfl
  | cons b l ih => simp [writeElems, write, ih]

/-- A `[][]byte`. -/
def ofByteSlices (l : List Bytes) : Encoded where
  value := .interface (.slice .bytes) (.slice (l.map .bytes))
  item := .list (l.map .str)
  encodes := by simp [write, typeInfo, writeElems_bytes]

theorem writeElems_encoded (l : List Encoded) :
    writeElems .interface (l.map Encoded.value) = .ok (l.map Encoded.item) := by
  induction l with
  | nil => rfl
  | cons x l ih => simp [writeElems, x.encodes, ih]

/-- A list of interface values always encodes, as the list of its elements' items. -/
theorem hashedBytes_encoded (l : List Encoded) : hashedBytes (.slice .interface) (.slice (l.map Encoded.value)) =
      encode (.list (l.map Encoded.item)) := by
  simp [hashedBytes, encodeItem, typeInfo, write, writeElems_encoded]

end Okchain.Rlp
