/-
Canonical objects and their digests. An object is hashed as the SHA-256 of a one-byte tag and a
payload; containers hash the digests of their members, and unordered containers sort them first,
so the digest depends on neither the order of members nor the way the object was built.
-/
import ApiShape.Digest.Sha256
import ApiShape.Numeric.Normalized

namespace ApiShape

/-- What can be hashed: scalars, sequences, sets, dictionaries, and records with numbered fields. -/
inductive Canon where
  | bool (b : Bool)
  | int (i : Int)
  | float (x : Binary64)
  | text (s : String)
  | raw (bytes : Bytes)
  | list (items : List Canon)
  | set (items : List Canon)
  | dict (rows : List (Canon × Canon))
  | message (fields : List (Nat × Canon))

namespace Canon

/-! ## Tags -/

/-- The letter `b`. -/
def boolTag : UInt8 := 98
/-- The letter `i`. -/
def intTag : UInt8 := 105
/-- The letter `f`. -/
def floatTag : UInt8 := 102
/-- The letter `u`. -/
def textTag : UInt8 := 117
/-- The letter `r`. -/
def rawTag : UInt8 := 114
/-- The letter `l`. -/
def listTag : UInt8 := 108
/-- The letter `d`, which messages share with dictionaries. -/
def dictTag : UInt8 := 100
/-- The letter `s`. -/
def setTag : UInt8 := 115

/-! ## Preimages -/

/-- Integers hash as their decimal text. -/
def intPreimage (i : Int) : Bytes := intTag :: Bytes.ofText (toString i)

/-- Chunks of one length, in increasing order, end to end. -/
def sortedConcat (chunks : List Bytes) : Bytes := (chunks.mergeSort Bytes.le).flatten

/-- A member count in eight bytes. -/
def count (chunks : List Bytes) : Bytes := Bytes.bigEndian 8 chunks.length

mutual

/-- The byte string that is hashed for an object. -/
def preimage : Canon → Bytes
  | .bool b => [boolTag, if b then 49 else 48]
  | .int i => intPreimage i
  | .float x => floatTag :: Bytes.ofText x.normalized
  | .text s => textTag :: Bytes.ofText s
  | .raw bytes => rawTag :: bytes
  | .list items => listTag :: (itemDigests items).flatten
  | .set items => setTag :: count (itemDigests items) ++ sortedConcat (itemDigests items)
  | .dict rows => dictTag :: count (rowDigests rows) ++ sortedConcat (rowDigests rows)
  | .message fields => dictTag :: sortedConcat (fieldDigests fields)

/-- The digest of each item. -/
def itemDigests : List Canon → List Bytes
  | [] => []
  | c :: rest => (Sha256.digest (preimage c)).bytes :: itemDigests rest

/-- The digest of each key followed by that of its value. -/
def rowDigests : List (Canon × Canon) → List Bytes
  | [] => []
  | (k, v) :: rest =>
    ((Sha256.digest (preimage k)).bytes ++ (Sha256.digest (preimage v)).bytes) :: rowDigests rest

/-- The digest of each field number followed by that of its value. -/
def fieldDigests : List (Nat × Canon) → List Bytes
  | [] => []
  | (n, v) :: rest =>
    ((Sha256.digest (intPreimage n)).bytes ++ (Sha256.digest (preimage v)).bytes)
      :: fieldDigests rest

end

/-- The digest of an object is that of its preimage. -/
def digest (c : Canon) : Digest := Sha256.digest c.preimage

/-! ## Fields of a message -/

/-- The scalars that a message leaves out: false, zero, and the empty text or byte string. -/
def isDefault : Canon → Bool
  | .bool b => !b
  | .int i => i == 0
  | .float x => x.isZero
  | .text s => s.isEmpty
  | .raw bytes => bytes.isEmpty
  | _ => false

/-- A field that is left out when it holds a default. -/
def optionalField (n : Nat) (c : Canon) : List (Nat × Canon) := if c.isDefault then [] else [(n, c)]

end Canon

end ApiShape
