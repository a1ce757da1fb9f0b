/-
Where in an HTTP exchange a value was observed. Metadata identifies the fields of an endpoint, so
that one header or cookie is recognised across witnesses whatever its values look like.
-/
import ApiShape.Digest.Canon

namespace ApiShape

/-- A place in an HTTP message. -/
inductive Location where
  | path (key : String)
  | query (key : String)
  | header (key : String)
  | cookie (key : String)
  | body (contentType : String)
  | auth (scheme : String)
  /-- A message without a body. -/
  | empty
deriving DecidableEq

/-- A place in a request, or in the responses of one status code. -/
structure Position where
  location : Location
  /-- Zero in a request. -/
  responseCode : Int32 := 0
deriving DecidableEq

/-- Where a node was observed. The top-level entries of a message have a position. -/
structure Metadata where
  http : Option Position := none
deriving DecidableEq

namespace Location

/-- The number of the kind of place, in the order in which fields are accumulated. -/
def rank : Location → Nat
  | .path _ => 1
  | .query _ => 2
  | .header _ => 3
  | .cookie _ => 4
  | .body _ => 5
  | .auth _ => 6
  | .empty => 7

/-- What tells places of one kind apart. -/
def key : Location → String
  | .path key | .query key | .header key | .cookie key => key
  | .body contentType => contentType
  | .auth scheme => scheme
  | .empty => ""

/-- A place in words, for the path of a fault. -/
def label : Location → String
  | .path key => "path " ++ key
  | .query key => "query " ++ key
  | .header key => "header " ++ key
  | .cookie key => "cookie " ++ key
  | .body contentType => "body " ++ contentType
  | .auth scheme => "auth " ++ scheme
  | .empty => "empty body"

/-- Each kind of place is a message with one text, which is left out when empty. -/
def canon (l : Location) : Canon := .message (Canon.optionalField 1 (.text l.key))

end Location

namespace Position

/-- The status code stands before the place, unless it is that of a request. -/
def label (p : Position) : String :=
  if p.responseCode = 0 then p.location.label
  else toString p.responseCode.toInt ++ " " ++ p.location.label

/-- By kind of place, then by key, then by status code. -/
def le (p q : Position) : Bool :=
  p.location.rank < q.location.rank ||
    (p.location.rank == q.location.rank &&
      (p.location.key < q.location.key ||
        (p.location.key == q.location.key && p.responseCode.toInt ≤ q.responseCode.toInt)))

/-- The number of the field tells the kind of place. -/
def canon (p : Position) : Canon :=
  .message
    ((p.location.rank, p.location.canon) :: Canon.optionalField 8 (.int p.responseCode.toInt))

end Position

namespace Metadata

/-- The position in words, for the path of a fault. -/
def label (m : Metadata) : String :=
  match m.http with
  | some p => p.label
  | none => "<no http meta>"

/-- The name of a cookie, in a request or in a response. -/
def cookie? (m : Metadata) : Option String :=
  match m.http with
  | some ⟨.cookie key, _⟩ => some key
  | _ => none

/-- Metadata without a position first, then by position. -/
def le (m n : Metadata) : Bool :=
  match m.http, n.http with
  | none, _ => true
  | some _, none => false
  | some p, some q => p.le q

/-- Metadata without a position is the empty message. -/
def canon (m : Metadata) : Canon :=
  .message
    (match m.http with
    | some p => [(1, p.canon)]
    | none => [])

/-- The hexadecimal digest of the metadata, which is its identity. -/
def address (m : Metadata) : String := m.canon.digest.hex

end Metadata

end ApiShape
