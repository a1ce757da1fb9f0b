/-
Accumulating the top-level fields of a message. Entries are matched by their metadata alone, so
that one header or cookie seen with different shapes is one entry; new cookie names beyond the cap
are discarded and counted.
-/
import ApiShape.Absorb.Basic

namespace ApiShape

/-! ## Entries in metadata order -/

/-- The metadata of an entry, if it says where in a message the entry was observed. -/
def Schema.placed? (s : Schema) : Option Metadata :=
  match s.metadata with
  | some m => if m.http.isSome then some m else none
  | none => none

/-- The nodes with their metadata, in key order, or the first one that has no position. -/
def Catalogue.placed : Catalogue → Except Fault (List (Metadata × Schema))
  | [] => .ok []
  | (key, s) :: rest =>
    match s.placed? with
    | some m => (Catalogue.placed rest).map ((m, s) :: ·)
    | none => .error (.missingMetadata key)

/-- The nodes with their metadata, by metadata and then by key. -/
def Catalogue.byMetadata (c : Catalogue) : Except Fault (List (Metadata × Schema)) :=
  (Catalogue.placed c).map (fun entries => entries.mergeSort (fun a b => a.1.le b.1))

/-! ## Accumulation -/

/-- What has been accumulated of the entries so far. -/
structure Accumulator where
  /-- Entries under the address of their metadata. -/
  entries : Table Schema := []
  /-- The cookie names seen, latest first. -/
  cookies : List String := []
  discarded : Nat := 0

namespace Accumulator

/-- Whether the entry is a cookie with a new name while the cap is reached. -/
def isFull (limits : Limits) (a : Accumulator) (m : Metadata) : Bool :=
  match m.cookie? with
  | some name => !a.cookies.contains name && limits.maxCookies ≤ a.cookies.length
  | none => false

/-- Remembers the name of a cookie that was let in. -/
def noteCookie (a : Accumulator) (m : Metadata) : Accumulator :=
  match m.cookie? with
  | some name => if a.cookies.contains name then a else { a with cookies := name :: a.cookies }
  | none => a

/-- Absorbs an entry into the one with the same metadata, adds it, or discards it. -/
def add (limits : Limits) (a : Accumulator) (entry : Metadata × Schema) :
    Except Fault Accumulator :=
  let (m, s) := entry
  match Table.find? a.entries m.address with
  | some stored =>
    match absorb limits stored s with
    | .ok merged => .ok { a with entries := Table.insert a.entries m.address merged }
    | .error f => .error (.inField m.label f)
  | none =>
    if a.isFull limits m then .ok { a with discarded := a.discarded + 1 }
    else
      let a := a.noteCookie m
      .ok { a with entries := Table.insert a.entries m.address s }

end Accumulator

/--
The entries of both catalogues, one for each metadata, and the number of cookies discarded.
Entries are taken in the order of their metadata, those of the first catalogue first.
-/
def Catalogue.accumulate (limits : Limits) (dst src : Catalogue) :
    Except Fault (Catalogue × Nat) := do
  let dst ← Catalogue.byMetadata dst
  let src ← Catalogue.byMetadata src
  let acc ← (dst ++ src).foldlM (Accumulator.add limits) {}
  return (Catalogue.ofList (Table.values acc.entries), acc.discarded)

end ApiShape
