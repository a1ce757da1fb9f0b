/-
Reading JSON text. Each reader takes the characters that are left and gives what it read with the
characters after it. Values nest at most `nestingLimit` deep where they are to be understood.
-/
import ApiShape.Json.Basic

namespace ApiShape

namespace JsonReader

/-- The characters that are left to read. -/
abbrev Chars := List Char

/-- How deep arrays and objects that are understood may nest. -/
def nestingLimit : Nat := 127

/-- The four characters that may stand between tokens. -/
def isBlank (c : Char) : Bool := c = ' ' || c = '\n' || c = '\t' || c = '\r'

/-- The characters from the next token on. -/
def skipBlanks (cs : Chars) : Chars := cs.dropWhile isBlank

/-! ## Texts -/

/-- A part of a text: a character, or a 16-bit unit written as an escape. -/
inductive TextUnit where
  | char (c : Char)
  | escape (n : Nat)

/-- The value of a hexadecimal digit of either case. -/
def hexDigit? (c : Char) : Option Nat :=
  if '0' ≤ c && c ≤ '9' then some (c.toNat - 48)
  else if 'a' ≤ c && c ≤ 'f' then some (c.toNat - 87)
  else if 'A' ≤ c && c ≤ 'F' then some (c.toNat - 55)
  else none

/-- A 16-bit unit written as four hexadecimal digits. -/
def hexUnit? (a b c d : Char) : Option Nat := do
  let a ← hexDigit? a
  let b ← hexDigit? b
  let c ← hexDigit? c
  let d ← hexDigit? d
  return ((a * 16 + b) * 16 + c) * 16 + d

/-- The character of an escape of one letter. -/
def shortEscape? : Char → Option Char
  | '"' => some '"'
  | '\\' => some '\\'
  | '/' => some '/'
  | 'b' => some '\x08'
  | 'f' => some '\x0c'
  | 'n' => some '\n'
  | 'r' => some '\r'
  | 't' => some '\t'
  | _ => none

/-- The parts of a text after its opening quote. -/
def textUnits : Chars → Option (List TextUnit × Chars)
  | [] => none
  | '"' :: rest => some ([], rest)
  | '\\' :: 'u' :: a :: b :: c :: d :: rest => do
    let n ← hexUnit? a b c d
    let (units, rest) ← textUnits rest
    return (.escape n :: units, rest)
  | '\\' :: e :: rest => do
    let c ← shortEscape? e
    let (units, rest) ← textUnits rest
    return (.char c :: units, rest)
  | c :: rest =>
    if c < ' ' then none
    else do
      let (units, rest) ← textUnits rest
      return (.char c :: units, rest)

/-- The first half of a surrogate pair. -/
def isLeading (n : Nat) : Bool := 0xD800 ≤ n && n < 0xDC00

/-- The second half of a surrogate pair. -/
def isTrailing (n : Nat) : Bool := 0xDC00 ≤ n && n < 0xE000

/-- The characters of a text, unless half of a surrogate pair stands alone. -/
def characters? : List TextUnit → Option Chars
  | [] => some []
  | .char c :: rest => (characters? rest).map (c :: ·)
  | .escape n :: .escape m :: rest =>
    if isLeading n then
      if isTrailing m then
        (characters? rest).map (Char.ofNat (0x10000 + (n - 0xD800) * 0x400 + (m - 0xDC00)) :: ·)
      else none
    else if isTrailing n then none
    else (characters? (.escape m :: rest)).map (Char.ofNat n :: ·)
  | .escape n :: rest =>
    if isLeading n || isTrailing n then none else (characters? rest).map (Char.ofNat n :: ·)

/-- A text after its opening quote; its characters are missing when it has none. -/
def text (cs : Chars) : Option (Option String × Chars) := do
  let (units, rest) ← textUnits cs
  return ((characters? units).map String.ofList, rest)

/-! ## Numbers -/

/-- The number that decimal digits stand for. -/
def digitsValue (cs : Chars) : Nat := cs.foldl (fun n c => 10 * n + (c.toNat - 48)) 0

/-- The decimal digits in front, and what comes after them. -/
def digits (cs : Chars) : Chars × Chars := (cs.takeWhile Char.isDigit, cs.dropWhile Char.isDigit)

/-- The digits before the point: at least one, and no zero in front of others. -/
def wholeDigits (cs : Chars) : Option (Chars × Chars) :=
  match digits cs with
  | ([], _) => none
  | ('0' :: _ :: _, _) => none
  | (ds, rest) => some (ds, rest)

/-- The digits after the point, if there is one. -/
def fractionDigits? : Chars → Option (Option Chars × Chars)
  | '.' :: cs =>
    match digits cs with
    | ([], _) => none
    | (ds, rest) => some (some ds, rest)
  | cs => some (none, cs)

/-- The digits of an exponent, at least one, with the sign read before them. -/
def exponentDigits (sign : Int) (cs : Chars) : Option (Option Int × Chars) :=
  match digits cs with
  | ([], _) => none
  | (ds, rest) => some (some (sign * digitsValue ds), rest)

/-- The exponent, if there is one. -/
def exponent? : Chars → Option (Option Int × Chars)
  | c :: cs =>
    if c = 'e' || c = 'E' then
      match cs with
      | '+' :: rest => exponentDigits 1 rest
      | '-' :: rest => exponentDigits (-1) rest
      | _ => exponentDigits 1 cs
    else some (none, c :: cs)
  | [] => some (none, [])

/-- A number after its sign. A zero with a minus sign is not an integer. -/
def numeral (negative : Bool) (cs : Chars) : Option (Numeral × Chars) := do
  let (whole, cs) ← wholeDigits cs
  let (fraction, cs) ← fractionDigits? cs
  let (exponent, cs) ← exponent? cs
  match fraction, exponent with
  | none, none =>
    let n := digitsValue whole
    if negative then
      if n = 0 then return (.decimal ⟨true, 0, 0, 0⟩, cs) else return (.integer (-n), cs)
    else return (.integer n, cs)
  | _, _ =>
    let fraction := fraction.getD []
    return (.decimal ⟨negative, digitsValue (whole ++ fraction), fraction.length, exponent.getD 0⟩,
      cs)

/-! ## Values -/

/-- The rest of the characters after an expected word. -/
def expect : Chars → Chars → Option Chars
  | [], cs => some cs
  | w :: ws, c :: cs => if w = c then expect ws cs else none
  | _ :: _, [] => none

/-- The object of rows that all have keys, if it is nested in the limits. -/
def objectOf (room : Nat) (rows : List (Option String × JsonValue)) : JsonValue :=
  match room, rows.mapM (fun row => row.1.map (·, row.2)) with
  | _ + 1, some rows => .object rows
  | _, _ => .unreadable

/-- An array, if it is nested in the limits. -/
def arrayOf (room : Nat) (items : List JsonValue) : JsonValue :=
  match room with
  | _ + 1 => .array items
  | 0 => .unreadable

mutual

/-- A value without blanks in front, with room for as many levels; `fuel` bounds the calls. -/
def value (room : Nat) : (fuel : Nat) → Chars → Option (JsonValue × Chars)
  | 0, _ => none
  | fuel + 1, cs =>
    match cs with
    | 'n' :: _ => (expect "null".toList cs).map (.null, ·)
    | 't' :: _ => (expect "true".toList cs).map (.bool true, ·)
    | 'f' :: _ => (expect "false".toList cs).map (.bool false, ·)
    | '"' :: rest => do
      let (s, rest) ← text rest
      return (s.elim .unreadable .text, rest)
    | '-' :: rest => (numeral true rest).map (fun (n, rest) => (.number n, rest))
    | '[' :: rest =>
      match skipBlanks rest with
      | ']' :: rest => some (arrayOf room [], rest)
      | rest => (items (room - 1) fuel rest).map (fun (vs, rest) => (arrayOf room vs, rest))
    | '{' :: rest =>
      match skipBlanks rest with
      | '}' :: rest => some (objectOf room [], rest)
      | rest => (rows (room - 1) fuel rest).map (fun (rs, rest) => (objectOf room rs, rest))
    | _ => (numeral false cs).map (fun (n, rest) => (.number n, rest))

/-- The items of an array up to its closing bracket, at least one. -/
def items (room : Nat) : (fuel : Nat) → Chars → Option (List JsonValue × Chars)
  | 0, _ => none
  | fuel + 1, cs => do
    let (v, cs) ← value room fuel (skipBlanks cs)
    match skipBlanks cs with
    | ']' :: rest => return ([v], rest)
    | ',' :: rest =>
      let (vs, rest) ← items room fuel rest
      return (v :: vs, rest)
    | _ => none

/-- The rows of an object up to its closing brace, at least one. -/
def rows (room : Nat) : (fuel : Nat) → Chars → Option (List (Option String × JsonValue) × Chars)
  | 0, _ => none
  | fuel + 1, cs =>
    match skipBlanks cs with
    | '"' :: rest => do
      let (key, rest) ← text rest
      match skipBlanks rest with
      | ':' :: rest =>
        let (v, rest) ← value room fuel (skipBlanks rest)
        match skipBlanks rest with
        | '}' :: rest => return ([(key, v)], rest)
        | ',' :: rest =>
          let (rs, rest) ← rows room fuel rest
          return ((key, v) :: rs, rest)
        | _ => none
      | _ => none
    | _ => none

end

end JsonReader

namespace JsonValue

/-- The value that a whole text stands for. Every two calls of the readers take a character. -/
def parse? (s : String) : Option JsonValue :=
  let cs := s.toList
  match JsonReader.value JsonReader.nestingLimit (2 * cs.length + 2) (JsonReader.skipBlanks cs) with
  | some (v, rest) => if (JsonReader.skipBlanks rest).isEmpty then some v else none
  | none => none

end JsonValue

end ApiShape
