/-
What can go wrong while trees are absorbed or traversed: a cause, wrapped in the steps that lead
from the root of the tree to the node at fault. Incompatible shapes are not faults.
-/

namespace ApiShape

/-- A cause, or a step of the path with what is wrong below it. -/
inductive Fault where
  /-- A top-level entry without a position in an HTTP message. -/
  | missingMetadata (key : String)
  /-- A node of a kind that its context does not allow. -/
  | invalidVariant (kind context : String)
  /-- An entry stored under a key other than the address of its value. -/
  | staleKey (key actual : String)
  /-- The recursion went past its limit, which the limit computed from the trees rules out. -/
  | tooDeep
  | inField (name : String) (cause : Fault)
  | atIndex (index : Nat) (cause : Fault)
deriving DecidableEq

namespace Fault

/-- The cause without its steps. -/
def root : Fault → Fault
  | .inField _ cause => cause.root
  | .atIndex _ cause => cause.root
  | f => f

/-- The step to an element of a list, as paths name it. -/
def indexStep (i : Nat) : String := "[" ++ toString i ++ "]"

/-- The steps from the root of the tree, outermost first. -/
def path : Fault → List String
  | .inField name cause => name :: cause.path
  | .atIndex i cause => indexStep i :: cause.path
  | _ => []

/-- The whole chain in words, steps first. -/
def message : Fault → String
  | .missingMetadata key => "top-level entry " ++ key ++ " has no HTTP metadata"
  | .invalidVariant kind context => "unexpected " ++ kind ++ " inside " ++ context
  | .staleKey key actual => "stale key " ++ key ++ ", value hashes to " ++ actual
  | .tooDeep => "trees nested too deep"
  | .inField name cause => "field " ++ name ++ ": " ++ cause.message
  | .atIndex i cause => "index " ++ toString i ++ ": " ++ cause.message

/-- The message of the cause, followed by the path when there is one. -/
def report (f : Fault) : String :=
  if f.path.isEmpty then f.root.message
  else f.root.message ++ " (at " ++ String.intercalate " -> " f.path ++ ")"

end Fault

/-- What is there after an operation that works on a copy: its result, or when it fails what was there
before. -/
def committed {α : Type} (before : α) : Except Fault α → α
  | .ok after => after
  | .error _ => before

end ApiShape
