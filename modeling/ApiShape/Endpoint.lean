/-
Endpoints: the request and response fields of one operation of an API.
-/
import ApiShape.Accumulate
import ApiShape.Inference

namespace ApiShape

/-- What identifies an endpoint. -/
structure EndpointId where
  host : String
  /-- The HTTP verb. -/
  operation : String
  pathTemplate : String
deriving DecidableEq

/-- An endpoint with what was observed in its requests and responses. -/
structure Endpoint where
  id : EndpointId
  args : Catalogue := []
  responses : Catalogue := []

/-- What accumulating an endpoint had to leave out. -/
structure Tally where
  cookiesDiscarded : Nat
deriving DecidableEq

namespace Endpoint

/-- Stores a node among the arguments. -/
def addArg (e : Endpoint) (s : Schema) : Endpoint := { e with args := Catalogue.insert e.args s }

/-- Stores a node among the responses. -/
def addResponse (e : Endpoint) (s : Schema) : Endpoint :=
  { e with responses := Catalogue.insert e.responses s }

/-- Accumulates arguments and responses, and counts the cookies discarded in both. -/
def accumulate (limits : Limits) (dst src : Endpoint) : Except Fault (Endpoint × Tally) := do
  let (args, fromArgs) ← Catalogue.accumulate limits dst.args src.args
  let (responses, fromResponses) ← Catalogue.accumulate limits dst.responses src.responses
  return ({ dst with args := args, responses := responses }, ⟨fromArgs + fromResponses⟩)

/-- Traverses the arguments and then, unless that failed, the responses. -/
def walk {σ : Type} (visitor : Visitor σ) (st : σ) (e : Endpoint) : Visit σ Endpoint :=
  let a := Catalogue.walk visitor st e.args
  match a.fault with
  | some _ => ⟨a.state, { e with args := a.value }, a.fault⟩
  | none =>
    (Catalogue.walk visitor a.state e.responses).map
      (fun responses => { e with args := a.value, responses := responses })

/-- Converts every record that should be a map; the state is their number. -/
def inferMaps (limits : Limits) (e : Endpoint) : Visit Nat Endpoint := e.walk (inferMap limits) 0

/-- Stores every option and every field under its address again. -/
def rewriteKeys (e : Endpoint) : Endpoint := (e.walk idle ()).value

end Endpoint

end ApiShape
