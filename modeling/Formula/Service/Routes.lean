import Formula.Conversion
import Formula.Recognition
import Formula.Service.Query
import Formula.Tex.Canonical

/-! # Routes

The service answers queries. The web stack around it is no part of this library: it takes queries from
requests, or responds to a request by itself, and it makes responses from answers.
-/

namespace Formula

open Compile Tex

/-- The greatest number of characters of a formula, and how formulas are converted. -/
structure Service where
  maxChars : Int
  converter : Text → Mode → Run Text

namespace Service

inductive Answer
  | object (status : Nat) (members : Members)
  | refusal (status : Nat) (detail : Text)
  | failure (failure : Failure)

def converterOf (engine : Engine Text) (source : Text) (mode : Mode) : Run Text :=
  Conversion.markupOf (Conversion.backendOf engine) (some source) (some mode)

def modeOfBool (display : Bool) : Mode :=
  if display then .block else .inline

variable (service : Service)

def oversize? (s : Str) : Option Answer :=
  if service.maxChars < s.text.length then
    some <| .refusal 413 <| "LaTeX too large: ".toList ++ Log.numeral s.text.length ++
      " chars (max ".toList ++ (toString service.maxChars).toList ++ ")".toList
  else none

/-- The members that describe a converted formula. -/
def describe (latex : Str) (display : Option Bool) : Run Members := do
  let shown := display.getD (hasDisplayCue latex.text)
  let markup ← service.converter latex.text (modeOfBool shown)
  return [("latex", .text latex), ("display", .truth shown),
    ("mathml", .text (latex.map fun _ => markup))]

def canonicalStr (latex : Str) : Run Str := do
  report (canonicalReport latex.text)
  return latex.map Tex.canonical

def canonicalRoute (latex : Str) : StateM Trace Answer := do
  if let some refusal := service.oversize? latex then return refusal
  report (canonicalReport latex.text)
  let formula := latex.map Tex.canonical
  return .object 200 [("latex", .text latex), ("normalized", .text formula),
    ("display", .truth (hasDisplayCue formula.text))]

def mathmlRoute (latex : Str) (display : Option Bool) (tidies : Bool) : StateM Trace Answer := do
  if let some refusal := service.oversize? latex then return refusal
  let run := do
    let latex ← if tidies then canonicalStr latex else pure latex
    service.describe latex display
  match ← run.run with
  | .ok members => return .object 200 members
  | .error failure => return .failure failure

def convertRoute (content : Str) (display : Option Bool) : StateM Trace Answer := do
  if let some refusal := service.oversize? content then return refusal
  let run := do
    let latex ← canonicalStr (content.map Recognition.formula)
    service.describe latex display
  match ← run.run with
  | .ok members => return .object 200 (members ++ [("raw", .text content)])
  | .error failure =>
    report [⟨.error, "Conversion failed: ".toList ++ failure.message⟩]
    return .object 500
      [("status", .text (.ofText "error".toList)), ("message", .text (.ofText failure.message))]

def answer : Query → StateM Trace Answer
  | .health => return .object 200 [("status", .text (.ofText "ok".toList))]
  | .canonical form => service.canonicalRoute form.latex
  | .mathml form => service.mathmlRoute form.latex form.display form.tidies
  | .convert form => service.convertRoute form.content form.display

/-- A web stack, with the requests and the responses that it deals in. -/
structure Stack (Request Response : Type) where
  /-- The request that brings an object to a path by a method. -/
  request : String → String → Members → Request
  /-- The response with a status and an object. -/
  object : Nat → Members → Response
  /-- The response to a failure that nothing has dealt with. -/
  internalError : Response
  read : Request → Except Response Query
  send : Answer → Response

variable {Request Response : Type}

namespace Stack

def ask (stack : Stack Request Response) (query : Query) : Request :=
  stack.request query.method query.path query.members

/-- What the stack is relied on for: it takes queries from the requests that make them, and responds with
the objects that it is given, as far as they can be encoded. -/
structure Reliable (stack : Stack Request Response) : Prop where
  read_ask : ∀ query, Encodable query.members → stack.read (stack.ask query) = .ok query
  send_object : ∀ status members, Encodable members →
    stack.send (.object status members) = stack.object status members
  send_of_not_encodable : ∀ status members, ¬Encodable members →
    stack.send (.object status members) = stack.internalError

end Stack

def respond (stack : Stack Request Response) (request : Request) : StateM Trace Response :=
  match stack.read request with
  | .error response => return response
  | .ok query => return stack.send (← service.answer query)

end Service

end Formula
