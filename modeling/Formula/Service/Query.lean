import Formula.Text.Blank

/-! # Queries

The service can be asked whether it runs, for the canonical source of a formula, for its markup, and for the
markup of the formula in a recogniser's answer. Each query has its method and its path, and all but the first
have members.
-/

namespace Formula.Service

/-- A string from outside may hold halves of surrogate pairs. They are no characters; in the text there are
others in their places, which occur in it for nothing else. -/
structure Str where
  text : Text
  /-- The characters that stand for halves of pairs. -/
  halves : List Char
  deriving DecidableEq, Repr

namespace Str

def ofText (t : Text) : Str :=
  ⟨t, []⟩

/-- Halves that are no longer in the text are gone. -/
def map (f : Text → Text) (s : Str) : Str :=
  ⟨f s.text, s.halves.filter (f s.text).contains⟩

theorem halves_map {s : Str} (h : s.halves = []) (f : Text → Text) : (s.map f).halves = [] := by
  simp [map, h]

end Str

inductive Value
  | null
  | truth (b : Bool)
  | text (s : Str)
  deriving DecidableEq, Repr

namespace Value

def ofOption : Option Bool → Value
  | none => null
  | some b => truth b

/-- A half of a pair has no encoding. -/
def encodable : Value → Bool
  | text s => s.halves.isEmpty
  | _ => true

theorem encodable_text {s : Str} (h : s.halves = []) : (text s).encodable = true := by
  simp [encodable, h]

@[simp]
theorem encodable_truth (b : Bool) : (truth b).encodable = true := rfl

@[simp]
theorem encodable_ofOption (b : Option Bool) : (ofOption b).encodable = true := by
  cases b <;> rfl

end Value

abbrev Members := List (String × Value)

def Encodable (members : Members) : Prop :=
  ∀ m ∈ members, m.2.encodable = true

instance (members : Members) : Decidable (Encodable members) :=
  inferInstanceAs (Decidable (∀ m ∈ members, m.2.encodable = true))

@[simp]
theorem encodable_nil : Encodable [] := List.forall_mem_nil _

@[simp]
theorem encodable_cons {m : String × Value} {members : Members} :
    Encodable (m :: members) ↔ m.2.encodable = true ∧ Encodable members :=
  List.forall_mem_cons

@[simp]
theorem encodable_append {members members' : Members} :
    Encodable (members ++ members') ↔ Encodable members ∧ Encodable members' :=
  List.forall_mem_append

structure CanonicalForm where
  latex : Str := .ofText []

structure MathmlForm where
  latex : Str := .ofText []
  display : Option Bool := none
  tidies : Bool := true

structure ConvertForm where
  content : Str := .ofText []
  display : Option Bool := none

inductive Query
  | health
  | canonical (form : CanonicalForm)
  | mathml (form : MathmlForm)
  | convert (form : ConvertForm)

namespace Query

def method : Query → String
  | health => "GET"
  | _ => "POST"

def path : Query → String
  | health => "/health"
  | canonical _ => "/api/normalize"
  | mathml _ => "/api/mathml"
  | convert _ => "/api/convert"

def members : Query → Members
  | health => []
  | canonical form => [("latex", .text form.latex)]
  | mathml form =>
    [("latex", .text form.latex), ("display", .ofOption form.display), ("normalize", .truth form.tidies)]
  | convert form => [("content", .text form.content), ("display", .ofOption form.display)]

end Query

end Formula.Service
