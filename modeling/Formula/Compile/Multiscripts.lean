import Formula.Compile.Engine
import Formula.Compile.Placeholder
import Formula.Compile.Row

/-! # Prescripts as multiscripts

An engine that knows no prescripts compiles a row with placeholders for them. The arguments of each
prescript are compiled on their own, before the row: first the base, then the subscript, then the
superscript. Together they are an `mmultiscripts` element, which replaces the holder of its placeholder.
-/

namespace Formula.Compile

open Tex Text

/-- The row as it goes to the engine; its first prescript has this index. -/
def Row.skeleton (index : Nat) : Row → Text
  | absent => []
  | nil => []
  | literal c rest => c :: rest.skeleton index
  | prescript _ _ _ rest => placeholder index :: rest.skeleton (index + 1)

def multiscripts (base sub sup : Text) : Text :=
  "<mmultiscripts>".toList ++ base ++ "<mprescripts/>".toList ++ sub ++ sup ++
    "</mmultiscripts>".toList

/-- The content of a `math` element that is all of a text, blanks apart. -/
def mathContent? (t : Text) : Option Text := do
  let r ← after? "<math".toList (skipBlanks t)
  if endsWord r then
    let r ← after? ['>'] (r.dropWhile (· ≠ '>'))
    before? "</math>".toList (trimEnd r)
  else none

/-- The markup of an argument as a row within other markup. -/
def argumentMarkup (markup : Text) : Text :=
  "<mrow>".toList ++ (mathContent? markup).getD markup ++ "</mrow>".toList

def absentMarkup : Text := "<none/>".toList

def missingEntry (index : Nat) : Log.Entry :=
  ⟨.warning, "Prescript placeholder ".toList ++ Log.numeral index ++
    " missing from compiled MathML".toList⟩

/-- Puts elements into the places of their placeholders, one after the other, and reports those that
have no place. -/
def fillAll (index : Nat) : List Text → Text → Text × List Log.Entry
  | [], markup => (markup, [])
  | e :: es, markup => match fill? index e markup with
    | some markup => fillAll (index + 1) es markup
    | none =>
      let (markup, log) := fillAll (index + 1) es markup
      (markup, missingEntry index :: log)

/-- There are no more characters to stand for prescripts. -/
def Failure.noPlaceholder : Failure :=
  ⟨"ValueError".toList, "chr() arg not in range(0x110000)".toList⟩

namespace Row

variable (engine : Engine Text)

/-- Has the row compiled, once the elements of its prescripts are there. -/
def compileWith (mode : Mode) (row : Row) (elements : List Text) : Run Text := do
  let markup ← ask engine (row.skeleton 0) mode
  let (markup, log) := fillAll 0 elements markup
  report log
  return markup

/-- The markup for an argument, given how to get the elements of its prescripts. -/
def argumentWith (row : Row) (elements : Run (List Text)) : Run Text :=
  match row with
  | absent => return absentMarkup
  | _ => do
    let markup ← row.compileWith engine .inline (← elements)
    return argumentMarkup markup

/-- The elements of the prescripts of a row, the first of which has this index. -/
def elements (index : Nat) : Row → Run (List Text)
  | absent => return []
  | nil => return []
  | literal _ rest => rest.elements index
  | prescript base sub sup rest => do
    if placeholderCount ≤ index then throw .noPlaceholder
    let b ← base.argumentWith engine (base.elements 0)
    let l ← sub.argumentWith engine (sub.elements 0)
    let u ← sup.argumentWith engine (sup.elements 0)
    let others ← rest.elements (index + 1)
    return multiscripts b l u :: others

end Row

def compileSource (engine : Engine Text) (source : Text) (mode : Mode) : Run Text := do
  let row := Row.ofSource source
  row.compileWith engine mode (← row.elements engine 0)

end Formula.Compile
