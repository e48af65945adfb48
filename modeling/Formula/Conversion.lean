import Formula.Compile.Multiscripts
import Formula.Markup.CleanUp

/-! # Conversion

A formula is compiled by a backend, and its markup is cleaned up. There is always an answer: it is
empty if there is no formula, if the backend fails, and if it returns nothing. Each of the last two is
reported.
-/

namespace Formula.Conversion

open Compile Tex Text

abbrev Backend := Text → Mode → Run (Option Text)

/-- The part of a source that a warning shows. -/
def excerpt (source : Text) : Text :=
  " | Input (first 200 chars): ".toList ++ source.take 200

def failureReport (failure : Failure) (source : Text) : List Log.Entry :=
  [⟨.warning, "LaTeX→MathML failed: ".toList ++ failure.kind ++ ": ".toList ++ failure.message ++
      excerpt source⟩,
    ⟨.debug, "Full LaTeX input: ".toList ++ source⟩]

def silenceReport (source : Text) : List Log.Entry :=
  [⟨.warning, "Compiler returned no MathML".toList ++ excerpt source⟩]

/-- The markup of a formula. Without a mode it is the one that the source asks for. -/
def markupOf (backend : Backend) (source : Option Text) (mode : Option Mode) :
    StateM Trace Text := do
  let source := source.getD []
  if allBlank source then return []
  match ← (backend source (mode.getD (modeOf source))).run with
  | .error failure =>
    report (failureReport failure source)
    return []
  | .ok markup =>
    let markup := markup.getD []
    if allBlank markup then
      report (silenceReport source)
      return []
    return Markup.cleanUp markup

def backendOf (engine : Engine Text) : Backend := fun source mode => do
  let markup ← compileSource engine source mode
  return some markup

end Formula.Conversion
