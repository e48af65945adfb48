import Formula.Text.Occurrence

/-! # Display cues

A formula stands on lines of its own if its source says so: by an environment, a line break of either
kind, or a command that is at home in displayed formulas.
-/

namespace Formula.Tex

open Text

inductive Mode
  | inline
  | block
  deriving DecidableEq, Repr

def cues : List Text :=
  ["\\begin", "\\\\", "\n", "\\dfrac", "\\displaystyle", "\\int", "\\sum"].map String.toList

def hasDisplayCue (t : Text) : Bool :=
  cues.any (occurs · t)

theorem hasDisplayCue_iff {t : Text} : hasDisplayCue t = true ↔ ∃ cue ∈ cues, cue <:+: t := by
  simp [hasDisplayCue, occurs_iff]

def modeOf (t : Text) : Mode :=
  if hasDisplayCue t then .block else .inline

end Formula.Tex
