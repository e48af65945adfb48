import Formula.Tex.Control
import Formula.Tex.Group

/-! # Text blocks

A text block is a group of running text behind a command such as `\text` or `\mbox`. In it, runs of
blanks become single spaces, and none are left at its ends.
-/

namespace Formula.Tex

open Text

def textCommands : List Text :=
  ["\\text", "\\textrm", "\\textit", "\\textbf", "\\mbox"].map String.toList

/-- The words of a text with single spaces between them. -/
def tidyBlanks (t : Text) : Text :=
  List.intercalate [' '] (words t)

/-- Blocks inside a block are part of its text. A block that is never closed is left alone, but not
the blocks in it. -/
def tidyRunningText : Text → Text
  | [] => []
  | c :: r => match _h : control? (c :: r) with
    | none => c :: tidyRunningText r
    | some (name, rest) =>
      if textCommands.contains name then match _h' : group? (skipBlanks rest) with
        | some (body, behind) =>
          name ++ rest.takeWhile isBlank ++ braced (tidyBlanks body) ++ tidyRunningText behind
        | none => name ++ tidyRunningText rest
      else name ++ tidyRunningText rest
termination_by t => t.length
decreasing_by
  · simp
  all_goals have h₁ := control?_length _h
  · have h₂ := group?_length _h'
    have h₃ := skipBlanks_length_le rest
    omega
  all_goals omega

end Formula.Tex
