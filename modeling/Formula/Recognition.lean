import Formula.Text.Occurrence

/-! # The formula in a recogniser's answer

A recogniser answers in the style of a chat: the formula may stand in a fenced block, between
backticks, between double dollars or in display brackets, with prose around it.
-/

namespace Formula.Recognition

open Text

def backtick : Char := '\x60'

def fenceOpening : Text := "```latex".toList

def fence : Text := "```".toList

/-- Every opening of a fenced block goes, with the blanks behind it. -/
def dropFenceOpenings : Text → Text
  | [] => []
  | c :: r => match _h : after? fenceOpening (c :: r) with
    | some rest => dropFenceOpenings (skipBlanks rest)
    | none => c :: dropFenceOpenings r
termination_by t => t.length
decreasing_by
  · have h := skipBlanks_length_le rest
    rw [after?_eq_some_iff.mp _h, List.length_append]
    have : fenceOpening.length = 8 := by decide
    omega
  · simp

/-- A fence at the very end goes, with the blanks behind it. -/
def dropFinalFence (t : Text) : Text :=
  (before? fence (trimEnd t)).getD t

/-- Backticks around a text that is not empty go. -/
def unquote : Text → Text
  | [] => []
  | c :: r =>
    if c = backtick then match _h : r.dropWhile (· ≠ backtick) with
      | _ :: rest =>
        if r.head? = some backtick then c :: unquote r else r.takeWhile (· ≠ backtick) ++ unquote rest
      | [] => c :: unquote r
    else c :: unquote r
termination_by t => t.length
decreasing_by
  · simp
  · have := (List.dropWhile_suffix (l := r) (· ≠ backtick)).length_le
    simp only [_h, List.length_cons] at this ⊢
    omega
  all_goals simp

/-- What stands between the first opening delimiter and the first closing one behind it. -/
def between? (opening closing t : Text) : Option Text := do
  let (_, rest) ← cut? opening t
  let (body, _) ← cut? closing rest
  return body

/-- The formula in an answer: what double dollars enclose, else what display brackets enclose, else all
that is left without fences and backticks. -/
def formula (answer : Text) : Text :=
  let plain := unquote (dropFinalFence (dropFenceOpenings answer))
  trim <| (between? ['$', '$'] ['$', '$'] plain <|> between? ['\\', '['] ['\\', ']'] plain).getD plain

end Formula.Recognition
