import Formula.Tex.Control

/-! # Bold

The command `\bm` is spelt `\mathbf`, with its argument in braces. Its argument is a group, a control
sequence of letters, or, behind at least one blank, a single letter or digit. These three are taken up
in three sweeps over the tokens, in this order.
-/

namespace Formula.Tex

open Text

def bm : Text := "\\bm".toList

def mathbf : Text := "\\mathbf".toList

def isBlankToken : Text → Bool
  | [c] => isBlank c
  | _ => false

def isAlphanumToken : Text → Bool
  | [c] => c.isAlphanum
  | _ => false

def skipBlankTokens (ts : List Text) : List Text :=
  ts.dropWhile isBlankToken

theorem skipBlankTokens_length_le (ts : List Text) :
    (skipBlankTokens ts).length ≤ ts.length :=
  (List.dropWhile_suffix _).length_le

/-- Before a group, only the name changes, and the blanks go. -/
def boldGroups : List Text → List Text
  | [] => []
  | t :: ts =>
    if t = bm ∧ (skipBlankTokens ts).head? = some ['{'] then
      mathbf :: boldGroups (skipBlankTokens ts)
    else t :: boldGroups ts
termination_by ts => ts.length
decreasing_by
  · have := skipBlankTokens_length_le ts
    simp only [List.length_cons]
    omega
  · simp

def boldControls : List Text → List Text
  | [] => []
  | t :: ts =>
    if t = bm then match _h : skipBlankTokens ts with
      | u :: us =>
        if isWordControl u then mathbf :: ['{'] :: u :: ['}'] :: boldControls us
        else t :: boldControls ts
      | [] => t :: boldControls ts
    else t :: boldControls ts
termination_by ts => ts.length
decreasing_by
  · have := skipBlankTokens_length_le ts
    simp only [_h, List.length_cons] at this ⊢
    omega
  all_goals simp

def boldChars : List Text → List Text
  | [] => []
  | t :: ts =>
    if t = bm ∧ ts.head?.any isBlankToken then match _h : skipBlankTokens ts with
      | u :: us =>
        if isAlphanumToken u then mathbf :: ['{'] :: u :: ['}'] :: boldChars us
        else t :: boldChars ts
      | [] => t :: boldChars ts
    else t :: boldChars ts
termination_by ts => ts.length
decreasing_by
  · have := skipBlankTokens_length_le ts
    simp only [_h, List.length_cons] at this ⊢
    omega
  all_goals simp

def unifyBold (t : Text) : Text :=
  (boldChars (boldControls (boldGroups (tokens t)))).flatten

end Formula.Tex
