import Formula.Text.Occurrence

/-! # Fillers

A zero-width space fills a place that must not be empty. It takes the place of each `none` element,
which marks a missing argument.
-/

namespace Formula.Markup

open Text

def zeroWidthSpace : Text := "&#x200B;".toList

/-- A text element that shows nothing. -/
def filler : Text :=
  "<mtext>".toList ++ zeroWidthSpace ++ "</mtext>".toList

/-- What follows the `none` element at the front of a text. It is empty, and closed in either way. -/
def afterNone? (t : Text) : Option Text := do
  let r ← after? "<none".toList t
  match after? ['/', '>'] (skipBlanks r) with
  | some rest => return rest
  | none =>
    let r ← after? ['>'] (skipBlanks r)
    after? "</none>".toList (skipBlanks r)

theorem afterNone?_length {t rest : Text} (h : afterNone? t = some rest) :
    rest.length < t.length := by
  simp only [afterNone?, Option.bind_eq_bind, Option.bind_eq_some_iff, Option.pure_def] at h
  obtain ⟨r, hr, h⟩ := h
  have h₁ : t.length = 5 + r.length := by
    rw [after?_eq_some_iff.mp hr]
    simp
    omega
  have h₂ := skipBlanks_length_le r
  split at h
  · next r' hr' =>
    have h₃ := congrArg List.length (after?_eq_some_iff.mp hr')
    simp only [Option.some.injEq, List.length_append, List.length_cons] at h h₃
    subst h
    omega
  · simp only [Option.bind_eq_some_iff] at h
    obtain ⟨r', hr', h⟩ := h
    have h₃ := congrArg List.length (after?_eq_some_iff.mp hr')
    have h₄ := congrArg List.length (after?_eq_some_iff.mp h)
    have h₅ := skipBlanks_length_le r'
    simp only [List.length_append, List.length_cons] at h₃ h₄
    omega

def fillNone : Text → Text
  | [] => []
  | c :: r => match _h : afterNone? (c :: r) with
    | some rest => filler ++ fillNone rest
    | none => c :: fillNone r
termination_by t => t.length
decreasing_by
  · exact afterNone?_length _h
  · simp

end Formula.Markup
