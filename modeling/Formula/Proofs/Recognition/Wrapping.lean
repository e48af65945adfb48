import Formula.Proofs.Recognition.Delimiters
import Formula.Proofs.Recognition.Fences

/-! # Wrapped formulas

A formula may stand between delimiters with prose around them, and all of this as it is, between ticks or in
a fenced block. Recognition takes the formula out again.
-/

namespace Formula.Recognition

open Text

theorem formula_eq (answer : Text) : formula answer = trim (delimited (plain answer)) := rfl

/-- The formula stands between the first delimiters of the text that count: double dollars, or display
brackets in a text without dollars. -/
inductive Wraps (f : Text) : Text → Prop
  | dollars {p s : Text} : '$' ∉ p → '$' ∉ f →
      Wraps f (p ++ (Delimiters.dollars.opening ++ (f ++ (Delimiters.dollars.closing ++ s))))
  | brackets {p s : Text} : '$' ∉ p → '$' ∉ f → '$' ∉ s →
      ¬ Delimiters.brackets.opening <:+: p → ¬ Delimiters.brackets.closing <:+: f →
      Wraps f (p ++ (Delimiters.brackets.opening ++ (f ++ (Delimiters.brackets.closing ++ s))))

namespace Wraps

variable {f w : Text}

theorem delimited_eq (h : Wraps f w) : delimited w = f := by
  cases h with
  | @dollars p s hp hf =>
    have ho := (not_infix_of_dollar hp).1
    have hc := (not_infix_of_dollar hf).2
    exact delimited_of_dollars (between?_eq_of_first hp hf ho hc s)
  | @brackets p s hp hf hs ho hc =>
    have hw : '$' ∉ p ++ (Delimiters.brackets.opening ++ (f ++ (Delimiters.brackets.closing ++ s))) := by
      simp [Delimiters.opening, Delimiters.closing, hp, hf, hs]
    have hno := (not_infix_of_dollar hw).1
    rw [delimited_of_no_dollars (between?_of_infix_free hno), between?_eq_of_first hp hf ho hc]
    rfl

theorem skipBlanks (h : Wraps f w) : Wraps f (skipBlanks w) := by
  cases h with
  | @dollars p s hp hf =>
    have hs := skipBlanks_suffix p
    rw [skipBlanks_append_right (by rintro c ⟨⟩; decide)]
    exact .dollars (fun h => hp (hs.subset h)) hf
  | @brackets p s hp hf hd hopening hclosing =>
    have hs := skipBlanks_suffix p
    rw [skipBlanks_append_right (by rintro c ⟨⟩; decide)]
    exact .brackets (fun h => hp (hs.subset h)) hf hd (fun h => hopening (h.trans hs.isInfix)) hclosing

theorem append_newline (h : Wraps f w) : Wraps f (w ++ ['\n']) := by
  cases h with
  | @dollars p s hp hf =>
    simp only [List.append_assoc]
    exact .dollars hp hf
  | @brackets p s hp hf hd hopening hclosing =>
    simp only [List.append_assoc]
    exact .brackets hp hf (by simpa using hd) hopening hclosing

theorem ne_nil (h : Wraps f w) : w ≠ [] := by
  cases h <;> simp [Delimiters.opening]

end Wraps

/-- What is wrapped comes out again, blanks around it apart, from the wrapped text itself, from between ticks
and from a fenced block with any blanks behind it. -/
theorem formula_of_wraps {f w : Text} (h : Wraps f w) (hw : backtick ∉ w) :
    formula w = trim f ∧ formula (backtick :: (w ++ [backtick])) = trim f ∧
      ∀ blanks, allBlank blanks = true → formula (fenced w ++ blanks) = trim f := by
  refine ⟨?_, ?_, fun blanks hblanks => ?_⟩
  · rw [formula_eq, plain_of_not_mem hw, h.delimited_eq]
  · rw [formula_eq, plain_tick hw h.ne_nil, h.delimited_eq]
  · have hplain : plain (fenced w ++ blanks) = Text.skipBlanks (w ++ ['\n']) :=
      plain_fenced_of_allBlank (u := []) List.not_mem_nil hw hblanks
    rw [formula_eq, hplain, h.append_newline.skipBlanks.delimited_eq]

/-- Display brackets stand in front of the dollars that count and behind them; the body begins with a blank
and ends with a backslash. -/
theorem formula_of_wraps_dollars :
    let f := " x\\".toList
    let w := "\\[a\\] is $$".toList ++ f ++ "$$, not \\[b\\]".toList
    Wraps f w ∧ backtick ∉ w ∧ trim f = "x\\".toList ∧ formula w = trim f ∧
      formula (backtick :: (w ++ [backtick])) = trim f ∧ formula (fenced w ++ " \n".toList) = trim f := by
  intro f w
  have h : Wraps f w := by
    have hp : '$' ∉ "\\[a\\] is ".toList := by decide
    have hf : '$' ∉ f := by decide
    exact .dollars hp hf
  have hw : backtick ∉ w := by decide
  obtain ⟨hself, htick, hblock⟩ := formula_of_wraps h hw
  exact ⟨h, hw, by decide, hself, htick, hblock _ (by decide)⟩

end Formula.Recognition
