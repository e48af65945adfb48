import Formula.Proofs.Tex.Blanks
import Formula.Recognition

/-! # The length of a recognised formula

The formula in an answer is no longer than the answer, so an answer that is short enough has a formula
that is short enough.
-/

namespace Formula.Recognition

open Text

theorem length_le_of_before? {p t r : Text} (h : before? p t = some r) : r.length ≤ t.length := by
  obtain ⟨u, hu, rfl⟩ := Option.map_eq_some_iff.mp h
  have hlen := congrArg List.length (after?_eq_some_iff.mp hu)
  simp only [List.length_append, List.length_reverse] at hlen ⊢
  omega

theorem length_dropFenceOpenings_le (t : Text) : (dropFenceOpenings t).length ≤ t.length := by
  fun_induction dropFenceOpenings t with
  | case1 => exact le_rfl
  | case2 c r rest h ih =>
    have hlen := congrArg List.length (after?_eq_some_iff.mp h)
    have hskip := skipBlanks_length_le rest
    rw [List.length_append] at hlen
    omega
  | case3 c r h ih => exact Nat.succ_le_succ ih

theorem length_dropFinalFence_le (t : Text) : (dropFinalFence t).length ≤ t.length := by
  rw [dropFinalFence]
  cases h : before? fence (trimEnd t) with
  | none => exact le_rfl
  | some r => exact (length_le_of_before? h).trans (length_trimEnd_le t)

theorem length_unquote_le (t : Text) : (unquote t).length ≤ t.length := by
  fun_induction unquote t with
  | case1 => exact le_rfl
  | case2 r d rest h hr ih => exact Nat.succ_le_succ ih
  | case3 r d rest h hr ih =>
    have hlen := congrArg List.length (List.takeWhile_append_dropWhile (p := (· ≠ backtick)) (l := r))
    rw [h] at hlen
    simp only [List.length_append, List.length_cons] at hlen ⊢
    omega
  | case4 r h ih => exact Nat.succ_le_succ ih
  | case5 c r hc ih => exact Nat.succ_le_succ ih

theorem length_le_of_cut? {p t a b : Text} (h : cut? p t = some (a, b)) :
    a.length ≤ t.length ∧ b.length ≤ t.length := by
  rw [eq_of_cut? h]
  simp only [List.length_append]
  omega

theorem length_le_of_between? {opening closing t body : Text}
    (h : between? opening closing t = some body) : body.length ≤ t.length := by
  simp only [between?, Option.bind_eq_bind, Option.bind_eq_some_iff, Prod.exists] at h
  obtain ⟨before, rest, hopen, inner, behind, hclose, h⟩ := h
  obtain rfl := Option.some.inj h
  exact (length_le_of_cut? hclose).1.trans (length_le_of_cut? hopen).2

/-- Nothing is added on the way from an answer to its formula. -/
theorem length_formula_le (answer : Text) : (formula answer).length ≤ answer.length := by
  have hplain : (unquote (dropFinalFence (dropFenceOpenings answer))).length ≤ answer.length :=
    (length_unquote_le _).trans
      ((length_dropFinalFence_le _).trans (length_dropFenceOpenings_le answer))
  rw [formula]
  refine (length_trim_le _).trans (le_trans ?_ hplain)
  generalize unquote (dropFinalFence (dropFenceOpenings answer)) = plain
  cases hdollars : between? ['$', '$'] ['$', '$'] plain with
  | some body => exact length_le_of_between? hdollars
  | none =>
    cases hbrackets : between? ['\\', '['] ['\\', ']'] plain with
    | some body => exact length_le_of_between? hbrackets
    | none => exact le_rfl

end Formula.Recognition
