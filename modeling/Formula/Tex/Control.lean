import Formula.Text.Blank

/-! # Control sequences

A control sequence is a backslash with the longest run of ASCII letters behind it, or with one other
character if there is no such run. A text falls into tokens: control sequences, and all other
characters one by one. A backslash at the very end of a text is a token of the second kind.
-/

namespace Formula.Tex

/-- The control sequence at the front of a text, with what follows it. -/
def control? : Text → Option (Text × Text)
  | [] => none
  | [_] => none
  | b :: c :: r =>
    if b = '\\' then
      if c.isAlpha then some ('\\' :: c :: r.takeWhile Char.isAlpha, r.dropWhile Char.isAlpha)
      else some (['\\', c], r)
    else none

theorem eq_append_of_control? {t name rest : Text} (h : control? t = some (name, rest)) :
    t = name ++ rest ∧ 2 ≤ name.length := by
  match t with
  | [] | [_] => simp [control?] at h
  | b :: c :: r =>
    simp only [control?] at h
    split at h
    · next hb =>
      subst hb
      split at h <;> simp only [Option.some.injEq, Prod.mk.injEq] at h <;> obtain ⟨rfl, rfl⟩ := h <;>
        simp
    · simp at h

theorem control?_length {t name rest : Text} (h : control? t = some (name, rest)) :
    rest.length + 2 ≤ t.length := by
  obtain ⟨rfl, h⟩ := eq_append_of_control? h
  simp only [List.length_append]
  omega

theorem control?_of_ne {c : Char} {r : Text} (h : c ≠ '\\') : control? (c :: r) = none := by
  cases r <;> simp [control?, h]

/-- A control sequence of ASCII letters. -/
def isWordControl : Text → Bool
  | '\\' :: c :: r => (c :: r).all Char.isAlpha
  | _ => false

def tokens : Text → List Text
  | [] => []
  | c :: r => match _h : control? (c :: r) with
    | some (name, rest) => name :: tokens rest
    | none => [c] :: tokens r
termination_by t => t.length
decreasing_by
  · have := control?_length _h
    omega
  · simp

theorem flatten_tokens (t : Text) : (tokens t).flatten = t := by
  fun_induction tokens t with
  | case1 => rfl
  | case2 c r name rest h ih => simp [ih, (eq_append_of_control? h).1]
  | case3 c r h ih => simp [ih]

end Formula.Tex
