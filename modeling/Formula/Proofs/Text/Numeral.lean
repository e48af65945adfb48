import Formula.Text.Occurrence

/-! # Numerals

A numeral determines its number, also if its digits are written with other characters. It begins with
no zero unless the number is zero.
-/

namespace Formula.Text

variable {b m n : Nat}

theorem exists_digit_of_mem_toDigits (hb : 1 < b) {c : Char} (h : c ∈ Nat.toDigits b n) :
    ∃ d < b, c = d.digitChar := by
  induction n using Nat.base_induction b hb with
  | single d hd =>
    rw [Nat.toDigits_of_lt_base hd, List.mem_singleton] at h
    exact ⟨d, hd, h⟩
  | digit n d hd hn ih =>
    rw [← Nat.toDigits_append_toDigits hb hn hd, Nat.toDigits_of_lt_base hd, List.mem_append,
      List.mem_singleton] at h
    rcases h with h | h
    · exact ih h
    · exact ⟨d, hd, h⟩

theorem exists_toDigits_eq_cons (hb : 1 < b) (hn : 0 < n) :
    ∃ d r, 0 < d ∧ d < b ∧ Nat.toDigits b n = d.digitChar :: r := by
  induction n using Nat.base_induction b hb with
  | single d hd => exact ⟨d, [], hn, hd, Nat.toDigits_of_lt_base hd⟩
  | digit n d hd hpos ih =>
    obtain ⟨e, r, he, heb, h⟩ := ih hpos
    refine ⟨e, r ++ Nat.toDigits b d, he, heb, ?_⟩
    rw [← Nat.toDigits_append_toDigits hb hpos hd, h, List.cons_append]

theorem map_toDigits_injective (hb : 1 < b) {f : Char → Char}
    (hf : ∀ i < b, ∀ j < b, f i.digitChar = f j.digitChar → i = j)
    (h : (Nat.toDigits b m).map f = (Nat.toDigits b n).map f) : m = n := by
  induction m using Nat.base_induction b hb generalizing n with
  | single d hd =>
    induction n using Nat.base_induction b hb with
    | single e he =>
      rw [Nat.toDigits_of_lt_base hd, Nat.toDigits_of_lt_base he] at h
      exact hf d hd e he (by simpa using h)
    | digit n e he hn _ =>
      rw [Nat.toDigits_of_lt_base hd, ← Nat.toDigits_append_toDigits hb hn he,
        Nat.toDigits_of_lt_base he] at h
      exact absurd (congrArg List.length h) (by simp)
  | digit m d hd hm ih =>
    induction n using Nat.base_induction b hb with
    | single e he =>
      rw [Nat.toDigits_of_lt_base he, ← Nat.toDigits_append_toDigits hb hm hd,
        Nat.toDigits_of_lt_base hd] at h
      exact absurd (congrArg List.length h) (by simp)
    | digit n e he hn _ =>
      rw [← Nat.toDigits_append_toDigits hb hm hd, ← Nat.toDigits_append_toDigits hb hn he,
        Nat.toDigits_of_lt_base hd, Nat.toDigits_of_lt_base he, List.map_append, List.map_append] at h
      obtain ⟨hq, hr⟩ := List.append_inj' h rfl
      rw [ih hq, hf d hd e he (by simpa using hr)]

theorem after?_mark {v w : Text} {mark : Char} (hv : mark ∉ v) (hw : mark ∉ w) (t : Text) :
    after? (v ++ [mark]) (w ++ mark :: t) = if v = w then some t else none := by
  induction v generalizing w with
  | nil =>
    cases w with
    | nil => simp [after?]
    | cons c w => simp [after?, List.ne_of_not_mem_cons hw]
  | cons a v ih =>
    cases w with
    | nil => simp [after?, (List.ne_of_not_mem_cons hv).symm]
    | cons c w =>
      have ih := ih (List.not_mem_of_not_mem_cons hv) (List.not_mem_of_not_mem_cons hw)
      by_cases h : a = c <;> simp [after?, h, ih]

end Formula.Text
