import Formula.Tex.Bold
import Formula.Tex.Limits
import Formula.Proofs.Tex.Reading

/-! # What a sweep leaves as tokens

Dropping limits and unifying bold write a text from tokens. Nothing runs together where tokens have
gone or come: the text falls into the tokens it is written from.
-/

namespace Formula.Tex

open Text

/-- The token at the front of a text, and what follows it. -/
inductive ReadsToken : Text → Text → Text → Prop
  | control {t name rest : Text} : control? t = some (name, rest) → ReadsToken t name rest
  | char {c : Char} {r : Text} : c ≠ '\\' → ReadsToken (c :: r) [c] r
  | backslash : ReadsToken ['\\'] ['\\'] []

namespace ReadsToken

variable {t u rest : Text}

theorem eq_append (h : ReadsToken t u rest) : t = u ++ rest := by
  cases h with
  | control h => exact (eq_append_of_control? h).1
  | char _ | backslash => rfl

theorem tokens_eq (h : ReadsToken t u rest) : tokens t = u :: tokens rest := by
  cases h with
  | control h =>
    match t with
    | [] => simp [control?] at h
    | c :: r =>
      rw [tokens]
      split <;> simp_all
  | @char c r hc =>
    rw [tokens]
    split
    · simp_all [control?_of_ne]
    · rfl
  | backslash => simp [tokens, control?]

theorem opensLetter_eq_false (h : ReadsToken t u rest) (hu : isWordControl u = true) :
    opensLetter rest = false := by
  cases h with
  | control h => exact opensLetter_of_control? h hu
  | char _ => simp [isWordControl] at hu
  | backslash => rfl

theorem unique {v s : Text} (h : ReadsToken t u rest) (h' : ReadsToken t v s) : u = v ∧ rest = s := by
  obtain ⟨rfl, -⟩ := List.cons.inj (h.tokens_eq.symm.trans h'.tokens_eq)
  exact ⟨rfl, List.append_cancel_left (h.eq_append.symm.trans h'.eq_append)⟩

theorem follow (h : ReadsToken (u ++ t) u t) {t' : Text} (ht : Follows t' t) :
    ReadsToken (u ++ t') u t' := by
  generalize e : u ++ t = s at h
  cases h with
  | control h =>
    rw [← e] at h
    exact .control (control?_append_of_opensLetter h ht.1)
  | char hc => exact .char hc
  | backslash =>
    rw [ht.2 rfl]
    exact .backslash

end ReadsToken

theorem exists_readsToken {t : Text} (ht : t ≠ []) : ∃ u rest, ReadsToken t u rest := by
  obtain ⟨c, r, rfl⟩ := List.exists_cons_of_ne_nil ht
  by_cases hc : c = '\\'
  · subst hc
    cases h : control? ('\\' :: r) with
    | none =>
      obtain rfl := eq_nil_of_control?_eq_none h
      exact ⟨_, _, .backslash⟩
    | some p => exact ⟨_, _, .control h⟩
  · exact ⟨_, _, .char hc⟩

/-- The text that is written from the tokens falls into them again. -/
def Tokenized (ts : List Text) : Prop :=
  tokens ts.flatten = ts

theorem tokenized_tokens (t : Text) : Tokenized (tokens t) := by
  rw [Tokenized, flatten_tokens]

namespace Tokenized

variable {u : Text} {ts us : List Text}

theorem cons_iff :
    Tokenized (u :: ts) ↔ ReadsToken (u ++ ts.flatten) u ts.flatten ∧ Tokenized ts := by
  unfold Tokenized
  rw [List.flatten_cons]
  constructor
  · intro h
    have hne : u ++ ts.flatten ≠ [] := by
      intro he
      simp [he, tokens] at h
    obtain ⟨v, rest, hv⟩ := exists_readsToken hne
    obtain ⟨rfl, ht⟩ := List.cons.inj (hv.tokens_eq.symm.trans h)
    obtain rfl := List.append_cancel_left hv.eq_append
    exact ⟨hv, ht⟩
  · rintro ⟨h, ht⟩
    rw [h.tokens_eq, ht]

theorem dropWhile (h : Tokenized ts) (p : Text → Bool) : Tokenized (ts.dropWhile p) := by
  induction ts with
  | nil => exact h
  | cons u ts ih =>
    rw [List.dropWhile_cons]
    split
    · exact ih (cons_iff.mp h).2
    · exact h

end Tokenized

/-! ## Line breaks -/

def lineBreak : Text := ['\\', '\\']

/-- A backslash within a token is its first character, or the last one of a line break. -/
theorem ReadsToken.backslash_suffix {t u rest w : Text} (h : ReadsToken t u rest) (hw : '\\' :: w <:+ u) :
    '\\' :: w = u ∨ u = lineBreak ∧ w = [] := by
  have hone : ∀ {c : Char}, '\\' :: w <:+ [c] → '\\' :: w = [c] := fun hs =>
    (List.suffix_cons_iff.mp hs).resolve_right fun hn => List.cons_ne_nil _ _ (List.suffix_nil.mp hn)
  cases h with
  | control hc =>
    rcases control?_cases hc with ⟨hn, -⟩ | ⟨c, rfl, -⟩
    · obtain ⟨c, v, rfl, hv⟩ := exists_letters_of_isWordControl hn
      refine .inl ((List.suffix_cons_iff.mp hw).resolve_right fun hs => ?_)
      exact absurd (hv _ (hs.subset List.mem_cons_self)) (by decide)
    · rcases List.suffix_cons_iff.mp hw with e | hs
      · exact .inl e
      · obtain ⟨rfl, rfl⟩ := List.cons.inj (hone hs)
        exact .inr ⟨rfl, rfl⟩
  | char _ | backslash => exact .inl (hone hw)

/-- A backslash in a text begins a token, or it is the second one of a line break. -/
theorem Tokenized.at_backslash {r : Text} {ts : List Text} (ht : Tokenized ts)
    (h : '\\' :: r <:+ ts.flatten) :
    (∃ u ∈ ts, ∃ rest, ReadsToken ('\\' :: r) u rest) ∨
      ∃ before behind, ts = before ++ lineBreak :: behind ∧ behind.flatten = r := by
  induction ts with
  | nil => cases List.suffix_nil.mp h
  | cons u ts ih =>
    obtain ⟨hu, hts⟩ := Tokenized.cons_iff.mp ht
    have hlater : '\\' :: r <:+ ts.flatten →
        (∃ v ∈ u :: ts, ∃ rest, ReadsToken ('\\' :: r) v rest) ∨
          ∃ before behind, u :: ts = before ++ lineBreak :: behind ∧ behind.flatten = r := by
      intro hs
      refine (ih hts hs).imp ?_ ?_
      · rintro ⟨v, hv, hr⟩
        exact ⟨v, List.mem_cons_of_mem _ hv, hr⟩
      · rintro ⟨before, behind, rfl, hb⟩
        exact ⟨u :: before, behind, rfl, hb⟩
    obtain ⟨p, e⟩ := h
    rw [List.flatten_cons] at e
    rcases List.append_eq_append_iff.mp e with ⟨v, e', hv⟩ | ⟨v, -, hv⟩
    · cases v with
      | nil => exact hlater (hv ▸ List.suffix_rfl)
      | cons b w =>
        obtain ⟨rfl, rfl⟩ := List.cons.inj hv
        rcases hu.backslash_suffix ⟨p, e'.symm⟩ with rfl | ⟨rfl, rfl⟩
        · exact .inl ⟨_, List.mem_cons_self, _, hu⟩
        · exact .inr ⟨[], ts, rfl, rfl⟩
    · exact hlater ⟨v, hv.symm⟩

/-! ## Sweeps -/

/-- Written for tokens of a text, these are the tokens of what is written, and a token before the one
text ends as it does before the other. -/
def Retokens (ts us : List Text) : Prop :=
  Tokenized ts → Tokenized us ∧ Follows us.flatten ts.flatten

namespace Retokens

variable {u v : Text} {ts us vs : List Text}

theorem nil : Retokens [] [] :=
  fun h => ⟨h, .refl _⟩

theorem cons (h : Retokens ts us) (u : Text) : Retokens (u :: ts) (u :: us) := by
  intro ht
  obtain ⟨hu, ht⟩ := Tokenized.cons_iff.mp ht
  obtain ⟨hus, hf⟩ := h ht
  refine ⟨Tokenized.cons_iff.mpr ⟨hu.follow hf, hus⟩, ?_⟩
  rw [List.flatten_cons, List.flatten_cons]
  cases u with
  | nil => exact hf
  | cons c u => exact ⟨id, by simp⟩

theorem replace (hu : isWordControl u = true) (hv : isWordControl v = true) (hus : Tokenized us)
    (hl : opensLetter us.flatten = false) :
    Tokenized (v :: us) ∧ Follows (v :: us).flatten (u :: ts).flatten := by
  refine ⟨Tokenized.cons_iff.mpr ⟨.control (control?_of_isWordControl hv hl), hus⟩, ?_⟩
  obtain ⟨c, w, rfl, -⟩ := exists_letters_of_isWordControl hu
  obtain ⟨d, w', rfl, -⟩ := exists_letters_of_isWordControl hv
  exact ⟨fun h => h, by simp⟩

theorem filter_limits (ts : List Text) : Retokens ts (ts.filter (· ≠ limits)) := by
  induction ts with
  | nil => exact .nil
  | cons u ts ih =>
    by_cases hu : u = limits
    · rw [List.filter_cons_of_neg (by simpa using hu), hu]
      intro ht
      obtain ⟨hl, ht⟩ := Tokenized.cons_iff.mp ht
      obtain ⟨hts, hf⟩ := ih ht
      have ho := hf.opensLetter_eq_false (hl.opensLetter_eq_false (by decide))
      refine ⟨hts, fun h => absurd (ho.symm.trans h) (by decide), fun h => ?_⟩
      exact absurd (List.append_eq_nil_iff.mp h).1 (by decide)
    · rw [List.filter_cons_of_pos (by simpa using hu)]
      exact ih.cons u

theorem boldGroups (ts : List Text) : Retokens ts (boldGroups ts) := by
  fun_induction Tex.boldGroups ts with
  | case1 => exact .nil
  | case2 t ts h ih =>
    obtain ⟨rfl, hh⟩ := h
    intro ht
    obtain ⟨us, hs⟩ := List.head?_eq_some_iff.mp hh
    obtain ⟨hus, hf⟩ := ih ((Tokenized.cons_iff.mp ht).2.dropWhile _)
    have ho : opensLetter (skipBlankTokens ts).flatten = false := by
      rw [hs]
      rfl
    exact replace (by decide) (by decide) hus (hf.opensLetter_eq_false ho)
  | case3 t ts _ ih => exact ih.cons t

theorem bold_argument (hs : skipBlankTokens ts = u :: us)
    (hu : isWordControl u = true ∨ isAlphanumToken u = true) (h : Retokens us vs) :
    Retokens (bm :: ts) (mathbf :: ['{'] :: u :: ['}'] :: vs) := by
  intro ht
  have ht' : Tokenized (u :: us) := hs ▸ (Tokenized.cons_iff.mp ht).2.dropWhile isBlankToken
  obtain ⟨hvs, -⟩ := h (Tokenized.cons_iff.mp ht').2
  have hc : Tokenized (['}'] :: vs) := Tokenized.cons_iff.mpr ⟨.char (by decide), hvs⟩
  have hu' : ReadsToken (u ++ (['}'] :: vs).flatten) u (['}'] :: vs).flatten := by
    rcases hu with hu | hu
    · exact .control (control?_of_isWordControl hu rfl)
    · unfold isAlphanumToken at hu
      split at hu
      · refine .char ?_
        rintro rfl
        exact absurd hu (by decide)
      · simp at hu
  have ho : Tokenized (['{'] :: u :: ['}'] :: vs) :=
    Tokenized.cons_iff.mpr ⟨.char (by decide), Tokenized.cons_iff.mpr ⟨hu', hc⟩⟩
  exact replace (by decide) (by decide) ho rfl

theorem boldControls (ts : List Text) : Retokens ts (boldControls ts) := by
  fun_induction Tex.boldControls ts with
  | case1 => exact .nil
  | case2 ts u us hs hu ih => exact bold_argument hs (.inl hu) ih
  | case3 ts u us _ _ ih => exact ih.cons _
  | case4 ts _ ih => exact ih.cons _
  | case5 t ts _ ih => exact ih.cons t

theorem boldChars (ts : List Text) : Retokens ts (boldChars ts) := by
  fun_induction Tex.boldChars ts with
  | case1 => exact .nil
  | case2 t ts ht u us hs hu ih =>
    rw [ht.1]
    exact bold_argument hs (.inr hu) ih
  | case3 t ts _ u us _ _ ih => exact ih.cons t
  | case4 t ts _ _ ih => exact ih.cons t
  | case5 t ts _ ih => exact ih.cons t

end Retokens

theorem tokens_dropLimits (t : Text) :
    tokens (dropLimits t) = (tokens t).filter (· ≠ limits) :=
  (Retokens.filter_limits (tokens t) (tokenized_tokens t)).1

theorem tokens_unifyBold (t : Text) :
    tokens (unifyBold t) = boldChars (boldControls (boldGroups (tokens t))) := by
  have hg := (Retokens.boldGroups _ (tokenized_tokens t)).1
  have hc := (Retokens.boldControls _ hg).1
  exact (Retokens.boldChars _ hc).1

end Formula.Tex
