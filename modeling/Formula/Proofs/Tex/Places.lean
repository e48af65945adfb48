import Formula.Proofs.Compile.Decoding
import Formula.Proofs.Tex.Spending

/-! # Places of a command that a source lacks

A command that stands nowhere in a source, and that no pass writes, stands nowhere in what the passes make
of the source. A command that a pass does write then stands only where the pass has written it: what begins
with the command in the output begins where a prescript, or an accent with its target, begins.
-/

namespace Formula.Tex

open Text Compile

/-! ## Cleaning -/

/-- The second text weighs no more than the first one, wherever they stand. -/
def Lightens (f : Text → Nat) (t t' : Text) : Prop :=
  ∀ s, f (s ++ t') ≤ f (s ++ t)

namespace Lightens

variable {f : Text → Nat} {t t' t'' : Text}

theorem refl (f : Text → Nat) (t : Text) : Lightens f t t :=
  fun _ => Nat.le_refl _

theorem trans (h : Lightens f t t') (h' : Lightens f t' t'') : Lightens f t t'' :=
  fun s => (h' s).trans (h s)

theorem append (h : Lightens f t t') (u : Text) : Lightens f (u ++ t) (u ++ t') := by
  intro s
  rw [← List.append_assoc, ← List.append_assoc]
  exact h (s ++ u)

theorem replace {a b : Text} (hab : ∀ s, f (s ++ (b ++ t)) ≤ f (s ++ (a ++ t))) (h : Lightens f t t') :
    Lightens f (a ++ t) (b ++ t') := by
  intro s
  have hb := h (s ++ b)
  rw [List.append_assoc, List.append_assoc] at hb
  exact hb.trans (hab s)

end Lightens

section Cleaning

variable {f : Text → Nat} (hf : Weight f)

include hf

theorem lightens_dropLimits (t : Text) : Lightens f t (dropLimits t) := by
  unfold dropLimits
  fun_induction tokens t with
  | case1 => exact .refl f _
  | case2 c r name rest h ih =>
    rw [(eq_append_of_control? h).1]
    by_cases hn : name = limits
    · subst hn
      rw [List.filter_cons_of_neg (by simp)]
      refine Lightens.replace (b := []) (fun s => ?_) ih
      have hr : opensLetter rest = false := opensLetter_of_control? h (by decide)
      have h₁ := hf.le_append s (limits ++ rest)
      have h₂ := hf.le_append limits rest
      rw [List.nil_append, hf.append s hr]
      omega
    · rw [List.filter_cons_of_pos (by simpa using hn), List.flatten_cons]
      exact ih.append name
  | case3 c r h ih =>
    have hne : [c] ≠ limits :=
      fun h => absurd (congrArg List.length h) (show (1 : Nat) ≠ 7 by decide)
    rw [List.filter_cons_of_pos (by simpa using hne), List.flatten_cons]
    exact ih.append [c]

theorem lightens_of_sweep (hm : ∀ t, f (mathbf ++ t) = f t) {ts us : List Text}
    (h : Sweep BoldStep ts us) : Lightens f ts.flatten us.flatten := by
  have hmathbf : ∀ s t, f (s ++ (mathbf ++ t)) = f s + f t := fun s t => by
    rw [hf.append s rfl, hm]
  induction h with
  | nil => exact .refl f _
  | keep _ ih => exact ih.append _
  | @replace a b ts us hab _ ih =>
    rw [List.flatten_append, List.flatten_append]
    refine ih.replace fun s => ?_
    generalize ts.flatten = t
    cases hab with
    | @group gap _ =>
      have h₁ := hf.le_append s (bm ++ (gap.flatten ++ t))
      have h₂ := hf.le_append bm (gap.flatten ++ t)
      have h₃ := hf.le_append gap.flatten t
      simp only [List.flatten_cons, List.flatten_nil, List.append_nil, List.append_assoc, hmathbf]
      omega
    | @argument gap u _ _ =>
      obtain ⟨ha, hb⟩ := flatten_bold_argument gap u
      have h₁ := hf.le_append s (bm ++ (gap.flatten ++ (u ++ t)))
      have h₂ := hf.le_append bm (gap.flatten ++ (u ++ t))
      have h₃ := hf.le_append gap.flatten (u ++ t)
      have h₄ := hf.le_append u t
      rw [ha, hb]
      simp only [List.append_assoc, hmathbf, hf.braced_append]
      omega

theorem lightens_unifyBold (hm : ∀ t, f (mathbf ++ t) = f t) (t : Text) : Lightens f t (unifyBold t) := by
  have hg := lightens_of_sweep hf hm (sweep_boldGroups (tokens t))
  have hc := lightens_of_sweep hf hm (sweep_boldControls (boldGroups (tokens t)))
  have ha := lightens_of_sweep hf hm (sweep_boldChars (boldControls (boldGroups (tokens t))))
  rw [flatten_tokens] at hg
  exact (hg.trans hc).trans ha

theorem weight_tidyBlanks_le (hb : ∀ b, isBlank b = true → f [' '] ≤ f [b]) (t : Text) :
    f (tidyBlanks t) ≤ f t := by
  induction worded t with
  | blank ht =>
    rw [tidyBlanks_blank ht, hf.nil]
    exact Nat.zero_le _
  | @last lead word trail hl hne hw ht =>
    have h₁ := hf.le_append (lead ++ word) trail
    have h₂ := hf.le_append lead word
    rw [tidyBlanks_last hl hne hw ht]
    omega
  | @cons lead word t b hl hne hw hblank ht _ ih =>
    have hsplit : ∀ (s : Text) {c : Char}, isBlank c = true → ∀ u, f (s ++ c :: u) = f s + (f [c] + f u) := by
      intro s c hc u
      rw [hf.append s (opensLetter_cons (isAlpha_of_isBlank hc) u), hf.char (ne_of_isBlank hc).1]
    have h₁ := hf.le_append lead word
    have h₂ := hb b hblank
    rw [tidyBlanks_cons hl hne hw hblank ht, hsplit _ (by decide), hsplit _ hblank]
    omega

theorem lightens_tidyRunningText (hb : ∀ b, isBlank b = true → f [' '] ≤ f [b]) (t : Text) :
    Lightens f t (tidyRunningText t) := by
  induction t using parts_induction with
  | nil => simpa [tidyRunningText] using Lightens.refl f []
  | cons t p rest hr hs _ ih =>
    rw [hs, hr.eq_append]
    cases p with
    | copied u => exact ih.append u
    | block name gap body =>
      refine ih.replace fun s => ?_
      have hle := weight_tidyBlanks_le hf hb body
      have e : ∀ u, s ++ (name ++ gap ++ braced u ++ rest) = (s ++ (name ++ gap)) ++ (braced u ++ rest) := by
        simp
      rw [Part.source, Part.tidied, e, e, hf.append_braced, hf.append_braced]
      omega

end Cleaning

/-! ## Commands that are absent -/

section Absent

variable {p : Text} (hp : isWordControl p = true)

include hp

theorem occurrences_append_of_not_mem {u : Text} (hu : '\\' ∉ u) (t : Text) :
    occurrences p (u ++ t) = occurrences p t := by
  induction u with
  | nil => rfl
  | cons c u ih =>
    have hs := startsWith_of_ne hp (List.ne_of_not_mem_cons hu).symm (u ++ t)
    rw [List.cons_append, occurrences, hs, ih (List.not_mem_of_not_mem_cons hu)]
    exact Nat.zero_add _

/-- Cleaning brings no command about, `\mathbf` apart. -/
theorem occurrences_clean (hm : ∀ t, startsWith p (mathbf ++ t) = false) {t : Text}
    (h : occurrences p t = 0) : occurrences p (clean t) = 0 := by
  have hw := weight_occurrences hp
  have hmathbf : ∀ t, occurrences p (mathbf ++ t) = occurrences p t := by
    intro t
    have hs : startsWith p ('\\' :: ("mathbf".toList ++ t)) = false := hm t
    change occurrences p ('\\' :: ("mathbf".toList ++ t)) = occurrences p t
    rw [occurrences, hs, occurrences_append_of_not_mem hp (by decide)]
    exact Nat.zero_add _
  have hblank : ∀ b, isBlank b = true → occurrences p [' '] ≤ occurrences p [b] := fun b _ => by
    rw [← List.append_nil [' '], occurrences_append_of_not_mem hp (by decide)]
    exact Nat.zero_le _
  have h₁ := lightens_dropLimits hw t []
  have h₂ := lightens_unifyBold hw hmathbf (dropLimits t) []
  have h₃ := lightens_tidyRunningText hw hblank (unifyBold (dropLimits t)) []
  simp only [List.nil_append] at h₁ h₂ h₃
  rw [clean]
  omega

theorem occurrences_gatherBehind (hspacing : occurrences p spacing = 0)
    (hprescript : occurrences p Tex.prescript = 0) (hstrut : occurrences p strut = 0) {before t : Text}
    (h : occurrences p t = 0) : occurrences p (gatherBehind before t) = 0 := by
  have hw := weight_occurrences hp
  induction before, t using segmentsBehind_induction with
  | nil before => rw [gatherBehind_nil, occurrences]
  | cons before t s source rest hr _ ih =>
    have hle := hw.le_append source rest
    rw [← hr.eq_append] at hle
    have ih := ih (by omega)
    rw [hr.gatherBehind_eq]
    cases hr with
    | prescript hl ha _ =>
      rw [written_prescript_append, hw.append spacing rfl, occurrences_bare hp hprescript hstrut hl ha h]
      omega
    | control hc =>
      exact (printer_written.occurrences_copied hp (eq_append_of_control? hc).1 h).trans ih
    | backslash | char _ _ | lone _ _ | sizing _ _ _ =>
      exact (printer_written.occurrences_copied hp rfl h).trans ih

/-! ## Commands that are written -/

/-- No place of the command begins in the part of a text that has none more than the rest. -/
theorem startsWith_eq_false_of_occurrences {u t b : Text} (h : occurrences p (u ++ t) = occurrences p t)
    (hb : b <:+ u) (hne : b ≠ []) : startsWith p (b ++ t) = false := by
  obtain ⟨a, rfl⟩ := hb
  obtain ⟨c, b, rfl⟩ := List.exists_cons_of_ne_nil hne
  have h₁ := (weight_occurrences hp).le_append a (c :: b ++ t)
  have h₂ := (weight_occurrences hp).le_append (c :: b) t
  rw [List.append_assoc] at h
  exact (startsWith_of_occurrences_cons hp (by omega)).1

theorem suffix_of_occurrences {u t s : Text} (h : occurrences p (u ++ t) = occurrences p t)
    (hs : s <:+ u ++ t) (hsp : startsWith p s = true) : s <:+ t := by
  obtain ⟨a, e⟩ := hs
  rcases List.append_eq_append_iff.mp e with ⟨b, rfl, rfl⟩ | ⟨b, -, rfl⟩
  · by_cases hb : b = []
    · rw [hb]
      exact List.suffix_rfl
    · rw [startsWith_eq_false_of_occurrences hp h (List.suffix_append a b) hb] at hsp
      cases hsp
  · exact List.suffix_append b s

/-- The front may begin with the command. -/
theorem suffix_cases_of_occurrences {c : Char} {u t s : Text}
    (h : occurrences p (u ++ t) = occurrences p t) (hs : s <:+ c :: u ++ t)
    (hsp : startsWith p s = true) : s = c :: u ++ t ∨ s <:+ t := by
  rw [List.cons_append, List.suffix_cons_iff] at hs
  exact hs.imp_right fun hs => suffix_of_occurrences hp h hs hsp

end Absent

end Formula.Tex
