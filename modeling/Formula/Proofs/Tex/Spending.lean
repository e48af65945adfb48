import Mathlib.Logic.Function.Iterate
import Formula.Proofs.Tex.Unchanged
import Formula.Proofs.Tex.Weight

/-! # What the passes use up

Each pass leaves a text as it is or uses up some of a stock that no pass adds to: markers, commands to
be replaced, and blanks, of which those that are no spaces count twice. So a text that is canonicalised
again and again does not change any more after as many runs as its stock is large.
-/

namespace Formula.Tex

open Text

def isRaggedBlank (c : Char) : Bool :=
  isBlank c && c != ' '

def stock (t : Text) : Nat :=
  t.countP isMarker +
    (occurrences limits t + occurrences bm t + occurrences Accent.dot.control t +
      occurrences Accent.ddot.control t) +
    (t.countP isBlank + t.countP isRaggedBlank)

theorem weight_stock : Weight stock := by
  have hm : Weight (List.countP isMarker) := .countP (by decide) (by decide)
  have hb : Weight (List.countP isBlank) := .countP (by decide) (by decide)
  have hr : Weight (List.countP isRaggedBlank) := .countP (by decide) (by decide)
  have hl : Weight (occurrences limits) := weight_occurrences (by decide)
  have hbm : Weight (occurrences bm) := weight_occurrences (by decide)
  have hd : Weight (occurrences Accent.dot.control) := weight_occurrences (by decide)
  have hdd : Weight (occurrences Accent.ddot.control) := weight_occurrences (by decide)
  exact (hm.add (((hl.add hbm).add hd).add hdd)).add (hb.add hr)

theorem stock_marker (m : Marker) : stock [m.char] = 1 := by
  cases m <;> decide

/-! ## The size of the stock -/

theorem head?_of_startsWith {b d : Char} {w t : Text}
    (h : startsWith (b :: d :: w) (b :: t) = true) : t.head? = some d := by
  obtain ⟨r, h⟩ := startsWith_iff.mp h
  rw [← (List.cons.inj h).2]
  rfl

theorem startsWith_commands_le (t : Text) :
    (if startsWith limits ('\\' :: t) then 1 else 0) + (if startsWith bm ('\\' :: t) then 1 else 0) +
      (if startsWith Accent.dot.control ('\\' :: t) then 1 else 0) +
      (if startsWith Accent.ddot.control ('\\' :: t) then 1 else 0) ≤ 2 := by
  have hl : startsWith limits ('\\' :: t) = true → t.head? = some 'l' := head?_of_startsWith
  have hb : startsWith bm ('\\' :: t) = true → t.head? = some 'b' := head?_of_startsWith
  have hd : startsWith Accent.dot.control ('\\' :: t) = true → t.head? = some 'd' :=
    head?_of_startsWith
  have hdd : startsWith Accent.ddot.control ('\\' :: t) = true → t.head? = some 'd' :=
    head?_of_startsWith
  split_ifs <;> simp_all

theorem stock_singleton (c : Char) :
    stock [c] = [c].countP isMarker + ([c].countP isBlank + [c].countP isRaggedBlank) := by
  have ho : ∀ {p : Text}, isWordControl p = true → occurrences p [c] = 0 := by
    intro p hp
    obtain ⟨d, w, rfl, -⟩ := exists_letters_of_isWordControl hp
    simp [occurrences, startsWith, after?]
  rw [stock, ho (by decide), ho (by decide), ho (by decide), ho (by decide), Nat.add_zero]

theorem stock_singleton_le (c : Char) : stock [c] ≤ 2 := by
  have hm : isBlank c = true → isMarker c = false := isMarker_of_isBlank
  have hr : isRaggedBlank c = true → isBlank c = true := fun h => (Bool.and_eq_true_iff.mp h).1
  rw [stock_singleton]
  simp only [List.countP_singleton]
  split_ifs <;> simp_all

theorem stock_blank {b : Char} (hb : isBlank b = true) : stock [b] = if b = ' ' then 1 else 2 := by
  have hm := isMarker_of_isBlank hb
  have hr : isRaggedBlank b = !decide (b = ' ') := by
    simp [isRaggedBlank, hb, bne, beq_eq_decide]
  rw [stock_singleton]
  simp only [List.countP_singleton, hm, hb, hr]
  split_ifs <;> simp_all

theorem stock_backslash (t : Text) :
    stock ('\\' :: t) = (if startsWith limits ('\\' :: t) then 1 else 0) +
      (if startsWith bm ('\\' :: t) then 1 else 0) +
      (if startsWith Accent.dot.control ('\\' :: t) then 1 else 0) +
      (if startsWith Accent.ddot.control ('\\' :: t) then 1 else 0) + stock t := by
  have hm : isMarker '\\' = false := by decide
  have hb : isBlank '\\' = false := by decide
  have hr : isRaggedBlank '\\' = false := by decide
  simp only [stock, List.countP_cons, occurrences, hm, hb, hr]
  simp only [Bool.false_eq_true, if_false]
  omega

theorem stock_le (t : Text) : stock t ≤ 2 * t.length := by
  induction t with
  | nil => decide
  | cons c t ih =>
    rw [List.length_cons]
    by_cases hc : c = '\\'
    · subst hc
      have hs := stock_backslash t
      have hw := startsWith_commands_le t
      omega
    · have h₁ := weight_stock.char hc t
      have h₂ := stock_singleton_le c
      omega

/-! ## Spending -/

/-- The text is unchanged, or its stock is smaller wherever it stands behind another text. -/
def Spends (t t' : Text) : Prop :=
  t' = t ∨ ∀ s, stock (s ++ t') < stock (s ++ t)

namespace Spends

variable {t t' t'' : Text}

theorem refl (t : Text) : Spends t t :=
  .inl rfl

theorem stock_append_le (h : Spends t t') (s : Text) : stock (s ++ t') ≤ stock (s ++ t) := by
  rcases h with rfl | h
  · exact Nat.le_refl _
  · exact (h s).le

theorem stock_le (h : Spends t t') : stock t' ≤ stock t :=
  h.stock_append_le []

theorem stock_lt (h : Spends t t') (hne : t' ≠ t) : stock t' < stock t := by
  rcases h with rfl | h
  · exact absurd rfl hne
  · exact h []

theorem trans (h : Spends t t') (h' : Spends t' t'') : Spends t t'' := by
  rcases h with rfl | h
  · exact h'
  · exact .inr fun s => (h'.stock_append_le s).trans_lt (h s)

theorem append (h : Spends t t') (u : Text) : Spends (u ++ t) (u ++ t') := by
  rcases h with rfl | h
  · exact .refl _
  · refine .inr fun s => ?_
    rw [← List.append_assoc, ← List.append_assoc]
    exact h (s ++ u)

/-- One part that is replaced uses up some of the stock, whatever becomes of what follows it. -/
theorem replace {a b : Text} (hab : ∀ s, stock (s ++ (b ++ t)) < stock (s ++ (a ++ t)))
    (h : Spends t t') : Spends (a ++ t) (b ++ t') := by
  refine .inr fun s => ?_
  have hb := h.stock_append_le (s ++ b)
  rw [List.append_assoc, List.append_assoc] at hb
  exact hb.trans_lt (hab s)

end Spends

/-! ## Limits and bold -/

theorem spends_dropLimits (t : Text) : Spends t (dropLimits t) := by
  unfold dropLimits
  fun_induction tokens t with
  | case1 => exact .refl _
  | case2 c r name rest h ih =>
    rw [(eq_append_of_control? h).1]
    by_cases hn : name = limits
    · subst hn
      rw [List.filter_cons_of_neg (by simp)]
      refine Spends.replace (b := []) (fun s => ?_) ih
      have hr : opensLetter rest = false := opensLetter_of_control? h (by decide)
      have h₁ := weight_stock.le_append s (limits ++ rest)
      have h₂ := weight_stock.append limits hr
      have h₃ : stock limits = 1 := by decide
      rw [List.nil_append, weight_stock.append s hr]
      omega
    · rw [List.filter_cons_of_pos (by simpa using hn), List.flatten_cons]
      exact ih.append name
  | case3 c r h ih =>
    have hne : [c] ≠ limits :=
      fun h => absurd (congrArg List.length h) (show (1 : Nat) ≠ 7 by decide)
    rw [List.filter_cons_of_pos (by simpa using hne), List.flatten_cons]
    exact ih.append [c]

theorem Sweep.spends {R : List Text → List Text → Prop}
    (hR : ∀ a b, R a b → ∀ s t, stock (s ++ (b.flatten ++ t)) < stock (s ++ (a.flatten ++ t)))
    {ts us : List Text} (h : Sweep R ts us) : Spends ts.flatten us.flatten := by
  induction h with
  | nil => exact .refl _
  | keep _ ih => exact ih.append _
  | @replace a b ts us hab _ ih =>
    rw [List.flatten_append, List.flatten_append]
    exact ih.replace fun s => hR a b hab s ts.flatten

/-- None of the commands begins as `\mathbf` does. -/
theorem stock_mathbf_append (t : Text) : stock (mathbf ++ t) = stock t := by
  have hc : ∀ c : Char, c ≠ '\\' → stock [c] = 0 → ∀ u, stock (c :: u) = stock u := by
    intro c hb h₀ u
    rw [weight_stock.char hb, h₀, Nat.zero_add]
  have hb : ∀ u, stock ('\\' :: 'm' :: u) = stock ('m' :: u) := by
    intro u
    have hl : startsWith limits ('\\' :: 'm' :: u) = false := rfl
    have hbm : startsWith bm ('\\' :: 'm' :: u) = false := rfl
    have hd : startsWith Accent.dot.control ('\\' :: 'm' :: u) = false := rfl
    have hdd : startsWith Accent.ddot.control ('\\' :: 'm' :: u) = false := rfl
    rw [stock_backslash, hl, hbm, hd, hdd]
    exact Nat.zero_add _
  change stock ('\\' :: 'm' :: 'a' :: 't' :: 'h' :: 'b' :: 'f' :: t) = stock t
  rw [hb, hc 'm', hc 'a', hc 't', hc 'h', hc 'b', hc 'f'] <;> decide

theorem stock_append_mathbf (s t : Text) : stock (s ++ (mathbf ++ t)) = stock s + stock t := by
  rw [weight_stock.append s rfl, stock_mathbf_append]

theorem BoldStep.stock_lt {a b : List Text} (h : BoldStep a b) (s t : Text) :
    stock (s ++ (b.flatten ++ t)) < stock (s ++ (a.flatten ++ t)) := by
  have hbm : stock bm = 1 := by decide
  cases h with
  | @group gap _ =>
    have h₁ := weight_stock.le_append s (bm ++ (gap.flatten ++ t))
    have h₂ := weight_stock.le_append bm (gap.flatten ++ t)
    have h₃ := weight_stock.le_append gap.flatten t
    simp only [List.flatten_cons, List.flatten_nil, List.append_nil, List.append_assoc,
      stock_append_mathbf]
    omega
  | @argument gap u _ _ =>
    obtain ⟨ha, hb⟩ := flatten_bold_argument gap u
    have h₁ := weight_stock.le_append s (bm ++ (gap.flatten ++ (u ++ t)))
    have h₂ := weight_stock.le_append bm (gap.flatten ++ (u ++ t))
    have h₃ := weight_stock.le_append gap.flatten (u ++ t)
    have h₄ := weight_stock.le_append u t
    rw [ha, hb]
    simp only [List.append_assoc, stock_append_mathbf, weight_stock.braced_append]
    omega

theorem spends_unifyBold (t : Text) : Spends t (unifyBold t) := by
  have hB : ∀ a b, BoldStep a b → ∀ s t,
      stock (s ++ (b.flatten ++ t)) < stock (s ++ (a.flatten ++ t)) :=
    fun _ _ => BoldStep.stock_lt
  have hg := (sweep_boldGroups (tokens t)).spends hB
  have hc := (sweep_boldControls (boldGroups (tokens t))).spends hB
  have ha := (sweep_boldChars (boldControls (boldGroups (tokens t)))).spends hB
  rw [flatten_tokens] at hg
  exact (hg.trans hc).trans ha

/-! ## Text blocks -/

theorem stock_append_blank {b : Char} (hb : isBlank b = true) (s t : Text) :
    stock (s ++ b :: t) = stock s + (stock [b] + stock t) := by
  rw [weight_stock.append s (opensLetter_cons (isAlpha_of_isBlank hb) t),
    weight_stock.char (ne_of_isBlank hb).1 t]

theorem stock_pos_of_allBlank {t : Text} (h : allBlank t = true) (hne : t ≠ []) : 0 < stock t := by
  obtain ⟨b, t, rfl⟩ := List.exists_cons_of_ne_nil hne
  have hb := isBlank_of_allBlank h b List.mem_cons_self
  have hs := stock_blank hb
  rw [weight_stock.char (ne_of_isBlank hb).1]
  split_ifs at hs <;> omega

theorem opensLetter_of_allBlank {t : Text} (h : allBlank t = true) : opensLetter t = false := by
  simpa using opensLetter_blanks_append h (t := []) rfl

theorem stock_lead_append {lead : Text} (hl : allBlank lead = true) (t : Text) :
    stock (lead ++ t) = stock lead + stock t := by
  induction lead with
  | nil => rw [weight_stock.nil, List.nil_append, Nat.zero_add]
  | cons b lead ih =>
    simp only [allBlank, List.all_cons, Bool.and_eq_true] at hl
    have hb := (ne_of_isBlank hl.1).1
    rw [List.cons_append, weight_stock.char hb, weight_stock.char hb lead, ih hl.2, Nat.add_assoc]

theorem tidyBlanks_eq_or_stock_lt (t : Text) : tidyBlanks t = t ∨ stock (tidyBlanks t) < stock t := by
  induction worded t with
  | @blank t ht =>
    rw [tidyBlanks_blank ht]
    by_cases hne : t = []
    · exact .inl hne.symm
    · exact .inr (stock_pos_of_allBlank ht hne)
  | @last lead word trail hl hne hw ht =>
    rw [tidyBlanks_last hl hne hw ht, weight_stock.append _ (opensLetter_of_allBlank ht),
      stock_lead_append hl]
    by_cases hlead : lead = []
    · by_cases htrail : trail = []
      · simp [hlead, htrail]
      · have := stock_pos_of_allBlank ht htrail
        exact .inr (by omega)
    · have := stock_pos_of_allBlank hl hlead
      exact .inr (by omega)
  | @cons lead word t b hl hne hw hb ht _ ih =>
    have hspace : stock [' '] = 1 := stock_blank (by decide)
    have hs := stock_blank hb
    have hle : stock (tidyBlanks t) ≤ stock t := by
      rcases ih with h | h
      · rw [h]
      · exact h.le
    rw [tidyBlanks_cons hl hne hw hb ht, stock_append_blank (by decide), stock_append_blank hb,
      stock_lead_append hl, hspace, hs]
    by_cases hlead : lead = []
    · split_ifs with hb'
      · subst hb' hlead
        rcases ih with h | h
        · simp [h]
        · exact .inr (by omega)
      · exact .inr (by omega)
    · have := stock_pos_of_allBlank hl hlead
      right
      split_ifs <;> omega

theorem ReadsPart.spends {t rest : Text} {p : Part} (h : ReadsPart t p rest) {t' : Text}
    (ht : Spends rest t') : Spends (p.source ++ rest) (p.tidied ++ t') := by
  cases p with
  | copied u => exact ht.append u
  | block name gap body =>
    rcases tidyBlanks_eq_or_stock_lt body with h | h
    · simp only [Part.source, Part.tidied, h]
      exact ht.append _
    · refine ht.replace fun s => ?_
      simp only [Part.source, Part.tidied, List.append_assoc]
      have e : ∀ u, s ++ (name ++ (gap ++ (braced u ++ rest))) =
          (s ++ (name ++ gap)) ++ (braced u ++ rest) := by simp
      rw [e, e, weight_stock.append_braced, weight_stock.append_braced]
      omega

theorem spends_tidyRunningText (t : Text) : Spends t (tidyRunningText t) := by
  induction t using parts_induction with
  | nil => simpa [tidyRunningText] using Spends.refl []
  | cons t p rest hr hs _ ih =>
    rw [hs, hr.eq_append]
    exact hr.spends ih

/-! ## Prescripts and accents -/

theorem ScriptPair.stock_markers_pos (l : ScriptPair) : 0 < stock l.markers := by
  obtain ⟨⟨m, v⟩, second⟩ := l
  have hm := stock_marker m
  have hc := weight_stock.char m.char_ne.1 (second.toList.map fun s => s.marker.char)
  change 0 < stock (m.char :: second.toList.map fun s => s.marker.char)
  omega

theorem stock_written_prescript (l : ScriptPair) (a : Atom) (s t : Text) :
    stock (s ++ ((Segment.prescript l a).written ++ t)) =
      stock s + (stock (l.value .sup) + stock (l.value .sub) + stock a.base + stock t) :=
  weight_written_prescript weight_stock (by decide) (by decide) l a s t

theorem ReadsSegment.spends {before t source rest t' : Text} {s : Segment}
    (h : ReadsSegment before t s source rest) (ht : Spends rest t') :
    Spends t (s.written ++ t') := by
  cases h with
  | @prescript source middle rest l a hl ha _ =>
    refine ht.replace fun s => ?_
    have h₁ := weight_leadingScripts?_le weight_stock hl
    have h₂ := weight_atom?_le weight_stock ha
    have h₃ := ScriptPair.weight_values weight_stock (distinct_of_leadingScripts? hl)
    have h₄ := l.stock_markers_pos
    have h₅ := weight_stock.le_append s (source ++ rest)
    rw [stock_written_prescript]
    omega
  | control h =>
    rw [(eq_append_of_control? h).1]
    exact ht.append _
  | backslash | char _ _ | lone _ _ | sizing _ _ _ => exact ht.append _

theorem spends_gatherPrescripts (t : Text) : Spends t (gatherPrescripts t) := by
  have h : ∀ before t, Spends t (gatherBehind before t) := by
    intro before t
    induction before, t using segmentsBehind_induction with
    | nil before => simpa using Spends.refl []
    | cons before t s source rest hr _ ih =>
      rw [hr.gatherBehind_eq]
      exact hr.spends ih
  exact h [] t

theorem stock_written_overset (accent : Accent) (a : Atom) (s t : Text) :
    stock (s ++ ((Stretch.overset accent a).written ++ t)) =
      stock s + (stock a.base + stock t) := by
  have hg : stock [accent.glyph] = 0 := by cases accent <;> decide
  exact weight_written_overset weight_stock (by decide) hg a s t

theorem ReadsStretch.spends {t source rest t' : Text} {s : Stretch}
    (h : ReadsStretch t s source rest) (ht : Spends rest t') : Spends t (s.written ++ t') := by
  cases h with
  | char _ => exact ht.append _
  | control h _ =>
    rw [(eq_append_of_control? h).1]
    exact ht.append _
  | @overset _ source rest accent a h ha =>
    rw [(eq_append_of_control? h).1, ← List.append_assoc]
    refine ht.replace fun s => ?_
    have hc : stock accent.control = 1 := by cases accent <;> decide
    have h₁ := weight_atom?_le weight_stock ha
    have h₂ := weight_stock.le_append accent.control (source ++ rest)
    have h₃ := weight_stock.le_append s (accent.control ++ (source ++ rest))
    rw [stock_written_overset, List.append_assoc]
    omega

theorem spends_oversetAccents (t : Text) : Spends t (oversetAccents t) := by
  unfold oversetAccents
  induction t using stretches_induction with
  | nil => simpa [stretches] using Spends.refl []
  | cons t s source rest hr e ih =>
    rw [e, List.flatMap_cons]
    exact hr.spends ih

/-! ## Runs -/

def passes : List (Text → Text) :=
  [dropLimits, unifyBold, tidyRunningText, gatherPrescripts, oversetAccents]

theorem canonical_eq_foldl (t : Text) : canonical t = passes.foldl (fun t pass => pass t) t := rfl

theorem spends_of_mem_passes {pass : Text → Text} (h : pass ∈ passes) (t : Text) :
    Spends t (pass t) := by
  simp only [passes, List.mem_cons, List.not_mem_nil, or_false] at h
  rcases h with rfl | rfl | rfl | rfl | rfl
  · exact spends_dropLimits t
  · exact spends_unifyBold t
  · exact spends_tidyRunningText t
  · exact spends_gatherPrescripts t
  · exact spends_oversetAccents t

theorem spends_foldl {fs : List (Text → Text)} (h : ∀ f ∈ fs, ∀ t, Spends t (f t)) (t : Text) :
    Spends t (fs.foldl (fun t f => f t) t) := by
  induction fs generalizing t with
  | nil => exact .refl t
  | cons f fs ih =>
    obtain ⟨hf, hfs⟩ := List.forall_mem_cons.mp h
    exact (hf t).trans (ih hfs (f t))

theorem spends_canonical (t : Text) : Spends t (canonical t) := by
  rw [canonical_eq_foldl]
  exact spends_foldl (fun _ => spends_of_mem_passes) t

theorem spends_iterate_canonical (n : Nat) (t : Text) : Spends t (canonical^[n] t) := by
  induction n generalizing t with
  | zero => exact .refl t
  | succ n ih =>
    rw [Function.iterate_succ_apply]
    exact (spends_canonical t).trans (ih (canonical t))

/-- The runs that change something are no more than there is in stock. -/
theorem exists_iterate_canonical_fixed (t : Text) :
    ∃ n ≤ stock t, canonical (canonical^[n] t) = canonical^[n] t := by
  induction h : stock t using Nat.strongRecOn generalizing t with
  | ind k ih =>
    by_cases hc : canonical t = t
    · exact ⟨0, Nat.zero_le _, hc⟩
    · have hlt := (spends_canonical t).stock_lt hc
      obtain ⟨n, hn, hfix⟩ := ih _ (h ▸ hlt) (canonical t) rfl
      refine ⟨n + 1, by omega, ?_⟩
      rw [Function.iterate_succ_apply]
      exact hfix

/-- A pass that changes a text uses up some of its stock, which none adds to. So canonicalising never
comes back to a text that it has changed, and it comes to rest after two runs for each character. -/
theorem stock_of_passes :
    (∀ pass ∈ passes, ∀ t, stock (pass t) ≤ stock t ∧ (pass t ≠ t → stock (pass t) < stock t)) ∧
      (∀ t n, canonical^[n + 1] t = t → canonical t = t) ∧
      ∀ t, ∃ n ≤ 2 * t.length, canonical (canonical^[n] t) = canonical^[n] t := by
  refine ⟨?_, ?_, ?_⟩
  · intro pass h t
    have hs := spends_of_mem_passes h t
    exact ⟨hs.stock_le, hs.stock_lt⟩
  · intro t n h
    by_contra hc
    have h₁ := (spends_canonical t).stock_lt hc
    have h₂ := (spends_iterate_canonical n (canonical t)).stock_le
    rw [← Function.iterate_succ_apply, h] at h₂
    omega
  · intro t
    obtain ⟨n, hn, h⟩ := exists_iterate_canonical_fixed t
    exact ⟨n, hn.trans (stock_le t), h⟩

theorem stock_of_passes_of_limits :
    let t := "\\lim\\limits_n".toList
    dropLimits ∈ passes ∧ dropLimits t ≠ t ∧ stock (dropLimits t) < stock t ∧
      ∃ n ≤ 26, canonical (canonical^[n] t) = canonical^[n] t := by
  intro t
  have hmem : dropLimits ∈ passes := by simp [passes]
  have hne : dropLimits t ≠ t := by decide +kernel
  obtain ⟨hpass, -, hruns⟩ := stock_of_passes
  obtain ⟨n, hn, h⟩ := hruns t
  have hlength : t.length = 13 := by decide
  exact ⟨hmem, hne, (hpass _ hmem t).2 hne, n, by omega, h⟩

end Formula.Tex
