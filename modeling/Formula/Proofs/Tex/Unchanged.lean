import Formula.Proofs.Tex.Counting
import Formula.Proofs.Tex.TextBlock

/-! # When a pass changes nothing

Each of the five passes leaves a text alone exactly if there is nothing in it for the pass to do. What a
pass does shows in a count: dropping limits loses letters, bold gains the letter `f`, prescripts lose
markers, and accents gain their glyph. The other passes keep these counts.
-/

namespace Formula.Tex

open Text

/-! ## Sweeps -/

section Sweeps

variable {R : List Text → List Text → Prop} {ts us : List Text}

theorem Sweep.countP {p : Char → Bool}
    (hR : ∀ a b, R a b → b.flatten.countP p = a.flatten.countP p) (h : Sweep R ts us) :
    us.flatten.countP p = ts.flatten.countP p := by
  induction h with
  | nil => rfl
  | keep _ ih => rw [List.flatten_cons, List.flatten_cons, List.countP_append, List.countP_append, ih]
  | replace hab _ ih =>
    rw [List.flatten_append, List.flatten_append, List.countP_append, List.countP_append, ih,
      hR _ _ hab]

theorem Sweep.countP_le {p : Char → Bool}
    (hR : ∀ a b, R a b → a.flatten.countP p < b.flatten.countP p) (h : Sweep R ts us) :
    ts.flatten.countP p ≤ us.flatten.countP p ∧
      (us.flatten.countP p = ts.flatten.countP p → us = ts) := by
  induction h with
  | nil => simp
  | keep _ ih =>
    simp only [List.flatten_cons, List.countP_append, List.cons.injEq, true_and]
    exact ⟨by omega, fun h => ih.2 (by omega)⟩
  | replace hab _ ih =>
    have := hR _ _ hab
    simp only [List.flatten_append, List.countP_append]
    exact ⟨by omega, fun h => by omega⟩

end Sweeps

theorem Sweep.flip {R : List Text → List Text → Prop} {ts us : List Text} (h : Sweep R ts us) :
    Sweep (fun a b => R b a) us ts := by
  induction h with
  | nil => exact .nil
  | keep _ ih => exact .keep ih
  | replace hab _ ih => exact .replace hab ih

/-! ## Limits -/

theorem dropLimits_of_not_mem {t : Text} (h : limits ∉ tokens t) : dropLimits t = t := by
  have hf : (tokens t).filter (· ≠ limits) = tokens t := by
    rw [List.filter_eq_self]
    intro u hu
    have hne : u ≠ limits := by
      rintro rfl
      exact h hu
    simpa using hne
  rw [dropLimits, hf, flatten_tokens]

theorem countP_dropLimits {p : Char → Bool} (hp : limits.countP p = 0) (t : Text) :
    (dropLimits t).countP p = t.countP p := by
  have hs := (sweep_filter_limits (tokens t)).countP (p := p) fun a b h => by
    cases h
    simp [hp]
  rw [dropLimits, hs, flatten_tokens]

theorem not_mem_of_countP_dropLimits {t : Text}
    (h : (dropLimits t).countP (· == 'l') = t.countP (· == 'l')) : limits ∉ tokens t := by
  have hs := (sweep_filter_limits (tokens t)).flip.countP_le (p := (· == 'l')) fun a b h => by
    cases h
    decide
  have he : tokens t = (tokens t).filter (· ≠ limits) := by
    apply hs.2
    rw [flatten_tokens, ← h]
    rfl
  intro hm
  rw [he] at hm
  simpa using (List.mem_filter.mp hm).2

/-! ## Bold -/

/-- The test fails on all that the commands of a sweep are written with. -/
structure Foreign (p : Char → Bool) : Prop extends Solid p where
  backslash : p '\\' = false
  letter : ∀ c, Char.isAlpha c = true → p c = false

theorem Foreign.countP_isWordControl {p : Char → Bool} (hp : Foreign p) {name : Text}
    (h : isWordControl name = true) : name.countP p = 0 := by
  unfold isWordControl at h
  split at h
  · rw [List.countP_cons, hp.backslash, List.countP_eq_zero.mpr]
    · rfl
    · intro c hc
      simp [hp.letter c (List.all_eq_true.mp h c hc)]
  · simp at h

theorem Solid.countP_blankTokens {p : Char → Bool} (hp : Solid p) {gap : List Text}
    (hg : ∀ u ∈ gap, isBlankToken u = true) : gap.flatten.countP p = 0 := by
  rw [List.countP_eq_zero]
  intro c hc
  obtain ⟨u, hu, hc⟩ := List.mem_flatten.mp hc
  have hb := hg u hu
  unfold isBlankToken at hb
  split at hb
  · obtain rfl := List.mem_singleton.mp hc
    simp [hp.blank _ hb]
  · simp at hb

theorem BoldStep.countP {p : Char → Bool} (hp : Foreign p) {a b : List Text} (h : BoldStep a b) :
    b.flatten.countP p = a.flatten.countP p := by
  have hb : bm.countP p = 0 := hp.countP_isWordControl (by decide)
  have hm : mathbf.countP p = 0 := hp.countP_isWordControl (by decide)
  cases h with
  | group hg =>
    have hz := hp.countP_blankTokens hg
    simp only [List.flatten_cons, List.flatten_nil, List.countP_append, List.countP_nil, hb, hm, hz]
  | @argument gap u hg _ =>
    obtain ⟨ha, hb'⟩ := flatten_bold_argument gap u
    rw [ha, hb', List.countP_append, List.countP_append, List.countP_append, hp.tally.braced,
      hp.countP_blankTokens hg, hb, hm]
    omega

theorem BoldStep.countP_lt {a b : List Text} (h : BoldStep a b) :
    a.flatten.countP (· == 'f') < b.flatten.countP (· == 'f') := by
  have hp : Solid (· == 'f') :=
    { blank := fun _ => beq_eq_false_of_isBlank (by decide)
      opening := by decide
      closing := by decide }
  have hb : bm.countP (· == 'f') = 0 := by decide
  have hm : mathbf.countP (· == 'f') = 1 := by decide
  cases h with
  | group hg =>
    have hz := hp.countP_blankTokens hg
    simp only [List.flatten_cons, List.flatten_nil, List.countP_append, List.countP_nil, hb, hm, hz]
    omega
  | @argument gap u hg _ =>
    obtain ⟨ha, hb'⟩ := flatten_bold_argument gap u
    rw [ha, hb', List.countP_append, List.countP_append, List.countP_append, hp.tally.braced,
      hp.countP_blankTokens hg, hb, hm]
    omega

/-- A `\bm` with its argument is at the front of the list. -/
def OpensBold (ts : List Text) : Prop :=
  ∃ gap u rest, ts = bm :: (gap ++ u :: rest) ∧ (∀ v ∈ gap, isBlankToken v = true) ∧
    (u = ['{'] ∨ isWordControl u = true ∨ gap ≠ [] ∧ isAlphanumToken u = true)

/-- No `\bm` in the list has an argument. -/
def NoBold (ts : List Text) : Prop :=
  ∀ s, s <:+ ts → ¬ OpensBold s

theorem NoBold.tail {u : Text} {ts : List Text} (h : NoBold (u :: ts)) : NoBold ts :=
  fun s hs => h s (hs.trans (List.suffix_cons u ts))

theorem opensBold_of_skipBlankTokens {ts us : List Text} {u : Text}
    (hs : skipBlankTokens ts = u :: us)
    (hu : u = ['{'] ∨ isWordControl u = true ∨
      ts.head?.any isBlankToken = true ∧ isAlphanumToken u = true) :
    OpensBold (bm :: ts) := by
  refine ⟨ts.takeWhile isBlankToken, u, us, ?_, isBlankToken_of_mem_takeWhile ts, ?_⟩
  · rw [← hs, takeWhile_append_skipBlankTokens]
  · rcases hu with hu | hu | ⟨hh, hu⟩
    · exact .inl hu
    · exact .inr (.inl hu)
    · refine .inr (.inr ⟨?_, hu⟩)
      cases ts with
      | nil => simp at hh
      | cons v ts =>
        have hv : isBlankToken v = true := by simpa using hh
        simp [hv]

theorem boldGroups_of_noBold {ts : List Text} (h : NoBold ts) : boldGroups ts = ts := by
  fun_induction boldGroups ts with
  | case1 => rfl
  | case2 t ts ht _ =>
    obtain ⟨rfl, hh⟩ := ht
    obtain ⟨us, hs⟩ := List.head?_eq_some_iff.mp hh
    exact absurd (opensBold_of_skipBlankTokens hs (.inl rfl)) (h _ List.suffix_rfl)
  | case3 t ts _ ih => rw [ih h.tail]

theorem boldControls_of_noBold {ts : List Text} (h : NoBold ts) : boldControls ts = ts := by
  fun_induction boldControls ts with
  | case1 => rfl
  | case2 ts u us hs hu _ =>
    exact absurd (opensBold_of_skipBlankTokens hs (.inr (.inl hu))) (h _ List.suffix_rfl)
  | case3 ts u us _ _ ih => rw [ih h.tail]
  | case4 ts _ ih => rw [ih h.tail]
  | case5 t ts _ ih => rw [ih h.tail]

theorem boldChars_of_noBold {ts : List Text} (h : NoBold ts) : boldChars ts = ts := by
  fun_induction boldChars ts with
  | case1 => rfl
  | case2 t ts ht u us hs hu _ =>
    obtain ⟨rfl, hh⟩ := ht
    exact absurd (opensBold_of_skipBlankTokens hs (.inr (.inr ⟨hh, hu⟩))) (h _ List.suffix_rfl)
  | case3 t ts _ u us _ _ ih => rw [ih h.tail]
  | case4 t ts _ _ ih => rw [ih h.tail]
  | case5 t ts _ ih => rw [ih h.tail]

theorem unifyBold_of_noBold {t : Text} (h : NoBold (tokens t)) : unifyBold t = t := by
  rw [unifyBold, boldGroups_of_noBold h, boldControls_of_noBold h, boldChars_of_noBold h,
    flatten_tokens]

theorem countP_unifyBold {p : Char → Bool} (hp : Foreign p) (t : Text) :
    (unifyBold t).countP p = t.countP p := by
  have hB : ∀ a b, BoldStep a b → b.flatten.countP p = a.flatten.countP p :=
    fun _ _ => BoldStep.countP hp
  rw [unifyBold, (sweep_boldChars _).countP hB, (sweep_boldControls _).countP hB,
    (sweep_boldGroups _).countP hB, flatten_tokens]

theorem eq_self_of_suffix {f : List Text → List Text}
    (hf : ∀ u ts, f (u :: ts) = u :: ts → f ts = ts) {s ts : List Text} (hs : s <:+ ts)
    (h : f ts = ts) : f s = s := by
  induction ts with
  | nil => rwa [List.suffix_nil.mp hs]
  | cons u ts ih =>
    rcases List.suffix_cons_iff.mp hs with rfl | hs
    · exact h
    · exact ih hs (hf u ts h)

theorem boldGroups_tail (u : Text) (ts : List Text) (h : boldGroups (u :: ts) = u :: ts) :
    boldGroups ts = ts := by
  rw [boldGroups] at h
  split at h
  · next hu =>
    rw [hu.1] at h
    exact absurd (List.cons.inj h).1 (by decide)
  · exact (List.cons.inj h).2

theorem boldControls_tail (u : Text) (ts : List Text) (h : boldControls (u :: ts) = u :: ts) :
    boldControls ts = ts := by
  rw [boldControls] at h
  split at h
  · next hu =>
    split at h
    · split at h
      · rw [hu] at h
        exact absurd (List.cons.inj h).1 (by decide)
      · exact (List.cons.inj h).2
    · exact (List.cons.inj h).2
  · exact (List.cons.inj h).2

theorem boldChars_tail (u : Text) (ts : List Text) (h : boldChars (u :: ts) = u :: ts) :
    boldChars ts = ts := by
  rw [boldChars] at h
  split at h
  · next hu =>
    split at h
    · split at h
      · rw [hu.1] at h
        exact absurd (List.cons.inj h).1 (by decide)
      · exact (List.cons.inj h).2
    · exact (List.cons.inj h).2
  · exact (List.cons.inj h).2

theorem skipBlankTokens_append {gap : List Text} (hg : ∀ v ∈ gap, isBlankToken v = true) {u : Text}
    (hu : isBlankToken u = false) (ts : List Text) : skipBlankTokens (gap ++ u :: ts) = u :: ts := by
  rw [skipBlankTokens, List.dropWhile_append_of_pos hg]
  simp [hu]

theorem isBlankToken_eq_false {u : Text}
    (h : isWordControl u = true ∨ isAlphanumToken u = true) : isBlankToken u = false := by
  rcases h with h | h
  · unfold isWordControl at h
    split at h
    · rfl
    · simp at h
  · unfold isAlphanumToken at h
    split at h
    · exact isBlank_of_isAlphanum h
    · simp at h

theorem noBold_of_sweeps {ts : List Text} (hg : boldGroups ts = ts) (hc : boldControls ts = ts)
    (ha : boldChars ts = ts) : NoBold ts := by
  have hne : mathbf ≠ bm := by decide
  rintro s hs ⟨gap, u, rest, rfl, hgap, hu⟩
  have hu' : isBlankToken u = false := by
    rcases hu with rfl | hu | ⟨-, hu⟩
    · rfl
    · exact isBlankToken_eq_false (.inl hu)
    · exact isBlankToken_eq_false (.inr hu)
  have hk := skipBlankTokens_append hgap hu' rest
  rcases hu with rfl | hu | ⟨hgap', hu⟩
  · have h := eq_self_of_suffix boldGroups_tail hs hg
    rw [boldGroups, if_pos ⟨rfl, by rw [hk]; rfl⟩] at h
    exact hne (List.cons.inj h).1
  · have h := eq_self_of_suffix boldControls_tail hs hc
    rw [boldControls, if_pos rfl] at h
    split at h
    · next v vs hv =>
      obtain ⟨rfl, rfl⟩ := List.cons.inj (hk.symm.trans hv)
      rw [if_pos hu] at h
      exact hne (List.cons.inj h).1
    · simp_all
  · have h := eq_self_of_suffix boldChars_tail hs ha
    have hh : (gap ++ u :: rest).head?.any isBlankToken = true := by
      obtain ⟨v, gap, rfl⟩ := List.exists_cons_of_ne_nil hgap'
      simp [hgap v List.mem_cons_self]
    rw [boldChars, if_pos ⟨rfl, hh⟩] at h
    split at h
    · next v vs hv =>
      obtain ⟨rfl, rfl⟩ := List.cons.inj (hk.symm.trans hv)
      rw [if_pos hu] at h
      exact hne (List.cons.inj h).1
    · simp_all

theorem noBold_of_countP_unifyBold {t : Text}
    (h : (unifyBold t).countP (· == 'f') = t.countP (· == 'f')) : NoBold (tokens t) := by
  have hB : ∀ a b, BoldStep a b → a.flatten.countP (· == 'f') < b.flatten.countP (· == 'f') :=
    fun _ _ => BoldStep.countP_lt
  obtain ⟨hg, hg'⟩ := (sweep_boldGroups (tokens t)).countP_le hB
  obtain ⟨hc, hc'⟩ := (sweep_boldControls (boldGroups (tokens t))).countP_le hB
  obtain ⟨ha, ha'⟩ := (sweep_boldChars (boldControls (boldGroups (tokens t)))).countP_le hB
  rw [flatten_tokens] at hg hg'
  rw [unifyBold] at h
  have e₁ := hg' (by omega)
  have e₂ := hc' (by omega)
  have e₃ := ha' (by omega)
  rw [e₁] at e₂ e₃
  rw [e₂] at e₃
  exact noBold_of_sweeps e₁ e₂ e₃

/-! ## Text blocks -/

theorem Part.length_tidied_le (p : Part) : p.tidied.length ≤ p.source.length := by
  cases p with
  | copied t => exact Nat.le_refl _
  | block name gap body =>
    have h := length_tidyBlanks_le body
    simp only [tidied, source, braced, List.length_append, List.length_cons]
    omega

theorem length_tidyRunningText_le (t : Text) : (tidyRunningText t).length ≤ t.length := by
  induction t using parts_induction with
  | nil => simp [tidyRunningText]
  | cons t p rest hr hs _ ih =>
    have hp := p.length_tidied_le
    have ht := congrArg List.length hr.eq_append
    rw [List.length_append] at ht
    rw [hs, List.length_append]
    omega

theorem Part.tidied_eq_source_iff (p : Part) :
    p.tidied = p.source ↔ ∀ body ∈ p.bodies, Tidy body := by
  cases p with
  | copied t => simp [tidied, source, bodies]
  | block name gap body => simp [tidied, source, bodies, braced, tidyBlanks_eq_self_iff]

theorem tidyRunningText_eq_self_iff {t : Text} :
    tidyRunningText t = t ↔ ∀ body ∈ blockBodies t, Tidy body := by
  induction t using parts_induction with
  | nil => simp [tidyRunningText, blockBodies]
  | cons t p rest hr hs hb ih =>
    have hp := p.length_tidied_le
    have hl := length_tidyRunningText_le rest
    rw [hs, hb, List.forall_mem_append, ← p.tidied_eq_source_iff, ← ih]
    constructor
    · intro h
      have h' : p.tidied ++ tidyRunningText rest = p.source ++ rest := h.trans hr.eq_append
      have hlen := congrArg List.length h'
      simp only [List.length_append] at hlen
      exact List.append_inj h' (by omega)
    · rintro ⟨h₁, h₂⟩
      rw [h₁, h₂, ← hr.eq_append]

/-! ## Prescripts -/

theorem foreign_of_all {p : Char → Bool} (l : List Char) (hp : ∀ c, p c = true → c ∈ l)
    (hl : l.all (fun c => !isBlank c && !c.isAlpha && !List.contains ['{', '}', '\\'] c) = true) :
    Foreign p := by
  have hn : ∀ c, (isBlank c || c.isAlpha || List.contains ['{', '}', '\\'] c) = true →
      p c = false := by
    intro c hc
    by_contra h
    have hm := List.all_eq_true.mp hl c (hp c (by simpa using h))
    simp_all
  exact
    { blank := fun c hc => hn c (by simp [hc])
      opening := hn _ (by decide)
      closing := hn _ (by decide)
      backslash := hn _ (by decide)
      letter := fun c hc => hn c (by simp [hc]) }

theorem foreign_isMarker : Foreign isMarker :=
  foreign_of_all ['_', '^'] (fun c h => by simpa using isMarker_iff.mp h) (by decide)

def isGlyph (c : Char) : Bool :=
  c = Accent.dot.glyph || c = Accent.ddot.glyph

theorem foreign_isGlyph : Foreign isGlyph :=
  foreign_of_all [Accent.dot.glyph, Accent.ddot.glyph]
    (fun c h => by simpa [isGlyph] using h) (by decide)

theorem gatherBehind_of_copied {before t : Text}
    (h : ∀ s ∈ segmentsBehind before t, s.isPrescript = false) : gatherBehind before t = t := by
  induction before, t using segmentsBehind_induction with
  | nil before => exact gatherBehind_nil before
  | cons before t s source rest hr e ih =>
    rw [e] at h
    obtain ⟨hs, h⟩ := List.forall_mem_cons.mp h
    have hw : s.written = source := by
      cases hr with
      | prescript => simp [Segment.isPrescript] at hs
      | _ => rfl
    rw [hr.gatherBehind_eq, hw, ih h, ← hr.eq_append]

theorem gatherPrescripts_of_prescriptCount {t : Text} (h : prescriptCount t = 0) :
    gatherPrescripts t = t := by
  rw [prescriptCount, List.countP_eq_zero] at h
  exact gatherBehind_of_copied fun s hs => by simpa using h s hs

/-- Each prescript loses a marker. -/
theorem prescriptCount_of_countP {t : Text}
    (h : (gatherPrescripts t).countP isMarker = t.countP isMarker) : prescriptCount t = 0 := by
  have hc := countP_gatherPrescripts solid_isMarker t
  have hp : (spacing ++ prescript).countP isMarker = 0 := by decide
  have hs : strut.countP isMarker = 0 := by decide
  rw [h, hp, hs] at hc
  have hl : (leftScripts t).countP (fun s => isMarker s.marker.char) = 0 := by omega
  rw [prescriptCount, List.countP_eq_zero]
  intro s hs'
  cases s with
  | copied t => simp [Segment.isPrescript]
  | prescript l a =>
    have hm : isMarker l.first.marker.char = true := isMarker_char _
    have hf : l.first ∈ leftScripts t := List.mem_flatMap.mpr ⟨_, hs', List.mem_cons_self⟩
    exact absurd hm (List.countP_eq_zero.mp hl _ hf)

/-! ## Accents -/

theorem oversetAccents_of_oversetCount {t : Text} (h : oversetCount t = 0) :
    oversetAccents t = t := by
  unfold oversetCount at h
  unfold oversetAccents
  rw [List.countP_eq_zero] at h
  induction t using stretches_induction with
  | nil => simp [stretches]
  | cons t s source rest hr e ih =>
    rw [e] at h ⊢
    obtain ⟨hs, h⟩ := List.forall_mem_cons.mp h
    have hw : s.written = source := by
      cases hr with
      | overset => simp [Stretch.isOverset] at hs
      | _ => rfl
    rw [List.flatMap_cons, hw, ih h, ← hr.eq_append]

/-- Each accent gains its glyph. -/
theorem oversetCount_of_countP {t : Text}
    (h : (oversetAccents t).countP isGlyph = t.countP isGlyph) : oversetCount t = 0 := by
  have hc := countP_oversetAccents foreign_isGlyph.toSolid t
  have hl : ∀ a : Accent, a.control.countP isGlyph = 0 := by
    intro a
    cases a <;> decide
  rw [h, countP_flatMap_eq_zero hl] at hc
  have hs : ((accents t).flatMap fun a => overset ++ [a.glyph]).countP isGlyph = 0 := by omega
  rw [oversetCount, List.countP_eq_zero]
  intro s hs'
  cases s with
  | copied t => simp [Stretch.isOverset]
  | overset accent a =>
    have ha : accent ∈ accents t := List.mem_flatMap.mpr ⟨_, hs', List.mem_cons_self⟩
    have hg : accent.glyph ∈ (accents t).flatMap fun a => overset ++ [a.glyph] :=
      List.mem_flatMap.mpr ⟨accent, ha, List.mem_append_right _ List.mem_cons_self⟩
    have hn : isGlyph accent.glyph = true := by
      cases accent <;> rfl
    exact absurd hn (List.countP_eq_zero.mp hs _ hg)

end Formula.Tex
