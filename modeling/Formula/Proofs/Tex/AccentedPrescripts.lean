import Formula.Proofs.Tex.EmptyGroups
import Formula.Proofs.Tex.NestedPrescripts
import Formula.Proofs.Tex.Places

/-! # Accents over prescripts

Setting accents runs on the text with the prescripts, where each prescript has spacing in front of it. An
accent over a group takes all prescripts in the group. But an accent directly in front of a prescript,
blanks apart, takes the spacing as its target, so that the accent is over nothing and the prescript behind it.
-/

namespace Formula.Tex

open Text Compile

/-- Setting accents comes to this rest of a text, with what was before it already set. -/
inductive ComesTo : Text → Text → Prop
  | refl (t : Text) : ComesTo t t
  | step {t source rest r : Text} {s : Stretch} : ReadsStretch t s source rest → ComesTo rest r →
      ComesTo t r

namespace ComesTo

variable {t r : Text}

theorem suffix (h : ComesTo t r) : r <:+ t := by
  induction h with
  | refl t => exact List.suffix_rfl
  | step hr _ ih =>
    rw [hr.eq_append]
    exact ih.trans (List.suffix_append _ _)

theorem oversetAccents_suffix (h : ComesTo t r) : oversetAccents r <:+ oversetAccents t := by
  induction h with
  | refl t => exact List.suffix_rfl
  | step hr _ ih =>
    rw [hr.oversetAccents_eq]
    exact ih.trans (List.suffix_append _ _)

end ComesTo

/-! ## Where the commands stand that the passes write -/

theorem lettersFrom_oversetAccents (t : Text) : LettersFrom (oversetAccents t) t := by
  induction t using stretches_induction with
  | nil =>
    rw [oversetAccents, stretches]
    exact fun _ _ h => h
  | cons t s source rest hr _ ih =>
    rw [hr.oversetAccents_eq]
    cases hr with
    | char _ => exact ih.append [_]
    | control hc _ =>
      rw [(eq_append_of_control? hc).1]
      exact ih.append source
    | overset _ _ => exact lettersFrom_of_opensLetter rfl _

theorem occurrences_copied_stretch {p t source rest : Text} (hp : isWordControl p = true)
    (ht : t = source ++ rest) (h : occurrences p t = 0) :
    occurrences p (source ++ oversetAccents rest) = occurrences p (oversetAccents rest) := by
  have h₁ := (lettersFrom_oversetAccents rest).occurrences_le hp source
  have h₂ := (weight_occurrences hp).le_append source (oversetAccents rest)
  rw [← ht, h] at h₁
  omega

/-- Behind its backslash, what an accent and its target become has no further `\overset`. -/
theorem occurrences_tail_written (accent : Accent) {a : Atom} (ha : occurrences overset a.base = 0)
    (t : Text) :
    occurrences overset ((Stretch.overset accent a).written.tail ++ t) = occurrences overset t := by
  have hp : isWordControl overset = true := by decide
  have hw := weight_occurrences hp
  have hg : occurrences overset [accent.glyph] = 0 := by cases accent <;> decide
  have hletters : '\\' ∉ overset.tail := by decide
  change occurrences overset ((overset.tail ++ braced [accent.glyph] ++ braced a.target) ++ t) = _
  rw [List.append_assoc, List.append_assoc, occurrences_append_of_not_mem hp hletters,
    hw.braced_append, hw.braced_append, a.weight_target hw, hg, ha, Nat.zero_add, Nat.zero_add]

/-- Where a text has no `\overset`, the pass writes it for accents only. -/
theorem exists_place_of_overset {t u : Text} (h : occurrences overset t = 0) (hu : u <:+ oversetAccents t)
    (hs : startsWith overset u = true) :
    ∃ place accent a source rest, ComesTo t place ∧ ReadsStretch place (.overset accent a) source rest ∧
      u = (Stretch.overset accent a).written ++ oversetAccents rest := by
  have hp : isWordControl overset = true := by decide
  induction t using stretches_induction with
  | nil =>
    rw [oversetAccents, stretches, List.flatMap_nil] at hu
    rw [List.suffix_nil.mp hu] at hs
    cases hs
  | cons t s source rest hr _ ih =>
    have hle := (weight_occurrences hp).le_append source rest
    rw [← hr.eq_append] at hle
    have hrest : u <:+ oversetAccents rest → _ := fun hu => ih (by omega) hu
    have hlater : u <:+ oversetAccents rest → ∃ place accent a source rest', ComesTo t place ∧
        ReadsStretch place (.overset accent a) source rest' ∧
          u = (Stretch.overset accent a).written ++ oversetAccents rest' := by
      intro hu
      obtain ⟨place, accent, a, source', rest', hc, hplace, e⟩ := hrest hu
      exact ⟨place, accent, a, source', rest', .step hr hc, hplace, e⟩
    rw [hr.oversetAccents_eq] at hu
    cases hr with
    | char _ =>
      exact hlater (suffix_of_occurrences hp (occurrences_copied_stretch hp rfl h) hu hs)
    | control hc _ =>
      have e := (eq_append_of_control? hc).1
      exact hlater (suffix_of_occurrences hp (occurrences_copied_stretch hp e h) hu hs)
    | @overset _ source rest accent a hc ha =>
      have hr : ReadsStretch t (.overset accent a) (accent.control ++ source) rest := .overset hc ha
      have h₁ := weight_atom?_le (weight_occurrences hp) ha
      have h₂ := (weight_occurrences hp).le_append accent.control (source ++ rest)
      rw [← (eq_append_of_control? hc).1] at h₂
      have hbase : occurrences overset a.base = 0 := by omega
      have hn := occurrences_tail_written accent hbase (oversetAccents rest)
      rcases suffix_cases_of_occurrences hp hn hu hs with e | hu
      · exact ⟨t, accent, a, _, rest, .refl t, hr, e⟩
      · exact hlater hu

theorem tail_written_prescript_append (l : ScriptPair) (a : Atom) (t : Text) :
    (Segment.prescript l a).written.tail ++ t = spacing.tail ++ (bare (.prescript l a) ++ t) :=
  (List.cons.inj (written_prescript_append l a t)).2

/-- Where a text has no `\hspace`, gathering writes it for prescripts only. -/
theorem exists_prescript_of_hspace {before t u : Text} (h : occurrences hspace t = 0)
    (hu : u <:+ gatherBehind before t) (hs : startsWith hspace u = true) :
    ∃ front l a rear, segmentsBehind before t = front ++ .prescript l a :: rear ∧
      u = (Segment.prescript l a).written ++ rear.flatMap Segment.written := by
  have hp : isWordControl hspace = true := by decide
  induction before, t using segmentsBehind_induction with
  | nil before =>
    rw [gatherBehind_nil] at hu
    rw [List.suffix_nil.mp hu] at hs
    cases hs
  | cons before t s source rest hr hsplit ih =>
    have hle := (weight_occurrences hp).le_append source rest
    rw [← hr.eq_append] at hle
    have hlater : u <:+ gatherBehind (source.reverse ++ before) rest → ∃ front l a rear,
        segmentsBehind before t = front ++ .prescript l a :: rear ∧
          u = (Segment.prescript l a).written ++ rear.flatMap Segment.written := by
      intro hu
      obtain ⟨front, l, a, rear, e, hw⟩ := ih (by omega) hu
      exact ⟨s :: front, l, a, rear, by rw [hsplit, e, List.cons_append], hw⟩
    rw [hr.gatherBehind_eq] at hu
    cases hr with
    | @prescript source middle rest l a hl ha _ =>
      have hletters : '\\' ∉ spacing.tail := by decide
      have hn : occurrences hspace ((Segment.prescript l a).written.tail ++
          gatherBehind (source.reverse ++ before) rest) =
            occurrences hspace (gatherBehind (source.reverse ++ before) rest) := by
        rw [tail_written_prescript_append, occurrences_append_of_not_mem hp hletters,
          occurrences_bare hp (by decide) (by decide) hl ha h]
      rcases suffix_cases_of_occurrences hp hn hu hs with hu | hu
      · exact ⟨[], l, a, _, hsplit, hu⟩
      · exact hlater hu
    | control hc =>
      have e := (eq_append_of_control? hc).1
      exact hlater (suffix_of_occurrences hp (printer_written.occurrences_copied hp e h) hu hs)
    | backslash | char _ _ | lone _ _ | sizing _ _ _ =>
      exact hlater (suffix_of_occurrences hp (printer_written.occurrences_copied hp rfl h) hu hs)

/-! ## A group as a target -/

theorem control?_accent_append (accent : Accent) {gap t : Text} (hg : allBlank gap = true)
    (ht : opensLetter t = false) :
    control? (accent.control ++ (gap ++ t)) = some (accent.control, gap ++ t) := by
  have hw : isWordControl accent.control = true := by cases accent <;> decide
  exact control?_of_isWordControl hw (opensLetter_blanks_append hg ht)

theorem atom?_blanks_append {gap t rest : Text} {n : Nucleus} (hg : allBlank gap = true)
    (ht : t.takeWhile isBlank = []) (hn : nucleus? t = some (n, rest)) :
    atom? (gap ++ t) = some (⟨gap, n, (scripts rest).1⟩, (scripts rest).2) := by
  have hs : skipBlanks t = t := by
    simpa only [ht, List.nil_append] using takeWhile_isBlank_append_skipBlanks t
  refine atom?_eq_some_iff.mpr ⟨?_, rest, ?_, rfl⟩
  · rw [List.takeWhile_append_of_pos (isBlank_of_allBlank hg), ht]
    exact (List.append_nil gap).symm
  · rw [skipBlanks_append hg, hs]
    exact hn

theorem atom?_group {gap content : Text} (hg : allBlank gap = true) (hc : Balanced content) (t : Text) :
    atom? (gap ++ (braced content ++ t)) =
      some (⟨gap, .group content, (scripts t).1⟩, (scripts t).2) := by
  refine atom?_blanks_append hg rfl ?_
  have h : group? (braced content ++ t) = some (content, t) := group?_iff.mpr ⟨hc, rfl⟩
  simp only [braced, List.cons_append] at h ⊢
  simp only [nucleus?, h]
  rfl

/-- An accent over a group is over everything in it, prescripts and their spacing included. -/
theorem oversetAccents_over_group (accent : Accent) {gap content : Text} (hg : allBlank gap = true)
    (hc : Balanced content) (hne : content ≠ []) (before t : Text) :
    ∃ (l : List Script) (rest : Text),
      oversetAccents (gatherBehind before (accent.control ++ (gap ++ (braced content ++ t)))) =
        overset ++ (braced [accent.glyph] ++
          (braced (gatherBehind ['{'] content ++ l.flatMap Script.canonical) ++ oversetAccents rest)) := by
  have hcontrol := control?_accent_append accent hg (t := braced content ++ t) rfl
  rw [(ReadsSegment.control hcontrol).gatherBehind_eq, gatherBehind_blanks _ hg]
  obtain ⟨b, hb⟩ := gatherBehind_braced (gap.reverse ++ (accent.control.reverse ++ before)) hc hne
  rw [hb]
  generalize gatherBehind b t = v
  have hbalanced : Balanced (gatherBehind ['{'] content) := balanced_gatherBehind hc
  have ha := atom?_group hg hbalanced v
  have hcontrol := control?_accent_append accent hg (t := braced (gatherBehind ['{'] content) ++ v) rfl
  obtain ⟨source, e⟩ := exists_source_of_atom? ha
  rw [e] at ha hcontrol
  have hr := (ReadsStretch.overset hcontrol ha).oversetAccents_eq
  rw [← e] at hr
  refine ⟨(scripts v).1, (scripts v).2, hr.trans ?_⟩
  change overset ++ braced [accent.glyph] ++ braced (gatherBehind ['{'] content ++
    (scripts v).1.flatMap Script.canonical) ++ oversetAccents (scripts v).2 = _
  rw [List.append_assoc, List.append_assoc]

/-! ## Spacing as a target -/

theorem balanced_spacing : Balanced spacing := by
  have hs : Balanced "\\hspace".toList := balanced_of_isWordControl (by decide)
  have ha : Balanced "0pt".toList := by decide
  exact hs.append ha.braced

theorem eq_of_starts_braced {u v t : Text} (hu : Balanced u) (hv : Balanced v)
    (h : braced u <+: braced v ++ t) : u = v := by
  obtain ⟨r, e⟩ := h
  have h₁ : group? (braced u ++ r) = some (u, r) := group?_iff.mpr ⟨hu, rfl⟩
  have h₂ : group? (braced u ++ r) = some (v, t) := group?_iff.mpr ⟨hv, e⟩
  exact (Prod.mk.inj (Option.some.inj (h₁.symm.trans h₂))).1

/-- A target that is the spacing stands in the text as the spacing, in braces or without. -/
theorem eq_append_of_target_eq_spacing {t rest : Text} {a : Atom} (h : atom? t = some (a, rest))
    (ha : a.target = spacing) :
    ∃ gap, allBlank gap = true ∧
      (t = gap ++ (spacing ++ rest) ∨ t = gap ++ (braced spacing ++ rest)) := by
  obtain ⟨-, r, hn, hs⟩ := atom?_eq_some_iff.mp h
  have hnone : a.scripts = [] := by
    cases hl : a.scripts with
    | nil => rfl
    | cons s l =>
      have hm : s.marker.char ∈ spacing := by simp [← ha, Atom.target, hl, Script.canonical]
      generalize s.marker = m at hm
      exact absurd hm (by cases m <;> decide)
  have hr : r = rest := by
    rw [scripts.eq_def] at hs
    split at hs <;> simp_all
  have ht := takeWhile_isBlank_append_skipBlanks t
  rw [(eq_append_of_nucleus? hn).1, hr] at ht
  rw [Atom.target, hnone, List.flatMap_nil, List.append_nil] at ha
  refine ⟨t.takeWhile isBlank, List.all_takeWhile, ?_⟩
  cases hk : a.nucleus with
  | group content =>
    rw [hk] at ha ht
    obtain rfl : content = spacing := ha
    exact .inr ht.symm
  | char c | control name argument =>
    rw [hk] at ha ht
    rw [← ha]
    exact .inl ht.symm

def spacingAtom (gap : Text) : Atom :=
  ⟨gap, .control hspace (some "0pt".toList), []⟩

theorem spacing_eq : spacing = hspace ++ braced "0pt".toList := by decide

theorem startsWith_spacing_append (t : Text) : startsWith hspace (spacing ++ t) = true :=
  startsWith_iff.mpr (hspace_prefix_spacing.trans (List.prefix_append _ _))

theorem target_spacingAtom (gap : Text) : (spacingAtom gap).target = spacing := by
  change (hspace ++ braced "0pt".toList) ++ [] = spacing
  rw [List.append_nil, spacing_eq]

/-- An accent over nothing but the spacing. -/
def overNothing (accent : Accent) : Text :=
  overset ++ (braced [accent.glyph] ++ braced spacing)

theorem written_spacingAtom (accent : Accent) (gap : Text) :
    (Stretch.overset accent (spacingAtom gap)).written = overNothing accent := by
  change overset ++ braced [accent.glyph] ++ braced (spacingAtom gap).target = _
  rw [target_spacingAtom, List.append_assoc, overNothing]

theorem atom?_spacing {gap : Text} (hg : allBlank gap = true) (l : ScriptPair) (b : Atom) (t : Text) :
    atom? (gap ++ ((Segment.prescript l b).written ++ t)) =
      some (spacingAtom gap, bare (.prescript l b) ++ t) := by
  have hn : nucleus? ((Segment.prescript l b).written ++ t) =
      some (.control hspace (some "0pt".toList), bare (.prescript l b) ++ t) := by
    have hw : isWordControl hspace = true := by decide
    have hd : Balanced "0pt".toList := by decide
    rw [written_prescript_append, spacing_eq, List.append_assoc]
    exact nucleus?_argument hw hd
  have hs : scripts (bare (.prescript l b) ++ t) = ([], bare (.prescript l b) ++ t) := by
    have hnone : script? (skipBlanks (bare (.prescript l b) ++ t)) = none := rfl
    exact scripts_of_none hnone
  rw [atom?_blanks_append hg rfl hn, hs]
  rfl

/-- An accent in front of a prescript, blanks apart, takes the spacing. -/
theorem readsStretch_of_spacing {gap : Text} (hg : allBlank gap = true) (accent : Accent) (l : ScriptPair)
    (b : Atom) (t : Text) :
    ReadsStretch (accent.control ++ (gap ++ ((Segment.prescript l b).written ++ t)))
      (.overset accent (spacingAtom gap)) (accent.control ++ (gap ++ spacing))
        (bare (.prescript l b) ++ t) := by
  have hc := control?_accent_append accent hg (t := (Segment.prescript l b).written ++ t) rfl
  have ha := atom?_spacing hg l b t
  have e : gap ++ ((Segment.prescript l b).written ++ t) =
      (gap ++ spacing) ++ (bare (.prescript l b) ++ t) := by
    rw [written_prescript_append, List.append_assoc]
  rw [e] at hc ha ⊢
  exact .overset hc ha

/-- An accent whose target begins the output as nothing but spacing has the spacing for a target. -/
theorem target_eq_spacing {accent accent' : Accent} {t rest y : Text} {a : Atom}
    (h : atom? t = some (a, rest))
    (e : overNothing accent ++ y = (Stretch.overset accent' a).written ++ oversetAccents rest) :
    accent = accent' ∧ a.target = spacing := by
  have hg : ∀ accent : Accent, Balanced [accent.glyph] := fun accent => by cases accent <;> decide
  change overset ++ (braced [accent.glyph] ++ braced spacing) ++ y =
    overset ++ braced [accent'.glyph] ++ braced a.target ++ oversetAccents rest at e
  simp only [List.append_assoc, List.append_cancel_left_eq] at e
  have hglyph : [accent.glyph] = [accent'.glyph] :=
    eq_of_starts_braced (hg accent) (hg accent') ⟨_, e⟩
  rw [hglyph, List.append_cancel_left_eq] at e
  refine ⟨by revert hglyph; cases accent <;> cases accent' <;> decide, ?_⟩
  by_cases hb : a.nucleus = .char '\\'
  · obtain ⟨-, hs, rfl⟩ := eq_of_atom?_backslash h hb
    have hl := congrArg List.length e
    have hlong : spacing.length = 12 := by decide
    have hshort : a.target = ['\\'] := by rw [Atom.target, hb, hs]; rfl
    rw [hshort, oversetAccents, stretches] at hl
    simp only [braced, List.length_append, List.length_cons, hlong, List.flatMap_nil, List.length_nil] at hl
    omega
  · obtain ⟨-, htarget, -⟩ := balanced_of_atom? h hb
    exact (eq_of_starts_braced balanced_spacing htarget ⟨y, e⟩).symm

/-- Setting accents comes to an accent that has a prescript behind it, blanks apart. -/
def TakesSpacing (t : Text) (accent : Accent) : Prop :=
  ∃ gap front l a rear, allBlank gap = true ∧ segments t = front ++ .prescript l a :: rear ∧
    ComesTo (gatherPrescripts t)
      (accent.control ++ (gap ++ ((Segment.prescript l a).written ++ rear.flatMap Segment.written)))

/-- Of a source with neither command, an accent in the canonical source is over nothing but spacing exactly if
it stands directly in front of a prescript, blanks apart, where setting accents comes to it. -/
theorem overNothing_canonical_iff {t : Text} (hspacing : occurs hspace t = false)
    (hoverset : occurs overset t = false) (accent : Accent) :
    overNothing accent <:+: canonical t ↔ TakesSpacing (clean t) accent := by
  have h₁ : occurrences hspace (clean t) = 0 :=
    occurrences_clean (by decide) (fun _ => rfl) (occurrences_eq_zero hspacing)
  have h₂ : occurrences overset (gatherPrescripts (clean t)) = 0 :=
    occurrences_gatherBehind (by decide) (by decide) (by decide) (by decide)
      (occurrences_clean (by decide) (fun _ => rfl) (occurrences_eq_zero hoverset))
  constructor
  · rintro ⟨x, y, e⟩
    have hu : overNothing accent ++ y <:+ canonical t := ⟨x, by rw [← e, List.append_assoc]⟩
    obtain ⟨place, accent', a, source, rest, hcomes, hread, hw⟩ :=
      exists_place_of_overset h₂ hu (startsWith_iff.mpr ⟨_, (List.append_assoc ..).symm⟩)
    have hplace : ∀ z, startsWith hspace z = true → z <:+ place → ∃ front l b rear,
        segments (clean t) = front ++ .prescript l b :: rear ∧
          z = (Segment.prescript l b).written ++ rear.flatMap Segment.written :=
      fun z hz hs => exists_prescript_of_hspace h₁ (hs.trans hcomes.suffix) hz
    cases hread with
    | @overset _ source _ _ _ hc ha =>
      obtain ⟨rfl, htarget⟩ := target_eq_spacing ha hw
      obtain ⟨gap, hg, e | e⟩ := eq_append_of_target_eq_spacing ha htarget
      · have hz : spacing ++ rest <:+ accent.control ++ (source ++ rest) := by
          rw [e]
          exact ⟨accent.control ++ gap, List.append_assoc ..⟩
        rw [(eq_append_of_control? hc).1] at hcomes hplace
        obtain ⟨front, l, b, rear, hseg, hz⟩ := hplace _ (startsWith_spacing_append rest) hz
        exact ⟨gap, front, l, b, rear, hg, hseg, by rw [← hz, ← e]; exact hcomes⟩
      · have hz : spacing ++ '}' :: rest <:+ accent.control ++ (source ++ rest) := by
          rw [e]
          exact ⟨accent.control ++ (gap ++ ['{']), by simp [braced]⟩
        rw [(eq_append_of_control? hc).1] at hplace
        obtain ⟨front, l, b, rear, -, hz⟩ := hplace _ (startsWith_spacing_append _) hz
        rw [written_prescript_append, List.append_cancel_left_eq] at hz
        exact absurd (List.cons.inj hz).1 (by decide)
  · rintro ⟨gap, front, l, a, rear, hg, -, hc⟩
    have hs := hc.oversetAccents_suffix
    rw [(readsStretch_of_spacing hg accent l a _).oversetAccents_eq, written_spacingAtom] at hs
    exact (List.prefix_append _ _).isInfix.trans hs.isInfix

theorem overNothing_of_spaced_accent :
    let t := "\\dot \x7b\x7d_1 x".toList
    occurs hspace t = false ∧ occurs overset t = false ∧ overNothing .dot <:+: canonical t := by
  intro t
  have hspacing : occurs hspace t = false := by decide +kernel
  have hoverset : occurs overset t = false := by decide +kernel
  have hclean : clean t = t := by decide +kernel
  have hseg : segments t = [.copied Accent.dot.control, .copied [' ']] ++
      .prescript ⟨⟨.sub, ['1']⟩, none⟩ ⟨[' '], .char 'x', []⟩ :: [] := by decide +kernel
  refine ⟨hspacing, hoverset, (overNothing_canonical_iff hspacing hoverset .dot).mpr ?_⟩
  rw [hclean]
  refine ⟨[' '], _, _, _, _, rfl, hseg, ?_⟩
  rw [gatherPrescripts, hseg]
  exact .refl _

end Formula.Tex
