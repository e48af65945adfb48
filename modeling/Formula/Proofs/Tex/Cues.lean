import Formula.Tex.Mode
import Formula.Proofs.Tex.Tokens
import Formula.Proofs.Tex.Weight

/-! # Cues survive

A display cue other than a newline is the beginning of a token. So the tokens that are cues can be
counted, and no pass changes their number: none joins a backslash to what it did not stand before, and
none takes a command away or puts one in that is a cue. Newlines only go, with the blanks they are in.
-/

namespace Formula.Tex

open Text

def commandCues : List Text :=
  cues.filter (· ≠ ['\n'])

def isCueToken (u : Text) : Bool :=
  commandCues.any (startsWith · u)

def cueCount (t : Text) : Nat :=
  (tokens t).countP isCueToken

theorem cases_of_mem_commandCues :
    ∀ cue ∈ commandCues, cue = ['\\', '\\'] ∨ isWordControl cue = true := by
  decide

theorem mem_cues_iff {cue : Text} : cue ∈ cues ↔ cue ∈ commandCues ∨ cue = ['\n'] := by
  have hn : ['\n'] ∈ cues := by decide
  by_cases h : cue = ['\n']
  · simp [h, hn]
  · simp [commandCues, h]

theorem isCueToken_iff {u : Text} : isCueToken u = true ↔ ∃ cue ∈ commandCues, cue <+: u := by
  simp [isCueToken, startsWith_iff]

theorem isCueToken_singleton (c : Char) : isCueToken [c] = false := by
  have hl : ∀ cue ∈ commandCues, 2 ≤ cue.length := by decide
  cases h : isCueToken [c] with
  | false => rfl
  | true =>
    obtain ⟨cue, hcue, hp⟩ := isCueToken_iff.mp h
    have h₁ := hp.length_le
    have h₂ := hl cue hcue
    simp only [List.length_singleton] at h₁
    omega

theorem isCueToken_of_not_letter {c : Char} (hc : c.isAlpha = false) (hb : c ≠ '\\') :
    isCueToken ['\\', c] = false := by
  cases h : isCueToken ['\\', c] with
  | false => rfl
  | true =>
    obtain ⟨cue, hcue, hp⟩ := isCueToken_iff.mp h
    rcases cases_of_mem_commandCues cue hcue with rfl | hw
    · simp [hb.symm] at hp
    · obtain ⟨d, w, rfl, hd⟩ := exists_letters_of_isWordControl hw
      obtain ⟨-, hp⟩ := List.cons_prefix_cons.mp hp
      obtain ⟨rfl, -⟩ := List.cons_prefix_cons.mp hp
      simp [hd d List.mem_cons_self] at hc

theorem isCueToken_of_isBlankToken {u : Text} (h : isBlankToken u = true) : isCueToken u = false := by
  unfold isBlankToken at h
  split at h
  · exact isCueToken_singleton _
  · simp at h

/-! ## Cues are tokens -/

theorem head?_of_mem_commandCues {cue : Text} (h : cue ∈ commandCues) : ∃ w, cue = '\\' :: w := by
  rcases cases_of_mem_commandCues cue h with rfl | hw
  · exact ⟨_, rfl⟩
  · obtain ⟨c, w, rfl, -⟩ := exists_letters_of_isWordControl hw
    exact ⟨_, rfl⟩

theorem isCueToken_of_prefix {cue t name rest : Text} (hcue : cue ∈ commandCues)
    (h : control? t = some (name, rest)) (hp : cue <+: t) : isCueToken name = true := by
  rw [(eq_append_of_control? h).1] at hp
  refine isCueToken_iff.mpr ⟨cue, hcue, ?_⟩
  rcases control?_cases h with ⟨hn, hr⟩ | ⟨c, rfl, hc⟩
  · obtain ⟨d, w, rfl, hd⟩ := exists_letters_of_isWordControl hn
    rcases cases_of_mem_commandCues cue hcue with rfl | hw
    · obtain ⟨rfl, -⟩ := List.cons_prefix_cons.mp (List.cons_prefix_cons.mp hp).2
      exact absurd (hd _ List.mem_cons_self) (by decide)
    · rw [← startsWith_iff, startsWith_cons_append hw _ _ hr, startsWith_iff] at hp
      exact hp
  · rcases cases_of_mem_commandCues cue hcue with rfl | hw
    · obtain ⟨rfl, -⟩ := List.cons_prefix_cons.mp (List.cons_prefix_cons.mp hp).2
      exact List.prefix_rfl
    · obtain ⟨d, w, rfl, hd⟩ := exists_letters_of_isWordControl hw
      obtain ⟨rfl, -⟩ := List.cons_prefix_cons.mp (List.cons_prefix_cons.mp hp).2
      simp [hd d List.mem_cons_self] at hc

/-- No cue begins inside a control sequence, save one that is a line break. -/
theorem isCueToken_of_control?_append {cue v w name t rest : Text} (hcue : cue ∈ commandCues)
    (h : control? t = some (name, rest)) (hv : v ≠ []) (hw : w ≠ []) (e : name = v ++ w)
    (hp : cue <+: w ++ rest) : isCueToken name = true := by
  obtain ⟨u, rfl⟩ := head?_of_mem_commandCues hcue
  obtain ⟨d, w, rfl⟩ := List.exists_cons_of_ne_nil hw
  obtain ⟨b, v, rfl⟩ := List.exists_cons_of_ne_nil hv
  obtain ⟨rfl, -⟩ := List.cons_prefix_cons.mp hp
  rcases control?_cases h with ⟨hn, -⟩ | ⟨c, rfl, hc⟩
  · obtain ⟨d, w', rfl, hd⟩ := exists_letters_of_isWordControl hn
    have hm : '\\' ∈ d :: w' := by
      rw [(List.cons.inj e).2]
      exact List.mem_append_right v List.mem_cons_self
    exact absurd (hd _ hm) (by decide)
  · have hm : '\\' ∈ [c] := by
      rw [(List.cons.inj e).2]
      exact List.mem_append_right v List.mem_cons_self
    obtain rfl := List.mem_singleton.mp hm
    decide

theorem exists_isCueToken {cue t : Text} (hcue : cue ∈ commandCues) (h : cue <:+: t) :
    ∃ u ∈ tokens t, isCueToken u = true := by
  obtain ⟨s, hp, hs⟩ := List.infix_iff_prefix_suffix.mp h
  clear h
  fun_induction tokens t with
  | case1 =>
    obtain ⟨w, rfl⟩ := head?_of_mem_commandCues hcue
    obtain rfl := List.suffix_nil.mp hs
    simp at hp
  | case2 c r name rest h ih =>
    obtain ⟨e, -⟩ := eq_append_of_control? h
    obtain ⟨v, hs⟩ := hs
    rcases List.append_eq_append_iff.mp (hs.trans e) with ⟨w, hn, rfl⟩ | ⟨w, rfl, hr⟩
    · by_cases hw : w = []
      · subst hw
        obtain ⟨u, hu, hc⟩ := ih List.suffix_rfl
        exact ⟨u, List.mem_cons_of_mem _ hu, hc⟩
      by_cases hv : v = []
      · subst hv hn
        rw [List.nil_append] at hs
        rw [hs] at hp
        exact ⟨_, List.mem_cons_self, isCueToken_of_prefix hcue h hp⟩
      · exact ⟨_, List.mem_cons_self, isCueToken_of_control?_append hcue h hv hw hn hp⟩
    · obtain ⟨u, hu, hc⟩ := ih ⟨w, hr.symm⟩
      exact ⟨u, List.mem_cons_of_mem _ hu, hc⟩
  | case3 c r h ih =>
    rcases List.suffix_cons_iff.mp hs with rfl | hs
    · obtain ⟨w, rfl⟩ := head?_of_mem_commandCues hcue
      obtain ⟨rfl, hw⟩ := List.cons_prefix_cons.mp hp
      obtain rfl := eq_nil_of_control?_eq_none h
      obtain rfl := List.prefix_nil.mp hw
      exact absurd hcue (by decide)
    · obtain ⟨u, hu, hc⟩ := ih hs
      exact ⟨u, List.mem_cons_of_mem _ hu, hc⟩

theorem infix_of_mem_tokens {t u : Text} (h : u ∈ tokens t) : u <:+: t := by
  obtain ⟨s, r, e⟩ := List.append_of_mem h
  refine ⟨s.flatten, r.flatten, ?_⟩
  rw [← flatten_tokens t, e]
  simp

theorem hasDisplayCue_iff_cueCount {t : Text} :
    hasDisplayCue t = true ↔ 0 < cueCount t ∨ '\n' ∈ t := by
  have hc : 0 < cueCount t ↔ ∃ cue ∈ commandCues, cue <:+: t := by
    rw [cueCount, List.countP_pos_iff]
    constructor
    · rintro ⟨u, hu, h⟩
      obtain ⟨cue, hcue, hp⟩ := isCueToken_iff.mp h
      exact ⟨cue, hcue, hp.isInfix.trans (infix_of_mem_tokens hu)⟩
    · rintro ⟨cue, hcue, h⟩
      exact exists_isCueToken hcue h
  have hn : ['\n'] <:+: t ↔ '\n' ∈ t := by
    constructor
    · exact fun h => h.subset List.mem_cons_self
    · intro h
      obtain ⟨s, r, rfl⟩ := List.append_of_mem h
      exact ⟨s, r, by simp⟩
  rw [hasDisplayCue_iff, hc, ← hn]
  simp only [mem_cues_iff, or_and_right, exists_or, exists_eq_left]

/-! ## The number of cues -/

theorem ReadsToken.cueCount {t u rest : Text} (h : ReadsToken t u rest) :
    cueCount t = Tex.cueCount rest + if isCueToken u then 1 else 0 := by
  rw [Tex.cueCount, h.tokens_eq, List.countP_cons, Tex.cueCount]

theorem cueCount_nil : cueCount [] = 0 := by
  simp [cueCount, tokens]

theorem cueCount_cons {c : Char} (hc : c ≠ '\\') (t : Text) : cueCount (c :: t) = cueCount t := by
  simp [(ReadsToken.char hc).cueCount, isCueToken_singleton]

theorem cueCount_append (s : Text) {c : Char} (ha : c.isAlpha = false) (hb : c ≠ '\\') (t : Text) :
    cueCount (s ++ c :: t) = cueCount s + cueCount (c :: t) := by
  fun_induction tokens s with
  | case1 => simp [cueCount_nil]
  | case2 d r name rest h ih =>
    obtain ⟨e, -⟩ := eq_append_of_control? h
    have ho : opensLetter (rest ++ c :: t) = true → opensLetter rest = true := by
      cases rest with
      | nil => simp [opensLetter_cons ha]
      | cons d rest => exact id
    have h' : control? (name ++ (rest ++ c :: t)) = some (name, rest ++ c :: t) :=
      control?_append_of_opensLetter (e ▸ h) ho
    rw [e, List.append_assoc, (ReadsToken.control h').cueCount, ih, ← e,
      (ReadsToken.control h).cueCount]
    omega
  | case3 d r h ih =>
    by_cases hd : d = '\\'
    · subst hd
      obtain rfl := eq_nil_of_control?_eq_none h
      have h' : control? ('\\' :: c :: t) = some (['\\', c], t) := by simp [control?, ha]
      rw [List.singleton_append, (ReadsToken.control h').cueCount, ReadsToken.backslash.cueCount,
        cueCount_cons hb, isCueToken_of_not_letter ha hb, isCueToken_singleton]
      simp [cueCount_nil]
    · rw [List.cons_append, cueCount_cons hd, cueCount_cons hd, ih]

theorem tally_cueCount : Tally cueCount where
  control {t name rest} h := by
    have e := (eq_append_of_control? h).1
    have h' : control? (name ++ []) = some (name, []) :=
      control?_append_of_opensLetter (e ▸ h) (by simp [opensLetter])
    rw [List.append_nil] at h'
    rw [(ReadsToken.control h).cueCount, (ReadsToken.control h').cueCount, cueCount_nil]
    omega
  char hc t := by rw [cueCount_cons hc, cueCount_cons hc, cueCount_nil, Nat.zero_add]
  parted s _ ha hb t := cueCount_append s ha hb t
  blank h := by rw [cueCount_cons (ne_of_isBlank h).1, cueCount_nil]
  opening := by rw [cueCount_cons (by decide), cueCount_nil]
  closing := by rw [cueCount_cons (by decide), cueCount_nil]

theorem cueCount_dropLimits (t : Text) : cueCount (dropLimits t) = cueCount t := by
  have hl : isCueToken limits = false := by decide
  rw [cueCount, tokens_dropLimits, List.countP_filter, cueCount]
  apply List.countP_congr
  intro u _
  simp only [Bool.and_eq_true, decide_eq_true_eq, and_iff_left_iff_imp]
  rintro h rfl
  simp [hl] at h

theorem Sweep.countP_tokens {R : List Text → List Text → Prop} {p : Text → Bool}
    (hR : ∀ a b, R a b → b.countP p = a.countP p) {ts us : List Text} (h : Sweep R ts us) :
    us.countP p = ts.countP p := by
  induction h with
  | nil => rfl
  | keep _ ih => rw [List.countP_cons, List.countP_cons, ih]
  | replace hab _ ih => rw [List.countP_append, List.countP_append, ih, hR _ _ hab]

theorem BoldStep.countP_isCueToken {a b : List Text} (h : BoldStep a b) :
    b.countP isCueToken = a.countP isCueToken := by
  have hb : isCueToken bm = false := by decide
  have hm : isCueToken mathbf = false := by decide
  have hz : ∀ gap : List Text, (∀ u ∈ gap, isBlankToken u = true) → gap.countP isCueToken = 0 := by
    intro gap hg
    rw [List.countP_eq_zero]
    intro u hu
    simp [isCueToken_of_isBlankToken (hg u hu)]
  cases h with
  | group hg => simp [hb, hm, hz _ hg]
  | argument hg _ => simp [List.countP_cons, hb, hm, hz _ hg, isCueToken_singleton]

theorem cueCount_unifyBold (t : Text) : cueCount (unifyBold t) = cueCount t := by
  have hB : ∀ a b, BoldStep a b → b.countP isCueToken = a.countP isCueToken :=
    fun _ _ => BoldStep.countP_isCueToken
  rw [cueCount, tokens_unifyBold, (sweep_boldChars _).countP_tokens hB,
    (sweep_boldControls _).countP_tokens hB, (sweep_boldGroups _).countP_tokens hB, cueCount]

theorem sum_map_eq_zero {α : Type} {g : α → Nat} {l : List α} (h : ∀ a ∈ l, g a = 0) :
    (l.map g).sum = 0 := by
  induction l with
  | nil => rfl
  | cons a l ih =>
    rw [List.map_cons, List.sum_cons, h a List.mem_cons_self,
      ih fun b hb => h b (List.mem_cons_of_mem a hb)]

theorem cueCount_markers (l : ScriptPair) : cueCount l.markers = 0 := by
  unfold ScriptPair.markers
  induction l.toList with
  | nil => exact cueCount_nil
  | cons s l ih => rw [List.map_cons, cueCount_cons s.marker.char_ne.1, ih]

theorem cueCount_gatherPrescripts (t : Text) : cueCount (gatherPrescripts t) = cueCount t := by
  have h := tally_gatherBehind tally_cueCount [] t
  have hw : cueCount (spacing ++ prescript) = 0 := by decide +kernel
  have hs : cueCount strut = 0 := by decide +kernel
  rw [sum_segment_gain, hw, hs, sum_map_eq_zero] at h
  · exact h
  · intro s _
    cases s with
    | copied t => rfl
    | prescript l a => exact cueCount_markers l

theorem cueCount_oversetAccents (t : Text) : cueCount (oversetAccents t) = cueCount t := by
  have hc : ∀ a : Accent, cueCount a.control = 0 := by
    intro a
    cases a <;> decide +kernel
  have ho : ∀ a : Accent, cueCount (overset ++ [a.glyph]) = 0 := by
    intro a
    cases a <;> decide +kernel
  have h := tally_oversetAccents tally_cueCount t
  rw [sum_map_eq_zero, sum_map_eq_zero] at h
  · exact h
  · intro s _
    cases s with
    | copied t => rfl
    | overset accent a => exact ho accent
  · intro s _
    cases s with
    | copied t => rfl
    | overset accent a => exact hc accent

theorem cueCount_canonical (t : Text) : cueCount (canonical t) = cueCount t := by
  rw [canonical, cueCount_oversetAccents, cueCount_gatherPrescripts, clean,
    tally_cueCount.tidyRunningText, cueCount_unifyBold, cueCount_dropLimits]

/-! ## Newlines -/

def newlines (t : Text) : Nat :=
  t.countP (· == '\n')

theorem newlines_append (s t : Text) : newlines (s ++ t) = newlines s + newlines t :=
  List.countP_append

theorem newlines_pos_iff {t : Text} : 0 < newlines t ↔ '\n' ∈ t := by
  simp [newlines, List.countP_pos_iff]

theorem weight_newlines : Weight newlines :=
  .countP (by decide) (by decide)

theorem Sweep.newlines_le {R : List Text → List Text → Prop}
    (hR : ∀ a b, R a b → newlines b.flatten ≤ newlines a.flatten) {ts us : List Text}
    (h : Sweep R ts us) : newlines us.flatten ≤ newlines ts.flatten := by
  induction h with
  | nil => exact Nat.le_refl _
  | keep _ ih =>
    rw [List.flatten_cons, List.flatten_cons, newlines_append, newlines_append]
    omega
  | replace hab _ ih =>
    have := hR _ _ hab
    rw [List.flatten_append, List.flatten_append, newlines_append, newlines_append]
    omega

theorem newlines_dropLimits_le (t : Text) : newlines (dropLimits t) ≤ newlines t := by
  have h := (sweep_filter_limits (tokens t)).newlines_le fun a b h => by
    cases h
    exact Nat.zero_le _
  rwa [flatten_tokens] at h

theorem BoldStep.newlines_le {a b : List Text} (h : BoldStep a b) :
    newlines b.flatten ≤ newlines a.flatten := by
  have hm : newlines mathbf = 0 := by decide
  cases h with
  | group hg => simp [hm]
  | @argument gap u hg _ =>
    obtain ⟨ha, hb⟩ := flatten_bold_argument gap u
    rw [ha, hb, newlines_append, newlines_append, newlines_append, weight_newlines.braced, hm]
    omega

theorem newlines_unifyBold_le (t : Text) : newlines (unifyBold t) ≤ newlines t := by
  have hB : ∀ a b, BoldStep a b → newlines b.flatten ≤ newlines a.flatten :=
    fun _ _ => BoldStep.newlines_le
  have hg := (sweep_boldGroups (tokens t)).newlines_le hB
  have hc := (sweep_boldControls (boldGroups (tokens t))).newlines_le hB
  have ha := (sweep_boldChars (boldControls (boldGroups (tokens t)))).newlines_le hB
  rw [flatten_tokens] at hg
  exact (ha.trans hc).trans hg

theorem newlines_tidyBlanks_le (t : Text) : newlines (tidyBlanks t) ≤ newlines t := by
  have hs : newlines [' '] = 0 := by decide
  induction worded t with
  | blank ht =>
    rw [tidyBlanks_blank ht]
    exact Nat.zero_le _
  | last hl hne hw ht =>
    rw [tidyBlanks_last hl hne hw ht, newlines_append, newlines_append]
    omega
  | @cons lead word t b hl hne hw hb ht _ ih =>
    rw [tidyBlanks_cons hl hne hw hb ht, newlines_append, newlines_append, newlines_append,
      ← List.singleton_append, newlines_append, hs, ← List.singleton_append, newlines_append]
    omega

theorem newlines_tidyRunningText_le (t : Text) : newlines (tidyRunningText t) ≤ newlines t := by
  induction t using parts_induction with
  | nil => simp [tidyRunningText]
  | cons t p rest hr hs _ ih =>
    have hp : newlines p.tidied ≤ newlines p.source := by
      cases p with
      | copied t => exact Nat.le_refl _
      | block name gap body =>
        have hb := newlines_tidyBlanks_le body
        simp only [Part.tidied, Part.source, newlines_append, weight_newlines.braced]
        omega
    have ht := congrArg newlines hr.eq_append
    rw [newlines_append] at ht
    rw [hs, newlines_append]
    omega

theorem ReadsSegment.newlines_le {before t source rest : Text} {s : Segment}
    (h : ReadsSegment before t s source rest) : newlines s.written + newlines rest ≤ newlines t := by
  cases h with
  | control h => rw [(eq_append_of_control? h).1, newlines_append]; rfl
  | backslash => exact Nat.le_refl _
  | char _ _ => exact (newlines_append [_] rest).ge
  | lone _ _ | sizing _ _ _ => exact (newlines_append source rest).ge
  | @prescript source middle rest l a hl ha _ =>
    have h₁ := weight_leadingScripts?_le weight_newlines hl
    have h₂ := weight_atom?_le weight_newlines ha
    have h₃ := ScriptPair.weight_values weight_newlines (distinct_of_leadingScripts? hl)
    have h₄ := weight_written_prescript weight_newlines (by decide) (by decide) l a [] []
    rw [List.append_nil, List.nil_append, weight_newlines.nil] at h₄
    omega

theorem newlines_gatherPrescripts_le (t : Text) : newlines (gatherPrescripts t) ≤ newlines t := by
  have h : ∀ before t, newlines (gatherBehind before t) ≤ newlines t := by
    intro before t
    induction before, t using segmentsBehind_induction with
    | nil before => simp
    | cons before t s source rest hr _ ih =>
      have hs := hr.newlines_le
      rw [hr.gatherBehind_eq, newlines_append]
      omega
  exact h [] t

theorem ReadsStretch.newlines_le {t source rest : Text} {s : Stretch}
    (h : ReadsStretch t s source rest) : newlines s.written + newlines rest ≤ newlines t := by
  cases h with
  | char _ => exact (newlines_append [_] rest).ge
  | control h _ => rw [(eq_append_of_control? h).1, newlines_append]; rfl
  | @overset _ source rest accent a h ha =>
    have hg : newlines [accent.glyph] = 0 := by cases accent <;> decide
    have h₁ := weight_atom?_le weight_newlines ha
    have h₂ := weight_newlines.le_append accent.control (source ++ rest)
    have h₃ := weight_written_overset weight_newlines (by decide) hg a [] []
    rw [(eq_append_of_control? h).1]
    rw [List.append_nil, List.nil_append, weight_newlines.nil] at h₃
    omega

theorem newlines_oversetAccents_le (t : Text) : newlines (oversetAccents t) ≤ newlines t := by
  induction t using stretches_induction with
  | nil => simp [oversetAccents, stretches]
  | cons t s source rest hr _ ih =>
    have hs := hr.newlines_le
    rw [hr.oversetAccents_eq, newlines_append]
    omega

theorem newlines_canonical_le (t : Text) : newlines (canonical t) ≤ newlines t := by
  have h₁ := newlines_dropLimits_le t
  have h₂ := newlines_unifyBold_le (dropLimits t)
  have h₃ := newlines_tidyRunningText_le (unifyBold (dropLimits t))
  have h₄ := newlines_gatherPrescripts_le (clean t)
  have h₅ := newlines_oversetAccents_le (gatherPrescripts (clean t))
  unfold clean at h₄ h₅
  unfold canonical clean
  omega

/-- The canonical source has no cue that the source does not have, and of the cues only newlines can get
lost. So a source without newlines asks for the same mode as its canonical source. -/
theorem hasDisplayCue_canonical :
    (∀ t, hasDisplayCue (canonical t) = true → hasDisplayCue t = true) ∧
      ∀ t, '\n' ∉ t → hasDisplayCue (canonical t) = hasDisplayCue t ∧ modeOf (canonical t) = modeOf t := by
  have hn : ∀ t, '\n' ∈ canonical t → '\n' ∈ t := by
    intro t h
    rw [← newlines_pos_iff] at h ⊢
    have := newlines_canonical_le t
    omega
  constructor
  · intro t h
    rw [hasDisplayCue_iff_cueCount, cueCount_canonical] at h
    exact hasDisplayCue_iff_cueCount.mpr (h.imp_right (hn t))
  · intro t ht
    have hc : hasDisplayCue (canonical t) = hasDisplayCue t := by
      rw [Bool.eq_iff_iff, hasDisplayCue_iff_cueCount, hasDisplayCue_iff_cueCount,
        cueCount_canonical]
      simp [ht, mt (hn t) ht]
    exact ⟨hc, by rw [modeOf, modeOf, hc]⟩

theorem hasDisplayCue_canonical_of_limits :
    let t := "\\int\\limits_0 x".toList
    hasDisplayCue (canonical t) = true ∧ hasDisplayCue t = true ∧ '\n' ∉ t ∧
      hasDisplayCue (canonical t) = hasDisplayCue t ∧ modeOf (canonical t) = modeOf t := by
  intro t
  obtain ⟨h₁, h₂⟩ := hasDisplayCue_canonical
  have hc : hasDisplayCue (canonical t) = true := by decide +kernel
  have hn : '\n' ∉ t := by decide
  exact ⟨hc, h₁ t hc, hn, h₂ t hn⟩

end Formula.Tex
