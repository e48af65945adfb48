import Formula.Tex.Accent
import Formula.Proofs.Tex.Reading

/-! # How a text is split

A text falls into segments, and into stretches, one after the other: each is read at the front of what
is left, and stands for a part of the source. An induction over the parts comes with their sources.
-/

namespace Formula.Tex

open Text

theorem upTo_append (s rest : Text) : upTo rest (s ++ rest) = s := by
  simp [upTo]

/-! ## Segments -/

/-- The segment at the front of a text, its source, and what follows that. -/
inductive ReadsSegment (before : Text) : Text → Segment → Text → Text → Prop
  | control {t name rest : Text} : control? t = some (name, rest) →
      ReadsSegment before t (.copied name) name rest
  | backslash : ReadsSegment before ['\\'] (.copied ['\\']) ['\\'] []
  | char {c : Char} {r : Text} : c ≠ '\\' → leadingScripts? before (c :: r) = none →
      ReadsSegment before (c :: r) (.copied [c]) [c] r
  | lone {source rest : Text} {l : ScriptPair} :
      leadingScripts? before (source ++ rest) = some (l, rest) → atom? rest = none →
      ReadsSegment before (source ++ rest) (.copied source) source rest
  | sizing {source middle rest : Text} {l : ScriptPair} {a : Atom} :
      leadingScripts? before (source ++ rest) = some (l, middle) → atom? middle = some (a, rest) →
      a.nucleus.isSizing = true → ReadsSegment before (source ++ rest) (.copied source) source rest
  | prescript {source middle rest : Text} {l : ScriptPair} {a : Atom} :
      leadingScripts? before (source ++ rest) = some (l, middle) → atom? middle = some (a, rest) →
      a.nucleus.isSizing = false → ReadsSegment before (source ++ rest) (.prescript l a) source rest

theorem ReadsSegment.eq_append {before t source rest : Text} {s : Segment}
    (h : ReadsSegment before t s source rest) : t = source ++ rest := by
  cases h with
  | control h => exact (eq_append_of_control? h).1
  | _ => rfl

theorem exists_source_of_atom? {t rest : Text} {a : Atom} (h : atom? t = some (a, rest)) :
    ∃ source, t = source ++ rest := by
  by_cases hn : a.nucleus = .char '\\'
  · obtain ⟨-, -, rfl⟩ := eq_of_atom?_backslash h hn
    exact ⟨t, by simp⟩
  · obtain ⟨-, -, source, e, -⟩ := balanced_of_atom? h hn
    exact ⟨source, e⟩

theorem exists_cons_of_leadingScripts? {before t : Text} {p : ScriptPair × Text}
    (h : leadingScripts? before t = some p) : ∃ c r, t = c :: r ∧ c ≠ '\\' := by
  cases t with
  | nil => simp [leadingScripts?, leadIn?, after?, opensScript] at h
  | cons c r =>
    refine ⟨c, r, rfl, ?_⟩
    rintro rfl
    simp [leadingScripts?, leadIn?, after?, opensScript, isMarker, Marker.ofChar?] at h

section Equations

variable {before t middle rest : Text} {l : ScriptPair}

theorem segmentsBehind_control {name : Text} (h : control? t = some (name, rest)) :
    segmentsBehind before t = .copied name :: segmentsBehind (name.reverse ++ before) rest := by
  obtain ⟨r, rfl⟩ := exists_cons_of_control? h
  rw [segmentsBehind.eq_def]
  simp only [if_true]
  split <;> simp_all

theorem segmentsBehind_lone (hl : leadingScripts? before t = some (l, rest))
    (ha : atom? rest = none) :
    segmentsBehind before t =
      .copied (upTo rest t) :: segmentsBehind ((upTo rest t).reverse ++ before) rest := by
  obtain ⟨c, r, rfl, hb⟩ := exists_cons_of_leadingScripts? hl
  rw [segmentsBehind.eq_def]
  simp only [hb, if_false]
  split
  · simp_all
  · next l' rest' hl' =>
    obtain ⟨rfl, rfl⟩ : l = l' ∧ rest = rest' := by simpa using hl.symm.trans hl'
    split
    · rfl
    · simp_all

theorem segmentsBehind_atom {a : Atom} (hl : leadingScripts? before t = some (l, middle))
    (ha : atom? middle = some (a, rest)) :
    segmentsBehind before t =
      (if a.nucleus.isSizing then .copied (upTo rest t) else .prescript l a) ::
        segmentsBehind ((upTo rest t).reverse ++ before) rest := by
  obtain ⟨c, r, rfl, hb⟩ := exists_cons_of_leadingScripts? hl
  rw [segmentsBehind.eq_def]
  simp only [hb, if_false]
  split
  · simp_all
  · next l' rest' hl' =>
    obtain ⟨rfl, rfl⟩ : l = l' ∧ middle = rest' := by simpa using hl.symm.trans hl'
    split
    · simp_all
    · next a' rest'' ha'' =>
      obtain ⟨rfl, rfl⟩ : a = a' ∧ rest = rest'' := by simpa using ha.symm.trans ha''
      rfl

end Equations

theorem ReadsSegment.split {before t source rest : Text} {s : Segment}
    (h : ReadsSegment before t s source rest) :
    segmentsBehind before t = s :: segmentsBehind (source.reverse ++ before) rest := by
  cases h with
  | control hc => exact segmentsBehind_control hc
  | backslash => simp [segmentsBehind, control?]
  | char hb hl =>
    rw [segmentsBehind.eq_def]
    simp only [hb, if_false]
    split <;> simp_all
  | lone hl ha =>
    have h := segmentsBehind_lone hl ha
    rwa [upTo_append] at h
  | sizing hl ha hz | prescript hl ha hz =>
    have h := segmentsBehind_atom hl ha
    rw [upTo_append, hz] at h
    simpa using h

theorem ReadsSegment.length_lt {before t source rest : Text} {s : Segment}
    (h : ReadsSegment before t s source rest) : rest.length < t.length := by
  cases h with
  | control h =>
    have := control?_length h
    omega
  | backslash | char _ _ => simp
  | lone hl _ => exact leadingScripts?_length hl
  | sizing hl ha _ | prescript hl ha _ =>
    exact (atom?_length ha).trans (leadingScripts?_length hl)

theorem exists_readsSegment (before : Text) {t : Text} (ht : t ≠ []) :
    ∃ s source rest, ReadsSegment before t s source rest := by
  obtain ⟨c, r, rfl⟩ := List.exists_cons_of_ne_nil ht
  by_cases hb : c = '\\'
  · subst hb
    cases hc : control? ('\\' :: r) with
    | none =>
      obtain rfl := eq_nil_of_control?_eq_none hc
      exact ⟨_, _, _, .backslash⟩
    | some p => exact ⟨_, _, _, .control hc⟩
  · cases hl : leadingScripts? before (c :: r) with
    | none => exact ⟨_, _, _, .char hb hl⟩
    | some p =>
      obtain ⟨l, middle⟩ := p
      obtain ⟨-, lead, e, -⟩ := balanced_of_leadingScripts? hl
      cases ha : atom? middle with
      | none =>
        rw [e] at hl ⊢
        exact ⟨_, _, _, .lone hl ha⟩
      | some q =>
        obtain ⟨a, rest⟩ := q
        obtain ⟨tail, e'⟩ := exists_source_of_atom? ha
        have e'' : c :: r = (lead ++ tail) ++ rest := by rw [List.append_assoc, ← e', ← e]
        rw [e''] at hl ⊢
        cases hz : a.nucleus.isSizing with
        | true => exact ⟨_, _, _, .sizing hl ha hz⟩
        | false => exact ⟨_, _, _, .prescript hl ha hz⟩

/-- Induction over the segments of a text. -/
@[elab_as_elim]
theorem segmentsBehind_induction {motive : Text → Text → Prop}
    (nil : ∀ before, motive before [])
    (cons : ∀ before t s source rest, ReadsSegment before t s source rest →
      segmentsBehind before t = s :: segmentsBehind (source.reverse ++ before) rest →
      motive (source.reverse ++ before) rest → motive before t) (before t : Text) :
    motive before t := by
  induction h : t.length using Nat.strongRecOn generalizing before t with
  | ind n ih =>
    by_cases ht : t = []
    · rw [ht]
      exact nil before
    · obtain ⟨s, source, rest, hr⟩ := exists_readsSegment before ht
      exact cons before t s source rest hr hr.split (ih rest.length (h ▸ hr.length_lt) _ _ rfl)

/-- What gathering the prescripts makes of a text behind another one, which is given in reverse. -/
def gatherBehind (before t : Text) : Text :=
  (segmentsBehind before t).flatMap Segment.written

@[simp] theorem gatherBehind_nil (before : Text) : gatherBehind before [] = [] := by
  simp [gatherBehind, segmentsBehind]

theorem ReadsSegment.gatherBehind_eq {before t source rest : Text} {s : Segment}
    (h : ReadsSegment before t s source rest) :
    gatherBehind before t = s.written ++ gatherBehind (source.reverse ++ before) rest := by
  rw [gatherBehind, h.split, List.flatMap_cons, gatherBehind]

section Gather

variable {before t rest : Text}

theorem ReadsSegment.source_ne_nil {source : Text} {s : Segment}
    (h : ReadsSegment before t s source rest) : source ≠ [] := by
  rintro rfl
  have h₁ := h.length_lt
  rw [h.eq_append] at h₁
  simp at h₁

theorem ReadsSegment.written_cases {source : Text} {s : Segment}
    (h : ReadsSegment before t s source rest) :
    s.written = source ∨ ∃ u, s.written = '\\' :: u := by
  cases h with
  | prescript => exact .inr ⟨_, rfl⟩
  | _ => exact .inl rfl

theorem gatherBehind_ne_nil (ht : t ≠ []) : gatherBehind before t ≠ [] := by
  obtain ⟨s, source, rest, h⟩ := exists_readsSegment before ht
  rw [h.gatherBehind_eq]
  rcases h.written_cases with e | ⟨u, e⟩ <;> simp [e, h.source_ne_nil]

theorem opensLetter_of_gatherBehind (h : opensLetter (gatherBehind before t) = true) :
    opensLetter t = true := by
  by_cases ht : t = []
  · simp [ht, opensLetter] at h
  obtain ⟨s, source, rest, hr⟩ := exists_readsSegment before ht
  rw [hr.gatherBehind_eq] at h
  rw [hr.eq_append]
  rcases hr.written_cases with e | ⟨u, e⟩
  · obtain ⟨c, r, hs⟩ := List.exists_cons_of_ne_nil hr.source_ne_nil
    simpa [e, hs, opensLetter] using h
  · rw [e] at h
    simp [opensLetter] at h

end Gather

/-! ## Stretches -/

/-- The stretch at the front of a text, its source, and what follows that. -/
inductive ReadsStretch : Text → Stretch → Text → Text → Prop
  | char {c : Char} {r : Text} : control? (c :: r) = none →
      ReadsStretch (c :: r) (.copied [c]) [c] r
  | control {t name rest : Text} : control? t = some (name, rest) →
      (accent? t).bind (fun p => atom? p.2) = none → ReadsStretch t (.copied name) name rest
  | overset {t source rest : Text} {accent : Accent} {a : Atom} :
      control? t = some (accent.control, source ++ rest) → atom? (source ++ rest) = some (a, rest) →
      ReadsStretch t (.overset accent a) (accent.control ++ source) rest

theorem ReadsStretch.eq_append {t source rest : Text} {s : Stretch}
    (h : ReadsStretch t s source rest) : t = source ++ rest := by
  cases h with
  | char => rfl
  | control h _ => exact (eq_append_of_control? h).1
  | overset h _ => rw [(eq_append_of_control? h).1, List.append_assoc]

theorem Accent.ofControl?_eq_some_iff {name : Text} {a : Accent} :
    Accent.ofControl? name = some a ↔ name = a.control := by
  have hd : Accent.dot.control ≠ Accent.ddot.control := by decide
  cases a <;> simp only [Accent.ofControl?] <;> grind

theorem ReadsStretch.split {t source rest : Text} {s : Stretch}
    (h : ReadsStretch t s source rest) : stretches t = s :: stretches rest := by
  cases h with
  | char hc =>
    rw [stretches.eq_def]
    simp only
    split <;> simp_all
  | control hc hno =>
    obtain ⟨r, rfl⟩ := exists_cons_of_control? hc
    rw [stretches.eq_def]
    simp only
    split
    · simp_all
    · next name' rest' hc' =>
      obtain ⟨rfl, rfl⟩ : source = name' ∧ rest = rest' := by simpa using hc.symm.trans hc'
      cases ho : Accent.ofControl? source with
      | none => rfl
      | some accent =>
        have ha : atom? rest = none := by simpa [accent?, hc, ho] using hno
        simp only
        split <;> simp_all
  | @overset _ source rest accent a hc ha =>
    obtain ⟨r, rfl⟩ := exists_cons_of_control? hc
    have ho : Accent.ofControl? accent.control = some accent :=
      Accent.ofControl?_eq_some_iff.mpr rfl
    rw [stretches.eq_def]
    simp only
    split
    · simp_all
    · next name' rest' hc' =>
      obtain ⟨rfl, rfl⟩ : accent.control = name' ∧ source ++ rest = rest' := by
        simpa using hc.symm.trans hc'
      simp only [ho]
      split <;> simp_all

theorem ReadsStretch.length_lt {t source rest : Text} {s : Stretch}
    (h : ReadsStretch t s source rest) : rest.length < t.length := by
  cases h with
  | char => simp
  | control hc _ =>
    have := control?_length hc
    omega
  | overset hc ha =>
    have h₁ := control?_length hc
    have h₂ := atom?_length ha
    omega

theorem exists_readsStretch {t : Text} (ht : t ≠ []) :
    ∃ s source rest, ReadsStretch t s source rest := by
  obtain ⟨c, r, rfl⟩ := List.exists_cons_of_ne_nil ht
  cases hc : control? (c :: r) with
  | none => exact ⟨_, _, _, .char hc⟩
  | some p =>
    obtain ⟨name, middle⟩ := p
    cases ha : (accent? (c :: r)).bind fun p => atom? p.2 with
    | none => exact ⟨_, _, _, .control hc ha⟩
    | some q =>
      obtain ⟨a, rest⟩ := q
      obtain ⟨⟨accent, middle'⟩, hm, ha⟩ := Option.bind_eq_some_iff.mp ha
      simp only [accent?, hc, Option.bind_eq_bind, Option.bind_some, Option.bind_eq_some_iff] at hm
      obtain ⟨accent', ho, e⟩ := hm
      obtain ⟨rfl, rfl⟩ := Prod.mk.inj (Option.some.inj e)
      obtain rfl := Accent.ofControl?_eq_some_iff.mp ho
      obtain ⟨source, rfl⟩ := exists_source_of_atom? ha
      exact ⟨_, _, _, .overset hc ha⟩

/-- Induction over the stretches of a text. -/
theorem stretches_induction {motive : Text → Prop} (nil : motive [])
    (cons : ∀ t s source rest, ReadsStretch t s source rest →
      stretches t = s :: stretches rest → motive rest → motive t) (t : Text) : motive t := by
  induction h : t.length using Nat.strongRecOn generalizing t with
  | ind n ih =>
    by_cases ht : t = []
    · rw [ht]
      exact nil
    · obtain ⟨s, source, rest, hr⟩ := exists_readsStretch ht
      exact cons t s source rest hr hr.split (ih rest.length (h ▸ hr.length_lt) _ rfl)

section Oversets

variable {t : Text}

theorem ReadsStretch.oversetAccents_eq {source rest : Text} {s : Stretch}
    (h : ReadsStretch t s source rest) : oversetAccents t = s.written ++ oversetAccents rest := by
  rw [oversetAccents, h.split, List.flatMap_cons, oversetAccents]

theorem ReadsStretch.source_ne_nil {source rest : Text} {s : Stretch}
    (h : ReadsStretch t s source rest) : source ≠ [] := by
  rintro rfl
  have h₁ := h.length_lt
  rw [h.eq_append] at h₁
  simp at h₁

theorem ReadsStretch.written_cases {source rest : Text} {s : Stretch}
    (h : ReadsStretch t s source rest) : s.written = source ∨ ∃ u, s.written = '\\' :: u := by
  cases h with
  | overset => exact .inr ⟨_, rfl⟩
  | _ => exact .inl rfl

theorem opensLetter_of_oversetAccents (h : opensLetter (oversetAccents t) = true) :
    opensLetter t = true := by
  by_cases ht : t = []
  · simp [ht, oversetAccents, stretches, opensLetter] at h
  obtain ⟨s, source, rest, hr⟩ := exists_readsStretch ht
  rw [hr.oversetAccents_eq] at h
  rw [hr.eq_append]
  rcases hr.written_cases with e | ⟨u, e⟩
  · obtain ⟨c, r, hs⟩ := List.exists_cons_of_ne_nil hr.source_ne_nil
    simpa [e, hs, opensLetter] using h
  · rw [e] at h
    simp [opensLetter] at h

end Oversets

end Formula.Tex
