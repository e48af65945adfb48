import Formula.Proofs.Tex.Splitting

/-! # Reading inside a group

What is read from a text inside a group depends neither on what stands behind the closing brace nor on
what stands before the opening brace. So the content of a group is split in the same way wherever the
group stands.
-/

namespace Formula.Tex

open Text

/-- The end of the content of some group: every brace that it opens is closed in it. -/
def Inner (t : Text) : Prop :=
  ∃ depth, Closing depth t

theorem Balanced.inner {t : Text} (h : Balanced t) : Inner t :=
  ⟨0, h⟩

namespace Inner

theorem of_append {s t : Text} (hs : Balanced s) : Inner (s ++ t) → Inner t := by
  rintro ⟨depth, h⟩
  exact ⟨depth, h.of_append hs⟩

theorem of_skipBlanks {t : Text} (h : Inner t) : Inner (skipBlanks t) := by
  rw [← takeWhile_isBlank_append_skipBlanks t] at h
  exact h.of_append (balanced_takeWhile_isBlank t)

theorem ne_backslash {t : Text} (h : Inner t) : t ≠ ['\\'] := by
  rintro rfl
  obtain ⟨depth, h⟩ := h
  have hc := h.close?_eq []
  simp at hc

theorem tail {c : Char} {r : Text} (h : Inner (c :: r)) (hb : c ≠ '\\') : Inner r := by
  obtain ⟨depth, h⟩ := h
  by_cases ho : c = '{'
  · rw [ho, closing_open_iff] at h
    exact ⟨_, h⟩
  by_cases hc : c = '}'
  · rw [hc, closing_shut_iff] at h
    obtain ⟨d, -, h⟩ := h
    exact ⟨d, h⟩
  · exact ⟨depth, h.of_append (s := [c]) (.singleton hb ho hc)⟩

theorem group?_isSome {r : Text} (h : Inner ('{' :: r)) : ∃ p, group? ('{' :: r) = some p := by
  have key : ∀ {s : Text}, Balanced ('{' :: s) → ∀ u, ∃ p, group? ('{' :: s ++ u) = some p := by
    intro s hs u
    generalize ht : '{' :: s = t at hs
    cases hs with
    | nil | escape => simp at ht
    | char _ ho => exact absurd (List.cons.inj ht).1.symm ho
    | @group s' t' hs' _ => exact ⟨_, group?_iff.mpr ⟨hs', List.append_assoc _ _ _⟩⟩
  obtain ⟨depth, h⟩ := h
  cases depth with
  | zero => simpa using key h []
  | succ depth =>
    obtain ⟨s, u, e, hs, -⟩ := h
    cases s with
    | nil => simp at e
    | cons c s =>
      obtain ⟨rfl, rfl⟩ : '{' = c ∧ r = s ++ '}' :: u := by simpa using e
      exact key hs _

end Inner

section Readers

variable {t : Text} (r : Text)

theorem takeWhile_append_shut {p : Char → Bool} (hp : p '}' = false) (t : Text) :
    (t ++ '}' :: r).takeWhile p = t.takeWhile p ∧
      (t ++ '}' :: r).dropWhile p = t.dropWhile p ++ '}' :: r := by
  induction t with
  | nil => simp [hp]
  | cons c t ih => cases hc : p c <;> simp [hc, ih]

theorem skipBlanks_append_shut (t : Text) :
    skipBlanks (t ++ '}' :: r) = skipBlanks t ++ '}' :: r :=
  (takeWhile_append_shut r (by decide) t).2

theorem opensScript_append_shut (t : Text) : opensScript (t ++ '}' :: r) = opensScript t := by
  cases t with
  | nil => rfl
  | cons c t => rfl

/-- What is read, with the closing brace and what follows it behind the rest. -/
def withShut {α : Type} (p : α × Text) : α × Text :=
  (p.1, p.2 ++ '}' :: r)

theorem control?_append_shut (h : Inner t) :
    control? (t ++ '}' :: r) = (control? t).map (withShut r) := by
  match t with
  | [] => exact control?_of_ne (by decide)
  | [c] =>
    have hc : c ≠ '\\' := by
      rintro rfl
      exact h.ne_backslash rfl
    rw [List.singleton_append, control?_of_ne hc, control?_of_ne hc, Option.map_none]
  | b :: c :: u =>
    obtain ⟨h₁, h₂⟩ := takeWhile_append_shut r (p := Char.isAlpha) (by decide) u
    simp only [List.cons_append, control?, h₁, h₂]
    split_ifs <;> rfl

theorem Inner.of_control? (h : Inner t) {name rest : Text} (hc : control? t = some (name, rest)) :
    Inner rest := by
  rw [(eq_append_of_control? hc).1] at h
  exact h.of_append (balanced_of_control? hc)

theorem group?_append_shut (h : Inner t) :
    group? (t ++ '}' :: r) = (group? t).map (withShut r) := by
  cases hg : group? t with
  | some p =>
    obtain ⟨hc, rfl⟩ := group?_iff.mp hg
    rw [List.append_assoc, group?_iff.mpr ⟨hc, rfl⟩]
    rfl
  | none =>
    cases t with
    | nil => rfl
    | cons c t =>
      by_cases hc : c = '{'
      · subst hc
        obtain ⟨p, hp⟩ := h.group?_isSome
        simp [hp] at hg
      · simp [group?, hc]

theorem scriptValue?_append_shut (h : Inner t) :
    scriptValue? (t ++ '}' :: r) = (scriptValue? t).map (withShut r) := by
  cases t with
  | nil => rfl
  | cons c u =>
    have hg := group?_append_shut r h
    have hc := control?_append_shut r h
    simp only [List.cons_append] at hg hc
    simp only [List.cons_append, scriptValue?, hg, hc]
    split_ifs <;> rfl

theorem script?_append_shut (h : Inner t) :
    script? (t ++ '}' :: r) = (script? t).map (withShut r) := by
  cases t with
  | nil => rfl
  | cons c u =>
    cases hm : Marker.ofChar? c with
    | none => simp [script?, hm]
    | some m =>
      have hu : Inner u := by
        obtain ⟨hb, ho, hc⟩ := m.char_ne
        rw [Marker.ofChar?_eq_some_iff] at hm
        subst hm
        exact Inner.of_append (s := [m.char]) (.singleton hb ho hc) h
      have hv := scriptValue?_append_shut r hu.of_skipBlanks
      simp only [List.cons_append, script?, hm, skipBlanks_append_shut, hv]
      cases scriptValue? (skipBlanks u) <;> rfl

theorem Inner.of_script? (h : Inner t) {s : Script} {rest : Text}
    (hs : script? t = some (s, rest)) : Inner rest := by
  obtain ⟨-, source, rfl, hb⟩ := balanced_of_script? hs
  exact h.of_append hb

theorem scripts_append_shut (h : Inner t) :
    scripts (t ++ '}' :: r) = withShut r (scripts t) := by
  fun_induction scripts t with
  | case1 t hn =>
    rw [scripts, skipBlanks_append_shut]
    have hs := script?_append_shut r h.of_skipBlanks
    rw [hn] at hs
    split
    · rfl
    · simp_all
  | case2 t s rest hs more ih =>
    have hs' := script?_append_shut r h.of_skipBlanks
    rw [hs] at hs'
    rw [scripts, skipBlanks_append_shut]
    split
    · simp_all
    · next s' rest' hs'' =>
      obtain ⟨rfl, rfl⟩ : s = s' ∧ rest ++ '}' :: r = rest' := by
        simpa [withShut] using hs'.symm.trans hs''
      simp only [ih (h.of_skipBlanks.of_script? hs)]
      rfl

theorem nucleus?_append_shut (h : Inner t) :
    nucleus? (t ++ '}' :: r) = (nucleus? t).map (withShut r) := by
  cases t with
  | nil => simp [nucleus?]
  | cons c u =>
    have hg := group?_append_shut r h
    have hc := control?_append_shut r h
    simp only [List.cons_append] at hg hc
    simp only [List.cons_append, nucleus?, hg, hc]
    split_ifs with h₁ h₂ h₃
    · rfl
    · cases hn : control? (c :: u) with
      | none => rfl
      | some p =>
        obtain ⟨name, rest⟩ := p
        simp only [Option.map_some, withShut, group?_append_shut r (h.of_control? hn)]
        cases group? rest <;> by_cases ha : takesArgument name = true <;> simp [ha, withShut]
    · cases group? (c :: u) <;> rfl
    · rfl

theorem Inner.of_nucleus? (h : Inner t) {n : Nucleus} {rest : Text}
    (hn : nucleus? t = some (n, rest)) : Inner rest := by
  by_cases hb : n = .char '\\'
  · have hr := readsNucleus_of_nucleus? hn
    rw [hb] at hr
    cases hr with
    | char hb => exact absurd rfl hb
    | backslash => exact Balanced.nil.inner
  · rw [(eq_append_of_nucleus? hn).1] at h
    exact h.of_append ((readsNucleus_of_nucleus? hn).balanced hb).1

theorem atom?_append_shut (h : Inner t) :
    atom? (t ++ '}' :: r) = (atom? t).map (withShut r) := by
  have hn := nucleus?_append_shut r h.of_skipBlanks
  have hb := (takeWhile_append_shut r (p := isBlank) (by decide) t).1
  simp only [atom?, skipBlanks_append_shut, hn, hb]
  cases hc : nucleus? (skipBlanks t) with
  | none => rfl
  | some p =>
    have hs := scripts_append_shut r (h.of_skipBlanks.of_nucleus? hc)
    simp only [Option.map_some, withShut, Option.bind_eq_bind, Option.bind_some, hs]
    rfl

theorem Inner.of_atom? (h : Inner t) {a : Atom} {rest : Text}
    (ha : atom? t = some (a, rest)) : Inner rest := by
  obtain ⟨-, r, hn, hs⟩ := atom?_eq_some_iff.mp ha
  obtain ⟨-, source, e, hb⟩ := balanced_scripts r
  have hi := h.of_skipBlanks.of_nucleus? hn
  rw [e, hs] at hi
  exact hi.of_append hb

end Readers

/-! ## Left scripts -/

theorem opensBare_append_open (u before : Text) :
    opensBare (u ++ '{' :: before) = opensBare (u ++ ['{']) := by
  cases u <;> rfl

theorem awaitsValue_append_open (u before : Text) :
    awaitsValue (u ++ '{' :: before) = awaitsValue (u ++ ['{']) := by
  induction u with
  | nil => rfl
  | cons c u ih =>
    cases hc : isBlank c with
    | true => simpa [awaitsValue, skipBlanks, hc] using ih
    | false => simp [awaitsValue, skipBlanks, hc, opensScript]

theorem leadIn?_append_shut {t : Text} (u before r : Text) (h : Inner t) :
    leadIn? (u ++ '{' :: before) (t ++ '}' :: r) =
      (leadIn? (u ++ ['{']) t).map (· ++ '}' :: r) := by
  have ha : after? ['{', '}'] (t ++ '}' :: r) = (after? ['{', '}'] t).map (· ++ '}' :: r) := by
    match t with
    | [] => rfl
    | [c] =>
      have hc : c ≠ '{' := by
        rintro rfl
        obtain ⟨p, hp⟩ := h.group?_isSome
        simp [group?] at hp
      simp [after?, hc.symm]
    | c :: d :: v =>
      simp only [List.cons_append, after?]
      split_ifs <;> rfl
  simp only [leadIn?, ha, opensBare_append_open, awaitsValue_append_open, opensScript_append_shut]
  cases after? ['{', '}'] t with
  | none =>
    simp only [Option.map_none]
    split_ifs <;> rfl
  | some v =>
    simp only [Option.map_some, skipBlanks_append_shut, opensScript_append_shut]
    split_ifs <;> rfl

theorem Inner.of_leadIn? {t start : Text} (h : Inner t) {before : Text}
    (hs : leadIn? before t = some start) : Inner start := by
  rcases leadIn?_source hs with rfl | ⟨r, rfl, rfl⟩
  · exact h
  · exact (h.of_append (s := braced []) (Balanced.nil.braced)).of_skipBlanks

theorem Inner.of_leadingScripts? {t : Text} (h : Inner t) {before rest : Text} {l : ScriptPair}
    (hl : leadingScripts? before t = some (l, rest)) : Inner rest := by
  obtain ⟨-, lead, rfl, hb⟩ := balanced_of_leadingScripts? hl
  exact h.of_append hb

theorem leadingScripts?_append_shut {t : Text} (u before r : Text) (h : Inner t) :
    leadingScripts? (u ++ '{' :: before) (t ++ '}' :: r) =
      (leadingScripts? (u ++ ['{']) t).map (withShut r) := by
  simp only [leadingScripts?, leadIn?_append_shut u before r h]
  cases hs : leadIn? (u ++ ['{']) t with
  | none => rfl
  | some start =>
    have hi := h.of_leadIn? hs
    simp only [Option.map_some, Option.bind_eq_bind, Option.bind_some, script?_append_shut r hi]
    cases hf : script? start with
    | none => rfl
    | some p =>
      obtain ⟨first, rest⟩ := p
      have hr := (hi.of_script? hf).of_skipBlanks
      simp only [Option.map_some, withShut, Option.bind_some, skipBlanks_append_shut,
        script?_append_shut r hr]
      cases script? (skipBlanks rest) with
      | none => rfl
      | some q =>
        simp only [Option.map_some, withShut]
        split_ifs <;> rfl

/-! ## Segments -/

theorem ReadsSegment.append_shut {u t source rest : Text} {s : Segment} (before r : Text)
    (h : ReadsSegment (u ++ ['{']) t s source rest) (ht : Inner t) :
    ReadsSegment (u ++ '{' :: before) (t ++ '}' :: r) s source (rest ++ '}' :: r) := by
  have hl := leadingScripts?_append_shut u before r ht
  cases h with
  | control h => exact .control (by rw [control?_append_shut r ht, h]; rfl)
  | backslash => exact absurd rfl ht.ne_backslash
  | char hb h =>
    rw [h] at hl
    exact .char hb hl
  | lone h ha =>
    rw [h] at hl
    rw [List.append_assoc] at hl ⊢
    exact .lone hl (by rw [atom?_append_shut r (ht.of_leadingScripts? h), ha]; rfl)
  | sizing h ha hz =>
    rw [h] at hl
    rw [List.append_assoc] at hl ⊢
    exact .sizing hl (by rw [atom?_append_shut r (ht.of_leadingScripts? h), ha]; rfl) hz
  | prescript h ha hz =>
    rw [h] at hl
    rw [List.append_assoc] at hl ⊢
    exact .prescript hl (by rw [atom?_append_shut r (ht.of_leadingScripts? h), ha]; rfl) hz

theorem ReadsSegment.inner {before t source rest : Text} {s : Segment}
    (h : ReadsSegment before t s source rest) (ht : Inner t) : Inner rest := by
  cases h with
  | control h => exact ht.of_control? h
  | backslash => exact Balanced.nil.inner
  | char hb _ => exact ht.tail hb
  | lone h _ => exact ht.of_leadingScripts? h
  | sizing h ha _ | prescript h ha _ => exact (ht.of_leadingScripts? h).of_atom? ha

/-- The content of a group is split without regard to what is around the group. -/
theorem segmentsBehind_append_shut {u t : Text} (before r : Text) (ht : Inner t) :
    segmentsBehind (u ++ '{' :: before) (t ++ '}' :: r) = segmentsBehind (u ++ ['{']) t ++
      segmentsBehind (t.reverse ++ u ++ '{' :: before) ('}' :: r) := by
  generalize hb : u ++ ['{'] = b
  induction b, t using segmentsBehind_induction generalizing u with
  | nil => simp [segmentsBehind]
  | cons b t s source rest hr e ih =>
    subst hb
    have hs := ih (hr.inner ht) (u := source.reverse ++ u) (List.append_assoc _ _ _)
    rw [(hr.append_shut before r ht).split, e, ← List.append_assoc, hs, hr.eq_append]
    simp

end Formula.Tex
