import Formula.Tex.ScriptPair
import Formula.Proofs.Tex.Balanced

/-! # What the readers read

Each reader of scripts, nuclei and atoms is described by a relation between a text, what is read at its
front, and what follows that. The relations name the shapes that the source can have. What is read is
balanced, with the one exception of a backslash that ends the text.
-/

namespace Formula.Tex

open Text

theorem takeWhile_isBlank_append_skipBlanks (t : Text) :
    t.takeWhile isBlank ++ skipBlanks t = t :=
  List.takeWhile_append_dropWhile

theorem ne_of_isBlank {c : Char} (h : isBlank c = true) : c ≠ '\\' ∧ c ≠ '{' ∧ c ≠ '}' := by
  refine ⟨?_, ?_, ?_⟩ <;>
  · rintro rfl
    exact absurd h (by decide)

theorem balanced_takeWhile_isBlank (t : Text) : Balanced (t.takeWhile isBlank) :=
  .of_forall fun _ hc => ne_of_isBlank (List.mem_takeWhile_imp hc)

theorem Marker.char_ne (m : Marker) : m.char ≠ '\\' ∧ m.char ≠ '{' ∧ m.char ≠ '}' := by
  cases m <;> decide

theorem isMarker_iff {c : Char} : isMarker c = true ↔ c = '_' ∨ c = '^' := by
  unfold isMarker Marker.ofChar?
  split_ifs <;> simp_all

theorem isMarker_of_isBlank {c : Char} (h : isBlank c = true) : isMarker c = false := by
  by_contra hm
  rcases isMarker_iff.mp (by simpa using hm) with rfl | rfl <;> exact absurd h (by decide)

/-! ## Control sequences -/

/-- A control sequence of letters would go on into the text. -/
def opensLetter (t : Text) : Bool :=
  t.head?.any Char.isAlpha

theorem opensLetter_cons {c : Char} (h : c.isAlpha = false) (t : Text) :
    opensLetter (c :: t) = false := by
  simpa [opensLetter] using h

theorem opensLetter_dropWhile (t : Text) : opensLetter (t.dropWhile Char.isAlpha) = false := by
  have hd := List.head?_dropWhile_not Char.isAlpha t
  unfold opensLetter
  cases hh : (t.dropWhile Char.isAlpha).head? with
  | none => rfl
  | some d => simpa [hh] using hd

theorem takeWhile_isAlpha_append {w x : Text} (hw : ∀ d ∈ w, d.isAlpha = true)
    (hx : opensLetter x = false) :
    (w ++ x).takeWhile Char.isAlpha = w ∧ (w ++ x).dropWhile Char.isAlpha = x := by
  rw [List.takeWhile_append_of_pos hw, List.dropWhile_append_of_pos hw]
  cases x with
  | nil => simp
  | cons d x =>
    have hd : d.isAlpha = false := by simpa [opensLetter] using hx
    simp [hd]

theorem control?_append_of_opensLetter {name r x : Text} (h : control? (name ++ r) = some (name, r))
    (hx : opensLetter x = true → opensLetter r = true) :
    control? (name ++ x) = some (name, x) := by
  have hl := (eq_append_of_control? h).2
  match name with
  | [] | [_] => simp at hl
  | b :: c :: w =>
    simp only [List.cons_append, control?] at h ⊢
    split_ifs at h ⊢ with hb hc
    · obtain ⟨ht, hd⟩ := Prod.mk.inj (Option.some.inj h)
      have e : (w ++ r).takeWhile Char.isAlpha = w := by simpa [hb] using ht
      have hw : ∀ d ∈ w, d.isAlpha = true := by
        intro d hd
        rw [← e] at hd
        exact List.mem_takeWhile_imp hd
      have hr : opensLetter r = false := by
        rw [← hd]
        exact opensLetter_dropWhile _
      obtain ⟨ht', hd'⟩ := takeWhile_isAlpha_append hw (x := x) (by simpa [hr] using hx)
      rw [ht', hd', hb]
    · simp only [Option.some.injEq, Prod.mk.injEq] at h ⊢
      obtain ⟨e, -⟩ := h
      simp_all

theorem opensLetter_of_control?_append {t name rest : Text} (h : control? t = some (name, rest))
    (u : Text) : opensLetter (name ++ u) = false := by
  match t with
  | [] | [_] => simp [control?] at h
  | b :: c :: r =>
    simp only [control?] at h
    split_ifs at h <;>
    · obtain ⟨rfl, -⟩ := Prod.mk.inj (Option.some.inj h)
      rfl

theorem exists_letters_of_isWordControl {name : Text} (h : isWordControl name = true) :
    ∃ c w, name = '\\' :: c :: w ∧ ∀ d ∈ c :: w, d.isAlpha = true := by
  unfold isWordControl at h
  split at h
  · next c w => exact ⟨c, w, rfl, List.all_eq_true.mp h⟩
  · simp at h

theorem control?_of_isWordControl {name x : Text} (h : isWordControl name = true)
    (hx : opensLetter x = false) : control? (name ++ x) = some (name, x) := by
  obtain ⟨c, w, rfl, hw⟩ := exists_letters_of_isWordControl h
  obtain ⟨hc, hw⟩ := List.forall_mem_cons.mp hw
  obtain ⟨ht, hd⟩ := takeWhile_isAlpha_append hw hx
  simp [control?, hc, ht, hd]

/-- A control sequence is a control word that ends before no letter, or has one character that is no
letter. -/
theorem control?_cases {t name rest : Text} (h : control? t = some (name, rest)) :
    (isWordControl name = true ∧ opensLetter rest = false) ∨
      ∃ c, name = ['\\', c] ∧ c.isAlpha = false := by
  match t with
  | [] | [_] => simp [control?] at h
  | b :: c :: r =>
    simp only [control?] at h
    split_ifs at h with hb hc <;> obtain ⟨rfl, rfl⟩ := Prod.mk.inj (Option.some.inj h)
    · refine .inl ⟨?_, opensLetter_dropWhile r⟩
      have hr : (r.takeWhile Char.isAlpha).all Char.isAlpha = true := List.all_takeWhile
      simp [isWordControl, hc, hr]
    · exact .inr ⟨c, rfl, by simpa using hc⟩

theorem opensLetter_of_control? {t name rest : Text} (h : control? t = some (name, rest))
    (hn : isWordControl name = true) : opensLetter rest = false := by
  rcases control?_cases h with ⟨-, hr⟩ | ⟨c, rfl, hc⟩
  · exact hr
  · simp [isWordControl, hc] at hn

/-- The text ends a token before it, if `t` does. -/
def Follows (u t : Text) : Prop :=
  (opensLetter u = true → opensLetter t = true) ∧ (t = [] → u = [])

theorem Follows.refl (t : Text) : Follows t t :=
  ⟨id, id⟩

theorem Follows.opensLetter_eq_false {u t : Text} (h : Follows u t) (ht : opensLetter t = false) :
    opensLetter u = false := by
  cases hu : opensLetter u with
  | false => rfl
  | true => exact absurd (h.1 hu) (by simp [ht])

/-! ## Scripts -/

inductive ReadsValue : Text → Text → Text → Prop
  | group {value rest : Text} : Balanced value → ReadsValue (braced value ++ rest) value rest
  | control {t name rest : Text} : control? t = some (name, rest) → ReadsValue t name rest
  | char {c : Char} {rest : Text} : c ≠ '\\' → c ≠ '{' → c ≠ '}' → isMarker c = false →
      ReadsValue (c :: rest) [c] rest

theorem readsValue_of_scriptValue? {t value rest : Text}
    (h : scriptValue? t = some (value, rest)) : ReadsValue t value rest := by
  match t with
  | [] => simp [scriptValue?] at h
  | c :: r =>
    simp only [scriptValue?] at h
    split at h
    · obtain ⟨hv, e⟩ := group?_iff.mp h
      rw [e]
      exact .group hv
    · next ho =>
      split at h
      · exact .control h
      · next hb =>
        split at h
        · simp at h
        · next hm =>
          simp only [Bool.or_eq_true, decide_eq_true_eq, not_or, Bool.not_eq_true] at hm
          simp only [Option.some.injEq, Prod.mk.injEq] at h
          obtain ⟨rfl, rfl⟩ := h
          exact .char hb ho hm.1 hm.2

theorem ReadsValue.balanced {t value rest : Text} (h : ReadsValue t value rest) :
    Balanced value := by
  cases h with
  | group hv => exact hv
  | control h => exact balanced_of_control? h
  | char hb ho hc _ => exact .singleton hb ho hc

theorem ReadsValue.source {t value rest : Text} (h : ReadsValue t value rest) :
    ∃ source, t = source ++ rest ∧ Balanced source := by
  cases h with
  | group hv => exact ⟨_, rfl, hv.braced⟩
  | control h => exact ⟨_, (eq_append_of_control? h).1, balanced_of_control? h⟩
  | @char c _ hb ho hc _ => exact ⟨[c], rfl, .singleton hb ho hc⟩

theorem script?_eq_some_iff {t rest : Text} {s : Script} :
    script? t = some (s, rest) ↔
      ∃ r, t = s.marker.char :: r ∧ scriptValue? (skipBlanks r) = some (s.value, rest) := by
  match t with
  | [] => simp [script?]
  | c :: r =>
    simp only [script?, Option.bind_eq_bind, Option.bind_eq_some_iff, Prod.exists, Option.pure_def,
      Option.some.injEq, Prod.mk.injEq, Marker.ofChar?_eq_some_iff, List.cons.injEq]
    constructor
    · rintro ⟨m, rfl, value, rest', h, rfl, rfl⟩
      exact ⟨r, ⟨rfl, rfl⟩, h⟩
    · rintro ⟨_, ⟨rfl, rfl⟩, h⟩
      exact ⟨s.marker, rfl, s.value, rest, h, rfl, rfl⟩

theorem balanced_of_script? {t rest : Text} {s : Script} (h : script? t = some (s, rest)) :
    Balanced s.value ∧ ∃ source, t = source ++ rest ∧ Balanced source := by
  obtain ⟨r, rfl, hr⟩ := script?_eq_some_iff.mp h
  have hv := readsValue_of_scriptValue? hr
  obtain ⟨source, e, hs⟩ := hv.source
  obtain ⟨hb, ho, hc⟩ := s.marker.char_ne
  refine ⟨hv.balanced, s.marker.char :: r.takeWhile isBlank ++ source, ?_,
    .char hb ho hc ((balanced_takeWhile_isBlank r).append hs)⟩
  rw [List.append_assoc, ← e, List.cons_append, takeWhile_isBlank_append_skipBlanks]

theorem balanced_of_script?_skipBlanks {t rest : Text} {s : Script}
    (h : script? (skipBlanks t) = some (s, rest)) :
    Balanced s.value ∧ ∃ source, t = source ++ rest ∧ Balanced source := by
  obtain ⟨hv, source, e, hs⟩ := balanced_of_script? h
  refine ⟨hv, t.takeWhile isBlank ++ source, ?_, (balanced_takeWhile_isBlank t).append hs⟩
  rw [List.append_assoc, ← e, takeWhile_isBlank_append_skipBlanks]

theorem Script.balanced_canonical {s : Script} (h : Balanced s.value) : Balanced s.canonical :=
  .char s.marker.char_ne.1 s.marker.char_ne.2.1 s.marker.char_ne.2.2 h.braced

theorem opensLetter_canonical (l : List Script) :
    opensLetter (l.flatMap Script.canonical) = false := by
  cases l with
  | nil => rfl
  | cons s l =>
    rw [List.flatMap_cons, Script.canonical]
    cases s.marker <;> rfl

theorem scripts_of_none {t : Text} (h : script? (skipBlanks t) = none) : scripts t = ([], t) := by
  rw [scripts.eq_def]
  split <;> simp_all

theorem scripts_of_some {t rest : Text} {s : Script} (h : script? (skipBlanks t) = some (s, rest)) :
    scripts t = (s :: (scripts rest).1, (scripts rest).2) := by
  rw [scripts.eq_def]
  split <;> simp_all

theorem balanced_scripts (t : Text) :
    (∀ s ∈ (scripts t).1, Balanced s.value) ∧
      ∃ source, t = source ++ (scripts t).2 ∧ Balanced source := by
  fun_induction scripts t with
  | case1 t => exact ⟨by simp, [], rfl, .nil⟩
  | case2 t s rest h more ih =>
    obtain ⟨hv, source, e, hs⟩ := balanced_of_script?_skipBlanks h
    obtain ⟨hm, source', e', hs'⟩ := ih
    refine ⟨?_, source ++ source', ?_, hs.append hs'⟩
    · intro u hu
      rcases List.mem_cons.mp hu with rfl | hu
      · exact hv
      · exact hm u hu
    · rw [List.append_assoc, ← e', ← e]

/-! ## Nuclei and atoms -/

inductive ReadsNucleus : Text → Nucleus → Text → Prop
  | char {c : Char} {rest : Text} : c ≠ '\\' → c ≠ '{' → c ≠ '}' → isMarker c = false →
      ReadsNucleus (c :: rest) (.char c) rest
  | backslash : ReadsNucleus ['\\'] (.char '\\') []
  | control {t name rest : Text} : control? t = some (name, rest) →
      takesArgument name = true → group? rest = none → ReadsNucleus t (.control name none) rest
  | symbol {t name rest : Text} : control? t = some (name, rest) →
      takesArgument name = false → ReadsNucleus t (.control name none) rest
  | argument {t name argument rest : Text} : control? t = some (name, braced argument ++ rest) →
      takesArgument name = true → Balanced argument →
      ReadsNucleus t (.control name (some argument)) rest
  | group {content rest : Text} : Balanced content →
      ReadsNucleus (braced content ++ rest) (.group content) rest

theorem eq_nil_of_control?_eq_none {r : Text} (h : control? ('\\' :: r) = none) : r = [] := by
  cases r with
  | nil => rfl
  | cons c r =>
    simp only [control?, if_true] at h
    split at h <;> simp at h

theorem exists_cons_of_control? {t : Text} {p : Text × Text} (h : control? t = some p) :
    ∃ r, t = '\\' :: r := by
  cases t with
  | nil => simp [control?] at h
  | cons c r =>
    by_cases hb : c = '\\'
    · exact ⟨r, by rw [hb]⟩
    · simp [control?_of_ne hb] at h

theorem nucleus?_of_control? {t name rest : Text} (h : control? t = some (name, rest)) :
    nucleus? t = if takesArgument name then match group? rest with
      | some (argument, rest) => some (.control name (some argument), rest)
      | none => some (.control name none, rest)
    else some (.control name none, rest) := by
  obtain ⟨r, rfl⟩ := exists_cons_of_control? h
  simp only [nucleus?, h]
  rfl

theorem readsNucleus_of_nucleus? {t rest : Text} {n : Nucleus}
    (h : nucleus? t = some (n, rest)) : ReadsNucleus t n rest := by
  match t with
  | [] => simp [nucleus?] at h
  | c :: r =>
    simp only [nucleus?] at h
    split at h
    · simp at h
    · next hm =>
      simp only [Bool.or_eq_true, decide_eq_true_eq, not_or, Bool.not_eq_true] at hm
      split at h
      · next hb =>
        subst hb
        split at h
        · next hn =>
          obtain rfl := eq_nil_of_control?_eq_none hn
          simp only [Option.some.injEq, Prod.mk.injEq] at h
          obtain ⟨rfl, rfl⟩ := h
          exact .backslash
        · next name r' hn =>
          split at h
          · next ha =>
            split at h
            · next argument r'' hg =>
              obtain ⟨hv, rfl⟩ := group?_iff.mp hg
              simp only [Option.some.injEq, Prod.mk.injEq] at h
              obtain ⟨rfl, rfl⟩ := h
              exact .argument hn ha hv
            · next hg =>
              simp only [Option.some.injEq, Prod.mk.injEq] at h
              obtain ⟨rfl, rfl⟩ := h
              exact .control hn ha hg
          · next ha =>
            simp only [Option.some.injEq, Prod.mk.injEq] at h
            obtain ⟨rfl, rfl⟩ := h
            exact .symbol hn (by simpa using ha)
      · next hb =>
        split at h
        · simp only [Option.map_eq_some_iff, Prod.mk.injEq, Prod.exists] at h
          obtain ⟨content, _, hg, rfl, rfl⟩ := h
          obtain ⟨hv, e⟩ := group?_iff.mp hg
          rw [e]
          exact .group hv
        · next ho =>
          simp only [Option.some.injEq, Prod.mk.injEq] at h
          obtain ⟨rfl, rfl⟩ := h
          exact .char hb ho hm.1 hm.2

theorem ReadsNucleus.balanced {t rest : Text} {n : Nucleus} (h : ReadsNucleus t n rest)
    (hn : n ≠ .char '\\') : Balanced n.written ∧ Balanced n.unwrapped := by
  cases h with
  | char hb ho hc _ => exact ⟨.singleton hb ho hc, .singleton hb ho hc⟩
  | backslash => exact absurd rfl hn
  | control h | symbol h => exact ⟨balanced_of_control? h, balanced_of_control? h⟩
  | argument h _ hv =>
    exact ⟨(balanced_of_control? h).append hv.braced, (balanced_of_control? h).append hv.braced⟩
  | group hv => exact ⟨hv.braced, hv⟩

theorem atom?_eq_some_iff {t rest : Text} {a : Atom} :
    atom? t = some (a, rest) ↔
      a.leading = t.takeWhile isBlank ∧
        ∃ r, nucleus? (skipBlanks t) = some (a.nucleus, r) ∧ scripts r = (a.scripts, rest) := by
  simp only [atom?, Option.bind_eq_bind, Option.bind_eq_some_iff, Prod.exists, Option.pure_def,
    Option.some.injEq, Prod.mk.injEq]
  constructor
  · rintro ⟨n, r, h, rfl, rfl⟩
    exact ⟨rfl, r, h, rfl⟩
  · rintro ⟨hl, r, h, hs⟩
    refine ⟨a.nucleus, r, h, ?_, by rw [hs]⟩
    rw [hs, ← hl]

/-- An atom is balanced in the source and in both of its canonical spellings. -/
theorem balanced_of_atom? {t rest : Text} {a : Atom} (h : atom? t = some (a, rest))
    (hn : a.nucleus ≠ .char '\\') :
    Balanced a.base ∧ Balanced a.target ∧ ∃ source, t = source ++ rest ∧ Balanced source := by
  obtain ⟨-, r, hr, hs⟩ := atom?_eq_some_iff.mp h
  obtain ⟨hw, hu⟩ := (readsNucleus_of_nucleus? hr).balanced hn
  obtain ⟨hv, source, e, hb⟩ := balanced_scripts r
  rw [hs] at hv e
  have hc : Balanced (a.scripts.flatMap Script.canonical) :=
    .flatMap fun s h => Script.balanced_canonical (hv s h)
  refine ⟨hw.append hc, hu.append hc, t.takeWhile isBlank ++ (a.nucleus.written ++ source), ?_,
    (balanced_takeWhile_isBlank t).append (hw.append hb)⟩
  rw [List.append_assoc, List.append_assoc, ← e, ← (eq_append_of_nucleus? hr).1,
    takeWhile_isBlank_append_skipBlanks]

theorem eq_of_atom?_backslash {t rest : Text} {a : Atom} (h : atom? t = some (a, rest))
    (hn : a.nucleus = .char '\\') :
    t = t.takeWhile isBlank ++ ['\\'] ∧ a.scripts = [] ∧ rest = [] := by
  obtain ⟨-, r, hr, hs⟩ := atom?_eq_some_iff.mp h
  have hr' := readsNucleus_of_nucleus? hr
  rw [hn] at hr'
  generalize hu : skipBlanks t = u at hr'
  cases hr' with
  | char hb => exact absurd rfl hb
  | backslash =>
    rw [scripts] at hs
    simp [skipBlanks, script?] at hs
    refine ⟨?_, hs.1, hs.2⟩
    rw [← hu, takeWhile_isBlank_append_skipBlanks]

/-! ## Left scripts -/

theorem leadIn?_source {before t start : Text} (h : leadIn? before t = some start) :
    t = start ∨ ∃ r, t = '{' :: '}' :: r ∧ start = skipBlanks r := by
  simp only [leadIn?] at h
  split at h
  · next r hr =>
    split at h
    · simp at h
    · exact .inr ⟨r, after?_eq_some_iff.mp hr, (Option.some.inj h).symm⟩
  · split at h
    · exact .inl (Option.some.inj h)
    · simp at h

theorem leadingScripts?_cases {before t rest : Text} {l : ScriptPair}
    (h : leadingScripts? before t = some (l, rest)) :
    ∃ start, leadIn? before t = some start ∧
      ((l.second = none ∧ script? start = some (l.first, rest)) ∨
        ∃ s r, l.second = some s ∧ s.marker ≠ l.first.marker ∧
          script? start = some (l.first, r) ∧ script? (skipBlanks r) = some (s, rest)) := by
  simp only [leadingScripts?, Option.bind_eq_bind, Option.bind_eq_some_iff, Prod.exists,
    Option.pure_def] at h
  obtain ⟨start, hs, first, r, hf, h⟩ := h
  refine ⟨start, hs, ?_⟩
  split at h
  · simp only [Option.some.injEq, Prod.mk.injEq] at h
    obtain ⟨rfl, rfl⟩ := h
    exact .inl ⟨rfl, hf⟩
  · next second r' hr =>
    split at h <;> simp only [Option.some.injEq, Prod.mk.injEq] at h <;> obtain ⟨rfl, rfl⟩ := h
    · exact .inl ⟨rfl, hf⟩
    · next hm => exact .inr ⟨second, r, rfl, hm, hf, hr⟩

theorem distinct_of_leadingScripts? {before t rest : Text} {l : ScriptPair}
    (h : leadingScripts? before t = some (l, rest)) :
    ∀ s ∈ l.second, s.marker ≠ l.first.marker := by
  obtain ⟨start, -, h⟩ := leadingScripts?_cases h
  rcases h with ⟨hn, -⟩ | ⟨s, r, hs, hm, -, -⟩
  · simp [hn]
  · simpa [hs] using hm

theorem ScriptPair.mem_of_value {l : ScriptPair} {m : Marker} (h : l.value m ≠ []) :
    ∃ s ∈ l.toList, s.marker = m ∧ l.value m = s.value := by
  unfold ScriptPair.value at h ⊢
  cases hf : l.toList.find? (·.marker = m) with
  | none => simp [hf] at h
  | some s =>
    exact ⟨s, List.mem_of_find?_eq_some hf, by simpa using List.find?_some hf, by simp⟩

theorem balanced_of_leadingScripts? {before t rest : Text} {l : ScriptPair}
    (h : leadingScripts? before t = some (l, rest)) :
    (∀ m, Balanced (l.value m)) ∧ ∃ source, t = source ++ rest ∧ Balanced source := by
  obtain ⟨start, hs, h⟩ := leadingScripts?_cases h
  have hl : (∀ s ∈ l.toList, Balanced s.value) ∧
      ∃ source, start = source ++ rest ∧ Balanced source := by
    rcases h with ⟨hn, hf⟩ | ⟨s, r, hs, -, hf, hr⟩
    · obtain ⟨hv, source, e, hb⟩ := balanced_of_script? hf
      exact ⟨by simpa [ScriptPair.toList, hn] using hv, source, e, hb⟩
    · obtain ⟨hv, source, e, hb⟩ := balanced_of_script? hf
      obtain ⟨hv', source', e', hb'⟩ := balanced_of_script?_skipBlanks hr
      refine ⟨by simpa [ScriptPair.toList, hs] using ⟨hv, hv'⟩, source ++ source', ?_, hb.append hb'⟩
      rw [List.append_assoc, ← e', ← e]
  obtain ⟨hv, source, e, hb⟩ := hl
  constructor
  · intro m
    by_cases hm : l.value m = []
    · rw [hm]
      exact .nil
    · obtain ⟨s, hmem, -, e⟩ := ScriptPair.mem_of_value hm
      rw [e]
      exact hv s hmem
  · rcases leadIn?_source hs with rfl | ⟨r, rfl, rfl⟩
    · exact ⟨source, e, hb⟩
    · refine ⟨'{' :: '}' :: r.takeWhile isBlank ++ source, ?_, ?_⟩
      · rw [List.append_assoc, ← e, List.cons_append, List.cons_append,
          takeWhile_isBlank_append_skipBlanks]
      · simpa [braced] using
          (Balanced.group .nil ((balanced_takeWhile_isBlank r).append hb))

end Formula.Tex
