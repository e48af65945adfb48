import Formula.Proofs.Markup.Marking

/-! # Which elements are accents

An accent is a `mover` with an end tag of its own that says nothing about its accent and shows a dot, in
whatever way the dot is written. Exactly those elements of a tree are marked, at any depth.
-/

namespace Formula.Markup

open Text

/-- A word that begins with `accent` has nothing but blanks between that and an equals sign. -/
def SaysAccent (t : Text) : Prop :=
  ∃ u v w, t = u ++ ("accent".toList ++ (v ++ '=' :: w)) ∧ (∀ c ∈ u.getLast?, isWord c = false) ∧
    ∀ c ∈ v, isBlank c = true

/-- The text ends with a slash, blanks apart. A tag with such attributes is taken for one that closes its
own element. -/
def EndsWithSlash (t : Text) : Prop :=
  ∃ u v, t = u ++ '/' :: v ∧ ∀ c ∈ v, isBlank c = true

structure Label.IsAccent (l : Label) (inside : Fragment) : Prop where
  name : l.name = mover
  opens : ¬ EndsWithSlash l.attributes
  silent : ¬ SaysAccent l.attributes
  dotted : ∃ p, DotSpelling p ∧ p <:+: inside.written

/-- The second fragment is the first with a mark behind the name of each accent. -/
inductive Fragment.MarkedAs : Fragment → Fragment → Prop
  | nil : MarkedAs nil nil
  | text {t : Text} {next next' : Fragment} : MarkedAs next next' → MarkedAs (text t next) (text t next')
  | empty {l : Label} {next next' : Fragment} : MarkedAs next next' →
      MarkedAs (empty l next) (empty l next')
  | accent {l : Label} {inside inside' next next' : Fragment} : l.IsAccent inside →
      MarkedAs inside inside' → MarkedAs next next' →
      MarkedAs (element l inside next)
        (element ⟨l.name, " accent=\"true\"".toList ++ l.attributes⟩ inside' next')
  | other {l : Label} {inside inside' next next' : Fragment} : ¬ l.IsAccent inside →
      MarkedAs inside inside' → MarkedAs next next' →
      MarkedAs (element l inside next) (element l inside' next')

/-! ## What is looked for in attributes -/

theorem skipBlanks_eq_cons_iff {c : Char} (hc : isBlank c = false) {s r : Text} :
    skipBlanks s = c :: r ↔ ∃ v, s = v ++ c :: r ∧ ∀ d ∈ v, isBlank d = true := by
  constructor
  · intro h
    refine ⟨s.takeWhile isBlank, ?_, fun d hd => List.mem_takeWhile_imp hd⟩
    rw [← h, skipBlanks, List.takeWhile_append_dropWhile]
  · rintro ⟨v, rfl, hv⟩
    rw [skipBlanks, List.dropWhile_append_of_pos hv, List.dropWhile_cons_of_neg (by simp [hc])]

theorem keyed?_isSome_iff {key t : Text} : (keyed? key t).isSome = true ↔
    ∃ v w, t = key ++ (v ++ '=' :: w) ∧ ∀ d ∈ v, isBlank d = true := by
  simp only [Option.isSome_iff_exists, keyed?_eq_some_iff,
    skipBlanks_eq_cons_iff (show isBlank '=' = false by decide)]
  constructor
  · rintro ⟨w, _, rfl, v, rfl, hv⟩
    exact ⟨v, w, rfl, hv⟩
  · rintro ⟨v, w, rfl, hv⟩
    exact ⟨w, _, rfl, v, rfl, hv⟩

/-- The flag stands for the character in front of the text. -/
theorem setsAccent_iff {b : Bool} {t : Text} : setsAccent b t = true ↔
    ∃ u v w, t = u ++ ("accent".toList ++ (v ++ '=' :: w)) ∧ (u.getLast?.map isWord).getD b = false ∧
      ∀ c ∈ v, isBlank c = true := by
  induction t generalizing b with
  | nil => simp [setsAccent]
  | cons c r ih =>
    have hlast : ∀ u : Text, ((c :: u).getLast?.map isWord).getD b =
        (u.getLast?.map isWord).getD (isWord c) := fun u => by
      rw [List.getLast?_cons, Option.map_some, Option.getD_some, Option.getD_map]
    rw [setsAccent_cons, Bool.or_eq_true, Bool.and_eq_true, Bool.not_eq_true', keyed?_isSome_iff, ih]
    constructor
    · rintro (⟨hb, v, w, e, hv⟩ | ⟨u, v, w, e, hu, hv⟩)
      · exact ⟨[], v, w, e, hb, hv⟩
      · exact ⟨c :: u, v, w, by rw [e, List.cons_append], (hlast u).trans hu, hv⟩
    · rintro ⟨u, v, w, e, hu, hv⟩
      cases u with
      | nil => exact .inl ⟨hu, v, w, e, hv⟩
      | cons d u =>
        obtain ⟨rfl, rfl⟩ := List.cons.inj e
        exact .inr ⟨u, v, w, rfl, (hlast u).symm.trans hu, hv⟩

theorem setsAccent_iff_saysAccent {t : Text} : setsAccent false t = true ↔ SaysAccent t := by
  have hu : ∀ u : Text, (u.getLast?.map isWord).getD false = false ↔ ∀ c ∈ u.getLast?, isWord c = false := by
    intro u
    cases u.getLast? <;> simp
  simp only [setsAccent_iff, hu, SaysAccent]

theorem getLast?_trimEnd_iff {t : Text} : (trimEnd t).getLast? = some '/' ↔ EndsWithSlash t := by
  have hb : isBlank '/' = false := by decide
  rw [trimEnd, List.getLast?_reverse, List.head?_eq_some_iff]
  change (∃ r, skipBlanks t.reverse = '/' :: r) ↔ _
  simp only [skipBlanks_eq_cons_iff hb]
  constructor
  · rintro ⟨r, v, e, hv⟩
    refine ⟨r.reverse, v.reverse, ?_, fun c hc => hv c (List.mem_reverse.mp hc)⟩
    rw [← t.reverse_reverse, e]
    simp
  · rintro ⟨u, v, rfl, hv⟩
    exact ⟨u.reverse, v.reverse, by simp, fun c hc => hv c (List.mem_reverse.mp hc)⟩

/-! ## The tree that is marked -/

theorem Label.awaitsMark_iff {l : Label} {inside : Fragment} :
    l.awaitsMark inside = true ↔ l.IsAccent inside := by
  rw [awaitsMark, lacksAccent, Bool.and_eq_true, Bool.and_eq_true, Bool.and_eq_true, decide_eq_true_eq,
    decide_eq_true_eq, Bool.not_eq_true', ← Bool.not_eq_true, setsAccent_iff_saysAccent, ne_eq,
    getLast?_trimEnd_iff, showsDot_iff_spelling]
  constructor
  · rintro ⟨⟨⟨hname, hsilent⟩, hopens⟩, hdot⟩
    exact ⟨hname, hopens, hsilent, hdot⟩
  · rintro ⟨hname, hopens, hsilent, hdot⟩
    exact ⟨⟨⟨hname, hsilent⟩, hopens⟩, hdot⟩

namespace Fragment

theorem markedAs_accented (f : Fragment) : f.MarkedAs f.accented := by
  induction f with
  | nil => exact .nil
  | text t next ih => exact .text ih
  | empty l next ih => exact .empty ih
  | element l inside next ihi ihn =>
    rw [accented]
    split_ifs with h
    · rw [Label.front, ← accentMark_eq]
      exact .accent (Label.awaitsMark_iff.mp h) ihi ihn
    · exact .other (fun ha => h (Label.awaitsMark_iff.mpr ha)) ihi ihn

/-- There is one way only to mark a fragment. -/
theorem MarkedAs.unique {f g : Fragment} (h : f.MarkedAs g) {g' : Fragment} (h' : f.MarkedAs g') :
    g = g' := by
  induction h generalizing g' with
  | nil =>
    cases h'
    rfl
  | text _ ih =>
    cases h' with
    | text h' => rw [ih h']
  | empty _ ih =>
    cases h' with
    | empty h' => rw [ih h']
  | accent ha _ _ ihi ihn =>
    cases h' with
    | accent _ hi hn => rw [ihi hi, ihn hn]
    | other hn => exact absurd ha hn
  | other ha _ _ ihi ihn =>
    cases h' with
    | accent h => exact absurd h ha
    | other _ hi hn => rw [ihi hi, ihn hn]

end Fragment

/-- In a tree with names of letters, the accents are marked and nothing else changes. -/
theorem accentDots_of_letters {f : Fragment} (hf : f.WellFormed)
    (hn : ∀ e ∈ f.elements, ∀ c ∈ e.label.name, c.isAlpha = true) :
    (∃ g, f.MarkedAs g) ∧ ∀ g, f.MarkedAs g → accentDots f.written = g.written := by
  refine ⟨⟨f.accented, f.markedAs_accented⟩, ?_⟩
  intro g hg
  rw [hf.accentDots_written fun e he => eq_of_takenFor (hn e he), hg.unique f.markedAs_accented]

/-- One accent holds another that says something about itself, and a `mover` without a dot stands behind
it. -/
theorem accentDots_of_nested_movers :
    let silent : Label := ⟨mover, []⟩
    let outspoken : Label := ⟨mover, " accent = ''".toList⟩
    let f : Fragment := .element silent
      (.element outspoken (.text "&#x02d9;".toList .nil) (.empty silent .nil))
      (.element silent (.text ['x'] .nil) (.text ['˙'] .nil))
    (f.WellFormed ∧ ∀ e ∈ f.elements, ∀ c ∈ e.label.name, c.isAlpha = true) ∧
      accentDots f.written = ("<mover accent=\"true\"><mover accent = ''>&#x02d9;</mover><mover/></mover>" ++
        "<mover>x</mover>˙").toList := by
  intro silent outspoken f
  have hf : f.WellFormed := by decide
  have hall : ∀ e ∈ f.elements, e.label.name.all Char.isAlpha = true := by decide
  have hn : ∀ e ∈ f.elements, ∀ c ∈ e.label.name, c.isAlpha = true := fun e he =>
    List.all_eq_true.mp (hall e he)
  have hm : f.MarkedAs (.element ⟨mover, " accent=\"true\"".toList⟩
      (.element outspoken (.text "&#x02d9;".toList .nil) (.empty silent .nil))
      (.element silent (.text ['x'] .nil) (.text ['˙'] .nil))) := by
    apply Fragment.MarkedAs.accent (Label.awaitsMark_iff.mp (by decide))
    · exact .other (fun h => absurd (Label.awaitsMark_iff.mpr h) (by decide)) (.text .nil) (.empty .nil)
    · exact .other (fun h => absurd (Label.awaitsMark_iff.mpr h) (by decide)) (.text .nil) (.text .nil)
  refine ⟨⟨hf, hn⟩, ?_⟩
  rw [(accentDots_of_letters hf hn).2 _ hm]
  decide

end Formula.Markup
