import Formula.Markup.CleanUp
import Formula.Proofs.Markup.Arguments
import Formula.Proofs.Markup.Declaring
import Formula.Proofs.Markup.Marking
import Formula.Proofs.Markup.Stripping

/-! # Markup with a namespace prefix

A prefix goes in front of each name of a tree. The passes that look for a name by itself find nothing in
such a tree, and the pruning, which looks at local names, prunes it as it does the tree without prefixes,
but for the fillers that it puts in.
-/

namespace Formula.Markup

open Text

/-- A prefix that a tag can have. It is not taken for the name `mover`. -/
structure IsNamespacePrefix (p : Text) : Prop where
  letter : p.head?.any Char.isAlpha = true
  chars : ∀ c ∈ p, isPrefixChar c = true
  mover : takenFor mover p = false

/-- The name has no prefix, and it is not taken for the name `mover` if it is another. -/
structure IsBareName (name : Text) : Prop where
  colon : ':' ∉ name
  mover : takenFor mover name = true → name = mover

instance : DecidablePred IsNamespacePrefix := fun p =>
  decidable_of_iff
    (p.head?.any Char.isAlpha = true ∧ p.all isPrefixChar = true ∧ takenFor mover p = false)
    ⟨fun h => ⟨h.1, List.all_eq_true.mp h.2.1, h.2.2⟩,
      fun h => ⟨h.letter, List.all_eq_true.mpr h.chars, h.mover⟩⟩

instance : DecidablePred IsBareName := fun name =>
  decidable_of_iff (':' ∉ name ∧ (takenFor mover name = true → name = mover))
    ⟨fun h => ⟨h.1, h.2⟩, fun h => ⟨h.colon, h.mover⟩⟩

/-! ## Putting a prefix in front of the names -/

/-- The prefix in front of the name in each tag. Every bracket opens a tag. -/
def addPrefix (p : Text) : Text → Text
  | [] => []
  | c :: r =>
    if c = '<' then match r with
      | '/' :: r => '<' :: '/' :: (p ++ ':' :: addPrefix p r)
      | r => '<' :: (p ++ ':' :: addPrefix p r)
    else c :: addPrefix p r

def qualified (p name : Text) : Text :=
  p ++ ':' :: name

def Label.prefixed (p : Text) (l : Label) : Label :=
  { l with name := qualified p l.name }

def Fragment.prefixed (p : Text) : Fragment → Fragment
  | nil => nil
  | text t next => text t (next.prefixed p)
  | empty l next => empty (l.prefixed p) (next.prefixed p)
  | element l inside next => element (l.prefixed p) (inside.prefixed p) (next.prefixed p)

section

variable (p r : Text)

theorem addPrefix_of_ne {c : Char} (hc : c ≠ '<') : addPrefix p (c :: r) = c :: addPrefix p r := by
  rw [addPrefix.eq_def]
  simp [hc]

theorem addPrefix_open {c : Char} (hc : c ≠ '/') :
    addPrefix p ('<' :: c :: r) = '<' :: (p ++ ':' :: addPrefix p (c :: r)) := by
  rw [addPrefix.eq_def]
  simp [hc]

theorem addPrefix_close : addPrefix p ('<' :: '/' :: r) = '<' :: '/' :: (p ++ ':' :: addPrefix p r) := by
  rw [addPrefix.eq_def]
  simp

end

theorem addPrefix_append {w : Text} (hw : '<' ∉ w) (p r : Text) :
    addPrefix p (w ++ r) = w ++ addPrefix p r := by
  induction w with
  | nil => rfl
  | cons c w ih =>
    simp only [List.mem_cons, not_or] at hw
    rw [List.cons_append, addPrefix_of_ne p _ (Ne.symm hw.1), ih hw.2, List.cons_append]

namespace Label.Legible

variable {l : Label} (h : l.Legible) (p r : Text)

include h

theorem bracket_not_mem_name : '<' ∉ l.name :=
  bracket_not_mem fun c hc => isAngle_of_isNameChar (h.name c hc)

theorem exists_name : ∃ c n, l.name = c :: n ∧ c ≠ '/' := by
  have hl := h.letter
  cases e : l.name with
  | nil => simp [e] at hl
  | cons c n =>
    refine ⟨c, n, rfl, ?_⟩
    rintro rfl
    simp [e] at hl

theorem addPrefix_tag (body : Text) (hb : ∀ c ∈ body, isAngle c = false) :
    addPrefix p ('<' :: (l.name ++ (body ++ '>' :: r))) =
      '<' :: ((l.prefixed p).name ++ (body ++ '>' :: addPrefix p r)) := by
  obtain ⟨c, n, e, hc⟩ := h.exists_name
  have hopen : addPrefix p ('<' :: (l.name ++ (body ++ '>' :: r))) =
      '<' :: (p ++ ':' :: addPrefix p (l.name ++ (body ++ '>' :: r))) := by
    rw [e]
    exact addPrefix_open p _ hc
  rw [hopen, addPrefix_append h.bracket_not_mem_name, addPrefix_append (bracket_not_mem hb),
    addPrefix_of_ne p r (by decide), prefixed, qualified]
  simp

theorem addPrefix_endTag :
    addPrefix p (l.endTag.written ++ r) = (l.prefixed p).endTag.written ++ addPrefix p r := by
  rw [endTag_append, endTag_append, addPrefix_close, addPrefix_append h.bracket_not_mem_name,
    addPrefix_of_ne p r (by decide), prefixed, qualified]
  simp

end Label.Legible

/-- In a tree the prefix goes in front of the name of each label. -/
theorem Fragment.Legible.addPrefix_append {f : Fragment} (hf : f.Legible) (p rest : Text) :
    addPrefix p (f.written ++ rest) = (f.prefixed p).written ++ addPrefix p rest := by
  induction f generalizing rest with
  | nil => rfl
  | text t next ih =>
    rw [written, List.append_assoc, Markup.addPrefix_append hf.1 p, ih hf.2, prefixed, written,
      List.append_assoc]
  | empty l next ih =>
    have hb : ∀ c ∈ l.attributes ++ ['/'], isAngle c = false :=
      List.forall_mem_append.mpr ⟨hf.1.attributes, by simp [isAngle]⟩
    rw [written_empty_append, hf.1.addPrefix_tag p _ _ hb, ih hf.2, prefixed, written_empty_append]
    rfl
  | element l inside next ihi ihn =>
    obtain ⟨hl, hi, hn⟩ := hf
    rw [written_element_append, hl.addPrefix_tag p _ _ hl.attributes, ihi hi, hl.addPrefix_endTag, ihn hn,
      prefixed, written_element_append]
    rfl

theorem Fragment.Legible.addPrefix_written {f : Fragment} (hf : f.Legible) (p : Text) :
    addPrefix p f.written = (f.prefixed p).written := by
  have h := hf.addPrefix_append p []
  rwa [List.append_nil, addPrefix, List.append_nil] at h

/-! ## Qualified names -/

section

variable {p name : Text}

theorem localName_append (u : Text) (h : ':' ∉ name) : localName (u ++ ':' :: name) = name := by
  have hr : ∀ c ∈ name.reverse, decide (c ≠ ':') = true := by
    intro c hc
    rw [decide_eq_true_eq]
    rintro rfl
    exact h (List.mem_reverse.mp hc)
  rw [localName, List.reverse_append, List.reverse_cons, List.append_assoc,
    List.takeWhile_append_of_pos hr]
  simp

theorem localName_of_not_mem (h : ':' ∉ name) : localName name = name := by
  have hr : ∀ c ∈ name.reverse, decide (c ≠ ':') = true := by
    intro c hc
    rw [decide_eq_true_eq]
    rintro rfl
    exact h (List.mem_reverse.mp hc)
  rw [localName, List.takeWhile_eq_self_iff.mpr hr, List.reverse_reverse]

theorem localName_qualified (p : Text) (h : ':' ∉ name) : localName (qualified p name) = localName name := by
  rw [qualified, localName_append p h, localName_of_not_mem h]

theorem isVacant_qualified (p : Text) (h : ':' ∉ name) (t : Text) :
    isVacant (qualified p name) t = isVacant name t := by
  rw [isVacant, isVacant, localName_qualified p h]

/-- Elements meet the same fate with a prefix. -/
theorem fate_qualified (p : Text) (h : ':' ∉ name) {parent : Option Text} (hp : ∀ q ∈ parent, ':' ∉ q) :
    fate (parent.map (qualified p)) (qualified p name) = fate parent name := by
  have hparent : (parent.map (qualified p)).any (fun q => positional.contains (localName q)) =
      parent.any fun q => positional.contains (localName q) := by
    cases parent with
    | none => rfl
    | some q => simp [localName_qualified p (hp q rfl)]
  unfold fate
  rw [localName_qualified p h, hparent]

theorem ne_of_colon_not_mem {key : Text} (hk : ':' ∉ key) : qualified p name ≠ key := by
  rintro rfl
  exact hk (by simp [qualified])

/-- A qualified name is taken for `mover` only if the prefix is. -/
theorem takenFor_qualified (hp : takenFor mover p = false) : takenFor mover (qualified p name) = false := by
  have hm : ':' ∉ mover := by decide
  rw [Bool.eq_false_iff] at hp ⊢
  intro h
  simp only [takenFor, Option.any_eq_true, after?_eq_some_iff, qualified] at h
  obtain ⟨r, e, hr⟩ := h
  refine hp ?_
  rcases List.append_eq_append_iff.mp e with ⟨v, hv, e⟩ | ⟨v, rfl, rfl⟩
  · cases v with
    | nil =>
      have hself : after? p p = some [] := by simpa using after?_append p []
      rw [takenFor, hv, List.append_nil, hself]
      rfl
    | cons c v =>
      obtain ⟨rfl, -⟩ := List.cons.inj e
      exact absurd (hv ▸ List.mem_append_right p List.mem_cons_self) hm
  · have hv : endsWord v = true := by
      cases v with
      | nil => rfl
      | cons c v => exact hr
    simp [takenFor, after?_append, hv]

end

/-! ## The passes on a tree with a prefix -/

theorem IsNamespacePrefix.prefixed {p : Text} (hp : IsNamespacePrefix p) {l : Label}
    (h : l.WellFormed) : (l.prefixed p).WellFormed where
  letter := by
    have hl := hp.letter
    cases e : p with
    | nil => simp [e] at hl
    | cons c r => simpa [e, Label.prefixed, qualified] using hl
  name := List.forall_mem_append.mpr ⟨fun c hc => isNameChar_of_isPrefixChar (hp.chars c hc),
    List.forall_mem_cons.mpr ⟨by decide, h.name⟩⟩
  attributes := h.attributes
  plain := h.plain

namespace Fragment

theorem WellFormed.prefixed {f : Fragment} (hf : f.WellFormed) {p : Text} (hp : IsNamespacePrefix p) :
    (f.prefixed p).WellFormed := by
  induction f with
  | nil => trivial
  | text t next ih => exact ⟨hf.1, ih hf.2⟩
  | empty l next ih => exact ⟨hp.prefixed hf.1, ih hf.2⟩
  | element l inside next ihi ihn =>
    obtain ⟨hl, hs, hi, hn⟩ := hf
    exact ⟨hp.prefixed hl, hs, ihi hi, ihn hn⟩

theorem exists_qualified (p : Text) (f : Fragment) :
    ∀ e ∈ (f.prefixed p).elements, ∃ name, e.label.name = qualified p name := by
  induction f with
  | nil => simp [prefixed, elements]
  | text t next ih => exact ih
  | empty l next ih => exact List.forall_mem_cons.mpr ⟨⟨_, rfl⟩, ih⟩
  | element l inside next ihi ihn =>
    exact List.forall_mem_cons.mpr ⟨⟨_, rfl⟩, List.forall_mem_append.mpr ⟨ihi, ihn⟩⟩

section Qualified

variable {p : Text} {f : Fragment} (h : ∀ e ∈ f.elements, ∃ name, e.label.name = qualified p name)

include h

theorem accented_of_qualified : f.accented = f := by
  refine accented_eq_self fun e he => Bool.eq_false_iff.mpr fun ha => ?_
  obtain ⟨inside, -, ha⟩ := (Option.any_eq_true _ _).mp ha
  obtain ⟨name, hname⟩ := h e he
  exact ne_of_colon_not_mem (by decide) (hname ▸ Label.name_eq_of_awaitsMark ha)

theorem supplied_of_qualified : f.supplied = f := by
  refine supplied_eq_self fun e he => ?_
  obtain ⟨name, hname⟩ := h e he
  have hne : e.label.name ≠ noneName := hname ▸ ne_of_colon_not_mem (by decide)
  rw [Element.isMissing, Label.isMissing_of_ne hne, Bool.false_and]

end Qualified

theorem StandsIn.legible {l : Label} {next g : Fragment} (h : StandsIn l next g) (hl : l.Legible)
    (hn : next.Legible) : g.Legible := by
  have hnil : (filler nil).WellFormed := wellFormed_filler trivial
  have hfiller : ∀ next : Fragment, next.Legible → (filler next).Legible := fun next hn =>
    ⟨hnil.legible.1, wellFormed_zeroWidthSpace.legible, hn⟩
  cases h with
  | dropped => exact hn
  | replaced => exact hfiller next hn
  | filled hw =>
    refine ⟨hl, ?_, hn⟩
    cases hw with
    | cell => exact hfiller nil trivial
    | text => exact wellFormed_zeroWidthSpace.legible

theorem WellFormed.legible_pruned {f : Fragment} (hf : f.WellFormed) (parent : Option Text) :
    (f.pruned parent).Legible := by
  induction f generalizing parent with
  | nil => trivial
  | text t next ih => exact ⟨hf.1, ih hf.2 parent⟩
  | empty l next ih =>
    rcases pruned_empty_cases parent l next with ⟨-, e⟩ | ⟨-, h⟩
    · rw [e]
      exact ⟨hf.1.legible, ih hf.2 parent⟩
    · exact h.legible hf.1.trimmed.legible (ih hf.2 parent)
  | element l inside next ihi ihn =>
    obtain ⟨hl, -, hi, hn⟩ := hf
    rcases pruned_element_cases parent l inside next with ⟨-, e⟩ | ⟨-, -, h⟩
    · rw [e]
      exact ⟨hl.legible, ihi hi _, ihn hn parent⟩
    · exact h.legible hl.legible (ihn hn parent)

/-- Cleaning up a tree, once its root has the namespace declared. -/
theorem WellFormed.cleanUp_of_declareNamespace {g : Fragment} (hg : g.WellFormed)
    (ht : ∀ e ∈ g.elements, takenFor mover e.label.name = true → e.label.name = mover) {t : Text}
    (hd : declareNamespace t = g.written) :
    cleanUp t = (g.accented.supplied.pruned none).stripped.written := by
  have ha := hg.accented
  rw [cleanUp, hd, hg.accentDots_written ht, ha.fillNone_written, prune,
    ha.supplied.foldl_add_empty, Assembly.written_write_empty, (ha.supplied.legible_pruned none).stripLayout_written]

end Fragment

end Formula.Markup
