import Formula.Proofs.Markup.DotSigns
import Formula.Proofs.Markup.Pruning
import Formula.Proofs.Tex.Blanks

/-! # Regular markup

Markup is regular if the names of its elements are letters, its attributes are written in the one way,
and the references in its texts are complete. An element that marks a missing argument holds no more
than text. Of such a tree the passes look at few things: its first root, the dots that it shows, and the
elements that mark a missing argument.
-/

namespace Formula.Markup

open Text

def noneName : Text := "none".toList

structure Label.Regular (l : Label) : Prop where
  name_ne : l.name ≠ []
  name : ∀ c ∈ l.name, c.isAlpha = true
  attributes : ∃ as : List Attribute, (∀ a ∈ as, a.Regular) ∧ l.attributes = writtenAttributes as

namespace Fragment

def IsText : Fragment → Prop
  | nil => True
  | text _ next => next.IsText
  | empty _ _ => False
  | element _ _ _ => False

def Regular : Fragment → Prop
  | nil => True
  | text t next =>
    (∀ c ∈ t, isAngle c = false) ∧ hasCompleteReferences t = true ∧ next.Regular
  | empty l next => l.Regular ∧ next.Regular
  | element l inside next =>
    l.Regular ∧ (l.name = noneName → inside.IsText) ∧ inside.Regular ∧ next.Regular

def IsTree (f : Fragment) : Prop :=
  (∃ l, f = empty l nil) ∨ ∃ l inside, f = element l inside nil

def isBlank : Fragment → Bool
  | nil => true
  | text t next => allBlank t && next.isBlank
  | empty _ _ => false
  | element _ _ _ => false

/-- A text or an attribute in the fragment shows a dot. -/
def shows : Fragment → Bool
  | nil => false
  | text t next => showsDot t || next.shows
  | empty l next => showsDot l.attributes || next.shows
  | element l inside next => showsDot l.attributes || (inside.shows || next.shows)

def firstRoot? : Fragment → Option Label
  | nil => none
  | text _ next => next.firstRoot?
  | empty l next => if l.name = math then some l else next.firstRoot?
  | element l inside next =>
    if l.name = math then some l else inside.firstRoot?.or next.firstRoot?

/-- The attributes of each element that marks a missing argument and holds no more than blanks. -/
def nones : Fragment → List Text
  | nil => []
  | text _ next => next.nones
  | empty l next => if l.name = noneName then l.attributes :: next.nones else next.nones
  | element l inside next =>
    if l.name = noneName ∧ inside.isBlank then l.attributes :: (inside.nones ++ next.nones)
    else inside.nones ++ next.nones

theorem isText_of_isBlank {f : Fragment} (h : f.isBlank = true) : f.IsText := by
  induction f with
  | nil => trivial
  | text t next ih =>
    rw [isBlank, Bool.and_eq_true] at h
    exact ih h.2
  | empty => cases h
  | element => cases h

namespace IsText

variable {f : Fragment} (h : f.IsText)

include h

theorem firstRoot?_eq : f.firstRoot? = none := by
  induction f with
  | nil => rfl
  | text t next ih => exact ih h
  | empty => cases h
  | element => cases h

theorem nones_eq : f.nones = [] := by
  induction f with
  | nil => rfl
  | text t next ih => exact ih h
  | empty => cases h
  | element => cases h

end IsText

theorem allBlank_written (f : Fragment) : allBlank f.written = f.isBlank := by
  have ho : Text.isBlank '<' = false := by decide
  induction f with
  | nil => rfl
  | text t next ih => rw [written, isBlank, ← ih, allBlank, List.all_append]; rfl
  | empty l next _ => rw [written, l.emptyTag_append, isBlank, allBlank, List.all_cons, ho]; rfl
  | element l inside next _ _ =>
    rw [written, l.startTag_append, isBlank, allBlank, List.all_cons, ho]
    rfl

end Fragment

def Label.front (a : Attribute) (l : Label) : Label :=
  { l with attributes := a.written ++ l.attributes }

theorem isAlpha_ne {c : Char} (h : c.isAlpha = true) : c ≠ '<' ∧ c ≠ '/' ∧ c ≠ '>' := by
  refine ⟨?_, ?_, ?_⟩ <;>
  · rintro rfl
    exact absurd h (by decide)

theorem Label.getLast?_front (a : Attribute) {l : Label} (h : l.attributes.getLast? ≠ some '/') :
    (l.front a).attributes.getLast? ≠ some '/' := by
  cases e : l.attributes with
  | nil => simp [front, Attribute.written, e, List.getLast?_cons, List.getLast?_append]
  | cons c r =>
    rw [e] at h
    simpa [front, e, List.getLast?_append] using h

theorem Label.WellFormed.front {a : Attribute} (ha : a.Regular) {l : Label} (h : l.WellFormed) :
    (l.front a).WellFormed where
  letter := h.letter
  name := h.name
  attributes := by
    have hs : isNameChar ' ' = false := by decide
    simp [Label.front, Attribute.written, hs]
  plain := List.forall_mem_append.mpr ⟨ha.isAngle_written, h.plain⟩

namespace Label.Regular

variable {l : Label} (h : l.Regular)

include h

theorem exists_name : ∃ c r, l.name = c :: r ∧ c.isAlpha = true := by
  obtain ⟨c, r, e⟩ := List.exists_cons_of_ne_nil h.name_ne
  exact ⟨c, r, e, h.name c (e ▸ List.mem_cons_self)⟩

/-- There are no attributes, or their text begins with a space and ends with a quote. -/
theorem attributes_cases :
    l.attributes = [] ∨ (∃ t, l.attributes = ' ' :: t) ∧ ∃ t, l.attributes = t ++ ['"'] := by
  obtain ⟨as, -, e⟩ := h.attributes
  rw [e]
  rcases writtenAttributes_cases as with rfl | h
  · exact .inl rfl
  · exact .inr h

theorem isAngle_attributes : ∀ c ∈ l.attributes, isAngle c = false := by
  obtain ⟨as, has, e⟩ := h.attributes
  intro c hc
  rw [e] at hc
  obtain ⟨a, ha, hc⟩ := List.mem_flatMap.mp hc
  exact (has a ha).isAngle_written c hc

theorem getLast?_attributes : l.attributes.getLast? ≠ some '/' := by
  rcases h.attributes_cases with e | ⟨-, t, e⟩ <;> simp [e]

theorem front {a : Attribute} (ha : a.Regular) : (l.front a).Regular := by
  obtain ⟨as, has, e⟩ := h.attributes
  refine ⟨h.name_ne, h.name, a :: as, List.forall_mem_cons.mpr ⟨ha, has⟩, ?_⟩
  rw [Label.front, e, writtenAttributes_cons]

theorem wellFormed : l.WellFormed where
  letter := by
    obtain ⟨c, r, e, hc⟩ := h.exists_name
    simp [e, hc]
  name c hc := by simp [isNameChar, isWord_of_isAlpha (h.name c hc)]
  attributes := by
    have hs : isNameChar ' ' = false := by decide
    rcases h.attributes_cases with e | ⟨⟨t, e⟩, -⟩ <;> simp [e, hs]
  plain := h.isAngle_attributes

theorem trimEnd_attributes : trimEnd l.attributes = l.attributes := by
  rcases h.attributes_cases with e | ⟨-, t, e⟩
  · rw [e]
    rfl
  · rw [e, trimEnd_append_of_not_blank t (by decide)]
    rfl

theorem trimmed_eq : l.trimmed = l := by
  rw [trimmed, h.trimEnd_attributes]

end Label.Regular

namespace Fragment

theorem Regular.wellFormed {f : Fragment} (hf : f.Regular) : f.WellFormed := by
  induction f with
  | nil => trivial
  | text t next ih =>
    refine ⟨fun hm => ?_, ih hf.2.2⟩
    exact absurd (hf.1 _ hm) (by decide)
  | empty l next ih => exact ⟨hf.1.wellFormed, ih hf.2⟩
  | element l inside next ihi ihn =>
    exact ⟨hf.1.wellFormed, hf.1.getLast?_attributes, ihi hf.2.2.1, ihn hf.2.2.2⟩

/-- A dot shows in the text that is written only where it shows in a part. -/
theorem Regular.showsDot_written {f : Fragment} (hf : f.Regular) : showsDot f.written = f.shows := by
  have hs : ∀ (l : Label) (t : Text), l.Regular → showsDot ('<' :: (l.name ++ t)) = showsDot t :=
    fun l t hl => (showsDot_cons (by decide) _).trans (showsDot_name_append hl.name t)
  induction f with
  | nil => exact showsDot_nil
  | text t next ih => rw [written, showsDot_append hf.2.1, ih hf.2.2, shows]
  | empty l next ih =>
    rw [written, l.emptyTag_append, hs l _ hf.1, showsDot_append_cons (by decide),
      showsDot_cons (by decide), ih hf.2, shows]
  | element l inside next ihi ihn =>
    obtain ⟨hl, -, hi, hn⟩ := hf
    rw [written, l.startTag_append, hs l _ hl, showsDot_append_cons (by decide), l.endTag_append,
      showsDot_append_cons (by decide), showsDot_cons (by decide), showsDot_name_append hl.name,
      showsDot_cons (by decide), ihi hi, ihn hn, shows]

theorem Regular.regular_firstRoot {f : Fragment} (hf : f.Regular) : ∀ l ∈ f.firstRoot?, l.Regular := by
  induction f with
  | nil => rintro l ⟨⟩
  | text t next ih => exact ih hf.2.2
  | empty l next ih =>
    rw [firstRoot?]
    split_ifs
    · rintro _ ⟨⟩
      exact hf.1
    · exact ih hf.2
  | element l inside next ihi ihn =>
    obtain ⟨hl, -, hi, hn⟩ := hf
    rw [firstRoot?]
    split_ifs
    · rintro _ ⟨⟩
      exact hl
    · intro r hr
      rcases Option.or_eq_some_iff.mp hr with hr | ⟨-, hr⟩
      · exact ihi hi r hr
      · exact ihn hn r hr

/-! ## Fillers -/

theorem regular_zeroWidthSpace : (text zeroWidthSpace nil).Regular := by
  have hz : (zeroWidthSpace.all fun c => !isAngle c) = true := by decide
  exact ⟨by simpa using hz, by decide, trivial⟩

theorem regular_filler {next : Fragment} (h : next.Regular) : (filler next).Regular := by
  have hname : "mtext".toList.all Char.isAlpha = true := by decide
  exact ⟨⟨by decide, List.all_eq_true.mp hname, [], by simp, rfl⟩, fun _ => trivial,
    regular_zeroWidthSpace, h⟩

theorem firstRoot?_filler (next : Fragment) : (filler next).firstRoot? = next.firstRoot? :=
  if_neg (by decide)

theorem nones_filler (next : Fragment) : (filler next).nones = next.nones :=
  if_neg (fun h => absurd h.1 (by decide))

theorem shows_filler (next : Fragment) : (filler next).shows = next.shows := by
  have hz : showsDot zeroWidthSpace = false := by decide
  simp [filler, shows, showsDot_nil, hz]

end Fragment

end Formula.Markup
