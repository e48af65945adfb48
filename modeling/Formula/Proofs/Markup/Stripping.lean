import Formula.Markup.Layout
import Formula.Proofs.Markup.Scanning

/-! # Stripping layout attributes in a tree

Every start tag loses its attributes on display and indentation, and nothing else changes. An element
may be left without attributes by that.
-/

namespace Formula.Markup

open Text

def Label.stripped (l : Label) : Label :=
  { l with attributes := dropLayout l.attributes }

namespace Fragment

def stripped : Fragment → Fragment
  | nil => nil
  | text t next => text t next.stripped
  | empty l next => empty l.stripped next.stripped
  | element l inside next => element l.stripped inside.stripped next.stripped

def Stripped : Fragment → Prop
  | nil => True
  | text _ next => next.Stripped
  | empty l next => l.stripped = l ∧ next.Stripped
  | element l inside next => l.stripped = l ∧ inside.Stripped ∧ next.Stripped

end Fragment

/-! ## What is found at a tag -/

theorem dropLayout_writtenAttributes_nil {as : List Attribute} (has : ∀ a ∈ as, a.Regular) :
    dropLayout (writtenAttributes as) = writtenAttributes (as.filter (!·.isLayout)) := by
  have h := dropLayout_writtenAttributes has []
  rwa [dropLayout_nil, List.append_nil, List.append_nil] at h

theorem startTag?_of_ne {c : Char} (hc : c ≠ '<') (r : Text) : startTag? (c :: r) = none := by
  simp [startTag?, hc]

theorem stripLayout_of_none {c : Char} {r : Text} (h : startTag? (c :: r) = none) :
    stripLayout (c :: r) = c :: stripLayout r := by
  rw [stripLayout]
  split
  · simp_all
  · rfl

theorem stripLayout_of_some {c : Char} {r tag rest : Text} (h : startTag? (c :: r) = some (tag, rest)) :
    stripLayout (c :: r) = dropLayout tag ++ stripLayout rest := by
  rw [stripLayout]
  split <;> simp_all

theorem exists_dropLayout_of_startTag? {t tag rest : Text} (h : startTag? t = some (tag, rest)) :
    ∃ r, dropLayout tag = '<' :: r := by
  match t with
  | [] => cases h
  | c :: t =>
    simp only [startTag?] at h
    split at h
    · next hc =>
      obtain ⟨⟨body, rest'⟩, -, e⟩ := Option.map_eq_some_iff.mp h
      obtain ⟨rfl, -⟩ := Prod.mk.inj e
      rw [hc.1, List.cons_append, dropLayout_cons (by decide)]
      exact ⟨_, rfl⟩
    · cases h

theorem scans_stripLayout : Scans stripLayout where
  nil := by rw [stripLayout]
  opens r := by
    rw [stripLayout]
    split
    · next h =>
      obtain ⟨u, hu⟩ := exists_dropLayout_of_startTag? h
      rw [hu]
      rfl
    · rfl
  char hc r := stripLayout_of_none (startTag?_of_ne hc r)
  ends r := stripLayout_of_none (by simp [startTag?])

namespace Label.Legible

variable {l : Label} (h : l.Legible)

include h

theorem isAngle_name : ∀ c ∈ l.name, isAngle c = false :=
  fun c hc => isAngle_of_isNameChar (h.name c hc)

theorem stripLayout_tag (tail : Text) (ht : ∀ c ∈ tail, c = '/') (rest : Text) :
    stripLayout ('<' :: (l.name ++ ((l.attributes ++ tail) ++ '>' :: rest))) =
      '<' :: (l.name ++ ((l.stripped.attributes ++ tail) ++ '>' :: stripLayout rest)) := by
  have hletter : (l.name ++ ((l.attributes ++ tail) ++ '>' :: rest)).head?.any Char.isAlpha = true := by
    have hl := h.letter
    cases hn : l.name with
    | nil => simp [hn] at hl
    | cons c r => simpa [hn] using hl
  have hbody : ∀ c ∈ l.name ++ (l.attributes ++ tail), isAngle c = false := by
    refine List.forall_mem_append.mpr ⟨h.isAngle_name, List.forall_mem_append.mpr ⟨h.attributes, ?_⟩⟩
    intro c hc
    rw [ht c hc]
    decide
  have htag : startTag? ('<' :: (l.name ++ ((l.attributes ++ tail) ++ '>' :: rest))) =
      some ('<' :: (l.name ++ (l.attributes ++ tail)) ++ ['>'], rest) := by
    rw [startTag?, if_pos ⟨rfl, hletter⟩, ← List.append_assoc, tagBody?_append hbody]
    rfl
  have hname : ∀ c ∈ '<' :: l.name, isBlank c = false :=
    List.forall_mem_cons.mpr ⟨by decide, fun c hc => isBlank_of_isNameChar (h.name c hc)⟩
  have htail : IsTail (tail ++ ['>']) :=
    List.forall_mem_append.mpr ⟨fun c hc => .inl (ht c hc), by simp⟩
  have hdrop : dropLayout ('<' :: (l.name ++ (l.attributes ++ tail)) ++ ['>']) =
      '<' :: l.name ++ (l.stripped.attributes ++ (tail ++ ['>'])) := by
    have hx : '<' :: (l.name ++ (l.attributes ++ tail)) ++ ['>'] =
        '<' :: l.name ++ (l.attributes ++ (tail ++ ['>'])) := by simp
    rw [hx, dropLayout_append hname, htail.dropLayout_append, stripped]
  rw [stripLayout_of_some htag, hdrop]
  simp only [List.cons_append, List.append_assoc, List.nil_append]

theorem stripped : l.stripped.Legible :=
  ⟨h.letter, h.name, fun c hc => h.attributes c ((dropLayout_sublist _).subset hc)⟩

end Label.Legible

theorem Label.stripped_front {a : Attribute} (ha : a.Regular) (hl : a.isLayout = false) (l : Label) :
    (l.front a).stripped = l.stripped.front a := by
  have hd : dropLayout (writtenAttributes [a] ++ l.attributes) = _ :=
    dropLayout_writtenAttributes (by simpa using ha) l.attributes
  have hw : writtenAttributes [a] = a.written := List.append_nil _
  rw [List.filter_cons_of_pos (by simp [hl]), List.filter_nil, hw] at hd
  rw [stripped, front, hd, front, stripped]

theorem Label.stripped_of_allBlank {l : Label} (h : allBlank l.attributes = true) : l.stripped = l := by
  have hnil : afterLayoutAttribute? [] = none := by decide
  have hd : ∀ t, allBlank t = true → dropLayout t = t := by
    intro t ht
    induction t with
    | nil => exact dropLayout_nil
    | cons c r ih =>
      simp only [allBlank, List.all_cons, Bool.and_eq_true] at ht
      rw [dropLayout_blank ht.1, skipBlanks_eq_nil_iff.mpr ht.2, hnil, ih ht.2]
  rw [stripped, hd _ h]

theorem Fragment.stripped_filler_eq (next : Fragment) :
    (filler next).stripped = filler next.stripped := by
  rw [filler, stripped, Label.stripped_of_allBlank rfl, stripped, stripped, filler]

namespace Label.Regular

variable {l : Label} (h : l.Regular)

include h

theorem exists_stripped : ∃ as : List Attribute, (∀ a ∈ as, a.Regular) ∧
    l.attributes = writtenAttributes as ∧
    l.stripped.attributes = writtenAttributes (as.filter (!·.isLayout)) := by
  obtain ⟨as, has, e⟩ := h.attributes
  exact ⟨as, has, e, by rw [Label.stripped, e, dropLayout_writtenAttributes_nil has]⟩

theorem stripped : l.stripped.Regular := by
  obtain ⟨as, has, -, e⟩ := h.exists_stripped
  exact ⟨h.name_ne, h.name, _, fun a ha => has a ((List.mem_filter.mp ha).1), e⟩

theorem stripped_stripped : l.stripped.stripped = l.stripped := by
  obtain ⟨as, has, -, e⟩ := h.exists_stripped
  have hs : dropLayout l.stripped.attributes = l.stripped.attributes := by
    rw [e, dropLayout_writtenAttributes_nil fun a ha => has a ((List.mem_filter.mp ha).1),
      List.filter_filter]
    simp only [Bool.and_self]
  rw [Label.stripped, hs]

theorem showsDot_of_stripped (hs : showsDot l.stripped.attributes = true) :
    showsDot l.attributes = true := by
  obtain ⟨as, -, e, e'⟩ := h.exists_stripped
  rw [e'] at hs
  obtain ⟨a, ha, hs⟩ := showsDot_writtenAttributes.mp hs
  rw [e]
  exact showsDot_writtenAttributes.mpr ⟨a, (List.mem_filter.mp ha).1, hs⟩

end Label.Regular

namespace Fragment

theorem Legible.stripLayout_append {f : Fragment} (hf : f.Legible) (rest : Text) :
    stripLayout (f.written ++ rest) = f.stripped.written ++ stripLayout rest := by
  induction f generalizing rest with
  | nil => rfl
  | text t next ih =>
    rw [written, List.append_assoc, scans_stripLayout.append hf.1, ih hf.2, stripped, written,
      List.append_assoc]
  | empty l next ih =>
    rw [written_empty_append, hf.1.stripLayout_tag ['/'] (by simp), ih hf.2, stripped, written_empty_append]
    rfl
  | element l inside next ihi ihn =>
    obtain ⟨hl, hi, hn⟩ := hf
    have htag := hl.stripLayout_tag [] (by simp)
    simp only [List.append_nil] at htag
    rw [written_element_append, htag, ihi hi, scans_stripLayout.endTag hl.name, ihn hn, stripped,
      written_element_append]
    rfl

/-- The layout attributes are stripped in the tree. -/
theorem Legible.stripLayout_written {f : Fragment} (hf : f.Legible) :
    stripLayout f.written = f.stripped.written := by
  have h := hf.stripLayout_append []
  rwa [List.append_nil, stripLayout, List.append_nil] at h

/-! ## The tree after the pass -/

theorem Legible.stripped {f : Fragment} (hf : f.Legible) : f.stripped.Legible := by
  induction f with
  | nil => trivial
  | text t next ih => exact ⟨hf.1, ih hf.2⟩
  | empty l next ih => exact ⟨hf.1.stripped, ih hf.2⟩
  | element l inside next ihi ihn => exact ⟨hf.1.stripped, ihi hf.2.1, ihn hf.2.2⟩

theorem Stripped.stripped_eq {f : Fragment} (hf : f.Stripped) : f.stripped = f := by
  induction f with
  | nil => rfl
  | text t next ih => rw [stripped, ih hf]
  | empty l next ih => rw [stripped, hf.1, ih hf.2]
  | element l inside next ihi ihn => rw [stripped, hf.1, ihi hf.2.1, ihn hf.2.2]

theorem Regular.stripped_stripped {f : Fragment} (hf : f.Regular) : f.stripped.Stripped := by
  induction f with
  | nil => trivial
  | text t next ih => exact ih hf.2.2
  | empty l next ih => exact ⟨hf.1.stripped_stripped, ih hf.2⟩
  | element l inside next ihi ihn => exact ⟨hf.1.stripped_stripped, ihi hf.2.2.1, ihn hf.2.2.2⟩

theorem IsText.stripped_eq {f : Fragment} (hf : f.IsText) : f.stripped = f := by
  induction f with
  | nil => rfl
  | text t next ih => rw [stripped, ih hf]
  | empty => cases hf
  | element => cases hf

theorem isBlank_stripped (f : Fragment) : f.stripped.isBlank = f.isBlank := by
  induction f with
  | nil => rfl
  | text t next ih => rw [stripped, isBlank, isBlank, ih]
  | empty => rfl
  | element => rfl

theorem firstRoot?_stripped (f : Fragment) :
    f.stripped.firstRoot? = f.firstRoot?.map Label.stripped := by
  induction f with
  | nil => rfl
  | text t next ih => exact ih
  | empty l next ih =>
    rw [stripped, firstRoot?, firstRoot?, ih]
    split_ifs <;> simp_all [Label.stripped]
  | element l inside next ihi ihn =>
    rw [stripped, firstRoot?, firstRoot?, ihi, ihn, ← Option.map_or]
    split_ifs <;> simp_all [Label.stripped]

theorem nones_stripped (f : Fragment) : f.stripped.nones = f.nones.map dropLayout := by
  induction f with
  | nil => rfl
  | text t next ih => exact ih
  | empty l next ih =>
    rw [stripped, nones, nones, ih]
    split_ifs <;> simp_all [Label.stripped]
  | element l inside next ihi ihn =>
    rw [stripped, nones, nones, ihi, ihn, isBlank_stripped]
    split_ifs <;> simp_all [Label.stripped]

theorem Regular.shows_of_shows_stripped {f : Fragment} (hf : f.Regular)
    (h : f.stripped.shows = true) : f.shows = true := by
  induction f with
  | nil => exact h
  | text t next ih =>
    rw [stripped, shows, Bool.or_eq_true] at h
    rw [shows, Bool.or_eq_true]
    exact h.imp id (ih hf.2.2)
  | empty l next ih =>
    rw [stripped, shows, Bool.or_eq_true] at h
    rw [shows, Bool.or_eq_true]
    exact h.imp hf.1.showsDot_of_stripped (ih hf.2)
  | element l inside next ihi ihn =>
    rw [stripped, shows, Bool.or_eq_true, Bool.or_eq_true] at h
    rw [shows, Bool.or_eq_true, Bool.or_eq_true]
    exact h.imp hf.1.showsDot_of_stripped (Or.imp (ihi hf.2.2.1) (ihn hf.2.2.2))

theorem Regular.stripped {f : Fragment} (hf : f.Regular) : f.stripped.Regular := by
  induction f with
  | nil => trivial
  | text t next ih => exact ⟨hf.1, hf.2.1, ih hf.2.2⟩
  | empty l next ih => exact ⟨hf.1.stripped, ih hf.2⟩
  | element l inside next ihi ihn =>
    obtain ⟨hl, ht, hi, hn⟩ := hf
    exact ⟨hl.stripped, fun h => (ht h).stripped_eq.symm ▸ ht h, ihi hi, ihn hn⟩

theorem IsTree.stripped {f : Fragment} (hf : f.IsTree) : f.stripped.IsTree := by
  rcases hf with ⟨l, rfl⟩ | ⟨l, inside, rfl⟩
  · exact .inl ⟨_, rfl⟩
  · exact .inr ⟨_, _, rfl⟩

end Fragment

end Formula.Markup
