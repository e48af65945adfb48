import Formula.Proofs.Markup.Scanning

/-! # Marking accents in a tree

A `mover` is marked if a dot shows inside it and nothing is said about its accent. The marks themselves
show no dot, so it makes no difference whether the elements inside are marked first.
-/

namespace Formula.Markup

open Text

def accentAttribute : Attribute := ⟨"accent".toList, "true".toList⟩

theorem regular_accentAttribute : accentAttribute.Regular := by
  decide

theorem accentMark_eq : accentMark = accentAttribute.written := by
  decide

namespace Label

/-- The attributes of an element of this name are to say whether it is an accent, and they do not. -/
def lacksAccent (l : Label) : Bool :=
  l.name = mover && !setsAccent false l.attributes

/-- The element with this label awaits the mark of an accent: a dot shows inside it. One whose attributes
end with a slash, blanks aside, is not taken for an element with something inside. -/
def awaitsMark (l : Label) (inside : Fragment) : Bool :=
  l.lacksAccent && decide ((trimEnd l.attributes).getLast? ≠ some '/') && showsDot inside.written

theorem name_eq_of_awaitsMark {l : Label} {inside : Fragment} (h : l.awaitsMark inside = true) :
    l.name = mover := by
  simp only [awaitsMark, lacksAccent, Bool.and_eq_true, decide_eq_true_eq] at h
  exact h.1.1.1

theorem awaitsMark_of_ne {l : Label} (h : l.name ≠ mover) (inside : Fragment) :
    l.awaitsMark inside = false :=
  Bool.eq_false_iff.mpr fun ha => h (name_eq_of_awaitsMark ha)

theorem Regular.lacksAccent_front {l : Label} (h : l.Regular) :
    (l.front accentAttribute).lacksAccent = false := by
  obtain ⟨as, has, e⟩ := h.attributes
  have ha : accentAttribute.setsAccent = true := by decide
  have hs : setsAccent false (l.front accentAttribute).attributes = true := by
    rw [Label.front, e, ← writtenAttributes_cons,
      setsAccent_writtenAttributes (List.forall_mem_cons.mpr ⟨regular_accentAttribute, has⟩),
      List.any_cons, ha, Bool.true_or]
  rw [lacksAccent, hs, Bool.not_true, Bool.and_false]

theorem showsDot_front (l : Label) :
    showsDot (l.front accentAttribute).attributes = showsDot l.attributes := by
  have hc : hasCompleteReferences accentAttribute.written = true := by decide
  have hs : showsDot accentAttribute.written = false := by decide
  rw [front, showsDot_append hc, hs, Bool.false_or]

end Label

namespace Fragment

def accented : Fragment → Fragment
  | nil => nil
  | text t next => text t next.accented
  | empty l next => empty l next.accented
  | element l inside next =>
    element (if l.awaitsMark inside then l.front accentAttribute else l) inside.accented next.accented

def marked : Fragment → Fragment
  | nil => nil
  | text t next => text t next.marked
  | empty l next => empty l next.marked
  | element l inside next =>
    element (if l.lacksAccent && inside.shows then l.front accentAttribute else l) inside.marked
      next.marked

def Marked : Fragment → Prop
  | nil => True
  | text _ next => next.Marked
  | empty _ next => next.Marked
  | element l inside next =>
    (inside.shows = true → l.lacksAccent = false) ∧ inside.Marked ∧ next.Marked

end Fragment

def Element.awaitsMark (e : Element) : Bool :=
  e.inside.any e.label.awaitsMark

/-! ## The content of an element -/

theorem content_of_ne {name : Text} {c : Char} (hc : c ≠ '<') (d : Nat) (r : Text) :
    content name d (c :: r) = c :: content name d r := by
  have h := tag?_of_ne hc r
  rw [content]
  split
  · rfl
  · simp_all

theorem content_text {name t : Text} (ht : '<' ∉ t) (d : Nat) (r : Text) :
    content name d (t ++ r) = t ++ content name d r := by
  induction t with
  | nil => rfl
  | cons c t ih =>
    simp only [List.mem_cons, not_or] at ht
    rw [List.cons_append, content_of_ne (Ne.symm ht.1), ih ht.2, List.cons_append]

theorem Tag.WellFormed.content_eq {tag : Tag} (h : tag.WellFormed) (name : Text) (d : Nat)
    (rest : Text) :
    content name d (tag.written ++ rest) =
      if tag.name ≠ name ∨ tag.selfClosing then tag.written ++ content name d rest
      else if tag.closing then match d with
        | 0 => []
        | d + 1 => tag.written ++ content name d rest
      else tag.written ++ content name (d + 1) rest := by
  have ht := h.tag?_eq rest
  obtain ⟨r, e⟩ : ∃ r, tag.written ++ rest = '<' :: r := ⟨_, rfl⟩
  rw [e] at ht ⊢
  rw [content]
  split
  · simp_all
  · next tag' rest' hs =>
    obtain ⟨rfl, rfl⟩ : tag = tag' ∧ rest = rest' := by simpa [ht] using hs
    cases d <;> rfl

namespace Label.WellFormed

variable {l : Label} (h : l.WellFormed) (d : Nat) (rest : Text)

include h

theorem content_startTag (hs : l.attributes.getLast? ≠ some '/') :
    content l.name d (l.startTag.written ++ rest) =
      l.startTag.written ++ content l.name (d + 1) rest := by
  rw [(h.startTag hs).content_eq, if_neg (by simp [Label.startTag]), if_neg (by simp [Label.startTag])]

theorem content_endTag :
    content l.name (d + 1) (l.endTag.written ++ rest) = l.endTag.written ++ content l.name d rest := by
  rw [h.endTag.content_eq, if_neg (by simp [Label.endTag]), if_pos (by simp [Label.endTag])]

theorem content_endTag_zero : content l.name 0 (l.endTag.written ++ rest) = [] := by
  rw [h.endTag.content_eq, if_neg (by simp [Label.endTag]), if_pos (by simp [Label.endTag])]

end Label.WellFormed

theorem Fragment.WellFormed.content_append {f : Fragment} (hf : f.WellFormed) (name : Text) (d : Nat)
    (rest : Text) : content name d (f.written ++ rest) = f.written ++ content name d rest := by
  induction f generalizing d rest with
  | nil => rfl
  | text t next ih =>
    rw [written, List.append_assoc, content_text hf.1, ih hf.2, List.append_assoc]
  | empty l next ih =>
    rw [written, List.append_assoc, hf.1.emptyTag.content_eq, if_pos (.inr rfl), ih hf.2,
      List.append_assoc]
  | element l inside next ihi ihn =>
    obtain ⟨hl, hs, hi, hn⟩ := hf
    simp only [written, List.append_assoc]
    by_cases he : l.name = name
    · subst he
      rw [hl.content_startTag d _ hs, ihi hi, hl.content_endTag, ihn hn]
    · rw [(hl.startTag hs).content_eq, if_pos (.inl he), ihi hi, hl.endTag.content_eq,
        if_pos (.inl he), ihn hn]

theorem content_element {l : Label} {inside : Fragment} (hl : l.WellFormed) (hi : inside.WellFormed)
    (rest : Text) :
    content l.name 0 (inside.written ++ (l.endTag.written ++ rest)) = inside.written := by
  rw [hi.content_append, hl.content_endTag_zero, List.append_nil]

/-! ## What is found at a tag -/

theorem mover?_of_ne {c : Char} (hc : c ≠ '<') (r : Text) : mover? (c :: r) = none := by
  simp [mover?, after?, Ne.symm hc]

theorem mover?_eq_some_iff {t attributes rest : Text} : mover? t = some (attributes, rest) ↔
    t = '<' :: (mover ++ (attributes ++ '>' :: rest)) ∧ (∀ c ∈ attributes, isAngle c = false) ∧
      endsWord attributes = true := by
  have he : ∀ a r : Text, endsWord (a ++ '>' :: r) = endsWord a := fun a r => by
    cases a <;> rfl
  simp only [mover?, Option.bind_eq_bind, Option.bind_eq_some_iff, after?_eq_some_iff]
  constructor
  · rintro ⟨r, rfl, h⟩
    split at h
    · next hw =>
      rw [eq_append_of_tagBody? h, he] at hw
      exact ⟨by rw [eq_append_of_tagBody? h, List.cons_append], isAngle_of_tagBody? h, hw⟩
    · cases h
  · rintro ⟨rfl, ha, hw⟩
    exact ⟨_, rfl, by rw [he, if_pos hw, tagBody?_append ha]⟩

theorem accentDots_of_none {c : Char} {r : Text} (h : mover? (c :: r) = none) :
    accentDots (c :: r) = c :: accentDots r := by
  rw [accentDots]
  split
  · simp_all
  · rfl

theorem scans_accentDots : Scans accentDots where
  nil := by rw [accentDots]
  opens r := by
    rw [accentDots]
    split <;> rfl
  char hc r := accentDots_of_none (mover?_of_ne hc r)
  ends r := accentDots_of_none (by simp [mover?, after?, mover])

theorem needsMark_whole (attributes rest : Text) : needsMark (attributes ++ ['/']) rest = false := by
  have ht : trimEnd (attributes ++ ['/']) = attributes ++ ['/'] :=
    trimEnd_append_of_not_blank attributes (by decide)
  simp [needsMark, ht]

namespace Label.WellFormed

variable {l : Label} (h : l.WellFormed) (ht : takenFor mover l.name = true → l.name = mover)
  {body : Text}

include h ht

theorem mover?_eq (hb : l.Body body) (rest : Text) :
    mover? ('<' :: (l.name ++ (body ++ '>' :: rest))) =
      if l.name = mover then some (body, rest) else none := by
  have hm : (after? mover (l.name ++ (body ++ '>' :: rest))).filter endsWord =
      if l.name = mover then some (body ++ '>' :: rest) else none :=
    after?_filter_endsWord (by decide) ht (h.endsWord_body hb rest)
  have he : ∀ t, mover? ('<' :: t) = ((after? mover t).filter endsWord).bind tagBody? := by
    intro t
    have ha : after? ('<' :: mover) ('<' :: t) = after? mover t := by simp [after?]
    rw [mover?, ha]
    cases after? mover t with
    | none => rfl
    | some r => by_cases hr : endsWord r = true <;> simp [hr, Option.filter]
  rw [he, hm]
  split_ifs
  · rw [Option.bind_some, tagBody?_append (h.isAngle_body hb)]
  · rfl

/-- The mark of an element stands in front of its attributes. -/
theorem accentDots_tag (hb : l.Body body) (rest : Text) :
    accentDots ('<' :: (l.name ++ (body ++ '>' :: rest))) =
      '<' :: (l.name ++ ((if l.name = mover ∧ needsMark body rest then accentMark else []) ++
        (body ++ '>' :: accentDots rest))) := by
  have hm := h.mover?_eq ht hb rest
  by_cases he : l.name = mover
  · rw [if_pos he] at hm
    rw [accentDots]
    split
    · next attributes rest' hs =>
      obtain ⟨rfl, rfl⟩ : body = attributes ∧ rest = rest' := by simpa [hm] using hs
      simp [he]
    · simp_all
  · rw [if_neg he] at hm
    rw [scans_accentDots.tag h hb (accentDots_of_none hm), if_neg (fun ha => he ha.1), List.nil_append]

omit ht in
theorem needsMark_start {inside : Fragment} (hi : inside.WellFormed) (hm : l.name = mover) (rest : Text) :
    needsMark l.attributes (inside.written ++ (l.endTag.written ++ rest)) = l.awaitsMark inside := by
  rw [needsMark, ← hm, content_element h hi, Label.awaitsMark, Label.lacksAccent, decide_eq_true hm,
    Bool.true_and, Bool.and_comm (decide _)]

end Label.WellFormed

namespace Fragment

theorem WellFormed.accentDots_append {f : Fragment} (hf : f.WellFormed)
    (ht : ∀ e ∈ f.elements, takenFor mover e.label.name = true → e.label.name = mover) (rest : Text) :
    accentDots (f.written ++ rest) = f.accented.written ++ accentDots rest := by
  induction f generalizing rest with
  | nil => rfl
  | text t next ih =>
    rw [written, List.append_assoc, scans_accentDots.append hf.1, ih hf.2 ht, accented, written,
      List.append_assoc]
  | empty l next ih =>
    obtain ⟨hl, hn⟩ := List.forall_mem_cons.mp ht
    rw [written_empty_append, hf.1.accentDots_tag hl .whole, needsMark_whole,
      if_neg (by simp), ih hf.2 hn, accented, written_empty_append, List.nil_append]
  | element l inside next ihi ihn =>
    obtain ⟨hl, hs, hi, hn⟩ := hf
    obtain ⟨htl, ht⟩ := List.forall_mem_cons.mp ht
    obtain ⟨hti, htn⟩ := List.forall_mem_append.mp ht
    rw [written_element_append, hl.accentDots_tag htl .start, ihi hi hti, scans_accentDots.endTag hl.name,
      ihn hn htn, accented, written_element_append]
    by_cases hm : l.name = mover
    · rw [hl.needsMark_start hi hm, accentMark_eq]
      split_ifs <;> simp_all [Label.front, Label.endTag]
    · rw [if_neg (fun h => hm h.1), if_neg (fun h => hm (Label.name_eq_of_awaitsMark h)), List.nil_append]

/-- The accents are marked in the tree, if no other name is taken for that of a `mover`. -/
theorem WellFormed.accentDots_written {f : Fragment} (hf : f.WellFormed)
    (ht : ∀ e ∈ f.elements, takenFor mover e.label.name = true → e.label.name = mover) :
    accentDots f.written = f.accented.written := by
  have h := hf.accentDots_append ht []
  rwa [List.append_nil, accentDots, List.append_nil] at h

theorem accented_eq_self {f : Fragment} (h : ∀ e ∈ f.elements, e.awaitsMark = false) :
    f.accented = f := by
  induction f with
  | nil => rfl
  | text t next ih => rw [accented, ih h]
  | empty l next ih => rw [accented, ih (List.forall_mem_cons.mp h).2]
  | element l inside next ihi ihn =>
    obtain ⟨hl, h⟩ := List.forall_mem_cons.mp h
    obtain ⟨hi, hn⟩ := List.forall_mem_append.mp h
    rw [accented, if_neg (by simpa [Element.awaitsMark] using hl), ihi hi, ihn hn]

theorem isBlank_accented (f : Fragment) : f.accented.isBlank = f.isBlank := by
  induction f with
  | nil => rfl
  | text t next ih => rw [accented, isBlank, isBlank, ih]
  | empty => rfl
  | element => rfl

theorem WellFormed.accented {f : Fragment} (hf : f.WellFormed) : f.accented.WellFormed := by
  induction f with
  | nil => trivial
  | text t next ih => exact ⟨hf.1, ih hf.2⟩
  | empty l next ih => exact ⟨hf.1, ih hf.2⟩
  | element l inside next ihi ihn =>
    obtain ⟨hl, hs, hi, hn⟩ := hf
    rw [Fragment.accented]
    refine ⟨?_, ?_, ihi hi, ihn hn⟩
    · split_ifs
      · exact hl.front regular_accentAttribute
      · exact hl
    · split_ifs
      · exact Label.getLast?_front accentAttribute hs
      · exact hs

theorem Regular.eq_of_takenFor {f : Fragment} (hf : f.Regular) (key : Text) :
    ∀ e ∈ f.elements, takenFor key e.label.name = true → e.label.name = key := by
  induction f with
  | nil => simp [elements]
  | text t next ih => exact ih hf.2.2
  | empty l next ih => exact List.forall_mem_cons.mpr ⟨Markup.eq_of_takenFor hf.1.name, ih hf.2⟩
  | element l inside next ihi ihn =>
    obtain ⟨hl, -, hi, hn⟩ := hf
    exact List.forall_mem_cons.mpr
      ⟨Markup.eq_of_takenFor hl.name, List.forall_mem_append.mpr ⟨ihi hi, ihn hn⟩⟩

theorem Regular.accented_eq {f : Fragment} (hf : f.Regular) : f.accented = f.marked := by
  induction f with
  | nil => rfl
  | text t next ih => rw [accented, marked, ih hf.2.2]
  | empty l next ih => rw [accented, marked, ih hf.2]
  | element l inside next ihi ihn =>
    obtain ⟨hl, -, hi, hn⟩ := hf
    have hg : decide ((trimEnd l.attributes).getLast? ≠ some '/') = true := by
      rw [hl.trimEnd_attributes]
      exact decide_eq_true hl.getLast?_attributes
    rw [accented, marked, ihi hi, ihn hn, Label.awaitsMark, hg, hi.showsDot_written, Bool.and_true]

/-- On regular markup an accent is marked if a text or an attribute in it shows a dot. -/
theorem Regular.accentDots_written {f : Fragment} (hf : f.Regular) :
    accentDots f.written = f.marked.written := by
  rw [hf.wellFormed.accentDots_written (hf.eq_of_takenFor mover), hf.accented_eq]

/-! ## The tree after the pass -/

theorem Marked.marked_eq {f : Fragment} (hf : f.Marked) : f.marked = f := by
  induction f with
  | nil => rfl
  | text t next ih => rw [marked, ih hf]
  | empty l next ih => rw [marked, ih hf]
  | element l inside next ihi ihn =>
    have hm : ¬ (l.lacksAccent && inside.shows) = true := by
      intro h
      rw [Bool.and_eq_true] at h
      simp [hf.1 h.2] at h
    rw [marked, if_neg hm, ihi hf.2.1, ihn hf.2.2]

theorem shows_marked (f : Fragment) : f.marked.shows = f.shows := by
  induction f with
  | nil => rfl
  | text t next ih => rw [marked, shows, shows, ih]
  | empty l next ih => rw [marked, shows, shows, ih]
  | element l inside next ihi ihn =>
    rw [marked, shows, shows, ihi, ihn]
    split_ifs
    · rw [l.showsDot_front]
    · rfl

theorem Regular.marked_marked {f : Fragment} (hf : f.Regular) : f.marked.Marked := by
  induction f with
  | nil => trivial
  | text t next ih => exact ih hf.2.2
  | empty l next ih => exact ih hf.2
  | element l inside next ihi ihn =>
    obtain ⟨hl, -, hi, hn⟩ := hf
    refine ⟨fun h => ?_, ihi hi, ihn hn⟩
    rw [shows_marked] at h
    split_ifs with hm
    · exact hl.lacksAccent_front
    · simpa [h] using hm

theorem isBlank_marked (f : Fragment) : f.marked.isBlank = f.isBlank := by
  induction f with
  | nil => rfl
  | text t next ih => rw [marked, isBlank, isBlank, ih]
  | empty => rfl
  | element => rfl

/-- No other element than a `mover` is marked. -/
theorem firstRoot?_marked (f : Fragment) : f.marked.firstRoot? = f.firstRoot? := by
  have hne : math ≠ mover := by decide
  induction f with
  | nil => rfl
  | text t next ih => exact ih
  | empty l next ih => rw [marked, firstRoot?, firstRoot?, ih]
  | element l inside next ihi ihn =>
    by_cases he : l.name = math
    · simp [marked, firstRoot?, he, Label.lacksAccent, hne]
    · rw [marked, firstRoot?, firstRoot?, ihi, ihn]
      split_ifs <;> simp_all [Label.front]

theorem nones_marked (f : Fragment) : f.marked.nones = f.nones := by
  have hne : noneName ≠ mover := by decide
  induction f with
  | nil => rfl
  | text t next ih => exact ih
  | empty l next ih => rw [marked, nones, nones, ih]
  | element l inside next ihi ihn =>
    by_cases he : l.name = noneName
    · simp [marked, nones, he, Label.lacksAccent, hne, ihi, ihn, isBlank_marked]
    · rw [marked, nones, nones, ihi, ihn]
      split_ifs <;> simp_all [Label.front]

theorem IsText.marked_eq {f : Fragment} (hf : f.IsText) : f.marked = f := by
  induction f with
  | nil => rfl
  | text t next ih => rw [marked, ih hf]
  | empty => cases hf
  | element => cases hf

theorem Regular.marked {f : Fragment} (hf : f.Regular) : f.marked.Regular := by
  induction f with
  | nil => trivial
  | text t next ih => exact ⟨hf.1, hf.2.1, ih hf.2.2⟩
  | empty l next ih => exact ⟨hf.1, ih hf.2⟩
  | element l inside next ihi ihn =>
    obtain ⟨hl, ht, hi, hn⟩ := hf
    rw [Fragment.marked]
    refine ⟨?_, fun h => ?_, ihi hi, ihn hn⟩
    · split_ifs
      · exact hl.front regular_accentAttribute
      · exact hl
    · have hs : inside.IsText := ht (by split_ifs at h <;> exact h)
      rwa [hs.marked_eq]

theorem IsTree.marked {f : Fragment} (hf : f.IsTree) : f.marked.IsTree := by
  rcases hf with ⟨l, rfl⟩ | ⟨l, inside, rfl⟩
  · exact .inl ⟨_, rfl⟩
  · exact .inr ⟨_, _, rfl⟩

end Fragment

end Formula.Markup
