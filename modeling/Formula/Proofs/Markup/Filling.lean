import Formula.Markup.Filler
import Formula.Proofs.Markup.Scanning

/-! # Filling missing arguments in a tree

The element that marks a missing argument gives way to a filler if it has no attributes and holds no
more than blanks. With attributes it stays, so the pass has work to do again once they are gone. Blanks
behind its name are no attributes.
-/

namespace Formula.Markup

open Text

def Label.isBareNone (l : Label) : Bool :=
  l.name = noneName && l.attributes = []

/-- The label is one of an element that marks a missing argument, and nothing else. -/
def Label.isMissing (l : Label) : Bool :=
  l.name = noneName && allBlank l.attributes

theorem Label.isMissing_of_ne {l : Label} (h : l.name ≠ noneName) : l.isMissing = false := by
  simp [isMissing, h]

theorem Label.eq_of_isBareNone {l : Label} (h : l.isBareNone = true) : l = ⟨noneName, []⟩ := by
  obtain ⟨name, attributes⟩ := l
  simpa [isBareNone] using h

namespace Fragment

def filled : Fragment → Fragment
  | nil => nil
  | text t next => text t next.filled
  | empty l next => if l.isBareNone then filler next.filled else empty l next.filled
  | element l inside next =>
    if l.isBareNone && inside.isBlank then filler next.filled
    else element l inside.filled next.filled

/-- The fragment with fillers for the missing arguments, whether or not blanks stand in their tags. -/
def supplied : Fragment → Fragment
  | nil => nil
  | text t next => text t next.supplied
  | empty l next => if l.isMissing then filler next.supplied else empty l next.supplied
  | element l inside next =>
    if l.isMissing && inside.isBlank then filler next.supplied
    else element l inside.supplied next.supplied

end Fragment

/-- The element marks a missing argument. It holds no more than blanks. -/
def Element.isMissing (e : Element) : Bool :=
  e.label.isMissing && (e.inside.getD .nil).isBlank

theorem Fragment.supplied_eq_self {f : Fragment} (h : ∀ e ∈ f.elements, e.isMissing = false) :
    f.supplied = f := by
  induction f with
  | nil => rfl
  | text t next ih => rw [supplied, ih h]
  | empty l next ih =>
    obtain ⟨hl, hn⟩ := List.forall_mem_cons.mp h
    rw [supplied, if_neg (by simpa [Element.isMissing, isBlank] using hl), ih hn]
  | element l inside next ihi ihn =>
    obtain ⟨hl, h⟩ := List.forall_mem_cons.mp h
    obtain ⟨hi, hn⟩ := List.forall_mem_append.mp h
    have hm : (l.isMissing && inside.isBlank) = false := hl
    rw [supplied, if_neg (by simp [hm]), ihi hi, ihn hn]

/-! ## What is found at a tag -/

/-- What follows the element that is closed at once, behind the name in its start tag. -/
def closedAtOnce? (r : Text) : Option Text :=
  match after? ['/', '>'] (skipBlanks r) with
  | some rest => some rest
  | none => (after? ['>'] (skipBlanks r)).bind fun r => after? "</none>".toList (skipBlanks r)

theorem afterNone?_cons (r : Text) :
    afterNone? ('<' :: r) = (after? noneName r).bind closedAtOnce? := rfl

theorem afterNone?_of_ne {c : Char} (hc : c ≠ '<') (r : Text) : afterNone? (c :: r) = none := by
  simp [afterNone?, after?, Ne.symm hc]

theorem fillNone_of_some {c : Char} {r rest : Text} (h : afterNone? (c :: r) = some rest) :
    fillNone (c :: r) = Markup.filler ++ fillNone rest := by
  rw [fillNone]
  split <;> simp_all

theorem fillNone_of_none {c : Char} {r : Text} (h : afterNone? (c :: r) = none) :
    fillNone (c :: r) = c :: fillNone r := by
  rw [fillNone]
  split
  · simp_all
  · rfl

theorem scans_fillNone : Scans fillNone where
  nil := by rw [fillNone]
  opens r := by
    rw [fillNone]
    split <;> rfl
  char hc r := fillNone_of_none (afterNone?_of_ne hc r)
  ends r := fillNone_of_none (by rw [afterNone?_cons]; rfl)

theorem closedAtOnce?_of_isNameChar {c : Char} (hc : isNameChar c = true) (r : Text) :
    closedAtOnce? (c :: r) = none := by
  have hn : isNameChar '/' = false ∧ isNameChar '>' = false := by decide
  have h₁ : '/' ≠ c := by
    rintro rfl
    simp [hn.1] at hc
  have h₂ : '>' ≠ c := by
    rintro rfl
    simp [hn.2] at hc
  rw [closedAtOnce?, skipBlanks, List.dropWhile_cons_of_neg (by simp [isBlank_of_isNameChar hc])]
  simp [after?, h₁, h₂]

theorem skipBlanks_append_of_not_blank {s : Text} (hs : allBlank s = false) (t : Text) :
    skipBlanks (s ++ t) = skipBlanks s ++ t := by
  have hne : s.dropWhile isBlank ≠ [] := fun h => by simp [skipBlanks_eq_nil_iff.mp h] at hs
  rw [skipBlanks, List.dropWhile_append, if_neg (by simpa using hne)]
  rfl

/-- Behind the name there may be blanks and then a slash, or blanks alone and then the end tag. -/
theorem closedAtOnce?_body {t : Text} (ht : ∀ c ∈ t, isAngle c = false) (x : Text) :
    closedAtOnce? (t ++ '>' :: x) =
      if allBlank t then after? "</none>".toList (skipBlanks x)
      else if skipBlanks t = ['/'] then some x else none := by
  have hskip : skipBlanks ('>' :: x) = '>' :: x := List.dropWhile_cons_of_neg (by decide)
  split_ifs with hb hs
  · rw [closedAtOnce?, skipBlanks_append hb, hskip]
    rfl
  · rw [closedAtOnce?, skipBlanks_append_of_not_blank (by simpa using hb), hs]
    rfl
  · have hangle : ∀ c ∈ skipBlanks t, '>' ≠ c := by
      rintro c hc rfl
      exact absurd (ht _ ((skipBlanks_suffix t).subset hc)) (by decide)
    obtain ⟨c, r, e⟩ := List.exists_cons_of_ne_nil (mt skipBlanks_eq_nil_iff.mp hb)
    rw [closedAtOnce?, skipBlanks_append_of_not_blank (by simpa using hb), e]
    rw [e] at hs hangle
    obtain ⟨hc, hr⟩ := List.forall_mem_cons.mp hangle
    have hbracket : after? ['>'] (c :: r ++ '>' :: x) = none := by simp [after?, hc]
    have hslash : after? ['/', '>'] (c :: r ++ '>' :: x) = none := by
      cases r with
      | nil =>
        have hne : '/' ≠ c := fun h => hs (by rw [h])
        simp [after?, hne]
      | cons d r => simp [after?, hr d List.mem_cons_self]
    rw [hslash, hbracket]
    rfl

theorem Fragment.WellFormed.after?_none_end {f : Fragment} (hf : f.WellFormed) (rest : Text) :
    after? "</none>".toList (skipBlanks (f.written ++ ("</none>".toList ++ rest))) =
      if f.isBlank then some rest else none := by
  have hend : skipBlanks ("</none>".toList ++ rest) = "</none>".toList ++ rest :=
    List.dropWhile_cons_of_neg (by decide)
  have htag : ∀ (l : Label) (r : Text), l.WellFormed →
      after? "</none>".toList (skipBlanks ('<' :: (l.name ++ r))) = none := by
    intro l r hl
    have hskip : skipBlanks ('<' :: (l.name ++ r)) = '<' :: (l.name ++ r) :=
      List.dropWhile_cons_of_neg (by decide)
    have hletter := hl.letter
    rw [hskip]
    cases e : l.name with
    | nil => simp [e] at hletter
    | cons c name =>
      have hc : c.isAlpha = true := by simpa [e] using hletter
      simp [after?, Ne.symm (isAlpha_ne hc).2.1]
  induction f with
  | nil => rw [written, List.nil_append, hend, after?_append]; rfl
  | text t next ih =>
    rw [written, List.append_assoc, isBlank]
    cases hb : allBlank t with
    | true => rw [skipBlanks_append hb, ih hf.2, Bool.true_and]
    | false =>
      rw [skipBlanks_append_of_not_blank hb]
      cases e : skipBlanks t with
      | nil => simp [skipBlanks_eq_nil_iff.mp e] at hb
      | cons c r =>
        have hc : '<' ≠ c := by
          rintro rfl
          exact hf.1 ((skipBlanks_suffix t).subset (e ▸ List.mem_cons_self))
        simp [after?, hc]
  | empty l next _ =>
    rw [written, List.append_assoc, l.emptyTag_append, htag l _ hf.1]
    rfl
  | element l inside next _ _ =>
    rw [written, List.append_assoc, l.startTag_append, htag l _ hf.1]
    rfl

namespace Label.WellFormed

variable {l : Label} (h : l.WellFormed) {body : Text}

include h

theorem afterNone?_eq (hb : l.Body body) (rest : Text) :
    afterNone? ('<' :: (l.name ++ (body ++ '>' :: rest))) =
      if l.name = noneName then closedAtOnce? (body ++ '>' :: rest) else none := by
  have hk : noneName.all Char.isAlpha = true := by decide
  rw [afterNone?_cons]
  split_ifs with he
  · rw [he, after?_append, Option.bind_some]
  · cases ha : after? noneName (l.name ++ (body ++ '>' :: rest)) with
    | none => rfl
    | some r =>
      rcases List.append_eq_append_iff.mp (after?_eq_some_iff.mp ha) with
        ⟨v, hv, e⟩ | ⟨v, hv, rfl⟩
      · cases v with
        | nil => simp [hv] at he
        | cons c v =>
          have hc := List.all_eq_true.mp hk c (by simp [hv])
          have hc' := h.isNameChar_body hb rest c (by simp [e])
          simp [isNameChar, isWord_of_isAlpha hc] at hc'
      · cases v with
        | nil => simp [hv] at he
        | cons c v => exact closedAtOnce?_of_isNameChar (h.name c (by simp [hv])) _

theorem afterNone?_whole (rest : Text) :
    afterNone? ('<' :: (l.name ++ ((l.attributes ++ ['/']) ++ '>' :: rest))) =
      if l.isMissing then some rest else none := by
  have hslash : skipBlanks ['/'] = ['/'] := List.dropWhile_cons_of_neg (by decide)
  have hblank : allBlank (l.attributes ++ ['/']) = false := by
    have hs : isBlank '/' = false := by decide
    simp [allBlank, hs]
  rw [h.afterNone?_eq .whole, closedAtOnce?_body (h.isAngle_body .whole), hblank,
    if_neg Bool.false_ne_true, Label.isMissing]
  cases hb : allBlank l.attributes with
  | true => simp [skipBlanks_append hb, hslash]
  | false =>
    have hne : skipBlanks l.attributes ≠ [] := fun he => by simp [skipBlanks_eq_nil_iff.mp he] at hb
    simp [skipBlanks_append_of_not_blank hb, hne]

theorem afterNone?_start (hs : l.attributes.getLast? ≠ some '/') {inside : Fragment}
    (hi : inside.WellFormed) (rest : Text) :
    afterNone? ('<' :: (l.name ++ (l.attributes ++ '>' ::
      (inside.written ++ (l.endTag.written ++ rest))))) =
      if l.isMissing && inside.isBlank then some rest else none := by
  have hne : skipBlanks l.attributes ≠ ['/'] := by
    intro he
    have e : l.attributes = l.attributes.takeWhile isBlank ++ ['/'] := by
      rw [← he, skipBlanks, List.takeWhile_append_dropWhile]
    exact hs (by rw [e, List.getLast?_concat])
  rw [h.afterNone?_eq .start, closedAtOnce?_body h.plain, if_neg hne, Label.isMissing]
  by_cases hn : l.name = noneName
  · have hend : l.endTag.written = "</none>".toList := by
      rw [Label.endTag, hn]
      decide
    rw [hend, hi.after?_none_end]
    cases allBlank l.attributes <;> simp [hn]
  · simp [hn]

end Label.WellFormed

namespace Fragment

theorem WellFormed.fillNone_append {f : Fragment} (hf : f.WellFormed) (rest : Text) :
    fillNone (f.written ++ rest) = f.supplied.written ++ fillNone rest := by
  induction f generalizing rest with
  | nil => rfl
  | text t next ih =>
    rw [written, List.append_assoc, scans_fillNone.append hf.1, ih hf.2, supplied, written,
      List.append_assoc]
  | empty l next ih =>
    obtain ⟨hl, hn⟩ := hf
    have ha := hl.afterNone?_whole (next.written ++ rest)
    rw [written_empty_append, supplied]
    split_ifs at ha ⊢
    · rw [fillNone_of_some ha, ih hn, written_filler, List.append_assoc]
    · rw [scans_fillNone.tag hl .whole (fillNone_of_none ha), ih hn, written_empty_append]
  | element l inside next ihi ihn =>
    obtain ⟨hl, hs, hi, hn⟩ := hf
    have ha := hl.afterNone?_start hs hi (next.written ++ rest)
    rw [written_element_append, supplied]
    split_ifs at ha ⊢
    · rw [fillNone_of_some ha, ihn hn, written_filler, List.append_assoc]
    · rw [scans_fillNone.tag hl .start (fillNone_of_none ha), ihi hi, scans_fillNone.endTag hl.name, ihn hn,
        written_element_append]

/-- On well-formed markup the missing arguments are filled in the tree. -/
theorem WellFormed.fillNone_written {f : Fragment} (hf : f.WellFormed) :
    fillNone f.written = f.supplied.written := by
  have h := hf.fillNone_append []
  rwa [List.append_nil, fillNone, List.append_nil] at h

theorem Regular.supplied_eq {f : Fragment} (hf : f.Regular) : f.supplied = f.filled := by
  have hl : ∀ l : Label, l.Regular → l.isMissing = l.isBareNone := by
    intro l hl
    have hq : Text.isBlank '"' = false := by decide
    rcases hl.attributes_cases with e | ⟨-, t, e⟩ <;>
      simp [Label.isMissing, Label.isBareNone, e, allBlank, hq]
  induction f with
  | nil => rfl
  | text t next ih => rw [supplied, filled, ih hf.2.2]
  | empty l next ih => rw [supplied, filled, ih hf.2, hl l hf.1]
  | element l inside next ihi ihn =>
    rw [supplied, filled, ihi hf.2.2.1, ihn hf.2.2.2, hl l hf.1]

/-- On regular markup the missing arguments are filled in the tree. -/
theorem Regular.fillNone_written {f : Fragment} (hf : f.Regular) :
    fillNone f.written = f.filled.written := by
  rw [hf.wellFormed.fillNone_written, hf.supplied_eq]

/-! ## The tree after the pass -/

theorem IsText.filled_eq {f : Fragment} (hf : f.IsText) : f.filled = f := by
  induction f with
  | nil => rfl
  | text t next ih => rw [filled, ih hf]
  | empty => cases hf
  | element => cases hf

theorem isBlank_filled (f : Fragment) : f.filled.isBlank = f.isBlank := by
  induction f with
  | nil => rfl
  | text t next ih => rw [filled, isBlank, isBlank, ih]
  | empty => rw [filled]; split_ifs <;> rfl
  | element => rw [filled]; split_ifs <;> rfl

theorem nones_filled (f : Fragment) : f.filled.nones = f.nones.filter (· ≠ []) := by
  induction f with
  | nil => rfl
  | text t next ih => exact ih
  | empty l next ih =>
    rw [filled, nones]
    split_ifs with hb hn hn
    · simp_all [nones_filler, Label.isBareNone]
    · simp_all [Label.isBareNone]
    · simp_all [nones, Label.isBareNone]
    · simp_all [nones]
  | element l inside next ihi ihn =>
    rw [filled, nones]
    split_ifs with hb hn hn
    · simp_all [nones_filler, Label.isBareNone, (isText_of_isBlank hn.2).nones_eq]
    · simp_all [Label.isBareNone]
    · simp_all [nones, Label.isBareNone, isBlank_filled]
    · simp_all [nones, isBlank_filled]

theorem filled_of_not_mem {f : Fragment} (h : [] ∉ f.nones) : f.filled = f := by
  induction f with
  | nil => rfl
  | text t next ih => rw [filled, ih h]
  | empty l next ih =>
    rw [nones] at h
    rw [filled]
    split_ifs at h ⊢ <;> simp_all [Label.isBareNone]
  | element l inside next ihi ihn =>
    rw [nones] at h
    rw [filled]
    split_ifs at h ⊢ <;> simp_all [Label.isBareNone]

theorem count_nones_empty (l : Label) (next : Fragment) :
    (empty l next).nones.count [] = l.isBareNone.toNat + next.nones.count [] := by
  rw [nones, Label.isBareNone]
  by_cases hn : l.name = noneName <;> by_cases ha : l.attributes = [] <;>
    simp [hn, ha, Nat.add_comm]

theorem count_nones_element (l : Label) (inside next : Fragment) :
    (element l inside next).nones.count [] =
      (l.isBareNone && inside.isBlank).toNat + (inside.nones.count [] + next.nones.count []) := by
  rw [nones, Label.isBareNone]
  by_cases hn : l.name = noneName <;> by_cases ha : l.attributes = [] <;>
    cases inside.isBlank <;> simp [hn, ha, Nat.add_comm]

theorem count_written_of_isBlank {f : Fragment} (h : f.isBlank = true) :
    f.written.count '#' = 0 := by
  rw [← f.allBlank_written] at h
  exact List.count_eq_zero.mpr fun hm => absurd (isBlank_of_allBlank h _ hm) (by decide)

/-- A filler has a hash in it, and the element that gives way to it has none. -/
theorem count_filled (f : Fragment) :
    f.filled.written.count '#' = f.written.count '#' + f.nones.count [] := by
  have hfiller : Markup.filler.count '#' = 1 := by decide
  induction f with
  | nil => rfl
  | text t next ih =>
    rw [filled, written, written, nones, List.count_append, List.count_append, ih]
    omega
  | empty l next ih =>
    rw [filled, count_nones_empty]
    cases hb : l.isBareNone with
    | true =>
      have hempty : (Label.mk noneName []).emptyTag.written.count '#' = 0 := by decide
      rw [if_pos rfl, written_filler, written, Label.eq_of_isBareNone hb, List.count_append,
        List.count_append, hfiller, hempty, ih, Bool.toNat_true]
      omega
    | false =>
      rw [if_neg Bool.false_ne_true, written, written, List.count_append, List.count_append, ih,
        Bool.toNat_false]
      omega
  | element l inside next ihi ihn =>
    rw [filled, count_nones_element]
    cases hb : l.isBareNone && inside.isBlank with
    | true =>
      obtain ⟨hl, hi⟩ := Bool.and_eq_true_iff.mp hb
      have htags : (Label.mk noneName []).startTag.written.count '#' = 0 ∧
          (Label.mk noneName []).endTag.written.count '#' = 0 := by decide
      rw [if_pos rfl, written_filler, written, Label.eq_of_isBareNone hl,
        (isText_of_isBlank hi).nones_eq]
      simp only [List.count_append, List.count_nil, hfiller, htags, count_written_of_isBlank hi, ihn,
        Bool.toNat_true]
      omega
    | false =>
      rw [if_neg Bool.false_ne_true, written, written]
      simp only [List.count_append, ihi, ihn, Bool.toNat_false]
      omega

/-- The text that is written changes with the tree. -/
theorem written_filled_eq_iff {f : Fragment} : f.filled.written = f.written ↔ [] ∉ f.nones := by
  constructor
  · intro h
    have hc := f.count_filled
    rw [h] at hc
    exact List.count_eq_zero.mp (by omega)
  · intro h
    rw [filled_of_not_mem h]

theorem shows_of_shows_filled {f : Fragment} (h : f.filled.shows = true) : f.shows = true := by
  induction f with
  | nil => exact h
  | text t next ih =>
    rw [filled, shows, Bool.or_eq_true] at h
    rw [shows, Bool.or_eq_true]
    exact h.imp id ih
  | empty l next ih =>
    rw [shows, Bool.or_eq_true]
    rw [filled] at h
    split_ifs at h
    · exact .inr (ih (shows_filler _ ▸ h))
    · rw [shows, Bool.or_eq_true] at h
      exact h.imp id ih
  | element l inside next ihi ihn =>
    rw [shows, Bool.or_eq_true, Bool.or_eq_true]
    rw [filled] at h
    split_ifs at h
    · exact .inr (.inr (ihn (shows_filler _ ▸ h)))
    · rw [shows, Bool.or_eq_true, Bool.or_eq_true] at h
      exact h.imp id (Or.imp ihi ihn)

theorem firstRoot?_filled (f : Fragment) : f.filled.firstRoot? = f.firstRoot? := by
  have hne : noneName ≠ math := by decide
  induction f with
  | nil => rfl
  | text t next ih => exact ih
  | empty l next ih =>
    rw [filled, firstRoot?]
    split_ifs with hb he he
    · simp_all [Label.isBareNone]
    · rw [firstRoot?_filler, ih]
    · rw [firstRoot?, if_pos he]
    · rw [firstRoot?, if_neg he, ih]
  | element l inside next ihi ihn =>
    rw [filled, firstRoot?]
    split_ifs with hb he he
    · simp_all [Label.isBareNone]
    · rw [Bool.and_eq_true] at hb
      rw [firstRoot?_filler, ihn, (isText_of_isBlank hb.2).firstRoot?_eq, Option.none_or]
    · rw [firstRoot?, if_pos he]
    · rw [firstRoot?, if_neg he, ihi, ihn]

theorem Regular.filled {f : Fragment} (hf : f.Regular) : f.filled.Regular := by
  induction f with
  | nil => trivial
  | text t next ih => exact ⟨hf.1, hf.2.1, ih hf.2.2⟩
  | empty l next ih =>
    rw [Fragment.filled]
    split_ifs
    · exact regular_filler (ih hf.2)
    · exact ⟨hf.1, ih hf.2⟩
  | element l inside next ihi ihn =>
    obtain ⟨hl, ht, hi, hn⟩ := hf
    rw [Fragment.filled]
    split_ifs
    · exact regular_filler (ihn hn)
    · exact ⟨hl, fun h => (ht h).filled_eq.symm ▸ ht h, ihi hi, ihn hn⟩

theorem IsTree.filled {f : Fragment} (hf : f.IsTree) : f.filled.IsTree := by
  rcases hf with ⟨l, rfl⟩ | ⟨l, inside, rfl⟩
  · rw [Fragment.filled]
    split_ifs
    · exact .inr ⟨_, _, rfl⟩
    · exact .inl ⟨_, rfl⟩
  · rw [Fragment.filled]
    split_ifs
    · exact .inr ⟨_, _, rfl⟩
    · exact .inr ⟨_, _, rfl⟩

end Fragment

end Formula.Markup
