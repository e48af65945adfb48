import Formula.Proofs.Markup.Accents
import Formula.Proofs.Markup.Fronts

/-! # Marks are set once

A mark may change what a tag is read as: one that is named `mover-x` is a `mover` once it is marked, and
counts where the end of another element is looked for. But what is marked shows a dot, and so does every
element around it. The content of an element that shows none holds no mark, and is the same in the marked
text.
-/

namespace Formula.Markup

open Text

theorem showsDot_mono {s t : Text} (h : s <:+: t) (hs : showsDot s = true) : showsDot t = true := by
  obtain ⟨p, hp, hi⟩ := showsDot_iff.mp hs
  exact showsDot_iff.mpr ⟨p, hp, hi.trans h⟩

/-! ## The content of an element -/

section Content

variable {name t rest : Text} {tag : Tag}

theorem content_of_none {c : Char} {r : Text} (d : Nat) (h : tag? (c :: r) = none) :
    content name d (c :: r) = c :: content name d r := by
  rw [content]
  split
  · rfl
  · simp_all

section Tagged

variable (h : tag? t = some (tag, rest))

include h

theorem content_of_other (d : Nat) (hn : tag.name ≠ name ∨ tag.selfClosing) :
    content name d t = tag.written ++ content name d rest := by
  rw [eq_append_of_tag? h, (wellFormed_of_tag? h).content_eq, if_pos hn]

variable (hn : ¬(tag.name ≠ name ∨ tag.selfClosing))

include hn

theorem content_of_end (hc : tag.closing) : content name 0 t = [] := by
  rw [eq_append_of_tag? h, (wellFormed_of_tag? h).content_eq, if_neg hn, if_pos hc]

theorem content_of_inner_end (hc : tag.closing) (d : Nat) :
    content name (d + 1) t = tag.written ++ content name d rest := by
  rw [eq_append_of_tag? h, (wellFormed_of_tag? h).content_eq, if_neg hn, if_pos hc]

theorem content_of_start (hc : ¬ tag.closing) (d : Nat) :
    content name d t = tag.written ++ content name (d + 1) rest := by
  rw [eq_append_of_tag? h, (wellFormed_of_tag? h).content_eq, if_neg hn, if_neg hc]

end Tagged

theorem content_prefix_succ (d : Nat) : content name d t <+: content name (d + 1) t := by
  fun_induction content name d t with
  | case1 => exact List.nil_prefix
  | case2 d c r h ih =>
    rw [content_of_none _ h]
    exact List.cons_prefix_cons.mpr ⟨rfl, ih⟩
  | case3 d c r tag rest h hn ih =>
    rw [content_of_other h _ hn]
    exact (List.prefix_append_right_inj _).mpr ih
  | case4 => exact List.nil_prefix
  | case5 c r tag rest h hn hc d ih =>
    rw [content_of_inner_end h hn hc]
    exact (List.prefix_append_right_inj _).mpr ih
  | case6 d c r tag rest h hn hc ih =>
    rw [content_of_start h hn hc]
    exact (List.prefix_append_right_inj _).mpr ih

theorem content_prefix_depth (d : Nat) : content name 0 t <+: content name d t := by
  induction d with
  | zero => exact List.prefix_rfl
  | succ d ih => exact ih.trans (content_prefix_succ d)

theorem showsDot_content_of_start (h : tag? t = some (tag, rest)) (hc : ¬ tag.closing) (d : Nat)
    (hs : showsDot (content name 0 rest) = true) : showsDot (content name d t) = true := by
  have hd : ∀ d, showsDot (tag.written ++ content name d rest) = true := fun d =>
    showsDot_mono ((content_prefix_depth d).isInfix.trans (List.suffix_append _ _).isInfix) hs
  by_cases hn : tag.name ≠ name ∨ tag.selfClosing
  · rw [content_of_other h d hn]
    exact hd d
  · rw [content_of_start h hn hc]
    exact hd (d + 1)

end Content

/-! ## What is copied and what is marked -/

theorem accentDots_of_some {t attributes rest : Text} (h : mover? t = some (attributes, rest)) :
    accentDots t = '<' :: (mover ++ ((if needsMark attributes rest then accentMark else []) ++
      (attributes ++ '>' :: accentDots rest))) := by
  obtain ⟨rfl, -, -⟩ := mover?_eq_some_iff.mp h
  rw [accentDots]
  split
  · next attributes' rest' h' =>
    obtain ⟨rfl, rfl⟩ : attributes = attributes' ∧ rest = rest' := by simpa [h] using h'
    simp
  · simp_all

theorem accentDots_of_not_marked {c : Char} {r : Text}
    (h : ∀ a rest, mover? (c :: r) = some (a, rest) → needsMark a rest = false) :
    accentDots (c :: r) = c :: accentDots r := by
  cases hm : mover? (c :: r) with
  | none => exact accentDots_of_none hm
  | some p =>
    obtain ⟨a, rest⟩ := p
    obtain ⟨e, ha, -⟩ := mover?_eq_some_iff.mp hm
    obtain ⟨rfl, rfl⟩ := List.cons.inj e
    have hmover : '<' ∉ mover := by decide
    rw [accentDots_of_some hm, h a rest hm, scans_accentDots.append hmover,
      scans_accentDots.append_plain ha, scans_accentDots.char (by decide)]
    rfl

/-- What is taken for a `mover` is read as a start tag, though maybe of another name. -/
theorem exists_tag_of_mover? {t attributes rest : Text} (h : mover? t = some (attributes, rest)) :
    ∃ tag, tag? t = some (tag, rest) ∧ ¬ tag.closing := by
  obtain ⟨rfl, ha, -⟩ := mover?_eq_some_iff.mp h
  have hm : ∀ c ∈ "over".toList, isAngle c = false := by simp [isAngle]
  have hb : tagBody? (("over".toList ++ (attributes ++ '>' :: rest)).dropWhile isNameChar) =
      some (("over".toList ++ attributes).dropWhile isNameChar, rest) := by
    have hd : ∀ w : Text, (w ++ '>' :: rest).dropWhile isNameChar = w.dropWhile isNameChar ++ '>' :: rest := by
      intro w
      rw [List.dropWhile_append]
      split_ifs with hw
      · rw [List.isEmpty_iff.mp hw, List.dropWhile_cons_of_neg (by decide), List.nil_append]
      · rfl
    rw [← List.append_assoc, hd]
    exact tagBody?_append (fun c hc => List.forall_mem_append.mpr ⟨hm, ha⟩ c
      ((List.dropWhile_suffix _).subset hc)) rest
  change ∃ tag, tagInside? false ('m' :: ("over".toList ++ (attributes ++ '>' :: rest))) =
    some (tag, rest) ∧ ¬ tag.closing
  rw [tagInside?, if_pos (by decide), hb]
  simp only [Option.bind_eq_bind, Option.bind_some, Option.pure_def]
  split_ifs <;> exact ⟨_, rfl, Bool.false_ne_true⟩

theorem tag?_accentDots (c : Char) (r : Text) :
    tag? (c :: accentDots r) = (tag? (c :: r)).map (Prod.map id accentDots) := by
  by_cases hc : c = '<'
  · rw [hc, scans_accentDots.keepsFront.tag?_eq]
  · rw [tag?_of_ne hc, tag?_of_ne hc]
    rfl

/-! ## Marking twice -/

/-- The content of an element that shows no dot holds nothing that is marked. -/
theorem content_accentDots {d : Nat} {t : Text} (h : showsDot (content mover d t) = false) :
    content mover d (accentDots t) = content mover d t := by
  have hcopy : ∀ {c : Char} {r : Text} {d : Nat}, showsDot (content mover d (c :: r)) = false →
      accentDots (c :: r) = c :: accentDots r := by
    intro c r d h
    refine accentDots_of_not_marked fun a rest hm => Bool.eq_false_iff.mpr fun hneeds => ?_
    obtain ⟨tag, ht, hc⟩ := exists_tag_of_mover? hm
    rw [needsMark, Bool.and_eq_true] at hneeds
    rw [showsDot_content_of_start ht hc d hneeds.2] at h
    cases h
  have hless : ∀ {s u : Text}, showsDot (s ++ u) = false → showsDot u = false := fun h =>
    Bool.eq_false_iff.mpr fun hu =>
      Bool.eq_false_iff.mp h (showsDot_mono (List.suffix_append _ _).isInfix hu)
  have htag : ∀ {c : Char} {r rest : Text} {tag : Tag}, tag? (c :: r) = some (tag, rest) →
      tag? (c :: accentDots r) = some (tag, accentDots rest) := by
    intro c r rest tag ht
    rw [tag?_accentDots, ht]
    rfl
  fun_induction content mover d t with
  | case1 => simp [accentDots, content]
  | case2 d c r ht ih =>
    have ht' : tag? (c :: accentDots r) = none := by
      rw [tag?_accentDots, ht]
      rfl
    rw [hcopy (by rwa [content_of_none d ht]), content_of_none d ht', ih (hless (s := [c]) h)]
  | case3 d c r tag rest ht hn ih =>
    rw [hcopy (by rwa [content_of_other ht d hn]), content_of_other (htag ht) d hn, ih (hless h)]
  | case4 c r tag rest ht hn hc =>
    rw [hcopy (by rwa [content_of_end ht hn hc]), content_of_end (htag ht) hn hc]
  | case5 c r tag rest ht hn hc d ih =>
    rw [hcopy (by rwa [content_of_inner_end ht hn hc d]), content_of_inner_end (htag ht) hn hc d,
      ih (hless h)]
  | case6 d c r tag rest ht hn hc ih =>
    rw [hcopy (by rwa [content_of_start ht hn hc d]), content_of_start (htag ht) hn hc d, ih (hless h)]

/-- An element is to be marked in the marked text only if it was to be marked before. -/
theorem needsMark_accentDots {attributes rest : Text} (h : needsMark attributes rest = false) :
    needsMark attributes (accentDots rest) = false := by
  cases hs : showsDot (content mover 0 rest) with
  | false => rw [needsMark, content_accentDots hs, hs, Bool.and_false]
  | true =>
    rw [needsMark, hs, Bool.and_true] at h
    rw [needsMark, h, Bool.false_and]

theorem needsMark_accentMark (attributes rest : Text) :
    needsMark (accentMark ++ attributes) rest = false := by
  have hw : isWord ' ' = false := by decide
  have hs : setsAccent false (accentMark ++ attributes) = true :=
    setsAccent_iff_saysAccent.mpr ⟨[' '], [], "\"true\"".toList ++ attributes, rfl, by simp [hw], by simp⟩
  rw [needsMark, hs, Bool.not_true, Bool.and_false, Bool.false_and]

/-- Marking the accents of any text a second time changes nothing. -/
theorem accentDots_accentDots (t : Text) : accentDots (accentDots t) = accentDots t := by
  fun_induction accentDots t with
  | case1 => rw [accentDots]
  | case2 c r attributes rest h ih =>
    obtain ⟨-, ha, hw⟩ := mover?_eq_some_iff.mp h
    cases hneeds : needsMark attributes rest with
    | true =>
      have hmark : accentMark.all (!isAngle ·) = true ∧ endsWord accentMark = true := by decide
      have hplain : ∀ c ∈ accentMark, isAngle c = false := by simpa using hmark.1
      have hm : mover? ('<' :: (mover ++ ((accentMark ++ attributes) ++ '>' :: accentDots rest))) =
          some (accentMark ++ attributes, accentDots rest) :=
        mover?_eq_some_iff.mpr ⟨rfl, List.forall_mem_append.mpr ⟨hplain, ha⟩, hmark.2⟩
      have hn := needsMark_accentMark attributes (accentDots rest)
      simpa [hn, ih] using accentDots_of_some hm
    | false =>
      have hm : mover? ('<' :: (mover ++ (attributes ++ '>' :: accentDots rest))) =
          some (attributes, accentDots rest) := mover?_eq_some_iff.mpr ⟨rfl, ha, hw⟩
      have hn := needsMark_accentDots hneeds
      simpa [hn, ih] using accentDots_of_some hm
  | case3 c r h ih =>
    by_cases hc : c = '<'
    · subst hc
      rw [accentDots_of_none, ih]
      rw [scans_accentDots.keepsFront.mover?_eq, h]
      rfl
    · rw [scans_accentDots.char hc, ih]

end Formula.Markup
