import Formula.Markup.CleanUp
import Formula.Proofs.Markup.Declaring
import Formula.Proofs.Markup.Filling
import Formula.Proofs.Markup.Losses
import Formula.Proofs.Markup.Marking
import Formula.Proofs.Markup.Stripping

/-! # What survives the clean-up

Markup that names the element `math` is never cleaned up to nothing, however broken it is. The passes
before the pruning leave the name where it is, and the pruning takes nothing away but blanks and rows.
-/

namespace Formula.Markup

open Text

/-! ## Texts with a start tag of `math` -/

/-- The text begins with a start tag of the name `math`. The end of the tag is not looked for. -/
def opensMath (t : Text) : Bool :=
  (after? ('<' :: math) t).any fun r => r.head?.all (!isNameChar ·)

def holdsMath : Text → Bool :=
  anySuffix opensMath

theorem opensMath_iff {t : Text} : opensMath t = true ↔
    ∃ r, t = '<' :: (math ++ r) ∧ ∀ c ∈ r.head?, isNameChar c = false := by
  simp [opensMath, Option.any_eq_true, after?_eq_some_iff, Option.all_eq_true]

theorem opensMath_of_ne {c : Char} (hc : c ≠ '<') (r : Text) : opensMath (c :: r) = false := by
  simp [opensMath, after?, Ne.symm hc]

theorem holdsMath_cons (c : Char) (r : Text) :
    holdsMath (c :: r) = (opensMath (c :: r) || holdsMath r) := rfl

theorem holdsMath_append_left (w : Text) {r : Text} (h : holdsMath r = true) :
    holdsMath (w ++ r) = true := by
  induction w with
  | nil => exact h
  | cons c w ih => rw [List.cons_append, holdsMath_cons, ih, Bool.or_true]

theorem holdsMath_of_append {w r : Text} (hw : '<' ∉ w) (h : holdsMath (w ++ r) = true) :
    holdsMath r = true := by
  induction w with
  | nil => exact h
  | cons c w ih =>
    simp only [List.mem_cons, not_or] at hw
    rw [List.cons_append, holdsMath_cons, opensMath_of_ne (Ne.symm hw.1), Bool.false_or] at h
    exact ih hw.2 h

theorem holdsMath_skipBlanks {t : Text} (h : holdsMath t = true) : holdsMath (skipBlanks t) = true := by
  have hb : '<' ∉ t.takeWhile isBlank :=
    fun hm => absurd (List.mem_takeWhile_imp hm) (by decide)
  exact holdsMath_of_append hb (by rwa [skipBlanks, List.takeWhile_append_dropWhile])

/-- A bracket that opens no `math` can be left out, with what stands behind it and opens nothing. -/
theorem holdsMath_of_cons_append {w r : Text} (ho : opensMath ('<' :: (w ++ r)) = false) (hw : '<' ∉ w)
    (h : holdsMath ('<' :: (w ++ r)) = true) : holdsMath r = true := by
  rw [holdsMath_cons, ho, Bool.false_or] at h
  exact holdsMath_of_append hw h

/-! ## The passes before the pruning -/

namespace Scans

variable {pass : Text → Text} (hp : Scans pass)

include hp

theorem isNameChar_head {t : Text} (ht : ∀ c ∈ t.head?, isNameChar c = false) :
    ∀ c ∈ (pass t).head?, isNameChar c = false := by
  cases t with
  | nil => simp [hp.nil]
  | cons c r =>
    by_cases hc : c = '<'
    · subst hc
      rw [hp.opens]
      exact ht
    · rw [hp.char hc]
      exact ht

theorem opensMath_copy {r : Text} (h : opensMath ('<' :: r) = true) :
    opensMath ('<' :: pass r) = true := by
  obtain ⟨rest, e, hr⟩ := opensMath_iff.mp h
  obtain rfl := (List.cons.inj e).2
  have hm : '<' ∉ math := by decide
  exact opensMath_iff.mpr ⟨pass rest, by rw [hp.append hm], hp.isNameChar_head hr⟩

theorem holdsMath_copy {c : Char} {r : Text} (ih : holdsMath r = true → holdsMath (pass r) = true)
    (h : holdsMath (c :: r) = true) : holdsMath (c :: pass r) = true := by
  rw [holdsMath_cons, Bool.or_eq_true] at h ⊢
  refine h.imp (fun ho => ?_) ih
  by_cases hc : c = '<'
  · subst hc
    exact hp.opensMath_copy ho
  · rw [opensMath_of_ne hc] at ho
    cases ho

end Scans

namespace Root

theorem length_math_le (root : Root) : math.length ≤ root.name.length := by
  unfold name
  split_ifs
  · rfl
  · simp
    omega

theorem opensMath_declare {root : Root} (h : ∀ c ∈ root.nsPrefix, isPrefixChar c = true) {rest : Text}
    (ho : opensMath (root.written ++ rest) = true) :
    opensMath (root.declare.written ++ rest) = true := by
  obtain ⟨r, e, hr⟩ := opensMath_iff.mp ho
  rw [written_append] at e
  have hname : root.name = math := by
    rcases List.append_eq_append_iff.mp (List.cons.inj e).2 with ⟨v, hv, -⟩ | ⟨v, hv, rfl⟩
    · have hlen := congrArg List.length hv
      have hle := root.length_math_le
      rw [List.length_append] at hlen
      rw [hv, List.eq_nil_of_length_eq_zero (l := v) (by omega), List.append_nil]
    · cases v with
      | nil => rw [hv, List.append_nil]
      | cons c v =>
        have hc := isNameChar_name h c (by simp [hv])
        rw [hr c rfl] at hc
        cases hc
  have hspace : isNameChar ' ' = false := by decide
  rw [written_append, show root.declare.name = math from hname]
  exact opensMath_iff.mpr ⟨_, rfl, by simp [declare, declaration, hspace]⟩

theorem holdsMath_declare {root : Root} (hp : ∀ c ∈ root.nsPrefix, isPrefixChar c = true)
    (ha : ∀ c ∈ root.attributes, isAngle c = false) {rest : Text}
    (h : holdsMath (root.written ++ rest) = true) :
    holdsMath (root.declare.written ++ rest) = true := by
  rw [written_append, holdsMath_cons, ← written_append, Bool.or_eq_true] at h
  rcases h with ho | h
  · rw [written_append, holdsMath_cons, ← written_append, opensMath_declare hp ho, Bool.true_or]
  · have hname := bracket_not_mem fun c hc => isAngle_of_isNameChar (isNameChar_name hp c hc)
    have h := holdsMath_of_append (bracket_not_mem ha) (holdsMath_of_append hname h)
    exact holdsMath_append_left _ (holdsMath_of_append (w := ['>']) (by simp) h)

end Root

theorem holdsMath_declareNamespace {t : Text} (h : holdsMath t = true) :
    holdsMath (declareNamespace t) = true := by
  induction t with
  | nil => exact h
  | cons c r ih =>
    rw [declareNamespace]
    split
    · next root rest hroot =>
      split_ifs
      · exact h
      · obtain ⟨hp, ha, -, e⟩ := eq_append_of_root? hroot
        rw [e] at h
        exact root.holdsMath_declare hp ha h
    · exact scans_declareNamespace.holdsMath_copy ih h

theorem holdsMath_accentDots {t : Text} (h : holdsMath t = true) : holdsMath (accentDots t) = true := by
  fun_induction accentDots t with
  | case1 => exact h
  | case2 c r attributes rest hm ih =>
    obtain ⟨e, ha, -⟩ := mover?_eq_some_iff.mp hm
    rw [e] at h
    have h := holdsMath_of_cons_append (w := mover) (by simp [opensMath, after?, math, mover])
      (by decide) h
    have h := holdsMath_of_append (bracket_not_mem ha) h
    rw [List.append_cons]
    exact holdsMath_append_left _ (ih (holdsMath_of_append (w := ['>']) (by simp) h))
  | case3 c r hm ih => exact scans_accentDots.holdsMath_copy ih h

theorem holdsMath_of_closedAtOnce? {r rest : Text} (hr : closedAtOnce? r = some rest)
    (h : holdsMath r = true) : holdsMath rest = true := by
  have h := holdsMath_skipBlanks h
  simp only [closedAtOnce?] at hr
  split at hr
  · next r' hslash =>
    obtain rfl := Option.some.inj hr
    rw [after?_eq_some_iff.mp hslash] at h
    exact holdsMath_of_append (by decide) h
  · obtain ⟨r', hangle, hr⟩ := Option.bind_eq_some_iff.mp hr
    rw [after?_eq_some_iff.mp hangle] at h
    have h := holdsMath_skipBlanks (holdsMath_of_append (by decide) h)
    rw [after?_eq_some_iff.mp hr] at h
    exact holdsMath_of_cons_append (w := "/none>".toList) (by simp [opensMath, after?, math])
      (by decide) h

theorem holdsMath_fillNone {t : Text} (h : holdsMath t = true) : holdsMath (fillNone t) = true := by
  fun_induction fillNone t with
  | case1 => exact h
  | case2 c r rest hn ih =>
    have hc : c = '<' := by
      by_contra hc
      rw [afterNone?_of_ne hc] at hn
      cases hn
    subst hc
    rw [afterNone?_cons] at hn
    obtain ⟨r', hr, hn⟩ := Option.bind_eq_some_iff.mp hn
    rw [after?_eq_some_iff.mp hr] at h
    have h := holdsMath_of_cons_append (by simp [opensMath, after?, math, noneName]) (by decide) h
    exact holdsMath_append_left _ (ih (holdsMath_of_closedAtOnce? hn h))
  | case3 c r hn ih => exact scans_fillNone.holdsMath_copy ih h

/-! ## Pruning -/

theorem tag_of_opensMath {t rest : Text} {tag : Tag} (h : opensMath t = true)
    (ht : tag? t = some (tag, rest)) : tag.name = math := by
  obtain ⟨r, rfl, hr⟩ := opensMath_iff.mp h
  have hm : "ath".toList.all isNameChar = true := by decide
  have htake : ("ath".toList ++ r).takeWhile isNameChar = "ath".toList :=
    (span_append (List.all_eq_true.mp hm) hr).1
  change tagInside? false ('m' :: ("ath".toList ++ r)) = _ at ht
  rw [tagInside?, if_pos (by decide), htake] at ht
  simp only [Option.bind_eq_bind, Option.bind_eq_some_iff, Prod.exists] at ht
  obtain ⟨body, r', -, ht⟩ := ht
  split at ht
  all_goals
    obtain ⟨rfl, -⟩ := Prod.mk.inj (Option.some.inj ht)
    rfl

theorem bracket_not_mem_tail {t : Tag} (h : t.WellFormed) : '<' ∉ t.written.tail := by
  have hname := bracket_not_mem fun c hc => isAngle_of_isNameChar (h.name c hc)
  have hattributes := bracket_not_mem h.plain
  cases hc : t.closing <;> cases hs : t.selfClosing <;>
    simp [Tag.written, hc, hs, hname, hattributes]

/-- A start tag of `math` is read as a tag, or its bracket as a character. -/
theorem exists_lasts_of_holdsMath {t : Text} (h : holdsMath t = true) :
    ∃ p ∈ pieces t, p.lasts = true := by
  fun_induction pieces t with
  | case1 => cases h
  | case2 c r tag rest ht ih =>
    rw [holdsMath_cons, Bool.or_eq_true] at h
    rcases h with ho | h
    · have hm : vanishes math = false := by decide
      exact ⟨_, List.mem_cons_self, by rw [Piece.lasts, tag_of_opensMath ho ht, hm, Bool.not_false]⟩
    · have hr : r = tag.written.tail ++ rest := (List.cons.inj (eq_append_of_tag? ht)).2
      rw [hr] at h
      obtain ⟨p, hp, hl⟩ :=
        ih (holdsMath_of_append (bracket_not_mem_tail (wellFormed_of_tag? ht)) h)
      exact ⟨p, List.mem_cons_of_mem _ hp, hl⟩
  | case3 c r ht ih =>
    rw [holdsMath_cons, Bool.or_eq_true] at h
    rcases h with ho | h
    · obtain ⟨r', e, -⟩ := opensMath_iff.mp ho
      obtain ⟨rfl, -⟩ := List.cons.inj e
      exact ⟨_, List.mem_cons_self, by decide⟩
    · obtain ⟨p, hp, hl⟩ := ih h
      exact ⟨p, List.mem_cons_of_mem _ hp, hl⟩

theorem prune_ne_nil_of_holdsMath {t : Text} (h : holdsMath t = true) : prune t ≠ [] := by
  intro e
  obtain ⟨p, hp, hl⟩ := exists_lasts_of_holdsMath h
  have ht := thinned_prune t
  rw [e] at ht
  rw [ht.lasts_eq_false rfl p hp] at hl
  cases hl

theorem stripLayout_ne_nil {t : Text} (h : t ≠ []) : stripLayout t ≠ [] := by
  cases t with
  | nil => exact absurd rfl h
  | cons c r =>
    by_cases hc : c = '<'
    · subst hc
      intro e
      simpa [e] using scans_stripLayout.opens r
    · rw [scans_stripLayout.char hc]
      exact List.cons_ne_nil _ _

/-- Cleaning up leaves something of every text with a start tag of `math`. -/
theorem cleanUp_ne_nil_of_holdsMath {t : Text} (h : holdsMath t = true) : cleanUp t ≠ [] :=
  stripLayout_ne_nil (prune_ne_nil_of_holdsMath
    (holdsMath_fillNone (holdsMath_accentDots (holdsMath_declareNamespace h))))

end Formula.Markup
