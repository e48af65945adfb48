import Formula.Proofs.Markup.Regular

/-! # Scanning regular markup

The passes over a text look for start tags. What stands between two brackets is copied, and so is an end
tag. A start tag of regular markup is told apart by its name, which ends where a blank, a slash or the
bracket stands.
-/

namespace Formula.Markup

open Text

/-! ## Scanning -/

/-- The pass changes nothing outside of start tags, and each of those keeps its opening bracket. -/
structure Scans (pass : Text → Text) : Prop where
  nil : pass [] = []
  opens : ∀ r, (pass ('<' :: r)).head? = some '<'
  char : ∀ {c}, c ≠ '<' → ∀ r, pass (c :: r) = c :: pass r
  ends : ∀ r, pass ('<' :: '/' :: r) = '<' :: pass ('/' :: r)

/-- The text between the name and the closing bracket of a tag that opens an element, or that opens and
closes it. -/
inductive Label.Body (l : Label) : Text → Prop
  | start : l.Body l.attributes
  | whole : l.Body (l.attributes ++ ['/'])

theorem Label.emptyTag_append_body (l : Label) (rest : Text) :
    l.emptyTag.written ++ rest = '<' :: (l.name ++ ((l.attributes ++ ['/']) ++ '>' :: rest)) := by
  rw [l.emptyTag_append, List.append_assoc]
  rfl

theorem Label.endTag_congr {l k : Label} (h : l.name = k.name) : l.endTag = k.endTag := by
  rw [endTag, h, endTag]

theorem Fragment.written_empty_append (l : Label) (next : Fragment) (rest : Text) :
    (empty l next).written ++ rest =
      '<' :: (l.name ++ ((l.attributes ++ ['/']) ++ '>' :: (next.written ++ rest))) := by
  rw [written, List.append_assoc, l.emptyTag_append_body]

theorem Fragment.written_element_append (l : Label) (inside next : Fragment) (rest : Text) :
    (element l inside next).written ++ rest =
      '<' :: (l.name ++ (l.attributes ++ '>' ::
        (inside.written ++ (l.endTag.written ++ (next.written ++ rest))))) := by
  rw [written, List.append_assoc, l.startTag_append, List.append_assoc, List.append_assoc]

theorem isAngle_of_isNameChar {c : Char} (h : isNameChar c = true) : isAngle c = false := by
  have hn : isNameChar '<' = false ∧ isNameChar '>' = false := by decide
  cases ha : isAngle c with
  | false => rfl
  | true =>
    simp only [isAngle, Bool.or_eq_true, beq_iff_eq] at ha
    rcases ha with rfl | rfl
    · simp [hn.1] at h
    · simp [hn.2] at h

theorem isBlank_of_isNameChar {c : Char} (h : isNameChar c = true) : isBlank c = false := by
  cases hb : isBlank c with
  | false => rfl
  | true =>
    have hn : isBlank ':' = false ∧ isBlank '.' = false ∧ isBlank '-' = false := by decide
    simp only [isNameChar, isWord_of_isBlank hb, Bool.false_or, Bool.or_eq_true, beq_iff_eq] at h
    rcases h with (rfl | rfl) | rfl <;> simp_all

theorem isNameChar_of_isBlank {c : Char} (h : isBlank c = true) : isNameChar c = false := by
  refine Bool.eq_false_iff.mpr fun hn => ?_
  rw [isBlank_of_isNameChar hn] at h
  cases h

theorem bracket_not_mem {t : Text} (ht : ∀ c ∈ t, isAngle c = false) : '<' ∉ t :=
  fun hm => absurd (ht _ hm) (by decide)

theorem endsWord_of_not_isNameChar {t : Text} (ht : ∀ c ∈ t.head?, isNameChar c = false) :
    endsWord t = true := by
  cases t with
  | nil => rfl
  | cons c r =>
    have hc := ht c rfl
    simp only [isNameChar, Bool.or_eq_false_iff] at hc
    simp [endsWord, hc.1.1.1]

namespace Label.WellFormed

variable {l : Label} (h : l.WellFormed) {body : Text}

include h

theorem isAngle_name : ∀ c ∈ l.name, isAngle c = false :=
  fun c hc => isAngle_of_isNameChar (h.name c hc)

theorem isAngle_body (hb : l.Body body) : ∀ c ∈ body, isAngle c = false := by
  cases hb with
  | start => exact h.plain
  | whole => exact List.forall_mem_append.mpr ⟨h.plain, by simp [isAngle]⟩

theorem isNameChar_body (hb : l.Body body) (rest : Text) :
    ∀ c ∈ (body ++ '>' :: rest).head?, isNameChar c = false := by
  have hn : isNameChar '/' = false ∧ isNameChar '>' = false := by decide
  have ha := h.attributes
  cases hb <;> cases e : l.attributes <;> simp_all

theorem endsWord_body (hb : l.Body body) (rest : Text) : endsWord (body ++ '>' :: rest) = true :=
  endsWord_of_not_isNameChar (h.isNameChar_body hb rest)

end Label.WellFormed

namespace Scans

variable {pass : Text → Text} (hp : Scans pass)

include hp

theorem append {t : Text} (ht : '<' ∉ t) (rest : Text) : pass (t ++ rest) = t ++ pass rest := by
  induction t with
  | nil => rfl
  | cons c t ih =>
    simp only [List.mem_cons, not_or] at ht
    rw [List.cons_append, hp.char (Ne.symm ht.1), ih ht.2, List.cons_append]

theorem append_plain {t : Text} (ht : ∀ c ∈ t, isAngle c = false) (rest : Text) :
    pass (t ++ rest) = t ++ pass rest :=
  hp.append (bracket_not_mem ht) rest

theorem tag {l : Label} (hl : l.WellFormed) {body rest : Text} (hb : l.Body body)
    (h : pass ('<' :: (l.name ++ (body ++ '>' :: rest))) =
      '<' :: pass (l.name ++ (body ++ '>' :: rest))) :
    pass ('<' :: (l.name ++ (body ++ '>' :: rest))) =
      '<' :: (l.name ++ (body ++ '>' :: pass rest)) := by
  rw [h, hp.append_plain hl.isAngle_name, hp.append_plain (hl.isAngle_body hb), hp.char (by decide)]

theorem endTag {l : Label} (hl : ∀ c ∈ l.name, isNameChar c = true) (rest : Text) :
    pass (l.endTag.written ++ rest) = l.endTag.written ++ pass rest := by
  rw [l.endTag_append, l.endTag_append, hp.ends, hp.char (by decide),
    hp.append_plain fun c hc => isAngle_of_isNameChar (hl c hc), hp.char (by decide)]

end Scans

/-- A name is taken for a key if it begins with the key and the word ends there. -/
def takenFor (key name : Text) : Bool :=
  (after? key name).any endsWord

theorem eq_of_takenFor {key name : Text} (hn : ∀ c ∈ name, c.isAlpha = true)
    (h : takenFor key name = true) : name = key := by
  simp only [takenFor, Option.any_eq_true, after?_eq_some_iff] at h
  obtain ⟨r, rfl, hr⟩ := h
  cases r with
  | nil => rw [List.append_nil]
  | cons c r =>
    have hc := isWord_of_isAlpha (hn c (by simp))
    simp [endsWord, hc] at hr

/-- A name that is followed by the end of a word is the key that is looked for, unless it is taken for
it. -/
theorem after?_filter_endsWord {key name t : Text} (hk : key.all Char.isAlpha = true)
    (hn : takenFor key name = true → name = key) (ht : endsWord t = true) :
    (after? key (name ++ t)).filter endsWord = if name = key then some t else none := by
  rw [List.all_eq_true] at hk
  split_ifs with h
  · rw [h, after?_append, Option.filter_some, if_pos ht]
  · rw [Option.filter_eq_none_iff]
    intro r hr hend
    rcases List.append_eq_append_iff.mp (after?_eq_some_iff.mp hr) with ⟨v, rfl, rfl⟩ | ⟨v, rfl, rfl⟩
    · cases v with
      | nil => simp at h
      | cons c v => simp [endsWord, isWord_of_isAlpha (hk c (by simp))] at ht
    · refine h (hn ?_)
      have hv : endsWord v = true := by
        cases v with
        | nil => rfl
        | cons c v => exact hend
      simpa [takenFor, after?_append] using hv

end Formula.Markup
