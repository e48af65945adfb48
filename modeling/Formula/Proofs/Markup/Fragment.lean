import Mathlib.Data.List.TakeWhile
import Formula.Markup.Tag

/-! # Fragments

A fragment of markup is a sequence of texts and elements, and an element has a fragment inside it. What
is written from a fragment is read again as its texts and tags, one after the other. Names may have a
prefix, and the text behind a name is kept as it is.
-/

namespace Formula.Markup

open Text

/-- The name of an element, and the text between its name and the end of its tag. -/
structure Label where
  name : Text
  attributes : Text
  deriving DecidableEq, Repr

namespace Label

def startTag (l : Label) : Tag := ⟨false, l.name, l.attributes, false⟩

def endTag (l : Label) : Tag := ⟨true, l.name, [], false⟩

def emptyTag (l : Label) : Tag := ⟨false, l.name, l.attributes, true⟩

theorem startTag_append (l : Label) (rest : Text) :
    l.startTag.written ++ rest = '<' :: (l.name ++ (l.attributes ++ '>' :: rest)) := by
  simp [startTag, Tag.written]

theorem endTag_append (l : Label) (rest : Text) :
    l.endTag.written ++ rest = '<' :: '/' :: (l.name ++ '>' :: rest) := by
  simp [endTag, Tag.written]

theorem emptyTag_append (l : Label) (rest : Text) :
    l.emptyTag.written ++ rest = '<' :: (l.name ++ (l.attributes ++ '/' :: '>' :: rest)) := by
  simp [emptyTag, Tag.written]

end Label

/-- Texts and elements, one in front of the other. An element without a fragment inside is closed by
its own tag. -/
inductive Fragment
  | nil
  | text (t : Text) (next : Fragment)
  | empty (l : Label) (next : Fragment)
  | element (l : Label) (inside next : Fragment)
  deriving DecidableEq, Repr

def Fragment.written : Fragment → Text
  | nil => []
  | text t next => t ++ next.written
  | empty l next => l.emptyTag.written ++ next.written
  | element l inside next =>
    l.startTag.written ++ (inside.written ++ (l.endTag.written ++ next.written))

/-! ## Elements -/

/-- An element by itself. Without a fragment inside it is closed by its own tag. -/
structure Element where
  label : Label
  inside : Option Fragment
  deriving DecidableEq, Repr

def Fragment.children : Fragment → List Element
  | nil => []
  | text _ next => next.children
  | empty l next => ⟨l, none⟩ :: next.children
  | element l inside next => ⟨l, some inside⟩ :: next.children

/-- The elements of a fragment at any depth, in the order of their start tags. -/
def Fragment.elements : Fragment → List Element
  | nil => []
  | text _ next => next.elements
  | empty l next => ⟨l, none⟩ :: next.elements
  | element l inside next => ⟨l, some inside⟩ :: (inside.elements ++ next.elements)

def Element.before (next : Fragment) : Element → Fragment
  | ⟨l, none⟩ => .empty l next
  | ⟨l, some inside⟩ => .element l inside next

/-! ## Well-formed fragments -/

/-- A tag is read again as it is written. -/
structure Tag.WellFormed (t : Tag) : Prop where
  letter : t.name.head?.any Char.isAlpha = true
  name : ∀ c ∈ t.name, isNameChar c = true
  attributes : ∀ c ∈ t.attributes.head?, isNameChar c = false
  plain : ∀ c ∈ t.attributes, isAngle c = false
  slash : t.selfClosing = false → t.attributes.getLast? ≠ some '/'

/-- The name begins with a letter, and the attributes do not continue it. -/
structure Label.WellFormed (l : Label) : Prop where
  letter : l.name.head?.any Char.isAlpha = true
  name : ∀ c ∈ l.name, isNameChar c = true
  attributes : ∀ c ∈ l.attributes.head?, isNameChar c = false
  plain : ∀ c ∈ l.attributes, isAngle c = false

instance : DecidablePred Label.WellFormed := fun l =>
  decidable_of_iff
    (l.name.head?.any Char.isAlpha = true ∧ l.name.all isNameChar = true ∧
      (l.attributes.head?.toList.all fun c => !isNameChar c) = true ∧
      (l.attributes.all fun c => !isAngle c) = true)
    ⟨fun ⟨h₁, h₂, h₃, h₄⟩ => ⟨h₁, List.all_eq_true.mp h₂, by simpa using h₃, by simpa using h₄⟩,
      fun h => ⟨h.letter, List.all_eq_true.mpr h.name, by simpa using h.attributes,
        by simpa using h.plain⟩⟩

/-- No text opens a tag, and no start tag ends as one that closes its element does. -/
def Fragment.WellFormed : Fragment → Prop
  | nil => True
  | text t next => '<' ∉ t ∧ next.WellFormed
  | empty l next => l.WellFormed ∧ next.WellFormed
  | element l inside next =>
    l.WellFormed ∧ l.attributes.getLast? ≠ some '/' ∧ inside.WellFormed ∧ next.WellFormed

instance Fragment.decidableWellFormed : DecidablePred Fragment.WellFormed
  | nil => .isTrue trivial
  | text _ next =>
    have := decidableWellFormed next
    inferInstanceAs (Decidable (_ ∧ _))
  | empty _ next =>
    have := decidableWellFormed next
    inferInstanceAs (Decidable (_ ∧ _))
  | element _ inside next =>
    have := decidableWellFormed inside
    have := decidableWellFormed next
    inferInstanceAs (Decidable (_ ∧ _ ∧ _ ∧ _))

/-- A tag with this label can be told apart from what stands around it. Its attributes may continue the
name. -/
structure Label.Legible (l : Label) : Prop where
  letter : l.name.head?.any Char.isAlpha = true
  name : ∀ c ∈ l.name, isNameChar c = true
  attributes : ∀ c ∈ l.attributes, isAngle c = false

/-- Texts and tags can be told apart. -/
def Fragment.Legible : Fragment → Prop
  | nil => True
  | text t next => '<' ∉ t ∧ next.Legible
  | empty l next => l.Legible ∧ next.Legible
  | element l inside next => l.Legible ∧ inside.Legible ∧ next.Legible

theorem Label.WellFormed.legible {l : Label} (h : l.WellFormed) : l.Legible :=
  ⟨h.letter, h.name, h.plain⟩

theorem Fragment.WellFormed.legible {f : Fragment} (hf : f.WellFormed) : f.Legible := by
  induction f with
  | nil => trivial
  | text t next ih => exact ⟨hf.1, ih hf.2⟩
  | empty l next ih => exact ⟨hf.1.legible, ih hf.2⟩
  | element l inside next ihi ihn =>
    obtain ⟨hl, -, hi, hn⟩ := hf
    exact ⟨hl.legible, ihi hi, ihn hn⟩

namespace Label.WellFormed

variable {l : Label} (h : l.WellFormed)

include h

theorem startTag (hs : l.attributes.getLast? ≠ some '/') : l.startTag.WellFormed :=
  ⟨h.letter, h.name, h.attributes, h.plain, fun _ => hs⟩

theorem emptyTag : l.emptyTag.WellFormed :=
  ⟨h.letter, h.name, h.attributes, h.plain, by simp [Label.emptyTag]⟩

theorem endTag : l.endTag.WellFormed :=
  ⟨h.letter, h.name, by simp [Label.endTag], by simp [Label.endTag], by simp [Label.endTag]⟩

end Label.WellFormed

/-! ## What is read -/

theorem tagBody?_append {t : Text} (ht : ∀ c ∈ t, isAngle c = false) (rest : Text) :
    tagBody? (t ++ '>' :: rest) = some (t, rest) := by
  have ht' : ∀ c ∈ t, (!isAngle c) = true := by
    intro c hc
    rw [ht c hc]
    rfl
  have ha : isAngle '>' = true := by decide
  rw [tagBody?, List.dropWhile_append_of_pos ht', List.takeWhile_append_of_pos ht']
  simp [ha]

theorem span_append {p : Char → Bool} {name t : Text} (hn : ∀ c ∈ name, p c = true)
    (ht : ∀ c ∈ t.head?, p c = false) :
    (name ++ t).takeWhile p = name ∧ (name ++ t).dropWhile p = t := by
  rw [List.takeWhile_append_of_pos hn, List.dropWhile_append_of_pos hn]
  cases t with
  | nil => simp
  | cons c t => simp [ht c rfl]

theorem tagInside?_append {name t body rest : Text} (closing : Bool)
    (hl : name.head?.any Char.isAlpha = true) (hn : ∀ c ∈ name, isNameChar c = true)
    (ht : ∀ c ∈ t.head?, isNameChar c = false) (hb : tagBody? t = some (body, rest)) :
    tagInside? closing (name ++ t) =
      some (if body.getLast? = some '/' then ⟨closing, name, body.dropLast, true⟩
        else ⟨closing, name, body, false⟩, rest) := by
  cases name with
  | nil => simp at hl
  | cons c r =>
    have hc : c.isAlpha = true := by simpa using hl
    obtain ⟨htake, hdrop⟩ :=
      span_append (fun d hd => hn d (List.mem_cons_of_mem c hd)) ht
    rw [List.cons_append, tagInside?, if_pos hc, htake, hdrop, hb]
    simp only [Option.bind_eq_bind, Option.bind_some, Option.pure_def]
    split <;> rfl

namespace Tag.WellFormed

variable {tag : Tag} (h : tag.WellFormed)

include h

theorem tagInside?_eq (rest : Text) :
    tagInside? tag.closing (tag.name ++ (tag.attributes ++
      ((if tag.selfClosing then ['/'] else []) ++ '>' :: rest))) = some (tag, rest) := by
  obtain ⟨closing, name, attributes, selfClosing⟩ := tag
  obtain ⟨hl, hn, ha, hp, hs⟩ := h
  simp only at hl hn ha hp hs ⊢
  have hslash : isNameChar '/' = false ∧ isNameChar '>' = false := by decide
  have hb : tagBody? (attributes ++ ((if selfClosing then ['/'] else []) ++ '>' :: rest)) =
      some (attributes ++ if selfClosing then ['/'] else [], rest) := by
    rw [← List.append_assoc]
    refine tagBody?_append (List.forall_mem_append.mpr ⟨hp, ?_⟩) rest
    cases selfClosing <;> simp [isAngle]
  have ht : ∀ c ∈ (attributes ++ ((if selfClosing then ['/'] else []) ++ '>' :: rest)).head?,
      isNameChar c = false := by
    cases attributes with
    | nil => cases selfClosing <;> simp [hslash]
    | cons c attributes => exact ha
  rw [tagInside?_append closing hl hn ht hb]
  cases selfClosing with
  | true => simp
  | false => simp [hs]

theorem tag?_eq (rest : Text) : tag? (tag.written ++ rest) = some (tag, rest) := by
  have hi := h.tagInside?_eq rest
  obtain ⟨c, r, hn⟩ : ∃ c r, tag.name = c :: r := by
    have hl := h.letter
    cases hn : tag.name with
    | nil => simp [hn] at hl
    | cons c r => exact ⟨c, r, rfl⟩
  have hc : '/' ≠ c := by
    have hl := h.letter
    rintro rfl
    simp [hn] at hl
  cases hclosing : tag.closing with
  | true =>
    rw [hclosing] at hi
    simpa [written, hclosing, tag?, after?] using hi
  | false =>
    rw [hclosing, hn] at hi
    simpa [written, hclosing, hn, tag?, after?, hc] using hi

theorem pieces_eq (rest : Text) : pieces (tag.written ++ rest) = .tag tag :: pieces rest := by
  have ht := h.tag?_eq rest
  obtain ⟨r, e⟩ : ∃ r, tag.written ++ rest = '<' :: r := ⟨_, rfl⟩
  rw [e] at ht ⊢
  rw [pieces]
  split <;> simp_all

end Tag.WellFormed

theorem tag?_of_ne {c : Char} (hc : c ≠ '<') (r : Text) : tag? (c :: r) = none := by
  simp [tag?, hc]

theorem pieces_text {t : Text} (ht : '<' ∉ t) (rest : Text) :
    pieces (t ++ rest) = t.map Piece.char ++ pieces rest := by
  induction t with
  | nil => rfl
  | cons c t ih =>
    simp only [List.mem_cons, not_or] at ht
    have hc := tag?_of_ne (Ne.symm ht.1) (t ++ rest)
    rw [List.cons_append, pieces, List.map_cons, List.cons_append, ← ih ht.2]
    split
    · simp_all
    · rfl

/-! ## What is read as a tag -/

theorem isAngle_of_tagBody? {t body rest : Text} (h : tagBody? t = some (body, rest)) :
    ∀ c ∈ body, isAngle c = false := by
  simp only [tagBody?] at h
  split at h
  · obtain ⟨rfl, -⟩ := Prod.mk.inj (Option.some.inj h)
    intro c hc
    simpa using List.mem_takeWhile_imp hc
  · cases h

theorem isNameChar_of_isAlpha {c : Char} (h : c.isAlpha = true) : isNameChar c = true := by
  simp [isNameChar, isWord_of_isAlpha h]

theorem wellFormed_of_tagInside? {closing : Bool} {t rest : Text} {tag : Tag}
    (h : tagInside? closing t = some (tag, rest)) : tag.WellFormed := by
  match t with
  | [] => simp [tagInside?] at h
  | c :: r =>
    simp only [tagInside?] at h
    split at h
    · next hc =>
      simp only [Option.bind_eq_bind, Option.bind_eq_some_iff, Prod.exists, Option.pure_def] at h
      obtain ⟨body, r', hb, h⟩ := h
      have hname : ∀ d ∈ c :: r.takeWhile isNameChar, isNameChar d = true :=
        List.forall_mem_cons.mpr ⟨isNameChar_of_isAlpha hc, fun d hd => List.mem_takeWhile_imp hd⟩
      have hhead : ∀ d ∈ body.head?, isNameChar d = false := by
        intro d hd
        obtain ⟨u, rfl⟩ := List.head?_eq_some_iff.mp hd
        have hw := List.head?_dropWhile_not isNameChar r
        rw [eq_append_of_tagBody? hb] at hw
        simpa using hw
      have hplain := isAngle_of_tagBody? hb
      split at h <;> obtain ⟨rfl, rfl⟩ := Prod.mk.inj (Option.some.inj h)
      · refine ⟨by simpa using hc, hname, fun d hd => hhead d ?_,
          fun d hd => hplain d (List.dropLast_subset _ hd), by simp⟩
        obtain ⟨u, hu⟩ := List.head?_eq_some_iff.mp hd
        obtain ⟨v, hv⟩ := List.dropLast_prefix body
        rw [← hv, show body.dropLast = d :: u from hu]
        rfl
      · next hl => exact ⟨by simpa using hc, hname, hhead, hplain, fun _ => hl⟩
    · cases h

theorem wellFormed_of_tag? {t rest : Text} {tag : Tag} (h : tag? t = some (tag, rest)) :
    tag.WellFormed := by
  match t with
  | [] => cases h
  | c :: r =>
    simp only [tag?] at h
    split at h
    · split at h <;> exact wellFormed_of_tagInside? h
    · cases h

end Formula.Markup
