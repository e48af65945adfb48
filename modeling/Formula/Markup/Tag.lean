import Formula.Text.Occurrence
import Formula.Text.Word

/-! # Tags

A markup text is read as a sequence of tags and of the characters between them. It need not be well
formed: what is no tag is text, and start and end tags need not match.
-/

namespace Formula.Markup

open Text

/-- A tag, with the text between its name and its end kept as it is written. -/
structure Tag where
  closing : Bool
  name : Text
  attributes : Text
  selfClosing : Bool
  deriving DecidableEq, Repr

namespace Tag

def written (t : Tag) : Text :=
  '<' :: (if t.closing then ['/'] else []) ++ t.name ++ t.attributes ++
    (if t.selfClosing then ['/'] else []) ++ ['>']

end Tag

/-- The part of a name behind its last colon. -/
def localName (name : Text) : Text :=
  (name.reverse.takeWhile (· ≠ ':')).reverse

def isAngle (c : Char) : Bool :=
  c == '<' || c == '>'

def isNameChar (c : Char) : Bool :=
  isWord c || c == ':' || c == '.' || c == '-'

/-- The text up to the end of a tag, with what follows the tag. -/
def tagBody? (t : Text) : Option (Text × Text) :=
  match t.dropWhile (!isAngle ·) with
  | '>' :: rest => some (t.takeWhile (!isAngle ·), rest)
  | _ => none

/-- A tag behind its opening bracket and the slash of an end tag. -/
def tagInside? (closing : Bool) : Text → Option (Tag × Text)
  | [] => none
  | c :: r =>
    if c.isAlpha then do
      let (body, rest) ← tagBody? (r.dropWhile isNameChar)
      let name := c :: r.takeWhile isNameChar
      if body.getLast? = some '/' then return (⟨closing, name, body.dropLast, true⟩, rest)
      else return (⟨closing, name, body, false⟩, rest)
    else none

def tag? : Text → Option (Tag × Text)
  | [] => none
  | c :: r =>
    if c = '<' then match after? ['/'] r with
      | some r => tagInside? true r
      | none => tagInside? false r
    else none

theorem eq_append_of_tagBody? {t body rest : Text} (h : tagBody? t = some (body, rest)) :
    t = body ++ '>' :: rest := by
  simp only [tagBody?] at h
  split at h
  · next r hr =>
    simp only [Option.some.injEq, Prod.mk.injEq] at h
    obtain ⟨rfl, rfl⟩ := h
    rw [← hr, List.takeWhile_append_dropWhile]
  · simp at h

theorem eq_append_of_tagInside? {closing : Bool} {t rest : Text} {tag : Tag}
    (h : tagInside? closing t = some (tag, rest)) :
    tag.closing = closing ∧ tag.name ≠ [] ∧
      t = tag.name ++ tag.attributes ++ (if tag.selfClosing then ['/'] else []) ++ '>' :: rest := by
  match t with
  | [] => simp [tagInside?] at h
  | c :: r =>
    simp only [tagInside?] at h
    split at h
    · simp only [Option.bind_eq_bind, Option.bind_eq_some_iff, Prod.exists, Option.pure_def] at h
      obtain ⟨body, r', hb, h⟩ := h
      have e : r = r.takeWhile isNameChar ++ (body ++ '>' :: r') := by
        rw [← eq_append_of_tagBody? hb, List.takeWhile_append_dropWhile]
      split at h <;> simp only [Option.some.injEq, Prod.mk.injEq] at h <;> obtain ⟨rfl, rfl⟩ := h
      · next hl =>
        obtain ⟨b, rfl⟩ := List.getLast?_eq_some_iff.mp hl
        refine ⟨rfl, by simp, ?_⟩
        conv => lhs; rw [e]
        simp
      · refine ⟨rfl, by simp, ?_⟩
        conv => lhs; rw [e]
        simp
    · simp at h

theorem eq_append_of_tag? {t rest : Text} {tag : Tag} (h : tag? t = some (tag, rest)) :
    t = tag.written ++ rest := by
  match t with
  | [] => simp [tag?] at h
  | c :: r =>
    simp only [tag?] at h
    split at h
    · next hc =>
      split at h
      · next r' hr =>
        obtain ⟨h₁, _, h₂⟩ := eq_append_of_tagInside? h
        rw [after?_eq_some_iff.mp hr, h₂, hc]
        simp [Tag.written, h₁]
      · obtain ⟨h₁, _, h₂⟩ := eq_append_of_tagInside? h
        rw [h₂, hc]
        simp [Tag.written, h₁]
    · simp at h

theorem tag?_length {t rest : Text} {tag : Tag} (h : tag? t = some (tag, rest)) :
    rest.length < t.length := by
  rw [eq_append_of_tag? h]
  simp [Tag.written]
  omega

inductive Piece
  | char (c : Char)
  | tag (t : Tag)
  deriving DecidableEq, Repr

def Piece.written : Piece → Text
  | char c => [c]
  | tag t => t.written

/-- The tags of a text and the characters between them, from left to right. -/
def pieces : Text → List Piece
  | [] => []
  | c :: r => match _h : tag? (c :: r) with
    | some (t, rest) => .tag t :: pieces rest
    | none => .char c :: pieces r
termination_by t => t.length
decreasing_by
  · exact tag?_length _h
  · simp

theorem flatMap_pieces (t : Text) : (pieces t).flatMap Piece.written = t := by
  fun_induction pieces t with
  | case1 => rfl
  | case2 c r tag rest h ih => simp [ih, Piece.written, eq_append_of_tag? h]
  | case3 c r h ih => simp [ih, Piece.written]

end Formula.Markup
