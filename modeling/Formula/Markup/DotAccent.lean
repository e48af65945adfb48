import Formula.Markup.Tag

/-! # Dot accents

A `mover` whose content shows a dot or a double dot is a time derivative, and its script an accent. It
is marked so, unless it already says something about it.
-/

namespace Formula.Markup

open Text

def mover : Text := "mover".toList

def accentMark : Text := " accent=\"true\"".toList

/-- The text begins with a reference to U+02D9 or U+00A8 by number. -/
def startsWithDotNumber (t : Text) : Bool :=
  let skipZeros (t : Text) := t.dropWhile (· = '0')
  match after? ['&', '#'] t with
  | none => false
  | some r => match r with
    | [] => false
    | c :: hex =>
      if c = 'x' ∨ c = 'X' then
        ["2d9;", "2D9;", "a8;", "A8;"].any fun n => startsWith n.toList (skipZeros hex)
      else ["729;", "168;"].any fun n => startsWith n.toList (skipZeros r)

def dotNames : List String :=
  ["&dot;", "&DiacriticalDot;", "&die;", "&uml;", "&Dot;", "&DoubleDot;"]

/-- The text begins with a dot or a double dot, literal, by number or by name. -/
def startsWithDot (t : Text) : Bool :=
  t.head? = some '˙' || t.head? = some '¨' || startsWithDotNumber t ||
    dotNames.any fun n => startsWith n.toList t

def showsDot : Text → Bool :=
  anySuffix startsWithDot

/-- Some word of the text begins with `accent`, and an equals sign follows it, blanks apart. -/
def setsAccent (behindWord : Bool) : Text → Bool
  | [] => false
  | c :: r =>
    (!behindWord && match after? "accent".toList (c :: r) with
      | some rest => (skipBlanks rest).head? = some '='
      | none => false) || setsAccent (isWord c) r

/-- The content of an element whose start tag stands right before the text, with `depth` more elements
of its name open; all of the text, if the element is not closed. -/
def content (name : Text) (depth : Nat) : Text → Text
  | [] => []
  | c :: r => match _h : tag? (c :: r) with
    | none => c :: content name depth r
    | some (t, rest) =>
      if t.name ≠ name ∨ t.selfClosing then t.written ++ content name depth rest
      else if t.closing then match depth with
        | 0 => []
        | depth + 1 => t.written ++ content name depth rest
      else t.written ++ content name (depth + 1) rest
termination_by t => t.length
decreasing_by
  · simp
  all_goals exact tag?_length _h

/-- The attributes of a `mover` start tag at the front of a text, with what follows the tag. -/
def mover? (t : Text) : Option (Text × Text) := do
  let r ← after? ('<' :: mover) t
  if endsWord r then tagBody? r else none

theorem mover?_length {t attributes rest : Text} (h : mover? t = some (attributes, rest)) :
    rest.length < t.length := by
  simp only [mover?, Option.bind_eq_bind, Option.bind_eq_some_iff] at h
  obtain ⟨r, hr, h⟩ := h
  split at h
  · rw [after?_eq_some_iff.mp hr, eq_append_of_tagBody? h]
    simp
    omega
  · simp at h

/-- A `mover` with these attributes, at the front of this text, is to be marked. -/
def needsMark (attributes rest : Text) : Bool :=
  (trimEnd attributes).getLast? ≠ some '/' && !setsAccent false attributes &&
    showsDot (content mover 0 rest)

def accentDots : Text → Text
  | [] => []
  | c :: r => match _h : mover? (c :: r) with
    | some (attributes, rest) =>
      '<' :: mover ++ (if needsMark attributes rest then accentMark else []) ++ attributes ++ '>' ::
        accentDots rest
    | none => c :: accentDots r
termination_by t => t.length
decreasing_by
  · exact mover?_length _h
  · simp

end Formula.Markup
