import Formula.Markup.Tag

/-! # Layout attributes

Attributes on display and indentation are left out of start tags; they are hints that editors ignore.
-/

namespace Formula.Markup

open Text

def layoutNames : List Text :=
  ["display", "indentalign", "indentalignfirst", "indentalignlast", "indentshift",
    "indentshiftfirst", "indentshiftlast", "indenttarget"].map String.toList

def afterQuoted? : Text → Option Text
  | [] => none
  | q :: r =>
    if q = '"' ∨ q = '\'' then match r.dropWhile (· ≠ q) with
      | _ :: rest => some rest
      | [] => none
    else none

def afterLayoutAttribute? (t : Text) : Option Text :=
  layoutNames.findSome? fun name => do
    let r ← after? name t
    let r ← after? ['='] (skipBlanks r)
    afterQuoted? (skipBlanks r)

theorem afterQuoted?_length_le {t rest : Text} (h : afterQuoted? t = some rest) :
    rest.length ≤ t.length := by
  match t with
  | [] => simp [afterQuoted?] at h
  | q :: r =>
    simp only [afterQuoted?] at h
    split at h
    · split at h
      · next c r' hr =>
        have := (List.dropWhile_suffix (l := r) (· ≠ q)).length_le
        simp only [Option.some.injEq] at h
        simp only [hr, List.length_cons] at this ⊢
        subst h
        omega
      · simp at h
    · simp at h

theorem afterLayoutAttribute?_length_le {t rest : Text}
    (h : afterLayoutAttribute? t = some rest) : rest.length ≤ t.length := by
  obtain ⟨name, _, h⟩ := List.exists_of_findSome?_eq_some h
  simp only [Option.bind_eq_bind, Option.bind_eq_some_iff] at h
  obtain ⟨r, hr, r', hr', h⟩ := h
  have h₁ := congrArg List.length (after?_eq_some_iff.mp hr)
  have h₂ := congrArg List.length (after?_eq_some_iff.mp hr')
  have h₃ := afterQuoted?_length_le h
  have h₄ := skipBlanks_length_le r
  have h₅ := skipBlanks_length_le r'
  simp only [List.length_append] at h₁ h₂
  omega

/-- A tag without its layout attributes and the blanks before each of them. -/
def dropLayout : Text → Text
  | [] => []
  | c :: r =>
    if isBlank c then match _h : afterLayoutAttribute? (skipBlanks r) with
      | some rest => dropLayout rest
      | none => c :: dropLayout r
    else c :: dropLayout r
termination_by t => t.length
decreasing_by
  · have h₁ := afterLayoutAttribute?_length_le _h
    have h₂ := skipBlanks_length_le r
    simp only [List.length_cons]
    omega
  all_goals simp

/-- The start tag at the front of a text as it is written, with what follows it. Only its first
character need be a letter. -/
def startTag? : Text → Option (Text × Text)
  | [] => none
  | c :: r =>
    if c = '<' ∧ r.head?.any Char.isAlpha then
      (tagBody? r).map fun (body, rest) => (c :: body ++ ['>'], rest)
    else none

theorem startTag?_length {t tag rest : Text} (h : startTag? t = some (tag, rest)) :
    rest.length < t.length := by
  match t with
  | [] => simp [startTag?] at h
  | c :: r =>
    simp only [startTag?] at h
    split at h
    · simp only [Option.map_eq_some_iff, Prod.mk.injEq, Prod.exists] at h
      obtain ⟨body, rest', h, _, rfl⟩ := h
      rw [eq_append_of_tagBody? h]
      simp
      omega
    · simp at h

def stripLayout : Text → Text
  | [] => []
  | c :: r => match _h : startTag? (c :: r) with
    | some (tag, rest) => dropLayout tag ++ stripLayout rest
    | none => c :: stripLayout r
termination_by t => t.length
decreasing_by
  · exact startTag?_length _h
  · simp

end Formula.Markup
