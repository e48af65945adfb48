import Formula.Text.Blank

/-! # Occurrences

Looking for one text in another: at its front, at its end, anywhere in it, and at the first place.
-/

namespace Formula.Text

/-- What follows the pattern, if the text begins with it. -/
def after? : Text → Text → Option Text
  | [], t => some t
  | p :: ps, c :: t => if p = c then after? ps t else none
  | _ :: _, [] => none

theorem after?_eq_some_iff {p t r : Text} : after? p t = some r ↔ t = p ++ r := by
  induction p generalizing t with
  | nil => simp [after?, eq_comm]
  | cons a p ih =>
    cases t with
    | nil => simp [after?]
    | cons c t => by_cases h : a = c <;> simp [after?, h, ih, eq_comm]

theorem after?_append (p r : Text) : after? p (p ++ r) = some r :=
  after?_eq_some_iff.mpr rfl

/-- What precedes the pattern, if the text ends with it. -/
def before? (p t : Text) : Option Text :=
  (after? p.reverse t.reverse).map List.reverse

def startsWith (p t : Text) : Bool :=
  (after? p t).isSome

theorem startsWith_iff {p t : Text} : startsWith p t = true ↔ p <+: t := by
  simp only [startsWith, Option.isSome_iff_exists, after?_eq_some_iff]
  exact ⟨fun ⟨r, h⟩ => ⟨r, h.symm⟩, fun ⟨r, h⟩ => ⟨r, h.symm⟩⟩

/-- Some suffix of the text has the property. -/
def anySuffix (p : Text → Bool) : Text → Bool
  | [] => p []
  | c :: t => p (c :: t) || anySuffix p t

theorem anySuffix_iff {p : Text → Bool} {t : Text} :
    anySuffix p t = true ↔ ∃ s, s <:+ t ∧ p s = true := by
  induction t with
  | nil => simp [anySuffix]
  | cons c t ih => simp [anySuffix, ih, List.suffix_cons_iff, or_and_right, exists_or]

def occurs (p : Text) : Text → Bool :=
  anySuffix (startsWith p)

theorem occurs_iff {p t : Text} : occurs p t = true ↔ p <:+: t := by
  simp only [occurs, anySuffix_iff, startsWith_iff]
  constructor
  · rintro ⟨s, hs, hp⟩
    exact hp.isInfix.trans hs.isInfix
  · rintro ⟨a, b, rfl⟩
    exact ⟨p ++ b, ⟨a, by simp⟩, b, rfl⟩

/-- What precedes and what follows the first occurrence of the pattern. -/
def cut? (p : Text) : Text → Option (Text × Text)
  | [] => (after? p []).map ([], ·)
  | c :: t => match after? p (c :: t) with
    | some r => some ([], r)
    | none => (cut? p t).map fun (a, b) => (c :: a, b)

theorem eq_of_cut? {p t a b : Text} (h : cut? p t = some (a, b)) : t = a ++ p ++ b := by
  induction t generalizing a with
  | nil =>
    simp only [cut?, Option.map_eq_some_iff, Prod.mk.injEq] at h
    obtain ⟨r, hr, rfl, rfl⟩ := h
    simpa using after?_eq_some_iff.mp hr
  | cons c t ih =>
    simp only [cut?] at h
    split at h
    · next r hr =>
      simp only [Option.some.injEq, Prod.mk.injEq] at h
      obtain ⟨rfl, rfl⟩ := h
      simpa using after?_eq_some_iff.mp hr
    · simp only [Option.map_eq_some_iff, Prod.mk.injEq, Prod.exists] at h
      obtain ⟨a', b', h', rfl, rfl⟩ := h
      simp [ih h']

end Formula.Text
