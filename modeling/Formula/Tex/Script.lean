import Formula.Tex.Control
import Formula.Tex.Group

/-! # Scripts

A script is a marker, `_` or `^`, with a value: a group, a control sequence or a single character.
Blanks may stand between the two. Neither a closing brace nor another marker is a value.
-/

namespace Formula.Tex

open Text

inductive Marker
  | sub
  | sup
  deriving DecidableEq, Repr

namespace Marker

def char : Marker → Char
  | sub => '_'
  | sup => '^'

def ofChar? (c : Char) : Option Marker :=
  if c = '_' then some sub else if c = '^' then some sup else none

theorem ofChar?_eq_some_iff {c : Char} {m : Marker} : ofChar? c = some m ↔ c = m.char := by
  cases m <;> simp only [ofChar?, char] <;> grind

end Marker

def isMarker (c : Char) : Bool :=
  (Marker.ofChar? c).isSome

/-- The text begins with a marker. -/
def opensScript (t : Text) : Bool :=
  t.head?.any isMarker

structure Script where
  marker : Marker
  value : Text
  deriving DecidableEq, Repr

/-- The one spelling of a script, with its value in braces. -/
def Script.canonical (s : Script) : Text :=
  s.marker.char :: braced s.value

def scriptValue? : Text → Option (Text × Text)
  | [] => none
  | c :: r =>
    if c = '{' then group? (c :: r)
    else if c = '\\' then control? (c :: r)
    else if c = '}' || isMarker c then none
    else some ([c], r)

def script? : Text → Option (Script × Text)
  | [] => none
  | c :: r => do
    let marker ← Marker.ofChar? c
    let (value, rest) ← scriptValue? (skipBlanks r)
    return (⟨marker, value⟩, rest)

theorem scriptValue?_length {t value rest : Text} (h : scriptValue? t = some (value, rest)) :
    value.length + rest.length ≤ t.length ∧ rest.length < t.length := by
  match t with
  | [] => simp [scriptValue?] at h
  | c :: r =>
    simp only [scriptValue?] at h
    split at h
    · have := group?_length h
      simp only [List.length_cons] at this ⊢
      omega
    · split at h
      · obtain ⟨e, _⟩ := eq_append_of_control? h
        rw [e, List.length_append]
        omega
      · split at h
        · simp at h
        · simp only [Option.some.injEq, Prod.mk.injEq] at h
          obtain ⟨rfl, rfl⟩ := h
          simp
          omega

theorem script?_length {t rest : Text} {s : Script} (h : script? t = some (s, rest)) :
    s.value.length + rest.length < t.length := by
  match t with
  | [] => simp [script?] at h
  | c :: r =>
    simp only [script?, Option.bind_eq_bind, Option.bind_eq_some_iff, Prod.exists, Option.pure_def,
      Option.some.injEq, Prod.mk.injEq] at h
    obtain ⟨m, _, v, r', h, rfl, rfl⟩ := h
    have h₁ := scriptValue?_length h
    have h₂ := skipBlanks_length_le r
    simp only [List.length_cons]
    omega

theorem script?_skipBlanks_length {t rest : Text} {s : Script}
    (h : script? (skipBlanks t) = some (s, rest)) : rest.length < t.length := by
  have h₁ := script?_length h
  have h₂ := skipBlanks_length_le t
  omega

end Formula.Tex
