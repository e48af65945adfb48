import Formula.Tex.Atom
import Formula.Text.Occurrence

/-! # Left scripts

Scripts that belong to the symbol behind them hang on a lead-in: an empty group, or nothing at all
where no symbol can stand before them. There are at most two, with different markers.

Whether a place opens a lead-in depends on what stands before it. That text is given in reverse, so
that its nearest character comes first.
-/

namespace Formula.Tex

open Text

/-- The characters behind which a marker cannot continue a symbol. -/
def openers : Text := ['(', '[', '{', '=', '+', '-']

/-- No symbol ends right before this place. -/
def opensBare : Text → Bool
  | [] => true
  | c :: _ => isBlank c || openers.contains c

/-- A marker waits for its value, blanks apart, right before this place. -/
def awaitsValue (before : Text) : Bool :=
  opensScript (skipBlanks before)

/-- The scripts behind the lead-in at the front of a text. -/
def leadIn? (before t : Text) : Option Text :=
  match after? ['{', '}'] t with
  | some r =>
    if awaitsValue before || !opensScript (skipBlanks r) then none else some (skipBlanks r)
  | none => if opensScript t && opensBare before then some t else none

/-- Scripts that stand before their base, at least one. -/
structure ScriptPair where
  first : Script
  second : Option Script
  deriving DecidableEq, Repr

namespace ScriptPair

def toList (l : ScriptPair) : List Script :=
  l.first :: l.second.toList

/-- The value of the script with this marker; empty if there is none. -/
def value (l : ScriptPair) (m : Marker) : Text :=
  ((l.toList.find? (·.marker = m)).map Script.value).getD []

end ScriptPair

def leadingScripts? (before t : Text) : Option (ScriptPair × Text) := do
  let start ← leadIn? before t
  let (first, rest) ← script? start
  match script? (skipBlanks rest) with
  | none => return (⟨first, none⟩, rest)
  | some (second, rest') =>
    if second.marker = first.marker then return (⟨first, none⟩, rest)
    else return (⟨first, some second⟩, rest')

theorem leadIn?_length {before t start : Text} (h : leadIn? before t = some start) :
    start.length ≤ t.length := by
  simp only [leadIn?] at h
  split at h
  · next r hr =>
    split at h
    · simp at h
    · simp only [Option.some.injEq] at h
      have h₁ := skipBlanks_length_le r
      rw [after?_eq_some_iff.mp hr, ← h]
      simp only [List.length_append]
      omega
  · split at h <;> simp_all

theorem leadingScripts?_length {before t rest : Text} {l : ScriptPair}
    (h : leadingScripts? before t = some (l, rest)) : rest.length < t.length := by
  simp only [leadingScripts?, Option.bind_eq_bind, Option.bind_eq_some_iff, Prod.exists,
    Option.pure_def] at h
  obtain ⟨start, hs, first, r, hf, h⟩ := h
  have h₁ := leadIn?_length hs
  have h₂ := script?_length hf
  split at h
  · simp only [Option.some.injEq, Prod.mk.injEq] at h
    obtain ⟨_, rfl⟩ := h
    omega
  · next second r' hr =>
    have h₃ := script?_skipBlanks_length hr
    split at h <;> simp only [Option.some.injEq, Prod.mk.injEq] at h <;> obtain ⟨_, rfl⟩ := h <;> omega

end Formula.Tex
