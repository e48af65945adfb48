import Formula.Text.Letter
import Formula.Tex.Script

/-! # Atoms

An atom is the unit that scripts and accents attach to: a nucleus with the scripts behind it. The
nucleus is a character, a group, or a control sequence with the group that directly follows it.
-/

namespace Formula.Tex

open Text

inductive Nucleus
  | char (c : Char)
  | control (name : Text) (argument : Option Text)
  | group (content : Text)
  deriving DecidableEq, Repr

namespace Nucleus

def written : Nucleus → Text
  | char c => [c]
  | control name none => name
  | control name (some argument) => name ++ braced argument
  | group content => braced content

/-- The nucleus with the braces of a group taken off. -/
def unwrapped : Nucleus → Text
  | group content => content
  | n => n.written

end Nucleus

/-- A control sequence takes an argument if all of its name is letters, of any alphabet. -/
def takesArgument (name : Text) : Bool :=
  name.tail.all isLetter

def nucleus? : Text → Option (Nucleus × Text)
  | [] => none
  | c :: r =>
    if c = '}' || isMarker c then none
    else if c = '\\' then match control? (c :: r) with
      | none => some (.char c, r)
      | some (name, rest) =>
        if takesArgument name then match group? rest with
          | some (argument, rest) => some (.control name (some argument), rest)
          | none => some (.control name none, rest)
        else some (.control name none, rest)
    else if c = '{' then (group? (c :: r)).map fun (content, rest) => (.group content, rest)
    else some (.char c, r)

theorem eq_append_of_nucleus? {t rest : Text} {n : Nucleus} (h : nucleus? t = some (n, rest)) :
    t = n.written ++ rest ∧ n.written ≠ [] := by
  match t with
  | [] => simp [nucleus?] at h
  | c :: r =>
    simp only [nucleus?] at h
    split at h
    · simp at h
    · split at h
      · split at h
        · simp only [Option.some.injEq, Prod.mk.injEq] at h
          obtain ⟨rfl, rfl⟩ := h
          simp [Nucleus.written]
        · next name r' hc =>
          obtain ⟨e, hl⟩ := eq_append_of_control? hc
          have hn : name ≠ [] := by rintro rfl; simp at hl
          rw [e]
          split at h
          · split at h
            · next hg =>
              simp only [Option.some.injEq, Prod.mk.injEq] at h
              obtain ⟨rfl, rfl⟩ := h
              simp [Nucleus.written, eq_append_of_group? hg, hn]
            · simp only [Option.some.injEq, Prod.mk.injEq] at h
              obtain ⟨rfl, rfl⟩ := h
              simp [Nucleus.written, hn]
          · simp only [Option.some.injEq, Prod.mk.injEq] at h
            obtain ⟨rfl, rfl⟩ := h
            simp [Nucleus.written, hn]
      · split at h
        · simp only [Option.map_eq_some_iff, Prod.mk.injEq, Prod.exists] at h
          obtain ⟨content, r', hg, rfl, rfl⟩ := h
          simp [Nucleus.written, eq_append_of_group? hg, braced]
        · simp only [Option.some.injEq, Prod.mk.injEq] at h
          obtain ⟨rfl, rfl⟩ := h
          simp [Nucleus.written]

theorem nucleus?_length {t rest : Text} {n : Nucleus} (h : nucleus? t = some (n, rest)) :
    rest.length < t.length := by
  obtain ⟨rfl, hn⟩ := eq_append_of_nucleus? h
  have := List.length_pos_iff.mpr hn
  simp only [List.length_append]
  omega

/-- All scripts at the front of a text, blanks before each of them included, and what follows the
last one. -/
def scripts (t : Text) : List Script × Text :=
  match _h : script? (skipBlanks t) with
  | none => ([], t)
  | some (s, rest) =>
    let more := scripts rest
    (s :: more.1, more.2)
termination_by t.length
decreasing_by exact script?_skipBlanks_length _h

theorem scripts_length_le (t : Text) : (scripts t).2.length ≤ t.length := by
  fun_induction scripts t with
  | case1 => simp
  | case2 t s rest h more ih =>
    have := script?_skipBlanks_length h
    exact Nat.le_trans ih (by omega)

/-- A nucleus with its scripts, behind blanks. -/
structure Atom where
  leading : Text
  nucleus : Nucleus
  scripts : List Script
  deriving DecidableEq, Repr

namespace Atom

/-- The atom as the base of a prescript: without the blanks, scripts in their canonical spelling. -/
def base (a : Atom) : Text :=
  a.nucleus.written ++ a.scripts.flatMap Script.canonical

/-- The atom as the argument of an accent: as a base, with the braces of a group taken off. -/
def target (a : Atom) : Text :=
  a.nucleus.unwrapped ++ a.scripts.flatMap Script.canonical

end Atom

def atom? (t : Text) : Option (Atom × Text) := do
  let (nucleus, rest) ← nucleus? (skipBlanks t)
  let scripts := scripts rest
  return (⟨t.takeWhile isBlank, nucleus, scripts.1⟩, scripts.2)

theorem atom?_length {t rest : Text} {a : Atom} (h : atom? t = some (a, rest)) :
    rest.length < t.length := by
  simp only [atom?, Option.bind_eq_bind, Option.bind_eq_some_iff, Prod.exists, Option.pure_def,
    Option.some.injEq, Prod.mk.injEq] at h
  obtain ⟨n, r, h, _, rfl⟩ := h
  have h₁ := nucleus?_length h
  have h₂ := skipBlanks_length_le t
  have h₃ := scripts_length_le r
  omega

end Formula.Tex
