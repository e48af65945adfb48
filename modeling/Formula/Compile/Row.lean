import Formula.Tex.Prescript

/-! # Rows

Source with prescripts is read as a row: characters, and prescripts whose three arguments are rows
again. On each level the ineffective spacing is dropped first. An argument that holds nothing but
blanks or a strut is absent; it has no row.
-/

namespace Formula.Compile

open Tex Text

inductive Row
  | absent
  | nil
  | literal (c : Char) (rest : Row)
  | prescript (base sub sup rest : Row)
  deriving DecidableEq, Repr

def dropSpacing : Text → Text
  | [] => []
  | c :: r => match _h : after? spacing (c :: r) with
    | some rest => dropSpacing rest
    | none => c :: dropSpacing r
termination_by t => t.length
decreasing_by
  · have : spacing.length = 12 := by decide
    rw [after?_eq_some_iff.mp _h, List.length_append]
    omega
  · simp

theorem dropSpacing_length_le (t : Text) : (dropSpacing t).length ≤ t.length := by
  fun_induction dropSpacing t with
  | case1 => simp
  | case2 c r rest h ih =>
    rw [after?_eq_some_iff.mp h, List.length_append]
    omega
  | case3 c r h ih => simpa using ih

structure Arguments where
  sup : Text
  sub : Text
  base : Text
  deriving DecidableEq, Repr

/-- The prescript at the front of a text, with what follows it. Blanks may stand before each argument.
-/
def prescript? (t : Text) : Option (Arguments × Text) := do
  let r ← after? Tex.prescript t
  if r.head?.any Char.isAlpha then none
  else
    let (sup, r) ← group? (skipBlanks r)
    let (sub, r) ← group? (skipBlanks r)
    let (base, r) ← group? (skipBlanks r)
    return (⟨sup, sub, base⟩, r)

theorem prescript?_length {t rest : Text} {a : Arguments} (h : prescript? t = some (a, rest)) :
    a.sup.length + a.sub.length + a.base.length + rest.length < t.length := by
  simp only [prescript?, Option.bind_eq_bind, Option.bind_eq_some_iff] at h
  obtain ⟨r, hr, h⟩ := h
  split at h
  · simp at h
  · simp only [Option.bind_eq_some_iff, Prod.exists, Option.pure_def, Option.some.injEq,
      Prod.mk.injEq] at h
    obtain ⟨sup, r₁, h₁, sub, r₂, h₂, base, r₃, h₃, rfl, rfl⟩ := h
    have e := congrArg List.length (after?_eq_some_iff.mp hr)
    have g₁ := group?_length h₁
    have g₂ := group?_length h₂
    have g₃ := group?_length h₃
    have s₁ := skipBlanks_length_le r
    have s₂ := skipBlanks_length_le r₁
    have s₃ := skipBlanks_length_le r₂
    simp only [List.length_append] at e
    change sup.length + sub.length + base.length + r₃.length < t.length
    omega

/-- Nothing is compiled for such an argument. -/
def isAbsent (argument : Text) : Bool :=
  trim argument = [] || trim argument = strut

def rowOf : Text → Row
  | [] => .nil
  | c :: r => match _h : prescript? (c :: r) with
    | none => .literal c (rowOf r)
    | some (a, rest) =>
      .prescript
        (if isAbsent a.base then .absent else rowOf (dropSpacing a.base))
        (if isAbsent a.sub then .absent else rowOf (dropSpacing a.sub))
        (if isAbsent a.sup then .absent else rowOf (dropSpacing a.sup))
        (rowOf rest)
termination_by t => t.length
decreasing_by
  · simp
  all_goals have h := prescript?_length _h
  · have := dropSpacing_length_le a.base
    omega
  · have := dropSpacing_length_le a.sub
    omega
  · have := dropSpacing_length_le a.sup
    omega
  · omega

def Row.ofSource (t : Text) : Row :=
  rowOf (dropSpacing t)

end Formula.Compile
