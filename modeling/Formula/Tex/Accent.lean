import Formula.Tex.Prescript

/-! # Time derivatives

The accents `\dot` and `\ddot` over a symbol become a dot and a diaeresis set over it. As with
prescripts, the text is split into what is copied and the accents that have a target.
-/

namespace Formula.Tex

open Text

inductive Accent
  | dot
  | ddot
  deriving DecidableEq, Repr

namespace Accent

/-- The order of the time derivative that the accent stands for. -/
def order : Accent → Nat
  | dot => 1
  | ddot => 2

def control : Accent → Text
  | dot => "\\dot".toList
  | ddot => "\\ddot".toList

def glyph : Accent → Char
  | dot => '˙'
  | ddot => '¨'

def ofControl? (name : Text) : Option Accent :=
  if name = control dot then some dot else if name = control ddot then some ddot else none

end Accent

def accent? (t : Text) : Option (Accent × Text) := do
  let (name, rest) ← control? t
  let accent ← Accent.ofControl? name
  return (accent, rest)

/-- A stretch of a text in which the accents have been found. -/
inductive Stretch
  | copied (t : Text)
  | overset (accent : Accent) (target : Atom)
  deriving DecidableEq, Repr

namespace Stretch

def written : Stretch → Text
  | copied t => t
  | overset accent a => "\\overset".toList ++ braced [accent.glyph] ++ braced a.target

def isOverset : Stretch → Bool
  | copied _ => false
  | overset _ _ => true

end Stretch

/-- The stretches of a text. Control sequences other than accents are copied whole, and so are accents
without a target. -/
def stretches : Text → List Stretch
  | [] => []
  | c :: r => match _h : control? (c :: r) with
    | none => .copied [c] :: stretches r
    | some (name, rest) => match Accent.ofControl? name with
      | none => .copied name :: stretches rest
      | some accent => match _h' : atom? rest with
        | none => .copied name :: stretches rest
        | some (a, rest) => .overset accent a :: stretches rest
termination_by t => t.length
decreasing_by
  · simp
  all_goals
    have h₁ := control?_length _h
    try have h₂ := atom?_length _h'
    omega

def oversetAccents (t : Text) : Text :=
  (stretches t).flatMap Stretch.written

def oversetCount (t : Text) : Nat :=
  (stretches t).countP Stretch.isOverset

/-- What this reports: nothing, or how many accents it has set. -/
def accentsReport (t : Text) : List Log.Entry :=
  Log.reportCount "Rewrote ".toList " derivative accent(s)".toList (oversetCount t)

end Formula.Tex
