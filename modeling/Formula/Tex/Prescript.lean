import Formula.Log
import Formula.Tex.ScriptPair

/-! # Prescripts

Left scripts and the base behind them are put together as one prescript, which keeps the two scripts
stacked against the base. A strut stands in for a missing side. The text is first split into the
stretches that are copied and the prescripts that are found; gathering the prescripts prints that split.
-/

namespace Formula.Tex

open Text

/-- The spacing that has no effect and goes before each prescript. -/
def spacing : Text := "\\hspace\x7b0pt\x7d".toList

def strut : Text := "\\mathstrut".toList

def prescript : Text := "\\prescript".toList

/-- The control sequences that size a delimiter, and the one that spaces. They are no base. -/
def sizing : List Text :=
  ["\\left", "\\right", "\\hspace",
    "\\big", "\\bigl", "\\bigr", "\\bigm", "\\bigg", "\\biggl", "\\biggr", "\\biggm",
    "\\Big", "\\Bigl", "\\Bigr", "\\Bigm", "\\Bigg", "\\Biggl", "\\Biggr", "\\Biggm"].map
    String.toList

def Nucleus.isSizing : Nucleus → Bool
  | .control name _ => sizing.contains name
  | _ => false

/-- A side of a prescript: the value of the script on it, or a strut. -/
def side (value : Text) : Text :=
  if value = [] then strut else value

/-- A stretch of a text in which the left scripts have been found. -/
inductive Segment
  | copied (t : Text)
  | prescript (scripts : ScriptPair) (base : Atom)
  deriving DecidableEq, Repr

namespace Segment

def written : Segment → Text
  | copied t => t
  | prescript l a =>
    spacing ++ Tex.prescript ++ braced (side (l.value .sup)) ++ braced (side (l.value .sub)) ++
      braced a.base

def isPrescript : Segment → Bool
  | copied _ => false
  | prescript _ _ => true

end Segment

/-- The front of a text that reaches up to a given rest of it. -/
def upTo (rest t : Text) : Text :=
  t.take (t.length - rest.length)

/-- The segments of a text behind another one, which is given in reverse. Control sequences are copied
whole, so that no escaped brace or marker opens a lead-in. -/
def segmentsBehind (before : Text) : Text → List Segment
  | [] => []
  | c :: r =>
    if c = '\\' then match _h : control? (c :: r) with
      | some (name, rest) => .copied name :: segmentsBehind (name.reverse ++ before) rest
      | none => .copied [c] :: segmentsBehind (c :: before) r
    else match _h : leadingScripts? before (c :: r) with
      | none => .copied [c] :: segmentsBehind (c :: before) r
      | some (l, rest) => match _h' : atom? rest with
        | none =>
          let lone := upTo rest (c :: r)
          .copied lone :: segmentsBehind (lone.reverse ++ before) rest
        | some (a, rest) =>
          let whole := upTo rest (c :: r)
          (if a.nucleus.isSizing then .copied whole else .prescript l a) ::
            segmentsBehind (whole.reverse ++ before) rest
termination_by t => t.length
decreasing_by
  · have := control?_length _h
    omega
  · simp
  · simp
  · exact leadingScripts?_length _h
  · have h₁ := leadingScripts?_length _h
    have h₂ := atom?_length _h'
    omega

def segments (t : Text) : List Segment :=
  segmentsBehind [] t

def gatherPrescripts (t : Text) : Text :=
  (segments t).flatMap Segment.written

def prescriptCount (t : Text) : Nat :=
  (segments t).countP Segment.isPrescript

/-- The report on the prescripts: nothing, or how many were gathered. -/
def prescriptReport (t : Text) : List Log.Entry :=
  Log.reportCount "Rewrote ".toList " left-script construct(s)".toList (prescriptCount t)

end Formula.Tex
