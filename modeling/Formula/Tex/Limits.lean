import Formula.Tex.Control

/-! # Limits

The placement command `\limits` is dropped wherever it is a token.
-/

namespace Formula.Tex

def limits : Text := "\\limits".toList

def dropLimits (t : Text) : Text :=
  ((tokens t).filter (· ≠ limits)).flatten

end Formula.Tex
