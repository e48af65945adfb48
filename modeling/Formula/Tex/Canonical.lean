import Formula.Tex.Accent
import Formula.Tex.Bold
import Formula.Tex.Limits
import Formula.Tex.RunningText

/-! # Canonical source

Recognisers spell one formula in many ways. Its canonical source has no `\limits`, one spelling of
bold, tidy text blocks, prescripts for left scripts, and dots set over their target. Accents come last,
so that an accent over left scripts finds the prescript.
-/

namespace Formula.Tex

def clean (t : Text) : Text :=
  tidyRunningText (unifyBold (dropLimits t))

def canonical (t : Text) : Text :=
  oversetAccents (gatherPrescripts (clean t))

def canonicalReport (t : Text) : List Log.Entry :=
  prescriptReport (clean t) ++ accentsReport (gatherPrescripts (clean t))

end Formula.Tex
