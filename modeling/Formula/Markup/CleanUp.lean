import Formula.Markup.DotAccent
import Formula.Markup.Pruning
import Formula.Markup.Layout
import Formula.Markup.Root

/-! # Cleaning up markup

The markup of a formula is cleaned up as a text, because it may hold entities that no reader of XML
knows. Accents are marked before anything is filled or dropped, since that changes what an element
shows.
-/

namespace Formula.Markup

def cleanUp (t : Text) : Text :=
  stripLayout (prune (fillNone (accentDots (declareNamespace t))))

end Formula.Markup
