import Formula.Text.Blank

/-! # Log

What the library has to report is a list of entries, each with its level.
-/

namespace Formula.Log

inductive Level
  | debug
  | info
  | warning
  | error
  | critical
  deriving DecidableEq, Repr

def Level.name : Level → String
  | debug => "DEBUG"
  | info => "INFO"
  | warning => "WARNING"
  | error => "ERROR"
  | critical => "CRITICAL"

structure Entry where
  level : Level
  message : Text
  deriving DecidableEq, Repr

def numeral (n : Nat) : Text :=
  Nat.toDigits 10 n

/-- One entry with the count between two texts; none if the count is zero. -/
def reportCount (before behind : Text) (n : Nat) : List Entry :=
  if n = 0 then [] else [⟨.debug, before ++ numeral n ++ behind⟩]

end Formula.Log
