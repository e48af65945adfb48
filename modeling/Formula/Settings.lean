import Formula.FilePath
import Formula.Text.Digit
import Formula.Text.UpperCase

/-! # Settings

The settings of the service come from environment variables. A number that cannot be read is passed
over in silence: the default is taken.
-/

namespace Formula

open Text

/-- The blanks that may surround an integer: of ASCII only the space and the controls from tab to
carriage return, and all others. -/
def Settings.isPadding (c : Char) : Bool :=
  if c.toNat < 0x80 then c = ' ' || (0x09 ≤ c.toNat && c.toNat ≤ 0x0D) else isBlank c

def Settings.maxDigits : Nat := 4300

/-- The digits of a numeral. A single low line may stand between two digits. -/
def Settings.digits? : Text → Option (List Nat)
  | [] => none
  | c :: r => do
    let d ← digitValue? c
    match r with
    | [] => return [d]
    | c' :: r' => if c' = '_' then return d :: (← digits? r') else return d :: (← digits? (c' :: r'))

/-- An integer in the decimal digits of any script, with an optional sign. -/
def Settings.integer? (t : Text) : Option Int := do
  let t := ((t.dropWhile isPadding).reverse.dropWhile isPadding).reverse
  let (negative, numeral) := match t with
    | c :: r => if c = '-' then (true, r) else if c = '+' then (false, r) else (false, t)
    | [] => (false, t)
  let digits ← digits? numeral
  if maxDigits < digits.length then none
  else
    let n : Nat := digits.foldl (fun n d => 10 * n + d) 0
    return if negative then -(n : Int) else n

structure Settings where
  host : Text
  port : Int
  logLevel : Text
  logFile : Text
  maxChars : Int
  deriving DecidableEq, Repr

namespace Settings

/-- The integer in a variable; the default if it is not set or cannot be read. -/
def integerOr (default : Int) (value : Option Text) : Int :=
  (value.bind integer?).getD default

/-- The settings in an environment. The log file is in the base directory if no other is named. -/
def ofEnvironment (base : Text) (value? : String → Option Text) : Settings where
  host := (value? "FORMULA_HOST").getD "127.0.0.1".toList
  port := integerOr 3001 (value? "FORMULA_PORT")
  logLevel := upperCase ((value? "FORMULA_LOG_LEVEL").getD "INFO".toList)
  logFile := FilePath.normal <|
    (value? "FORMULA_LOG_FILE").getD (base ++ "/formula_normalizer.log".toList)
  maxChars := integerOr 20000 (value? "FORMULA_MAX_LATEX_CHARS")

end Settings

end Formula
