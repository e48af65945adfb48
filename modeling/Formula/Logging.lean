import Formula.Text.Printable

/-! # Setting up the log

Setting up the log sets its level by name and, the first time, attaches a console and a file that
rotates, for which the directory is made. An unknown name changes nothing.
-/

namespace Formula.Logging

inductive Handler
  | console
  | rotatingFile
  deriving DecidableEq, Repr

structure Logger where
  level : Nat
  handlers : List Handler
  directoryMade : Bool
  deriving DecidableEq, Repr

def levels : List (String × Nat) :=
  [("CRITICAL", 50), ("FATAL", 50), ("ERROR", 40), ("WARN", 30), ("WARNING", 30), ("INFO", 20),
    ("DEBUG", 10), ("NOTSET", 0)]

structure UnknownLevel where
  name : Text
  deriving DecidableEq, Repr

def hexPadded (width n : Nat) : Text :=
  let digits := Nat.toDigits 16 n
  List.replicate (width - digits.length) '0' ++ digits

/-- A character in quotes: a backslash stands before the quote and before a backslash, and characters
without a glyph are written by number. -/
def quoteChar (quote c : Char) : Text :=
  if c = quote ∨ c = '\\' then ['\\', c]
  else if c = '\t' then ['\\', 't']
  else if c = '\n' then ['\\', 'n']
  else if c = '\r' then ['\\', 'r']
  else if Text.isPrintable c then [c]
  else if c.toNat < 0x100 then '\\' :: 'x' :: hexPadded 2 c.toNat
  else if c.toNat < 0x10000 then '\\' :: 'u' :: hexPadded 4 c.toNat
  else '\\' :: 'U' :: hexPadded 8 c.toNat

/-- A text in single quotes, or in double ones if it holds single quotes and no double ones. -/
def quoted (t : Text) : Text :=
  let quote := if t.contains '\'' && !t.contains '"' then '"' else '\''
  quote :: t.flatMap (quoteChar quote) ++ [quote]

def UnknownLevel.message (e : UnknownLevel) : Text :=
  "Unknown level: ".toList ++ quoted e.name

/-- A logger that reports everything and has nowhere to write it. -/
def Logger.initial : Logger := ⟨10, [], false⟩

def Logger.setUp (levelName : Text) (l : Logger) : Except UnknownLevel Logger :=
  match levels.lookup (String.ofList levelName) with
  | none => .error ⟨levelName⟩
  | some level =>
    if l.handlers.isEmpty then .ok ⟨level, [.console, .rotatingFile], true⟩
    else .ok { l with level }

end Formula.Logging
