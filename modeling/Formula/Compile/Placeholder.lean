import Formula.Text.Occurrence
import Formula.Text.Word

/-! # Placeholders

A prescript goes to the engine as a private-use character, which tells its number in the row. In the
markup that comes back, the element that holds nothing but this character holds the place of the
prescript. The engine may write the character as such or by a numeric reference.
-/

namespace Formula.Compile

open Text

def firstPlaceholder : Nat := 0xE000

/-- The number of placeholders there are, up to the last code point of all. -/
def placeholderCount : Nat := 0x110000 - firstPlaceholder

def placeholder (index : Nat) : Char :=
  Char.ofNat (firstPlaceholder + index)

def hexNumeral (n : Nat) : Text :=
  (Nat.toDigits 16 n).map Char.toUpper

/-- What follows the placeholder at the front of a text. A hexadecimal reference may be padded with
zeros, a decimal one may not. -/
def afterPlaceholder? (index : Nat) (t : Text) : Option Text :=
  let code := firstPlaceholder + index
  match t with
  | [] => none
  | c :: r =>
    if c = placeholder index then some r
    else match after? ['&', '#'] t with
      | none => none
      | some r => match r with
        | [] => none
        | c :: hex =>
          if c = 'x' ∨ c = 'X' then
            after? (hexNumeral code ++ [';']) (hex.dropWhile (· = '0'))
          else after? (Nat.toDigits 10 code ++ [';']) r

/-- What follows the holder of a placeholder, if it is at the front of a text. -/
def afterHolder? (index : Nat) (t : Text) : Option Text := do
  let r ← after? ['<'] t
  let name := r.takeWhile Char.isLower
  let behind := r.dropWhile Char.isLower
  if name.head? = some 'm' ∧ 2 ≤ name.length ∧ endsWord behind then
    let r ← after? ['>'] (behind.dropWhile (· ≠ '>'))
    let r ← afterPlaceholder? index (skipBlanks r)
    after? ('<' :: '/' :: name ++ ['>']) (skipBlanks r)
  else none

/-- The markup with an element in the place of the first holder of a placeholder. -/
def fill? (index : Nat) (element : Text) : Text → Option Text
  | [] => none
  | c :: r => match afterHolder? index (c :: r) with
    | some rest => some (element ++ rest)
    | none => (fill? index element r).map (c :: ·)

end Formula.Compile
