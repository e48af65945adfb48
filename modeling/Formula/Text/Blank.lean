/-! # Texts and blanks

A text is the list of its code points. Blanks are the code points that separate words: the white
space of Unicode together with the four information separators U+001C to U+001F.
-/

namespace Formula

abbrev Text := List Char

namespace Text

def isBlank (c : Char) : Bool :=
  let n := c.toNat
  (0x09 ≤ n && n ≤ 0x0D) || (0x1C ≤ n && n ≤ 0x20) || n == 0x85 || n == 0xA0 || n == 0x1680 ||
    (0x2000 ≤ n && n ≤ 0x200A) || n == 0x2028 || n == 0x2029 || n == 0x202F || n == 0x205F ||
    n == 0x3000

def allBlank (t : Text) : Bool :=
  t.all isBlank

def skipBlanks (t : Text) : Text :=
  t.dropWhile isBlank

theorem skipBlanks_suffix (t : Text) : skipBlanks t <:+ t :=
  List.dropWhile_suffix _

theorem skipBlanks_length_le (t : Text) : (skipBlanks t).length ≤ t.length :=
  (skipBlanks_suffix t).length_le

def trimEnd (t : Text) : Text :=
  (t.reverse.dropWhile isBlank).reverse

def trim (t : Text) : Text :=
  trimEnd (skipBlanks t)

/-- The maximal runs of characters that are no blanks. -/
def words (t : Text) : List Text :=
  match _h : skipBlanks t with
  | [] => []
  | c :: r => (c :: r.takeWhile (!isBlank ·)) :: words (r.dropWhile (!isBlank ·))
termination_by t.length
decreasing_by
  have h₁ := skipBlanks_length_le t
  have h₂ := (List.dropWhile_suffix (l := r) (!isBlank ·)).length_le
  simp only [_h, List.length_cons] at h₁
  omega

end Text

end Formula
