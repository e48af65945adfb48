import Formula.Markup.Filler
import Formula.Markup.Tag

/-! # Empty nodes

Elements are put together from their pieces with a stack of frames, one for each element that is open.
When an element ends and nothing is left in it, an empty row is dropped, and an empty cell or text is
filled. A row that is an argument by position is filled too, so that no argument moves up.
-/

namespace Formula.Markup

open Text

/-- The elements whose children are told apart by their position. -/
def positional : List Text :=
  ["msub", "msup", "msubsup", "mfrac", "mroot", "mover", "munder", "munderover",
    "mmultiscripts"].map String.toList

/-- What becomes of an empty element; `none` if it stays as it is. Its tags are given as they are
written, and so is the name of the element around it. -/
def pruned? (name opening closing : Text) (parent : Option Text) : Option Text :=
  let name := String.ofList (localName name)
  if name = "mrow" then
    if parent.any fun p => positional.contains (localName p) then some filler else some []
  else if name = "mtr" then some []
  else if name = "mtd" then some (opening ++ filler ++ closing)
  else if name = "mtext" then some (opening ++ zeroWidthSpace ++ closing)
  else none

/-- An open element: its name, its start tag, and all that has been written inside it, in reverse. -/
structure Frame where
  name : Text
  opening : Text
  inside : Text
  deriving DecidableEq, Repr

/-- A start tag, and what has been written behind it. -/
def Frame.written (f : Frame) : Text :=
  f.opening ++ f.inside.reverse

/-- A markup text under construction: what is written outside of all open elements, in reverse, and
the open elements, innermost first. -/
structure Assembly where
  outside : Text
  frames : List Frame
  deriving DecidableEq, Repr

namespace Assembly

def empty : Assembly := ⟨[], []⟩

def written (a : Assembly) : Text :=
  a.outside.reverse ++ a.frames.reverse.flatMap Frame.written

def parent (a : Assembly) : Option Text :=
  a.frames.head?.map Frame.name

def write (t : Text) : Assembly → Assembly
  | ⟨outside, []⟩ => ⟨t.reverse ++ outside, []⟩
  | ⟨outside, f :: fs⟩ => ⟨outside, { f with inside := t.reverse ++ f.inside } :: fs⟩

/-- The nearest open element of that name with the frames around it, and all that is written inside
it, in reverse: the elements opened in it were never closed. -/
def find? (name inside : Text) : List Frame → Option (Frame × Text × List Frame)
  | [] => none
  | f :: fs =>
    if f.name = name then some (f, inside ++ f.inside, fs)
    else find? name (inside ++ f.inside ++ f.opening.reverse) fs

/-- Ends an element. One that is a text element is empty only if there is nothing at all in it; any
other may hold blanks. -/
def close (t : Tag) (a : Assembly) : Assembly :=
  match find? t.name [] a.frames with
  | none => a.write t.written
  | some (f, inside, fs) =>
    let around : Assembly := ⟨a.outside, fs⟩
    let kept := f.opening ++ inside.reverse ++ t.written
    if !allBlank inside || (!inside.isEmpty && localName t.name == "mtext".toList) then
      around.write kept
    else around.write ((pruned? t.name f.opening t.written around.parent).getD kept)

def add (a : Assembly) : Piece → Assembly
  | .char c => a.write [c]
  | .tag t =>
    if t.selfClosing then
      let opening := '<' :: t.name ++ trimEnd t.attributes ++ ['>']
      let closing := '<' :: '/' :: t.name ++ ['>']
      a.write ((pruned? t.name opening closing a.parent).getD t.written)
    else if t.closing then a.close t
    else ⟨a.outside, ⟨t.name, t.written, []⟩ :: a.frames⟩

end Assembly

def prune (t : Text) : Text :=
  ((pieces t).foldl Assembly.add .empty).written

end Formula.Markup
