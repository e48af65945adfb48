import Mathlib.Tactic.SplitIfs
import Formula.Markup.Pruning
import Formula.Proofs.Markup.Fragment

/-! # Pruning as a recursion over the tree

The stack of frames does what a recursion over the elements does that comes to an element after its
children: it looks at what is left inside, and drops the element, fills it, puts a filler in its place
or keeps it. While an element is read, its frame holds what has been made of the children so far.
-/

namespace Formula.Markup

open Text

def Fragment.filler (next : Fragment) : Fragment :=
  .element ⟨"mtext".toList, []⟩ (.text zeroWidthSpace .nil) next

/-- What becomes of an element with nothing left in it. -/
inductive Fate
  | kept
  | dropped
  | replaced
  | filled (inside : Fragment)
  deriving DecidableEq, Repr

/-- By its local name, and for a row by that of its parent. -/
def fate (parent : Option Text) (name : Text) : Fate :=
  let name := String.ofList (localName name)
  if name = "mrow" then
    if parent.any fun p => positional.contains (localName p) then .replaced else .dropped
  else if name = "mtr" then .dropped
  else if name = "mtd" then .filled (.filler .nil)
  else if name = "mtext" then .filled (.text zeroWidthSpace .nil)
  else .kept

/-- The element with this label, if it is kept, has nothing left in it. -/
def Fate.apply (l : Label) (whole : Fragment → Fragment) (next : Fragment) : Fate → Fragment
  | kept => whole next
  | dropped => next
  | replaced => .filler next
  | filled inside => .element l inside next

/-- Nothing is left in the element: no more than blanks, and in a text element nothing at all. -/
def isVacant (name inside : Text) : Bool :=
  if localName name = "mtext".toList then inside.isEmpty else allBlank inside

/-- An element that is closed by its own tag may have blanks before the slash; they go when something
is put into it. -/
def Label.trimmed (l : Label) : Label :=
  { l with attributes := trimEnd l.attributes }

/-- The fragment without its empty nodes, inside an element of the name `parent`. -/
def Fragment.pruned (parent : Option Text) : Fragment → Fragment
  | nil => nil
  | text t next => text t (next.pruned parent)
  | empty l next => (fate parent l.name).apply l.trimmed (empty l) (next.pruned parent)
  | element l inside next =>
    let left := inside.pruned (some l.name)
    if isVacant l.name left.written then
      (fate parent l.name).apply l (element l left) (next.pruned parent)
    else element l left (next.pruned parent)

/-! ## Writing into an assembly -/

namespace Assembly

@[simp] theorem write_nil (a : Assembly) : a.write [] = a := by
  obtain ⟨outside, frames⟩ := a
  cases frames <;> rfl

@[simp] theorem write_write (s t : Text) (a : Assembly) :
    (a.write s).write t = a.write (s ++ t) := by
  obtain ⟨outside, frames⟩ := a
  cases frames <;> simp [write]

@[simp] theorem parent_write (t : Text) (a : Assembly) : (a.write t).parent = a.parent := by
  obtain ⟨outside, frames⟩ := a
  cases frames <;> rfl

def enter (l : Label) (a : Assembly) : Assembly :=
  ⟨a.outside, ⟨l.name, l.startTag.written, []⟩ :: a.frames⟩

theorem write_enter (l : Label) (t : Text) (a : Assembly) :
    (a.enter l).write t = ⟨a.outside, ⟨l.name, l.startTag.written, t.reverse⟩ :: a.frames⟩ := by
  simp [enter, write]

theorem add_startTag (l : Label) (a : Assembly) : a.add (.tag l.startTag) = a.enter l := rfl

@[simp] theorem parent_enter (l : Label) (a : Assembly) : (a.enter l).parent = some l.name := rfl

theorem foldl_add_text (t : Text) (a : Assembly) :
    (t.map Piece.char).foldl add a = a.write t := by
  induction t generalizing a with
  | nil => simp
  | cons c t ih =>
    rw [List.map_cons, List.foldl_cons, ih, add, write_write]
    rfl

end Assembly

theorem Fragment.written_filler (next : Fragment) :
    (Fragment.filler next).written = Markup.filler ++ next.written := by
  have e : Markup.filler = (Label.mk "mtext".toList []).startTag.written ++
      (zeroWidthSpace ++ (Label.mk "mtext".toList []).endTag.written) := by decide
  rw [e, filler, written, written, written, List.append_nil, List.append_assoc, List.append_assoc]

theorem written_apply_fate {l : Label} {parent : Option Text} {whole : Fragment → Fragment}
    {kept : Text} (hw : ∀ next, (whole next).written = kept ++ next.written) (next : Fragment) :
    ((fate parent l.name).apply l whole next).written =
      (pruned? l.name l.startTag.written l.endTag.written parent).getD kept ++ next.written := by
  unfold fate pruned?
  dsimp only
  split_ifs
  · exact Fragment.written_filler next
  · rfl
  · rfl
  · simp only [Fate.apply, Fragment.written, Fragment.written_filler, Option.getD_some,
      List.append_nil, List.append_assoc]
  · simp only [Fate.apply, Fragment.written, Option.getD_some, List.append_nil, List.append_assoc]
  · exact hw next

namespace Assembly

theorem add_emptyTag (l : Label) (a : Assembly) :
    a.add (.tag l.emptyTag) =
      a.write ((pruned? l.name l.trimmed.startTag.written l.trimmed.endTag.written a.parent).getD
        l.emptyTag.written) := by
  simp [add, Label.emptyTag, Label.trimmed, Label.startTag, Label.endTag, Tag.written]

theorem add_endTag (l : Label) (left : Text) (a : Assembly) :
    ((a.enter l).write left).add (.tag l.endTag) =
      a.write (if isVacant l.name left then
        (pruned? l.name l.startTag.written l.endTag.written a.parent).getD
          (l.startTag.written ++ left ++ l.endTag.written)
      else l.startTag.written ++ left ++ l.endTag.written) := by
  have hf : find? l.name [] (⟨l.name, l.startTag.written, left.reverse⟩ :: a.frames) =
      some (⟨l.name, l.startTag.written, left.reverse⟩, left.reverse, a.frames) := by
    simp [find?]
  have hv : (!allBlank left.reverse || (!left.reverse.isEmpty &&
      localName l.name == "mtext".toList)) = !isVacant l.name left := by
    have hb : allBlank left.reverse = allBlank left := by simp [allBlank]
    rw [hb, isVacant]
    cases left <;> split_ifs <;> simp_all [allBlank]
  have hn : l.endTag.name = l.name := rfl
  change ((a.enter l).write left).close l.endTag = _
  rw [write_enter, close, hn, hf]
  simp only [List.reverse_reverse, hv]
  cases isVacant l.name left <;> rfl

end Assembly

/-- The pieces of a fragment add the pruned fragment to what is written in the innermost open element. -/
theorem Fragment.foldl_add {f : Fragment} (hf : f.WellFormed) (rest : Text) (a : Assembly) :
    (pieces (f.written ++ rest)).foldl Assembly.add a =
      (pieces rest).foldl Assembly.add (a.write (f.pruned a.parent).written) := by
  induction f generalizing rest a with
  | nil => simp [written, pruned]
  | text t next ih =>
    rw [written, List.append_assoc, pieces_text hf.1, List.foldl_append, Assembly.foldl_add_text,
      ih hf.2]
    simp [pruned, written]
  | empty l next ih =>
    have hw : ∀ next, (empty l next).written = l.emptyTag.written ++ next.written := fun _ => rfl
    have hfate : (pruned a.parent (empty l next)).written = _ :=
      written_apply_fate (l := l.trimmed) hw (next.pruned a.parent)
    rw [written, List.append_assoc, hf.1.emptyTag.pieces_eq, List.foldl_cons, ih hf.2,
      Assembly.add_emptyTag, Assembly.parent_write, Assembly.write_write, hfate]
    rfl
  | element l inside next ihi ihn =>
    obtain ⟨hl, hs, hi, hn⟩ := hf
    have hw : ∀ next, (element l (inside.pruned (some l.name)) next).written =
        l.startTag.written ++ (inside.pruned (some l.name)).written ++ l.endTag.written ++
          next.written := by
      intro next
      simp [written]
    rw [written, List.append_assoc, (hl.startTag hs).pieces_eq, List.foldl_cons,
      Assembly.add_startTag, List.append_assoc, ihi hi, Assembly.parent_enter, List.append_assoc,
      hl.endTag.pieces_eq, List.foldl_cons, ihn hn, Assembly.add_endTag, Assembly.parent_write,
      Assembly.write_write, pruned]
    split_ifs
    · rw [written_apply_fate hw]
    · rw [hw]

@[simp] theorem Assembly.written_write_empty (t : Text) : (Assembly.empty.write t).written = t := by
  simp [empty, write, written]

/-- With nothing written before and nothing behind, the pruned fragment is all there is. -/
theorem Fragment.WellFormed.foldl_add_empty {f : Fragment} (hf : f.WellFormed) :
    (pieces f.written).foldl Assembly.add .empty = Assembly.empty.write (f.pruned none).written := by
  have h := Fragment.foldl_add hf [] .empty
  rwa [List.append_nil, pieces, List.foldl_nil] at h

/-- Pruning the text that is written from a tree prunes the tree, from the leaves up. -/
theorem prune_written {f : Fragment} (hf : f.WellFormed) :
    prune f.written = (f.pruned none).written := by
  rw [prune, hf.foldl_add_empty, Assembly.written_write_empty]

/-- A row that is empty after its own row is dropped, under a parent with positions. -/
theorem prune_written_of_nested_rows :
    let row : Label := ⟨"m:mrow".toList, []⟩
    let script : Label := ⟨"msup".toList, " a='1'".toList⟩
    let cell : Label := ⟨"mtd".toList, " b ".toList⟩
    let f : Fragment := .element script
      (.text ['x'] (.element row (.text [' '] (.element row .nil .nil)) .nil)) (.empty cell .nil)
    f.WellFormed ∧ prune f.written =
      ("<msup a='1'>x<mtext>&#x200B;</mtext></msup>" ++
        "<mtd b><mtext>&#x200B;</mtext></mtd>").toList := by
  intro row script cell f
  have hf : f.WellFormed := by decide
  refine ⟨hf, ?_⟩
  rw [prune_written hf]
  decide

end Formula.Markup
