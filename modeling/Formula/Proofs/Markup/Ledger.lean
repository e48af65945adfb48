import Mathlib.Data.List.Forall2
import Formula.Proofs.Markup.Losses

/-! # Pruning by places

The output may be kept as one list of entries, with the open elements on a stack that remembers at which
place of the list each start tag stands. When an element ends, the list is cut at that place. Places that
are no longer what they were would spoil this; so would a look at an empty stack. Neither happens, whatever
tags follow each other: the stack always points at the start tags of the open elements.
-/

namespace Formula.Markup

open Text

inductive Misuse
  | emptyStack
  | outOfRange (place : Nat)
  deriving DecidableEq, Repr

/-- The output so far, and the open elements, innermost first, each with the place of its start tag. -/
structure Ledger where
  entries : List Text
  opened : List (Text × Nat)
  deriving DecidableEq, Repr

namespace Ledger

def empty : Ledger := ⟨[], []⟩

def push (w : Text) (l : Ledger) : Ledger :=
  { l with entries := l.entries ++ [w] }

def parent (l : Ledger) : Option Text :=
  l.opened.head?.map Prod.fst

/-- The open elements are taken from the stack up to the one of that name. -/
def unwind (name : Text) : List (Text × Nat) → Except Misuse (Nat × List (Text × Nat))
  | [] => .error .emptyStack
  | (n, place) :: opened => if n = name then .ok (place, opened) else unwind name opened

def entryAt (l : Ledger) (place : Nat) : Except Misuse Text :=
  match l.entries[place]? with
  | some w => .ok w
  | none => .error (.outOfRange place)

/-- Ends an element. An end tag without an open element of its name is written as it is. -/
def close (t : Tag) (l : Ledger) : Except Misuse Ledger :=
  if l.opened.any (·.1 = t.name) then do
    let (place, opened) ← unwind t.name l.opened
    let opening ← l.entryAt place
    let inside := (l.entries.drop (place + 1)).flatten
    let around : Ledger := ⟨l.entries, opened⟩
    if !allBlank inside || (!inside.isEmpty && localName t.name == "mtext".toList) then
      return around.push t.written
    else match pruned? t.name opening t.written around.parent with
      | none => return around.push t.written
      | some w => return push w ⟨l.entries.take place, opened⟩
  else return l.push t.written

def add (t : Tag) (l : Ledger) : Except Misuse Ledger :=
  if t.selfClosing then
    return l.push ((pruned? t.name t.startPart.written t.endPart.written l.parent).getD t.written)
  else if t.closing then l.close t
  else return { l.push t.written with opened := (t.name, l.entries.length) :: l.opened }

def step (l : Ledger) (s : Text × Tag) : Except Misuse Ledger :=
  (l.push s.1).add s.2

def run (steps : List (Text × Tag)) : Except Misuse Ledger :=
  steps.foldlM step empty

end Ledger

def Assembly.step (a : Assembly) (s : Text × Tag) : Assembly :=
  (a.write s.1).add (.tag s.2)

/-- The tags, each with the text in front of it, and the text behind the last one. The text `gap` stands
in front of the pieces. -/
def cutAtTags (gap : Text) : List Piece → List (Text × Tag) × Text
  | [] => ([], gap)
  | .char c :: ps => cutAtTags (gap ++ [c]) ps
  | .tag t :: ps =>
    let (steps, tail) := cutAtTags [] ps
    ((gap, t) :: steps, tail)

def pruneByPlaces (t : Text) : Except Misuse Text := do
  let (steps, tail) := cutAtTags [] (pieces t)
  let l ← Ledger.run steps
  return (l.push tail).entries.flatten

def openBehind (opened : List Tag) (t : Tag) : List Tag :=
  if t.selfClosing then opened
  else if t.closing then
    if opened.any (·.name = t.name) then (opened.dropWhile (·.name ≠ t.name)).tail else opened
  else t :: opened

def openTags (tags : List Tag) : List Tag :=
  tags.foldl openBehind []

/-- Each element on the stack points at its own start tag, further back the further out it is. -/
structure Ledger.Sound (l : Ledger) (opened : List Tag) : Prop where
  points : List.Forall₂ (fun e t => e.1 = t.name ∧ l.entries[e.2]? = some t.written) l.opened opened
  places : (l.opened.map Prod.snd).Pairwise (· > ·)

/-! ## The ledger and the assembly -/

/-- The ledger has written what the assembly has, with the same tags open. What stands inside an element
is in the entries behind its start tag. -/
inductive Represents : Ledger → Assembly → List Tag → Prop
  | outside {entries : List Text} {outside : Text} : entries.flatten = outside.reverse →
      Represents ⟨entries, []⟩ ⟨outside, []⟩ []
  | inside {entries inner : List Text} {opened : List (Text × Nat)} {outside inside : Text}
      {frames : List Frame} {tags : List Tag} (t : Tag) :
      Represents ⟨entries, opened⟩ ⟨outside, frames⟩ tags → inner.flatten = inside.reverse →
      Represents ⟨entries ++ t.written :: inner, (t.name, entries.length) :: opened⟩
        ⟨outside, ⟨t.name, t.written, inside⟩ :: frames⟩ (t :: tags)

namespace Represents

variable {l : Ledger} {a : Assembly} {tags : List Tag}

theorem flatten_entries (h : Represents l a tags) : l.entries.flatten = a.written := by
  induction h with
  | outside h => simpa [Assembly.written] using h
  | inside t _ hi ih =>
    simp only [Assembly.written] at ih
    simp [Assembly.written, Frame.written, ih, hi]

theorem parent_eq (h : Represents l a tags) : l.parent = a.parent := by
  cases h <;> rfl

theorem append (h : Represents l a tags) (ws : List Text) :
    Represents ⟨l.entries ++ ws, l.opened⟩ (a.write ws.flatten) tags := by
  cases h with
  | outside h =>
    apply Represents.outside
    simp [h]
  | inside t h hi =>
    rw [List.append_assoc, List.cons_append]
    apply h.inside t
    simp [hi]

theorem push (h : Represents l a tags) (w : Text) : Represents (l.push w) (a.write w) tags := by
  simpa [Ledger.push] using h.append [w]

theorem points (h : Represents l a tags) :
    List.Forall₂ (fun e t => e.1 = t.name ∧ l.entries[e.2]? = some t.written) l.opened tags := by
  induction h with
  | outside => exact .nil
  | inside t _ _ ih =>
    refine .cons ⟨rfl, by simp⟩ (ih.imp ?_)
    rintro ⟨name, place⟩ s ⟨hn, hp⟩
    have hlt := (List.getElem?_eq_some_iff.mp hp).1
    exact ⟨hn, by rw [List.getElem?_append_left hlt, hp]⟩

theorem lt_length (h : Represents l a tags) : ∀ e ∈ l.opened, e.2 < l.entries.length := by
  induction h with
  | outside => simp
  | inside t _ _ ih =>
    refine List.forall_mem_cons.mpr ⟨by simp, fun e he => (ih e he).trans_le ?_⟩
    simp

theorem places (h : Represents l a tags) : (l.opened.map Prod.snd).Pairwise (· > ·) := by
  induction h with
  | outside => exact .nil
  | inside t h _ ih =>
    refine List.pairwise_cons.mpr ⟨?_, ih⟩
    rw [List.forall_mem_map]
    exact h.lt_length

theorem sound (h : Represents l a tags) : l.Sound tags :=
  ⟨h.points, h.places⟩

theorem any_opened (h : Represents l a tags) (name : Text) :
    l.opened.any (·.1 = name) = tags.any fun t => t.name = name := by
  induction h with
  | outside => rfl
  | inside t _ _ ih => simp only [List.any_cons, ih]

theorem find?_eq_none (h : Represents l a tags) {name : Text}
    (hn : (tags.any fun t => t.name = name) = false) (acc : Text) :
    Assembly.find? name acc a.frames = none := by
  induction h generalizing acc with
  | outside => rfl
  | inside t _ _ ih =>
    simp only [List.any_cons, Bool.or_eq_false_iff, decide_eq_false_iff_not] at hn
    rw [Assembly.find?, if_neg hn.1, ih hn.2]

/-- The stack is unwound to the element that is found, and the entries behind its start tag are what is
written inside it. -/
theorem exists_found (h : Represents l a tags) {name : Text}
    (hn : (tags.any fun t => t.name = name) = true) (acc : Text) :
    ∃ before inner opened inside fs, ∃ t : Tag, l.entries = before ++ t.written :: inner ∧
      Represents ⟨before, opened⟩ ⟨a.outside, fs⟩ (tags.dropWhile fun t => t.name ≠ name).tail ∧
      Ledger.unwind name l.opened = .ok (before.length, opened) ∧
      Assembly.find? name acc a.frames =
        some (⟨t.name, t.written, inside⟩, acc ++ inner.flatten.reverse, fs) := by
  induction h generalizing acc with
  | outside => cases hn
  | @inside entries inner opened outside inside frames tags t h hi ih =>
    by_cases ht : t.name = name
    · refine ⟨entries, inner, opened, inside, frames, t, rfl, ?_, ?_, ?_⟩
      · simpa [ht] using h
      · rw [Ledger.unwind, if_pos ht]
      · rw [Assembly.find?, if_pos ht, hi, List.reverse_reverse]
    · have hn' : (tags.any fun t => t.name = name) = true := by simpa [ht] using hn
      obtain ⟨before, inner', opened', inside', fs, s, he, hr, hu, hf⟩ :=
        ih hn' (acc ++ inside ++ t.written.reverse)
      refine ⟨before, inner' ++ t.written :: inner, opened', inside', fs, s, ?_, ?_, ?_, ?_⟩
      · simp only at he
        simp [he]
      · simpa [ht] using hr
      · rw [Ledger.unwind, if_neg ht, hu]
      · rw [Assembly.find?, if_neg ht, hf]
        simp [hi]

theorem close (h : Represents l a tags) {t : Tag} (hs : ¬ t.selfClosing) (hc : t.closing) :
    ∃ l', l.close t = .ok l' ∧ Represents l' (a.close t) (openBehind tags t) := by
  rw [openBehind, if_neg hs, if_pos hc, Ledger.close, Assembly.close, h.any_opened]
  cases hn : tags.any fun s => s.name = t.name with
  | false =>
    rw [h.find?_eq_none hn]
    exact ⟨_, rfl, h.push t.written⟩
  | true =>
    obtain ⟨before, inner, opened, inside, fs, s, he, hr, hu, hf⟩ := h.exists_found hn []
    have hat : l.entryAt before.length = .ok s.written := by simp [Ledger.entryAt, he]
    have hin : (l.entries.drop (before.length + 1)).flatten = inner.flatten := by simp [he]
    have hblank : allBlank inner.flatten.reverse = allBlank inner.flatten := by simp [allBlank]
    have hempty : inner.flatten.reverse.isEmpty = inner.flatten.isEmpty := by simp
    have hkept : Represents (Ledger.push t.written ⟨l.entries, opened⟩)
        (Assembly.write (s.written ++ inner.flatten ++ t.written) ⟨a.outside, fs⟩)
        (tags.dropWhile fun s => s.name ≠ t.name).tail := by
      simpa [Ledger.push, he] using hr.append (s.written :: (inner ++ [t.written]))
    rw [if_pos rfl, if_pos rfl, hu, hf]
    simp only [bind, Except.bind, hat, hin, List.nil_append, hblank, hempty, List.reverse_reverse]
    split_ifs
    · exact ⟨_, rfl, hkept⟩
    · have hp : Ledger.parent ⟨l.entries, opened⟩ = Assembly.parent ⟨a.outside, fs⟩ := hr.parent_eq
      rw [hp]
      cases pruned? t.name s.written t.written (Assembly.parent ⟨a.outside, fs⟩) with
      | none => exact ⟨_, rfl, hkept⟩
      | some w =>
        refine ⟨_, rfl, ?_⟩
        have htake : l.entries.take before.length = before := by simp [he]
        rw [htake]
        exact hr.push w

/-- No tag does any harm, and the ledger goes on to say what the assembly does. -/
theorem add (h : Represents l a tags) (t : Tag) :
    ∃ l', l.add t = .ok l' ∧ Represents l' (a.add (.tag t)) (openBehind tags t) := by
  have hp : t.startPart.written = '<' :: t.name ++ trimEnd t.attributes ++ ['>'] ∧
      t.endPart.written = '<' :: '/' :: t.name ++ ['>'] := by
    simp [Tag.startPart, Tag.endPart, Tag.written]
  by_cases hs : t.selfClosing
  · rw [Ledger.add, if_pos hs, Assembly.add, if_pos hs, openBehind, if_pos hs, h.parent_eq, hp.1, hp.2]
    exact ⟨_, rfl, h.push _⟩
  · rw [Ledger.add, if_neg hs, Assembly.add, if_neg hs]
    by_cases hc : t.closing
    · rw [if_pos hc, if_pos hc]
      exact h.close hs hc
    · rw [if_neg hc, if_neg hc, openBehind, if_neg hs, if_neg hc]
      exact ⟨_, rfl, h.inside t rfl⟩

theorem step (h : Represents l a tags) (s : Text × Tag) :
    ∃ l', l.step s = .ok l' ∧ Represents l' (a.step s) (openBehind tags s.2) :=
  (h.push s.1).add s.2

/-- However the tags follow each other, the run comes to its end. -/
theorem foldlM_step (h : Represents l a tags) (steps : List (Text × Tag)) :
    ∃ l', steps.foldlM Ledger.step l = .ok l' ∧
      Represents l' (steps.foldl Assembly.step a)
        ((steps.map Prod.snd).foldl openBehind tags) := by
  induction steps generalizing l a tags with
  | nil => exact ⟨l, rfl, h⟩
  | cons s steps ih =>
    obtain ⟨l', hl, hr⟩ := h.step s
    obtain ⟨l'', hl', hr'⟩ := ih hr
    exact ⟨l'', by rw [List.foldlM_cons, hl]; exact hl', hr'⟩

end Represents

namespace Ledger

theorem run_represents (steps : List (Text × Tag)) :
    ∃ l, run steps = .ok l ∧ Represents l (steps.foldl Assembly.step .empty)
      (openTags (steps.map Prod.snd)) :=
  Represents.foldlM_step (l := empty) (a := .empty) (.outside rfl) steps

end Ledger

/-! ## From the text to the output -/

/-- The steps of the ledger do what the pieces do one by one. -/
theorem foldl_cutAtTags (gap : Text) (ps : List Piece) (a : Assembly) :
    ((cutAtTags gap ps).1.foldl Assembly.step a).write (cutAtTags gap ps).2 =
      ps.foldl Assembly.add (a.write gap) := by
  induction ps generalizing gap a with
  | nil => rfl
  | cons p ps ih =>
    cases p with
    | char c => rw [cutAtTags, ih, List.foldl_cons, Assembly.add, Assembly.write_write]
    | tag t =>
      have h := ih [] ((a.write gap).add (.tag t))
      rwa [Assembly.write_nil] at h

theorem pruneByPlaces_eq (t : Text) : pruneByPlaces t = .ok (prune t) := by
  obtain ⟨l, hl, hr⟩ := Ledger.run_represents (cutAtTags [] (pieces t)).1
  have hw := (hr.push (cutAtTags [] (pieces t)).2).flatten_entries
  rw [foldl_cutAtTags, Assembly.write_nil] at hw
  simp only [pruneByPlaces, hl, bind, Except.bind, hw]
  rfl

/-- On any text, each step of the pruning by places goes well, and leaves each element on the stack with
the place of its own start tag. What comes out is the pruned text, and nothing is lost from it but blanks
and rows. -/
theorem pruneByPlaces_sound (t : Text) :
    let steps := (cutAtTags [] (pieces t)).1
    (∀ n, ∃ l, Ledger.run (steps.take n) = .ok l ∧ l.Sound (openTags ((steps.take n).map Prod.snd))) ∧
      pruneByPlaces t = .ok (prune t) ∧ Thinned (pieces t) (prune t) := by
  intro steps
  refine ⟨fun n => ?_, pruneByPlaces_eq t, thinned_prune t⟩
  obtain ⟨l, hl, hr⟩ := Ledger.run_represents (steps.take n)
  exact ⟨l, hl, hr.sound⟩

end Formula.Markup
