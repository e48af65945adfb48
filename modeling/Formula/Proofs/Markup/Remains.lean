import Formula.Proofs.Markup.Scanning

/-! # What is left after pruning

An element in which nothing is left is kept, or something stands in for it in which something is left.
So there is nothing to prune in what is left. No root and no element that marks a missing argument goes.
-/

namespace Formula.Markup

open Text

/-- An element of this name does not stay as it is when nothing is left in it. -/
def isPrunable (name : Text) : Bool :=
  ["mrow", "mtr", "mtd", "mtext"].contains (String.ofList (localName name))

theorem fate_eq_kept_iff {parent : Option Text} {name : Text} :
    fate parent name = .kept ↔ isPrunable name = false := by
  unfold fate isPrunable
  dsimp only
  split_ifs <;> simp_all

theorem allBlank_of_isVacant {name t : Text} (h : isVacant name t = true) : allBlank t = true := by
  unfold isVacant at h
  split_ifs at h
  · rw [List.isEmpty_iff.mp h]
    rfl
  · exact h

namespace Fragment

/-- What an element is filled with. -/
inductive Padding : Fragment → Prop
  | cell : Padding (filler nil)
  | text : Padding (text zeroWidthSpace nil)

/-- What may stand for an element in which nothing is left, in front of `next`. -/
inductive StandsIn (l : Label) (next : Fragment) : Fragment → Prop
  | dropped : StandsIn l next next
  | replaced : StandsIn l next (filler next)
  | filled {inside : Fragment} : Padding inside → StandsIn l next (element l inside next)

/-- Something is left in every element that would not stay as it is otherwise. -/
def Full : Fragment → Prop
  | nil => True
  | text _ next => next.Full
  | empty l next => isPrunable l.name = false ∧ next.Full
  | element l inside next =>
    (isVacant l.name inside.written = true → isPrunable l.name = false) ∧ inside.Full ∧ next.Full

theorem standsIn_apply {parent : Option Text} {name : Text} (h : isPrunable name = true) (l : Label)
    (whole : Fragment → Fragment) (next : Fragment) :
    StandsIn l next ((fate parent name).apply l whole next) := by
  have hk : fate parent name ≠ .kept := fun hk => by simp [fate_eq_kept_iff.mp hk] at h
  revert hk
  unfold fate
  dsimp only
  split_ifs <;> intro hk
  · exact .replaced
  · exact .dropped
  · exact .dropped
  · exact .filled .cell
  · exact .filled .text
  · exact absurd rfl hk

theorem pruned_empty_cases (parent : Option Text) (l : Label) (next : Fragment) :
    isPrunable l.name = false ∧ (empty l next).pruned parent = empty l (next.pruned parent) ∨
      isPrunable l.name = true ∧
        StandsIn l.trimmed (next.pruned parent) ((empty l next).pruned parent) := by
  rw [pruned]
  cases h : isPrunable l.name with
  | false => exact .inl ⟨rfl, by rw [fate_eq_kept_iff.mpr h]; rfl⟩
  | true => exact .inr ⟨rfl, standsIn_apply h _ _ _⟩

theorem pruned_element_cases (parent : Option Text) (l : Label) (inside next : Fragment) :
    (isVacant l.name (inside.pruned (some l.name)).written = true → isPrunable l.name = false) ∧
        (element l inside next).pruned parent =
          element l (inside.pruned (some l.name)) (next.pruned parent) ∨
      isPrunable l.name = true ∧ (inside.pruned (some l.name)).isBlank = true ∧
        StandsIn l (next.pruned parent) ((element l inside next).pruned parent) := by
  rw [pruned]
  cases h : isPrunable l.name with
  | false =>
    refine .inl ⟨fun _ => rfl, ?_⟩
    rw [fate_eq_kept_iff.mpr h]
    split_ifs <;> rfl
  | true =>
    split_ifs with hv
    · rw [← allBlank_written]
      exact .inr ⟨rfl, allBlank_of_isVacant hv, standsIn_apply h _ _ _⟩
    · exact .inl ⟨fun h => absurd h hv, rfl⟩

namespace Padding

variable {w : Fragment} (h : Padding w)

include h

theorem isVacant_eq (name : Text) : isVacant name w.written = false := by
  have hw : allBlank w.written = false := by cases h <;> decide
  cases hv : isVacant name w.written with
  | false => rfl
  | true => simp [allBlank_of_isVacant hv] at hw

theorem regular : w.Regular := by
  cases h with
  | cell => exact regular_filler trivial
  | text => exact regular_zeroWidthSpace

theorem firstRoot?_eq : w.firstRoot? = none := by
  cases h with
  | cell => exact firstRoot?_filler nil
  | text => rfl

theorem nones_eq : w.nones = [] := by
  cases h with
  | cell => exact nones_filler nil
  | text => rfl

theorem shows_eq : w.shows = false := by
  cases h with
  | cell => exact shows_filler nil
  | text => decide

end Padding

theorem full_filler {next : Fragment} (h : next.Full) : (filler next).Full :=
  ⟨fun hv => absurd hv (by rw [Padding.text.isVacant_eq]; decide), trivial, h⟩

theorem Padding.full {w : Fragment} (h : Padding w) : w.Full := by
  cases h with
  | cell => exact full_filler trivial
  | text => trivial

/-! ## The tree after the pass -/

theorem Full.pruned_eq {f : Fragment} (hf : f.Full) (parent : Option Text) : f.pruned parent = f := by
  induction f generalizing parent with
  | nil => rfl
  | text t next ih => rw [pruned, ih hf]
  | empty l next ih => rw [pruned, fate_eq_kept_iff.mpr hf.1, ih hf.2, Fate.apply]
  | element l inside next ihi ihn =>
    obtain ⟨h, hi, hn⟩ := hf
    rw [pruned, ihi hi, ihn hn]
    split_ifs with hv
    · rw [fate_eq_kept_iff.mpr (h hv), Fate.apply]
    · rfl

theorem StandsIn.full {l : Label} {next g : Fragment} (h : StandsIn l next g) (hn : next.Full) :
    g.Full := by
  cases h with
  | dropped => exact hn
  | replaced => exact full_filler hn
  | filled hw => exact ⟨fun hv => by simp [hw.isVacant_eq] at hv, hw.full, hn⟩

theorem full_pruned (f : Fragment) (parent : Option Text) : (f.pruned parent).Full := by
  induction f generalizing parent with
  | nil => trivial
  | text t next ih => exact ih parent
  | empty l next ih =>
    rcases pruned_empty_cases parent l next with ⟨h, e⟩ | ⟨-, h⟩
    · rw [e]
      exact ⟨h, ih parent⟩
    · exact h.full (ih parent)
  | element l inside next ihi ihn =>
    rcases pruned_element_cases parent l inside next with ⟨h, e⟩ | ⟨-, -, h⟩
    · rw [e]
      exact ⟨h, ihi _, ihn parent⟩
    · exact h.full (ihn parent)

theorem StandsIn.firstRoot?_eq {l : Label} {next g : Fragment} (h : StandsIn l next g)
    (hl : l.name ≠ math) : g.firstRoot? = next.firstRoot? := by
  cases h with
  | dropped => rfl
  | replaced => exact firstRoot?_filler next
  | filled hw => rw [firstRoot?, if_neg hl, hw.firstRoot?_eq, Option.none_or]

theorem ne_math_of_isPrunable {name : Text} (h : isPrunable name = true) : name ≠ math := by
  rintro rfl
  exact absurd h (by decide)

theorem firstRoot?_pruned (f : Fragment) (parent : Option Text) :
    (f.pruned parent).firstRoot? = f.firstRoot? := by
  induction f generalizing parent with
  | nil => rfl
  | text t next ih => exact ih parent
  | empty l next ih =>
    rcases pruned_empty_cases parent l next with ⟨-, e⟩ | ⟨hp, h⟩
    · rw [e, firstRoot?, firstRoot?, ih]
    · have hl := ne_math_of_isPrunable hp
      rw [h.firstRoot?_eq hl, ih, firstRoot?, if_neg hl]
  | element l inside next ihi ihn =>
    rcases pruned_element_cases parent l inside next with ⟨-, e⟩ | ⟨hp, hb, h⟩
    · rw [e, firstRoot?, firstRoot?, ihi, ihn]
    · have hl := ne_math_of_isPrunable hp
      have hi := (isText_of_isBlank hb).firstRoot?_eq
      rw [ihi] at hi
      rw [h.firstRoot?_eq hl, ihn, firstRoot?, if_neg hl, hi, Option.none_or]

theorem IsText.pruned_eq {f : Fragment} (hf : f.IsText) (parent : Option Text) :
    f.pruned parent = f := by
  induction f with
  | nil => rfl
  | text t next ih => rw [pruned, ih hf]
  | empty => cases hf
  | element => cases hf

theorem StandsIn.nones_eq {l : Label} {next g : Fragment} (h : StandsIn l next g)
    (hl : l.name ≠ noneName) : g.nones = next.nones := by
  cases h with
  | dropped => rfl
  | replaced => exact nones_filler next
  | filled hw => rw [nones, if_neg (fun h => hl h.1), hw.nones_eq, List.nil_append]

theorem ne_noneName_of_isPrunable {name : Text} (h : isPrunable name = true) : name ≠ noneName := by
  rintro rfl
  exact absurd h (by decide)

theorem Regular.nones_pruned {f : Fragment} (hf : f.Regular) (parent : Option Text) :
    (f.pruned parent).nones = f.nones := by
  induction f generalizing parent with
  | nil => rfl
  | text t next ih => exact ih hf.2.2 parent
  | empty l next ih =>
    rcases pruned_empty_cases parent l next with ⟨-, e⟩ | ⟨hp, h⟩
    · rw [e, nones, nones, ih hf.2]
    · have hl := ne_noneName_of_isPrunable hp
      rw [h.nones_eq hl, ih hf.2, nones, if_neg hl]
  | element l inside next ihi ihn =>
    obtain ⟨-, ht, hi, hn⟩ := hf
    rcases pruned_element_cases parent l inside next with ⟨-, e⟩ | ⟨hp, hb, h⟩
    · rw [e, nones, nones, ihi hi, ihn hn]
      by_cases hl : l.name = noneName
      · rw [(ht hl).pruned_eq]
      · simp [hl]
    · have hl := ne_noneName_of_isPrunable hp
      have hnil := (isText_of_isBlank hb).nones_eq
      rw [ihi hi] at hnil
      rw [h.nones_eq hl, ihn hn, nones, if_neg (fun h => hl h.1), hnil, List.nil_append]

theorem StandsIn.shows_imp {l : Label} {next g : Fragment} (h : StandsIn l next g)
    (hs : g.shows = true) : showsDot l.attributes = true ∨ next.shows = true := by
  cases h with
  | dropped => exact .inr hs
  | replaced => exact .inr (shows_filler next ▸ hs)
  | filled hw => simpa [shows, hw.shows_eq] using hs

theorem Regular.shows_of_shows_pruned {f : Fragment} (hf : f.Regular) {parent : Option Text}
    (h : (f.pruned parent).shows = true) : f.shows = true := by
  induction f generalizing parent with
  | nil => exact h
  | text t next ih =>
    rw [pruned, shows, Bool.or_eq_true] at h
    rw [shows, Bool.or_eq_true]
    exact h.imp id (ih hf.2.2)
  | empty l next ih =>
    rw [shows, Bool.or_eq_true]
    rcases pruned_empty_cases parent l next with ⟨-, e⟩ | ⟨-, hg⟩
    · rw [e, shows, Bool.or_eq_true] at h
      exact h.imp id (ih hf.2)
    · rw [hf.1.trimmed_eq] at hg
      exact (hg.shows_imp h).imp id (ih hf.2)
  | element l inside next ihi ihn =>
    obtain ⟨-, -, hi, hn⟩ := hf
    rw [shows, Bool.or_eq_true, Bool.or_eq_true]
    rcases pruned_element_cases parent l inside next with ⟨-, e⟩ | ⟨-, -, hg⟩
    · rw [e, shows, Bool.or_eq_true, Bool.or_eq_true] at h
      exact h.imp id (Or.imp (ihi hi) (ihn hn))
    · exact (hg.shows_imp h).imp id (fun h => .inr (ihn hn h))

theorem StandsIn.regular {l : Label} {next g : Fragment} (h : StandsIn l next g) (hl : l.Regular)
    (hne : l.name ≠ noneName) (hn : next.Regular) : g.Regular := by
  cases h with
  | dropped => exact hn
  | replaced => exact regular_filler hn
  | filled hw => exact ⟨hl, fun h => absurd h hne, hw.regular, hn⟩

theorem Regular.pruned {f : Fragment} (hf : f.Regular) (parent : Option Text) :
    (f.pruned parent).Regular := by
  induction f generalizing parent with
  | nil => trivial
  | text t next ih => exact ⟨hf.1, hf.2.1, ih hf.2.2 parent⟩
  | empty l next ih =>
    rcases pruned_empty_cases parent l next with ⟨-, e⟩ | ⟨hp, h⟩
    · rw [e]
      exact ⟨hf.1, ih hf.2 parent⟩
    · rw [hf.1.trimmed_eq] at h
      exact h.regular hf.1 (ne_noneName_of_isPrunable hp) (ih hf.2 parent)
  | element l inside next ihi ihn =>
    obtain ⟨hl, ht, hi, hn⟩ := hf
    rcases pruned_element_cases parent l inside next with ⟨-, e⟩ | ⟨hp, -, h⟩
    · rw [e]
      exact ⟨hl, fun h => ((ht h).pruned_eq _).symm ▸ ht h, ihi hi _, ihn hn parent⟩
    · exact h.regular hl (ne_noneName_of_isPrunable hp) (ihn hn parent)

theorem StandsIn.isTree_or_nil {l : Label} {g : Fragment} (h : StandsIn l nil g) :
    g.IsTree ∨ g = nil := by
  cases h with
  | dropped => exact .inr rfl
  | replaced => exact .inl (.inr ⟨_, _, rfl⟩)
  | filled => exact .inl (.inr ⟨_, _, rfl⟩)

/-- A tree may be dropped as a whole. -/
theorem IsTree.pruned {f : Fragment} (hf : f.IsTree) (parent : Option Text) :
    (f.pruned parent).IsTree ∨ f.pruned parent = nil := by
  rcases hf with ⟨l, rfl⟩ | ⟨l, inside, rfl⟩
  · rcases pruned_empty_cases parent l nil with ⟨-, e⟩ | ⟨-, h⟩
    · exact .inl (.inl ⟨_, e⟩)
    · exact h.isTree_or_nil
  · rcases pruned_element_cases parent l inside nil with ⟨-, e⟩ | ⟨-, -, h⟩
    · exact .inl (.inr ⟨_, _, e⟩)
    · exact h.isTree_or_nil

end Fragment

end Formula.Markup
