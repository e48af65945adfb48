import Formula.Markup.CleanUp
import Formula.Proofs.Markup.Declaring
import Formula.Proofs.Markup.Filling
import Formula.Proofs.Markup.Marking
import Formula.Proofs.Markup.Remains
import Formula.Proofs.Markup.Stripping

/-! # Cleaning up twice

What one pass has done stays done in the passes after it, with one exception: stripping may leave an
element that marks a missing argument without attributes, and then it is one that should have been
filled. Apart from that a second run finds nothing to do.
-/

namespace Formula.Markup

open Text

/-! ## What later passes keep -/

namespace Label.Regular

variable {l : Label} (h : l.Regular)

include h

theorem declares_stripped : l.stripped.declares = l.declares := by
  obtain ⟨as, has, e, e'⟩ := h.exists_stripped
  have hx : xmlns ≠ [] ∧ ' ' ∉ xmlns ∧ '=' ∉ xmlns ∧ '"' ∉ xmlns := by decide
  have hlayout : ∀ name ∈ layoutNames, occurs xmlns name = false := by decide
  have hkept : ∀ a ∈ as, xmlns <:+: a.name ∨ xmlns <:+: a.value → a.isLayout = false := by
    rintro a ha (hi | hi)
    · cases hl : a.isLayout with
      | false => rfl
      | true =>
        have hn := hlayout a.name (List.contains_iff_mem.mp hl)
        simp [occurs_iff.mpr hi] at hn
    · have hu := (has a ha).undeclared
      simp [occurs_iff.mpr hi] at hu
  rw [Label.declares, Label.declares, e, e', Bool.eq_iff_iff, occurs_iff, occurs_iff,
    infix_writtenAttributes_iff hx.1 hx.2.1 hx.2.2.1 hx.2.2.2,
    infix_writtenAttributes_iff hx.1 hx.2.1 hx.2.2.1 hx.2.2.2]
  constructor
  · rintro ⟨a, ha, hi⟩
    exact ⟨a, (List.mem_filter.mp ha).1, hi⟩
  · rintro ⟨a, ha, hi⟩
    exact ⟨a, List.mem_filter.mpr ⟨ha, by rw [hkept a ha hi]; rfl⟩, hi⟩

theorem lacksAccent_stripped : l.stripped.lacksAccent = l.lacksAccent := by
  obtain ⟨as, has, e, e'⟩ := h.exists_stripped
  have hlayout : ∀ name ∈ layoutNames, setsAccent false (name ++ ['=']) = false := by decide
  have hany : (as.filter (!·.isLayout)).any Attribute.setsAccent = as.any Attribute.setsAccent := by
    rw [List.any_filter]
    congr 1
    funext a
    cases hl : a.isLayout with
    | false => rfl
    | true =>
      have hn := hlayout a.name (List.contains_iff_mem.mp hl)
      rw [Attribute.setsAccent, hn]
      rfl
  rw [Label.lacksAccent, Label.lacksAccent, e, e', setsAccent_writtenAttributes has,
    setsAccent_writtenAttributes fun a ha => has a (List.mem_filter.mp ha).1, hany]
  rfl

end Label.Regular

namespace Fragment

theorem marked_filler {next : Fragment} (h : next.Marked) : (filler next).Marked :=
  ⟨fun _ => rfl, trivial, h⟩

theorem Marked.filled {f : Fragment} (hf : f.Marked) : f.filled.Marked := by
  induction f with
  | nil => trivial
  | text t next ih => exact ih hf
  | empty l next ih =>
    rw [Fragment.filled]
    split_ifs
    · exact marked_filler (ih hf)
    · exact ih hf
  | element l inside next ihi ihn =>
    obtain ⟨h, hi, hn⟩ := hf
    rw [Fragment.filled]
    split_ifs
    · exact marked_filler (ihn hn)
    · exact ⟨fun hs => h (shows_of_shows_filled hs), ihi hi, ihn hn⟩

theorem StandsIn.marked {l : Label} {next g : Fragment} (h : StandsIn l next g) (hn : next.Marked) :
    g.Marked := by
  cases h with
  | dropped => exact hn
  | replaced => exact marked_filler hn
  | filled hw =>
    refine ⟨fun hs => by simp [hw.shows_eq] at hs, ?_, hn⟩
    cases hw with
    | cell => exact marked_filler trivial
    | text => trivial

theorem Marked.pruned {f : Fragment} (hf : f.Marked) (hr : f.Regular) (parent : Option Text) :
    (f.pruned parent).Marked := by
  induction f generalizing parent with
  | nil => trivial
  | text t next ih => exact ih hf hr.2.2 parent
  | empty l next ih =>
    rcases pruned_empty_cases parent l next with ⟨-, e⟩ | ⟨-, h⟩
    · rw [e]
      exact ih hf hr.2 parent
    · exact h.marked (ih hf hr.2 parent)
  | element l inside next ihi ihn =>
    obtain ⟨hm, hi, hn⟩ := hf
    obtain ⟨-, -, hri, hrn⟩ := hr
    rcases pruned_element_cases parent l inside next with ⟨-, e⟩ | ⟨-, -, h⟩
    · rw [e]
      exact ⟨fun hs => hm (hri.shows_of_shows_pruned hs), ihi hi hri _, ihn hn hrn parent⟩
    · exact h.marked (ihn hn hrn parent)

theorem Marked.stripped {f : Fragment} (hf : f.Marked) (hr : f.Regular) : f.stripped.Marked := by
  induction f with
  | nil => trivial
  | text t next ih => exact ih hf hr.2.2
  | empty l next ih => exact ih hf hr.2
  | element l inside next ihi ihn =>
    obtain ⟨hm, hi, hn⟩ := hf
    obtain ⟨hl, -, hri, hrn⟩ := hr
    refine ⟨fun hs => ?_, ihi hi hri, ihn hn hrn⟩
    rw [hl.lacksAccent_stripped]
    exact hm (hri.shows_of_shows_stripped hs)

theorem Full.filled {f : Fragment} (hf : f.Full) : f.filled.Full := by
  induction f with
  | nil => trivial
  | text t next ih => exact ih hf
  | empty l next ih =>
    rw [Fragment.filled]
    split_ifs
    · exact full_filler (ih hf.2)
    · exact ⟨hf.1, ih hf.2⟩
  | element l inside next ihi ihn =>
    obtain ⟨h, hi, hn⟩ := hf
    rw [Fragment.filled]
    split_ifs
    · exact full_filler (ihn hn)
    -- An element without more than blanks has no element in it that could have been filled.
    · refine ⟨fun hv => h ?_, ihi hi, ihn hn⟩
      have hb : inside.isBlank = true := by
        rw [← isBlank_filled, ← allBlank_written]
        exact allBlank_of_isVacant hv
      rwa [(isText_of_isBlank hb).filled_eq] at hv

theorem Full.stripped {f : Fragment} (hf : f.Full) : f.stripped.Full := by
  induction f with
  | nil => trivial
  | text t next ih => exact ih hf
  | empty l next ih => exact ⟨hf.1, ih hf.2⟩
  | element l inside next ihi ihn =>
    obtain ⟨h, hi, hn⟩ := hf
    refine ⟨fun hv => h ?_, ihi hi, ihn hn⟩
    have hb : inside.isBlank = true := by
      rw [← isBlank_stripped, ← allBlank_written]
      exact allBlank_of_isVacant hv
    rwa [(isText_of_isBlank hb).stripped_eq] at hv

theorem stripped_filler {next : Fragment} (h : next.Stripped) : (filler next).Stripped :=
  ⟨by rw [Label.stripped, dropLayout_nil], trivial, h⟩

theorem Stripped.filled {f : Fragment} (hf : f.Stripped) : f.filled.Stripped := by
  induction f with
  | nil => trivial
  | text t next ih => exact ih hf
  | empty l next ih =>
    rw [Fragment.filled]
    split_ifs
    · exact stripped_filler (ih hf.2)
    · exact ⟨hf.1, ih hf.2⟩
  | element l inside next ihi ihn =>
    obtain ⟨hl, hi, hn⟩ := hf
    rw [Fragment.filled]
    split_ifs
    · exact stripped_filler (ihn hn)
    · exact ⟨hl, ihi hi, ihn hn⟩

/-! ## The tree that is cleaned up -/

def cleaned (f : Fragment) : Fragment :=
  (f.declared.marked.filled.pruned none).stripped

theorem firstRoot?_cleaned (f : Fragment) :
    f.cleaned.firstRoot? = f.firstRoot?.map (Label.stripped ∘ Label.declared) := by
  rw [cleaned, firstRoot?_stripped, firstRoot?_pruned, firstRoot?_filled, firstRoot?_marked,
    firstRoot?_declared, Option.map_map]

namespace Regular

variable {f : Fragment} (hf : f.Regular)

include hf

theorem cleanUp_written : cleanUp f.written = f.cleaned.written := by
  have hd := hf.declared
  have hm := hd.marked
  have hn := hm.filled
  rw [cleanUp, hf.declareNamespace_written, hd.accentDots_written, hm.fillNone_written, prune,
    hn.wellFormed.foldl_add_empty, Assembly.written_write_empty, (hn.pruned none).wellFormed.legible.stripLayout_written, cleaned]

theorem cleaned : f.cleaned.Regular :=
  (hf.declared.marked.filled.pruned none).stripped

theorem nones_cleaned : f.cleaned.nones = (f.nones.filter (· ≠ [])).map dropLayout := by
  rw [Fragment.cleaned, nones_stripped, hf.declared.marked.filled.nones_pruned, nones_filled,
    nones_marked, nones_declared]

theorem declared_cleaned : f.cleaned.declared = f.cleaned := by
  refine declared_of_declares fun r hr => ?_
  rw [firstRoot?_cleaned] at hr
  obtain ⟨l, hl, rfl⟩ := Option.map_eq_some_iff.mp hr
  rw [Function.comp_apply, (hf.regular_firstRoot l hl).declared.declares_stripped, l.declares_declared]

theorem marked_cleaned : f.cleaned.marked = f.cleaned := by
  have hm := hf.declared.marked
  exact (((hf.declared.marked_marked.filled).pruned hm.filled none).stripped
    (hm.filled.pruned none)).marked_eq

/-- In the second run only missing arguments are left to fill. -/
theorem cleaned_cleaned : f.cleaned.cleaned = f.cleaned.filled := by
  have hfull : f.cleaned.filled.Full := (full_pruned _ none).stripped.filled
  have hstripped : f.cleaned.filled.Stripped :=
    (hf.declared.marked.filled.pruned none).stripped_stripped.filled
  rw [Fragment.cleaned, hf.declared_cleaned, hf.marked_cleaned, hfull.pruned_eq, hstripped.stripped_eq]

end Regular

theorem IsTree.cleaned {f : Fragment} (hf : f.IsTree) :
    f.cleaned.IsTree ∨ f.cleaned = nil ∧ f.firstRoot? = none := by
  rcases hf.declared.marked.filled.pruned none with h | h
  · exact .inl h.stripped
  · have hnil : f.cleaned = nil := by
      rw [Fragment.cleaned, h]
      rfl
    have hr := firstRoot?_cleaned f
    rw [hnil] at hr
    exact .inr ⟨hnil, Option.map_eq_none_iff.mp hr.symm⟩

end Fragment

/-- Regular markup stays regular, and a tree stays one unless it has no root and nothing is left in it.
A second run changes nothing if and only if no element that marks a missing argument, with no more than
blanks in it, has layout attributes and no others. -/
theorem cleanUp_of_regular {f : Fragment} (hf : f.Regular) :
    (∃ g : Fragment, g.Regular ∧ cleanUp f.written = g.written ∧
      (f.IsTree → g.IsTree ∨ g = .nil ∧ f.firstRoot? = none)) ∧
    (cleanUp (cleanUp f.written) = cleanUp f.written ↔
      ∀ a ∈ f.nones, dropLayout a = [] → a = []) := by
  refine ⟨⟨f.cleaned, hf.cleaned, hf.cleanUp_written, fun h => h.cleaned⟩, ?_⟩
  rw [hf.cleanUp_written, hf.cleaned.cleanUp_written, hf.cleaned_cleaned,
    Fragment.written_filled_eq_iff, hf.nones_cleaned]
  simp only [List.mem_map, List.mem_filter, decide_eq_true_eq, not_exists, not_and]
  constructor
  · intro h a ha hd
    by_contra hne
    exact h a ⟨ha, hne⟩ hd
  · rintro h a ⟨ha, hne⟩ hd
    exact hne (h a ha hd)

/-- The second run fills what the first has stripped. -/
theorem cleanUp_of_regular_of_display :
    let f : Fragment := .element ⟨math, []⟩
      (.empty ⟨noneName, writtenAttributes [⟨"display".toList, "block".toList⟩]⟩ .nil) .nil
    f.Regular ∧ f.written = "<math><none display=\"block\"/></math>".toList ∧
      cleanUp (cleanUp f.written) ≠ cleanUp f.written := by
  intro f
  have ha : ∀ a ∈ [Attribute.mk "display".toList "block".toList], a.Regular := by decide
  have hmath : math.all Char.isAlpha = true := by decide
  have hnone : noneName.all Char.isAlpha = true := by decide
  have hf : f.Regular :=
    ⟨⟨by decide, List.all_eq_true.mp hmath, [], by simp, rfl⟩, fun h => absurd h (by decide),
      ⟨⟨by decide, List.all_eq_true.mp hnone, _, ha, rfl⟩, trivial⟩, trivial⟩
  refine ⟨hf, by decide, fun h => ?_⟩
  have hd : dropLayout (writtenAttributes [⟨"display".toList, "block".toList⟩]) = [] := by
    rw [dropLayout_writtenAttributes_nil ha]
    decide
  have hnil := (cleanUp_of_regular hf).2.mp h _ (by decide) hd
  exact absurd hnil (by decide)

end Formula.Markup
