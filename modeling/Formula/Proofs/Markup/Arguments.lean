import Mathlib.Data.List.Forall2
import Formula.Proofs.Markup.Filling
import Formula.Proofs.Markup.Remains

/-! # Arguments keep their places

The children of some elements are told apart by their position. When missing arguments are filled and
empty nodes are pruned, each of these elements stays, and every child of it stays or a filler takes its
place; so no other child moves up. Only a table row would leave a gap.
-/

namespace Formula.Markup

open Text

/-- Elements of this name have their children told apart by their position. -/
def isPositional (name : Text) : Bool :=
  positional.contains (localName name)

namespace Element

def children (e : Element) : List Element :=
  (e.inside.getD .nil).children

def isTableRow (e : Element) : Bool :=
  localName e.label.name = "mtr".toList

def filler : Element :=
  ⟨⟨"mtext".toList, []⟩, some (.text zeroWidthSpace .nil)⟩

/-- As a child of an element with this label, the one is what the other is made into. It keeps its name,
or a filler has taken its place. -/
def Becomes (l : Label) (e e' : Element) : Prop :=
  prune (fillNone (Fragment.element l (e.before .nil) .nil).written) =
      (Fragment.element l (e'.before .nil) .nil).written ∧
    (e'.label.name = e.label.name ∨ e' = filler)

end Element

/-- The elements, at any depth, whose children are told apart by their position. -/
def Fragment.positionals (f : Fragment) : List Element :=
  f.elements.filter (isPositional ·.label.name)

/-- Blanks aside, the attributes do not end with a slash. Attributes in quotes never do. -/
def Label.EndsPlain (l : Label) : Prop :=
  (trimEnd l.attributes).getLast? ≠ some '/'

instance : DecidablePred Label.EndsPlain := fun l =>
  inferInstanceAs (Decidable ((trimEnd l.attributes).getLast? ≠ some '/'))

/-! ## Markup stays well formed -/

namespace Fragment

theorem wellFormed_zeroWidthSpace : (text zeroWidthSpace nil).WellFormed := by
  decide

theorem wellFormed_filler {next : Fragment} (h : next.WellFormed) : (filler next).WellFormed :=
  ⟨by decide, by decide, wellFormed_zeroWidthSpace, h⟩

theorem WellFormed.supplied {f : Fragment} (hf : f.WellFormed) : f.supplied.WellFormed := by
  induction f with
  | nil => trivial
  | text t next ih => exact ⟨hf.1, ih hf.2⟩
  | empty l next ih =>
    rw [Fragment.supplied]
    split_ifs
    · exact wellFormed_filler (ih hf.2)
    · exact ⟨hf.1, ih hf.2⟩
  | element l inside next ihi ihn =>
    obtain ⟨hl, hs, hi, hn⟩ := hf
    rw [Fragment.supplied]
    split_ifs
    · exact wellFormed_filler (ihn hn)
    · exact ⟨hl, hs, ihi hi, ihn hn⟩

theorem endsPlain_supplied {f : Fragment} (h : ∀ e ∈ f.elements, e.label.EndsPlain) :
    ∀ e ∈ f.supplied.elements, e.label.EndsPlain := by
  have hfiller : ∀ next : Fragment, (∀ e ∈ next.elements, e.label.EndsPlain) →
      ∀ e ∈ (filler next).elements, e.label.EndsPlain := fun next hn =>
    List.forall_mem_cons.mpr ⟨by decide, hn⟩
  induction f with
  | nil => exact h
  | text t next ih => exact ih h
  | empty l next ih =>
    obtain ⟨hl, hn⟩ := List.forall_mem_cons.mp h
    rw [supplied]
    split_ifs
    · exact hfiller _ (ih hn)
    · exact List.forall_mem_cons.mpr ⟨hl, ih hn⟩
  | element l inside next ihi ihn =>
    obtain ⟨hl, h⟩ := List.forall_mem_cons.mp h
    obtain ⟨hi, hn⟩ := List.forall_mem_append.mp h
    rw [supplied]
    split_ifs
    · exact hfiller _ (ihn hn)
    · exact List.forall_mem_cons.mpr ⟨hl, List.forall_mem_append.mpr ⟨ihi hi, ihn hn⟩⟩

end Fragment

theorem Label.WellFormed.trimmed {l : Label} (h : l.WellFormed) : l.trimmed.WellFormed where
  letter := h.letter
  name := h.name
  attributes c hc := by
    have hp : trimEnd l.attributes <+: l.attributes := by
      rw [trimEnd, ← List.reverse_suffix, List.reverse_reverse]
      exact List.dropWhile_suffix _
    obtain ⟨t, e⟩ := hp
    obtain ⟨r, hr⟩ := List.head?_eq_some_iff.mp hc
    refine h.attributes c ?_
    rw [← e, show trimEnd l.attributes = c :: r from hr]
    rfl
  plain c hc := by
    refine h.plain c ?_
    have hc' : c ∈ (l.attributes.reverse.dropWhile isBlank).reverse := hc
    rw [List.mem_reverse] at hc'
    exact List.mem_reverse.mp ((List.dropWhile_suffix _).subset hc')

namespace Fragment

theorem StandsIn.wellFormed {l : Label} {next g : Fragment} (h : StandsIn l next g) (hl : l.WellFormed)
    (hs : l.attributes.getLast? ≠ some '/') (hn : next.WellFormed) : g.WellFormed := by
  cases h with
  | dropped => exact hn
  | replaced => exact wellFormed_filler hn
  | filled hw =>
    refine ⟨hl, hs, ?_, hn⟩
    cases hw with
    | cell => exact wellFormed_filler trivial
    | text => exact wellFormed_zeroWidthSpace

theorem WellFormed.pruned {f : Fragment} (hf : f.WellFormed)
    (hp : ∀ e ∈ f.elements, e.label.EndsPlain) (parent : Option Text) :
    (f.pruned parent).WellFormed := by
  induction f generalizing parent with
  | nil => trivial
  | text t next ih => exact ⟨hf.1, ih hf.2 hp parent⟩
  | empty l next ih =>
    obtain ⟨hl, hn⟩ := List.forall_mem_cons.mp hp
    rcases pruned_empty_cases parent l next with ⟨-, e⟩ | ⟨-, h⟩
    · rw [e]
      exact ⟨hf.1, ih hf.2 hn parent⟩
    · exact h.wellFormed hf.1.trimmed hl (ih hf.2 hn parent)
  | element l inside next ihi ihn =>
    obtain ⟨-, hp⟩ := List.forall_mem_cons.mp hp
    obtain ⟨hpi, hpn⟩ := List.forall_mem_append.mp hp
    obtain ⟨hl, hs, hi, hn⟩ := hf
    rcases pruned_element_cases parent l inside next with ⟨-, e⟩ | ⟨-, -, h⟩
    · rw [e]
      exact ⟨hl, hs, ihi hi hpi _, ihn hn hpn parent⟩
    · exact h.wellFormed hl hs (ihn hn hpn parent)

/-! ## The children of one element -/

theorem pruned_filler (next : Fragment) (parent : Option Text) :
    (filler next).pruned parent = filler (next.pruned parent) := by
  have hv : isVacant "mtext".toList (text zeroWidthSpace nil).written = false := by decide
  rw [filler, filler, pruned, pruned, pruned]
  dsimp only
  rw [hv, if_neg Bool.false_ne_true]

end Fragment

theorem isPositional_iff {name : Text} (h : isPositional name = true) :
    isPrunable name = false ∧ name ≠ noneName := by
  have hp : ∀ local' ∈ positional, ["mrow", "mtr", "mtd", "mtext"].contains (String.ofList local') = false ∧
      local' ≠ localName noneName := by decide
  have hl := hp _ (List.contains_iff_mem.mp h)
  exact ⟨hl.1, fun e => hl.2 (by rw [e])⟩

theorem eq_false_of_isPrunable {name : Text} (h : isPrunable name = true) :
    isPositional name = false := by
  cases hp : isPositional name with
  | false => rfl
  | true => simp [(isPositional_iff hp).1] at h

theorem isPositional_of_isMissing {l : Label} (h : l.isMissing = true) :
    isPositional l.name = false := by
  have hn : l.name = noneName := by
    simp only [Label.isMissing, Bool.and_eq_true, decide_eq_true_eq] at h
    exact h.1
  cases hp : isPositional l.name with
  | false => rfl
  | true => exact absurd hn (isPositional_iff hp).2

theorem fate_ne_dropped {parent name : Text} (hp : isPositional parent = true)
    (hr : localName name ≠ "mtr".toList) : fate (some parent) name ≠ .dropped := by
  have hname : String.ofList (localName name) ≠ "mtr" := fun e => hr (by rw [← e, String.toList_ofList])
  have hparent : (some parent).any (fun p => positional.contains (localName p)) = true := hp
  unfold fate
  dsimp only
  rw [if_pos hparent, if_neg hname]
  split_ifs <;> simp

/-- What an element of the name `parent` has of a child when the passes are done. -/
def Element.Yields (parent : Text) (e e' : Element) : Prop :=
  (e'.label.name = e.label.name ∨ e' = .filler) ∧ ∀ next : Fragment,
    (e.before next).supplied.pruned (some parent) = e'.before (next.supplied.pruned (some parent))

/-- The one is what the other is made into when it stays. -/
def Element.Stays (e e' : Element) : Prop :=
  e'.label = e.label ∧ List.Forall₂ (Yields e.label.name) e.children e'.children

theorem Fate.exists_before {fate : Fate} (h : fate ≠ .dropped) (l : Label) (e : Element) :
    ∃ e' : Element, (e' = e ∨ e'.label = l ∨ e' = .filler) ∧
      ∀ next, fate.apply l e.before next = e'.before next := by
  cases fate with
  | kept => exact ⟨e, .inl rfl, fun _ => rfl⟩
  | dropped => exact absurd rfl h
  | replaced => exact ⟨.filler, .inr (.inr rfl), fun _ => rfl⟩
  | filled inside => exact ⟨⟨l, some inside⟩, .inr (.inl rfl), fun _ => rfl⟩

/-- A child yields one element unless it is a table row. -/
theorem Element.exists_yields {parent : Text} (hp : isPositional parent = true) {e : Element}
    (hr : e.isTableRow = false) : ∃ e' : Element, Yields parent e e' := by
  have hd : fate (some parent) e.label.name ≠ .dropped :=
    fate_ne_dropped hp (by simpa [Element.isTableRow] using hr)
  have hfiller : ∀ next : Fragment, (Fragment.filler next).pruned (some parent) =
      Element.filler.before (next.pruned (some parent)) := fun next => Fragment.pruned_filler _ _
  obtain ⟨l, _ | inside⟩ := e
  · by_cases hm : l.isMissing = true
    · refine ⟨.filler, .inr rfl, fun next => ?_⟩
      rw [before, Fragment.supplied, if_pos hm, hfiller]
    · obtain ⟨e', he, ha⟩ := Fate.exists_before hd l.trimmed ⟨l, none⟩
      refine ⟨e', ?_, fun next => ?_⟩
      · rcases he with rfl | he | he
        · exact .inl rfl
        · exact .inl (by rw [he]; rfl)
        · exact .inr he
      · rw [before, Fragment.supplied, if_neg hm, Fragment.pruned, ← ha]
        rfl
  · by_cases hm : (l.isMissing && inside.isBlank) = true
    · refine ⟨.filler, .inr rfl, fun next => ?_⟩
      rw [before, Fragment.supplied, if_pos hm, hfiller]
    · let left := inside.supplied.pruned (some l.name)
      by_cases hv : isVacant l.name left.written = true
      · obtain ⟨e', he, ha⟩ := Fate.exists_before hd l ⟨l, some left⟩
        refine ⟨e', ?_, fun next => ?_⟩
        · rcases he with rfl | he | he
          · exact .inl rfl
          · exact .inl (by rw [he])
          · exact .inr he
        · rw [before, Fragment.supplied, if_neg hm, Fragment.pruned, ← ha]
          exact if_pos hv
      · refine ⟨⟨l, some left⟩, .inl rfl, fun next => ?_⟩
        rw [before, Fragment.supplied, if_neg hm, Fragment.pruned]
        exact if_neg hv

theorem Fragment.children_before (e : Element) (next : Fragment) :
    (e.before next).children = e :: next.children := by
  obtain ⟨l, _ | inside⟩ := e <;> rfl

namespace Fragment

/-- Each child yields one element, and their order is kept. -/
theorem forall₂_children {f : Fragment} {parent : Text} (hp : isPositional parent = true)
    (hr : ∀ e ∈ f.children, e.isTableRow = false) :
    List.Forall₂ (Element.Yields parent) f.children (f.supplied.pruned (some parent)).children := by
  have hcons : ∀ (e : Element) (next : Fragment), e.isTableRow = false →
      List.Forall₂ (Element.Yields parent) next.children
        (next.supplied.pruned (some parent)).children →
      List.Forall₂ (Element.Yields parent) (e.before next).children
        ((e.before next).supplied.pruned (some parent)).children := by
    intro e next he hn
    obtain ⟨e', hy⟩ := Element.exists_yields hp he
    rw [hy.2, children_before, children_before]
    exact .cons hy hn
  induction f with
  | nil => exact .nil
  | text t next ih => exact ih hr
  | empty l next ih =>
    obtain ⟨hl, hn⟩ := List.forall_mem_cons.mp hr
    exact hcons ⟨l, none⟩ next hl (ih hn)
  | element l inside next _ ih =>
    obtain ⟨hl, hn⟩ := List.forall_mem_cons.mp hr
    exact hcons ⟨l, some inside⟩ next hl (ih hn)

/-! ## The elements with positions -/

theorem positionals_empty (l : Label) (next : Fragment) : (empty l next).positionals =
    (if isPositional l.name then [⟨l, none⟩] else []) ++ next.positionals := by
  rw [positionals, elements, List.filter_cons]
  split_ifs <;> rfl

theorem positionals_element (l : Label) (inside next : Fragment) :
    (element l inside next).positionals =
      (if isPositional l.name then [⟨l, some inside⟩] else []) ++
        (inside.positionals ++ next.positionals) := by
  rw [positionals, elements, List.filter_cons, List.filter_append]
  split_ifs <;> rfl

theorem positionals_filler (next : Fragment) : (filler next).positionals = next.positionals := by
  have hn : isPositional "mtext".toList = false := by decide
  rw [filler, positionals_element]
  dsimp only
  rw [hn]
  rfl

theorem IsText.positionals_eq {f : Fragment} (hf : f.IsText) : f.positionals = [] := by
  induction f with
  | nil => rfl
  | text t next ih => exact ih hf
  | empty => cases hf
  | element => cases hf

theorem StandsIn.positionals_eq {l : Label} {next g : Fragment} (h : StandsIn l next g)
    (hl : isPositional l.name = false) : g.positionals = next.positionals := by
  cases h with
  | dropped => rfl
  | replaced => exact positionals_filler next
  | filled hw =>
    rw [positionals_element, hl]
    cases hw with
    | cell => rfl
    | text => rfl

/-- Each element with positions stays, with what its children yield. -/
theorem forall₂_positionals {f : Fragment}
    (hr : ∀ e ∈ f.positionals, ∀ c ∈ e.children, c.isTableRow = false) (parent : Option Text) :
    List.Forall₂ Element.Stays f.positionals (f.supplied.pruned parent).positionals := by
  induction f generalizing parent with
  | nil => exact .nil
  | text t next ih => exact ih hr parent
  | empty l next ih =>
    rw [positionals_empty] at hr ⊢
    have hn := ih (fun e he => hr e (List.mem_append_right _ he)) parent
    by_cases hm : l.isMissing = true
    · rw [supplied, if_pos hm, isPositional_of_isMissing hm, pruned_filler, positionals_filler]
      exact hn
    · rw [supplied, if_neg hm]
      rcases pruned_empty_cases parent l next.supplied with ⟨-, e⟩ | ⟨hp, h⟩
      · rw [e, positionals_empty]
        refine List.rel_append ?_ hn
        split_ifs
        · exact .cons ⟨rfl, .nil⟩ .nil
        · exact .nil
      · rw [h.positionals_eq (eq_false_of_isPrunable hp), eq_false_of_isPrunable hp]
        exact hn
  | element l inside next ihi ihn =>
    rw [positionals_element] at hr ⊢
    have hi := ihi (fun e he => hr e (List.mem_append_right _ (List.mem_append_left _ he))) (some l.name)
    have hn := ihn (fun e he => hr e (List.mem_append_right _ (List.mem_append_right _ he))) parent
    by_cases hm : (l.isMissing && inside.isBlank) = true
    · obtain ⟨hl, hb⟩ := Bool.and_eq_true_iff.mp hm
      rw [supplied, if_pos hm, isPositional_of_isMissing hl, (isText_of_isBlank hb).positionals_eq,
        pruned_filler, positionals_filler]
      exact hn
    · rw [supplied, if_neg hm]
      rcases pruned_element_cases parent l inside.supplied next.supplied with ⟨-, e⟩ | ⟨hp, hb, h⟩
      · rw [e, positionals_element]
        refine List.rel_append ?_ (List.rel_append hi hn)
        split_ifs with hl
        · exact .cons ⟨rfl, forall₂_children hl (hr ⟨l, some inside⟩ (by simp [hl]))⟩ .nil
        · exact .nil
      -- Nothing but blanks is left inside, so there was no element with positions.
      · rw [(isText_of_isBlank hb).positionals_eq, List.forall₂_nil_right_iff] at hi
        rw [hi, h.positionals_eq (eq_false_of_isPrunable hp), eq_false_of_isPrunable hp]
        exact hn

/-! ## The children as they are written -/

theorem mem_elements_of_mem_children {f : Fragment} {e : Element} (h : e ∈ f.children) :
    e ∈ f.elements := by
  induction f with
  | nil => exact h
  | text t next ih => exact ih h
  | empty l next ih => exact List.mem_cons.mpr ((List.mem_cons.mp h).imp_right ih)
  | element l inside next _ ih =>
    exact List.mem_cons.mpr ((List.mem_cons.mp h).imp_right fun h => List.mem_append_right _ (ih h))

theorem WellFormed.before_of_mem {f : Fragment} (hf : f.WellFormed) :
    ∀ e ∈ f.elements, (e.before nil).WellFormed := by
  induction f with
  | nil => simp [elements]
  | text t next ih => exact ih hf.2
  | empty l next ih => exact List.forall_mem_cons.mpr ⟨⟨hf.1, trivial⟩, ih hf.2⟩
  | element l inside next ihi ihn =>
    obtain ⟨hl, hs, hi, hn⟩ := hf
    exact List.forall_mem_cons.mpr
      ⟨⟨hl, hs, hi, trivial⟩, List.forall_mem_append.mpr ⟨ihi hi, ihn hn⟩⟩

theorem WellFormed.prune_fillNone {f : Fragment} (hf : f.WellFormed) :
    prune (fillNone f.written) = (f.supplied.pruned none).written := by
  rw [hf.fillNone_written, prune, hf.supplied.foldl_add_empty, Assembly.written_write_empty]

end Fragment

namespace Element

/-- What a child yields is what becomes of it as the only child. -/
theorem Yields.becomes {l : Label} {e e' : Element} (h : Yields l.name e e')
    (hl : isPositional l.name = true) (hw : (Fragment.element l (e.before .nil) .nil).WellFormed) :
    Becomes l e e' := by
  refine ⟨?_, h.1⟩
  have hm : ¬ (l.isMissing && (e.before .nil).isBlank) = true := fun hm => by
    simp [isPositional_of_isMissing (Bool.and_eq_true_iff.mp hm).1] at hl
  have hk : fate none l.name = .kept := fate_eq_kept_iff.mpr (isPositional_iff hl).1
  rw [hw.prune_fillNone, Fragment.supplied, if_neg hm, Fragment.pruned, h.2, hk]
  split_ifs <;> rfl

theorem Stays.becomes {e e' : Element} (h : e.Stays e') (hl : isPositional e.label.name = true)
    (hw : (e.before .nil).WellFormed) :
    e'.label = e.label ∧ List.Forall₂ (Becomes e.label) e.children e'.children := by
  obtain ⟨l, _ | inside⟩ := e
  · refine ⟨h.1, ?_⟩
    rw [List.forall₂_nil_left_iff.mp h.2]
    exact .nil
  · obtain ⟨hwl, hs, hi, -⟩ := hw
    have hc : ∀ c ∈ inside.children, (Fragment.element l (c.before .nil) .nil).WellFormed :=
      fun c hc => ⟨hwl, hs, hi.before_of_mem c (Fragment.mem_elements_of_mem_children hc), trivial⟩
    exact ⟨h.1, ((List.forall₂_and_left _ _).mpr ⟨hc, h.2⟩).imp fun c c' hcc => hcc.2.becomes hl hcc.1⟩

end Element

end Formula.Markup
