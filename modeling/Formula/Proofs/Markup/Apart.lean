import Formula.Proofs.Markup.Prefixing

/-! # Trees that are nearly the same

Pruned with a prefix, a tree is what it is when it is pruned first, but for the accents that are marked,
the missing arguments that are filled, and the fillers that the pruning puts in. Each of these can be
told from what is written: the second has more characters in it that are no blanks.
-/

namespace Formula.Markup

open Text

/-! ## What is written -/

/-- The number of characters that are no blanks. -/
def ink (t : Text) : Nat :=
  t.countP (!isBlank ·)

@[simp] theorem ink_append (s t : Text) : ink (s ++ t) = ink s + ink t :=
  List.countP_append

theorem ink_eq_zero {t : Text} (h : allBlank t = true) : ink t = 0 := by
  refine List.countP_eq_zero.mpr fun c hc => ?_
  simp [isBlank_of_allBlank h c hc]

namespace Fragment

theorem ink_text (t : Text) (next : Fragment) :
    ink (text t next).written = ink t + ink next.written :=
  ink_append _ _

theorem ink_empty (l : Label) (next : Fragment) :
    ink (empty l next).written = ink l.name + ink l.attributes + 3 + ink next.written := by
  have hb : ink ['<'] = 1 ∧ ink ['/', '>'] = 2 := by decide
  have e : (empty l next).written =
      ['<'] ++ (l.name ++ (l.attributes ++ (['/', '>'] ++ next.written))) := by
    rw [written, l.emptyTag_append]
    rfl
  rw [e, ink_append, ink_append, ink_append, ink_append, hb.1, hb.2]
  omega

theorem ink_element (l : Label) (inside next : Fragment) :
    ink (element l inside next).written =
      2 * ink l.name + ink l.attributes + 5 + ink inside.written + ink next.written := by
  have hb : ink ['<'] = 1 ∧ ink ['>'] = 1 ∧ ink ['<', '/'] = 2 := by decide
  have e : (element l inside next).written = ['<'] ++ (l.name ++ (l.attributes ++ (['>'] ++
      (inside.written ++ (['<', '/'] ++ (l.name ++ (['>'] ++ next.written))))))) := by
    rw [written, l.startTag_append, l.endTag_append]
    rfl
  rw [e]
  simp only [ink_append, hb]
  omega

def qualifiedFiller (p : Text) (next : Fragment) : Fragment :=
  element ⟨qualified p "mtext".toList, []⟩ (text zeroWidthSpace nil) next

theorem ink_filler (next : Fragment) : ink (filler next).written = ink next.written + 23 := by
  have hf : ink (text zeroWidthSpace nil).written = 8 ∧ ink "mtext".toList = 5 ∧ ink [] = 0 := by
    decide
  rw [filler, ink_element]
  dsimp only
  omega

theorem ink_qualified (p name : Text) : ink (qualified p name) = ink p + ink name + 1 := by
  have hc : ink [':'] = 1 := by decide
  rw [qualified, List.append_cons, ink_append, ink_append, hc]
  omega

theorem ink_qualifiedFiller (p : Text) (next : Fragment) :
    ink (qualifiedFiller p next).written = ink next.written + 2 * ink p + 25 := by
  have hf : ink (text zeroWidthSpace nil).written = 8 ∧ ink "mtext".toList = 5 ∧ ink [] = 0 := by
    decide
  rw [qualifiedFiller, ink_element]
  dsimp only
  rw [ink_qualified]
  omega

theorem prefixed_filler (p : Text) (next : Fragment) :
    (filler next).prefixed p = qualifiedFiller p (next.prefixed p) := rfl

/-! ## The relation -/

/-- Two fragments with the prefix in front of their names are the same but for so many places: in the
second an accent has its mark, a filler has the prefix, and a filler stands for an element that marks a
missing argument. -/
inductive Apart (p : Text) : Nat → Fragment → Fragment → Prop
  | nil : Apart p 0 nil nil
  | text {n : Nat} {u v : Fragment} (t : Text) : Apart p n u v → Apart p n (text t u) (text t v)
  | empty {n : Nat} {u v : Fragment} (l : Label) : Apart p n u v → Apart p n (empty l u) (empty l v)
  | element {m n : Nat} {i j u v : Fragment} (l : Label) : Apart p m i j → Apart p n u v →
      Apart p (m + n) (element l i u) (element l j v)
  | marked {m n : Nat} {i j u v : Fragment} (l : Label) : Apart p m i j → Apart p n u v →
      Apart p (m + n + 1) (element l i u) (element (l.front accentAttribute) j v)
  | filler {n : Nat} {u v : Fragment} : Apart p n u v →
      Apart p (n + 1) (filler u) (qualifiedFiller p v)
  | missing {n : Nat} {u v : Fragment} {e : Element} : e.label.name = qualified p noneName →
      allBlank e.label.attributes = true → (e.inside.getD .nil).isBlank = true → Apart p n u v →
      Apart p (n + 1) (e.before u) (qualifiedFiller p v)

namespace Apart

variable {p : Text} {n : Nat} {u v : Fragment}

theorem ink_le (h : Apart p n u v) : ink u.written + n ≤ ink v.written := by
  have hmark : ink accentAttribute.written = 13 := by decide
  induction h with
  | nil => simp
  | text t _ ih =>
    rw [ink_text, ink_text]
    omega
  | empty l _ ih =>
    rw [ink_empty, ink_empty]
    omega
  | element l _ _ ihi ihn =>
    rw [ink_element, ink_element]
    omega
  | marked l _ _ ihi ihn =>
    rw [ink_element, ink_element, Label.front]
    simp only [ink_append, hmark]
    omega
  | filler _ ih =>
    rw [ink_filler, ink_qualifiedFiller]
    omega
  | @missing _ _ _ e hn ha hi _ ih =>
    have hnone : ink e.label.name = ink p + 5 := by
      rw [hn, ink_qualified, show ink noneName = 4 from by decide]
    have hattributes := ink_eq_zero ha
    have hinside := ink_eq_zero (allBlank_written _ ▸ hi)
    obtain ⟨l, _ | inside⟩ := e
    · rw [Element.before, ink_empty, ink_qualifiedFiller]
      dsimp only at hnone hattributes
      omega
    · rw [Element.before, ink_element, ink_qualifiedFiller]
      dsimp only [Option.getD_some] at hnone hattributes hinside
      omega

theorem eq_of_zero (h : Apart p n u v) (hz : n = 0) : u = v := by
  induction h with
  | nil => rfl
  | text t _ ih => rw [ih hz]
  | empty l _ ih => rw [ih hz]
  | element l _ _ ihi ihn => rw [ihi (by omega), ihn (by omega)]
  | marked => omega
  | filler => omega
  | missing => omega

theorem written_eq_iff (h : Apart p n u v) : u.written = v.written ↔ n = 0 := by
  refine ⟨fun e => ?_, fun hz => by rw [h.eq_of_zero hz]⟩
  have hle := h.ink_le
  rw [e] at hle
  omega

theorem isBlank_eq (h : Apart p n u v) : u.isBlank = v.isBlank := by
  induction h with
  | text t _ ih => rw [isBlank, isBlank, ih]
  | @missing _ _ _ e => obtain ⟨l, _ | inside⟩ := e <;> rfl
  | _ => rfl

theorem eq_zero_of_isBlank (h : Apart p n u v) (hb : u.isBlank = true) : n = 0 := by
  induction h with
  | nil => rfl
  | text t _ ih =>
    rw [isBlank, Bool.and_eq_true] at hb
    exact ih hb.2
  | @missing _ _ _ e => obtain ⟨l, _ | inside⟩ := e <;> cases hb
  | _ => cases hb

theorem stripped (h : Apart p n u v) : Apart p n u.stripped v.stripped := by
  induction h with
  | nil => exact .nil
  | text t _ ih => exact .text t ih
  | empty l _ ih => exact .empty l.stripped ih
  | element l _ _ ihi ihn => exact .element l.stripped ihi ihn
  | marked l _ _ ihi ihn =>
    rw [Fragment.stripped, Fragment.stripped, Label.stripped_front regular_accentAttribute (by decide)]
    exact .marked l.stripped ihi ihn
  | filler _ ih =>
    rw [stripped_filler_eq, qualifiedFiller, Fragment.stripped, Label.stripped_of_allBlank rfl]
    exact .filler ih
  | @missing _ _ _ e hn ha hi _ ih =>
    have he : ∀ next, (e.before next).stripped =
        Element.before next.stripped ⟨e.label, e.inside.map Fragment.stripped⟩ := by
      intro next
      obtain ⟨l, _ | inside⟩ := e <;>
        rw [Element.before, Fragment.stripped, Label.stripped_of_allBlank ha] <;> rfl
    rw [he, qualifiedFiller, Fragment.stripped, Label.stripped_of_allBlank rfl]
    refine .missing hn ha ?_ ih
    cases hin : e.inside with
    | none => rfl
    | some inside =>
      rw [hin] at hi
      rw [Option.map_some, Option.getD_some, isBlank_stripped]
      exact hi

end Apart

end Fragment

/-! ## What the pruning puts in -/

/-- An accent marks no missing argument. -/
theorem Label.isMissing_of_awaitsMark {l : Label} {inside : Fragment} (h : l.awaitsMark inside = true) :
    l.isMissing = false := by
  refine isMissing_of_ne ?_
  rw [name_eq_of_awaitsMark h]
  decide

def Fate.fillers : Fate → Nat
  | kept => 0
  | dropped => 0
  | replaced => 1
  | filled inside => inside.elements.length

namespace Fragment

/-- The number of fillers that the pruning puts into a fragment inside an element of the name `parent`. -/
def fillers (parent : Option Text) : Fragment → Nat
  | nil => 0
  | text _ next => next.fillers parent
  | empty l next => (fate parent l.name).fillers + next.fillers parent
  | element l inside next =>
    (if isVacant l.name (inside.pruned (some l.name)).written then (fate parent l.name).fillers else 0) +
      inside.fillers (some l.name) + next.fillers parent

theorem fillers_filler (next : Fragment) (parent : Option Text) :
    (filler next).fillers parent = next.fillers parent := by
  have hv : isVacant "mtext".toList ((text zeroWidthSpace nil).pruned (some "mtext".toList)).written =
      false := by decide
  rw [filler, fillers]
  dsimp only
  rw [hv]
  simp [fillers]

theorem apart_padding (p : Text) {w : Fragment} (h : Padding w) :
    Apart p w.elements.length w (w.prefixed p) := by
  cases h with
  | cell => exact .filler .nil
  | text => exact .text _ .nil

theorem padding_of_fate {parent : Option Text} {name : Text} {inside : Fragment}
    (h : fate parent name = .filled inside) : Padding inside := by
  unfold fate at h
  dsimp only at h
  split_ifs at h <;> cases h
  · exact .cell
  · exact .text

theorem apart_apply {p : Text} {n : Nat} {u w : Fragment} (h : Apart p n u (w.prefixed p))
    {parent : Option Text} {name : Text} (hk : fate parent name ≠ .kept) (l : Label)
    (whole whole' : Fragment → Fragment) :
    Apart p ((fate parent name).fillers + n) ((fate parent name).apply (l.prefixed p) whole u)
      (((fate parent name).apply l whole' w).prefixed p) := by
  cases hf : fate parent name with
  | kept => exact absurd hf hk
  | dropped =>
    rw [Fate.fillers, Nat.zero_add]
    exact h
  | replaced =>
    rw [Fate.fillers, Nat.add_comm]
    exact .filler h
  | filled inside => exact .element _ (apart_padding p (padding_of_fate hf)) h

theorem fate_noneName (parent : Option Text) : fate parent noneName = .kept :=
  fate_eq_kept_iff.mpr (by decide)

theorem fate_mover (parent : Option Text) : fate parent mover = .kept :=
  fate_eq_kept_iff.mpr (by decide)

theorem pruned_element_of_kept {parent : Option Text} {l : Label} {inside : Fragment}
    (h : isVacant l.name (inside.pruned (some l.name)).written = true → fate parent l.name = .kept)
    (next : Fragment) :
    (element l inside next).pruned parent =
      element l (inside.pruned (some l.name)) (next.pruned parent) := by
  rw [pruned]
  split_ifs with hv
  · rw [h hv]
    rfl
  · rfl

theorem isVacant_eq_false {f : Fragment} (h : f.isBlank = false) (name : Text) :
    isVacant name f.written = false := by
  refine Bool.eq_false_iff.mpr fun hv => ?_
  rw [← allBlank_written, allBlank_of_isVacant hv] at h
  cases h

theorem isBlank_prefixed (p : Text) (f : Fragment) : (f.prefixed p).isBlank = f.isBlank := by
  induction f with
  | nil => rfl
  | text t next ih => rw [prefixed, isBlank, isBlank, ih]
  | empty => rfl
  | element => rfl

theorem IsText.prefixed_eq {f : Fragment} (h : f.IsText) (p : Text) : f.prefixed p = f := by
  induction f with
  | nil => rfl
  | text t next ih => rw [prefixed, ih h]
  | empty => cases h
  | element => cases h

/-- As much is left in two fragments that are nearly the same. -/
theorem Apart.isVacant_eq {p : Text} {n : Nat} {u v : Fragment} (h : Apart p n u (v.prefixed p))
    (name : Text) : isVacant name u.written = isVacant name v.written := by
  have hb : u.isBlank = v.isBlank := h.isBlank_eq.trans (isBlank_prefixed p v)
  cases hu : u.isBlank with
  | true =>
    have hv : v.IsText := isText_of_isBlank (hb.symm.trans hu)
    rw [h.eq_of_zero (h.eq_zero_of_isBlank hu), hv.prefixed_eq]
  | false =>
    rw [isVacant_eq_false hu, isVacant_eq_false (hb.symm.trans hu)]

theorem IsText.elements_eq {f : Fragment} (h : f.IsText) : f.elements = [] := by
  induction f with
  | nil => rfl
  | text t next ih => exact ih h
  | empty => cases h
  | element => cases h

/-- The places in which a tree that is cleaned up without the prefix differs. -/
def slips (parent : Option Text) (f : Fragment) : Nat :=
  f.elements.countP Element.awaitsMark + f.elements.countP Element.isMissing +
    f.accented.supplied.fillers parent

theorem slips_eq_zero_iff {parent : Option Text} {f : Fragment} :
    f.slips parent = 0 ↔
      (∀ e ∈ f.elements, e.awaitsMark = false ∧ e.isMissing = false) ∧ f.fillers parent = 0 := by
  rw [slips, Nat.add_eq_zero_iff, Nat.add_eq_zero_iff, List.countP_eq_zero, List.countP_eq_zero]
  simp only [Bool.not_eq_true]
  constructor
  · rintro ⟨⟨ha, hm⟩, hf⟩
    rw [accented_eq_self ha, supplied_eq_self hm] at hf
    exact ⟨fun e he => ⟨ha e he, hm e he⟩, hf⟩
  · rintro ⟨h, hf⟩
    have ha : ∀ e ∈ f.elements, e.awaitsMark = false := fun e he => (h e he).1
    have hm : ∀ e ∈ f.elements, e.isMissing = false := fun e he => (h e he).2
    rw [accented_eq_self ha, supplied_eq_self hm]
    exact ⟨⟨ha, hm⟩, hf⟩

theorem slips_nil (parent : Option Text) : nil.slips parent = 0 := rfl

theorem slips_empty (parent : Option Text) (l : Label) (next : Fragment) :
    (empty l next).slips parent =
      (if l.isMissing then 1 else (fate parent l.name).fillers) + next.slips parent := by
  have ha : ¬ Element.awaitsMark ⟨l, none⟩ = true := Bool.false_ne_true
  have hm : Element.isMissing ⟨l, none⟩ = l.isMissing := Bool.and_true _
  rw [slips, elements, List.countP_cons_of_neg ha, List.countP_cons, hm, accented, supplied, slips]
  split_ifs with h
  · rw [fillers_filler]
    omega
  · rw [fillers]
    omega

theorem supplied_accented_element (l : Label) (inside next : Fragment) :
    (element l inside next).accented.supplied =
      if l.isMissing && inside.isBlank then filler next.accented.supplied
      else element (if l.awaitsMark inside then l.front accentAttribute else l) inside.accented.supplied
        next.accented.supplied := by
  have hm : (if l.awaitsMark inside then l.front accentAttribute else l).isMissing = l.isMissing := by
    split_ifs with h
    · have hn : (l.front accentAttribute).name ≠ noneName := by
        rw [Label.front, l.name_eq_of_awaitsMark h]
        decide
      rw [Label.isMissing_of_ne hn, Label.isMissing_of_awaitsMark h]
    · rfl
  rw [accented, supplied, isBlank_accented, hm]

theorem slips_element_of_missing {parent : Option Text} {l : Label} {inside next : Fragment}
    (hm : (l.isMissing && inside.isBlank) = true) :
    (element l inside next).slips parent = 1 + next.slips parent := by
  have hb : inside.isBlank = true := (Bool.and_eq_true_iff.mp hm).2
  have ha : ¬ Element.awaitsMark ⟨l, some inside⟩ = true := fun h => by
    simp [l.isMissing_of_awaitsMark h] at hm
  have hm' : Element.isMissing ⟨l, some inside⟩ = true := hm
  rw [slips, elements, (isText_of_isBlank hb).elements_eq, List.nil_append,
    List.countP_cons_of_neg ha, List.countP_cons_of_pos hm', supplied_accented_element, if_pos hm,
    fillers_filler, slips]
  omega

theorem slips_element_of_not_missing {parent : Option Text} {l : Label} {inside next : Fragment}
    (hm : ¬ (l.isMissing && inside.isBlank) = true) :
    (element l inside next).slips parent =
      (if l.awaitsMark inside then 1 else 0) +
      (if isVacant l.name (inside.accented.supplied.pruned (some l.name)).written then
        (fate parent l.name).fillers else 0) +
      inside.slips (some l.name) + next.slips parent := by
  have ha : Element.awaitsMark ⟨l, some inside⟩ = l.awaitsMark inside := rfl
  have hm' : ¬ Element.isMissing ⟨l, some inside⟩ = true := hm
  have hname : (if l.awaitsMark inside then l.front accentAttribute else l).name = l.name := by
    split_ifs <;> rfl
  rw [slips, elements, List.countP_cons, ha, List.countP_cons_of_neg hm', List.countP_append,
    List.countP_append, supplied_accented_element, if_neg hm, fillers, hname, slips, slips]
  omega

section Pruned

variable {p : Text} {parent : Option Text} {l : Label} {inside next : Fragment} (hl : ':' ∉ l.name)
  (hp : ∀ q ∈ parent, ':' ∉ q)
  (hn : Apart p (next.slips parent) ((next.prefixed p).pruned (parent.map (qualified p)))
    ((next.accented.supplied.pruned parent).prefixed p))

include hl hp hn

theorem apart_pruned_empty :
    Apart p ((empty l next).slips parent)
      (((empty l next).prefixed p).pruned (parent.map (qualified p)))
      (((empty l next).accented.supplied.pruned parent).prefixed p) := by
  rw [slips_empty, prefixed, pruned, Label.prefixed, fate_qualified p hl hp, accented, supplied]
  split_ifs with hm
  · rw [Label.isMissing, Bool.and_eq_true, decide_eq_true_eq] at hm
    have hk : fate parent l.name = .kept := by rw [hm.1, fate_noneName]
    rw [hk, pruned_filler, prefixed_filler, Nat.add_comm]
    exact .missing (e := ⟨l.prefixed p, none⟩) (congrArg (qualified p) hm.1) hm.2 rfl hn
  · rw [pruned]
    by_cases hk : fate parent l.name = .kept
    · rw [hk, Fate.fillers, Nat.zero_add]
      exact .empty (l.prefixed p) hn
    · exact apart_apply hn hk l.trimmed _ _

theorem apart_pruned_of_missing (hm : (l.isMissing && inside.isBlank) = true) :
    Apart p ((element l inside next).slips parent)
      (((element l inside next).prefixed p).pruned (parent.map (qualified p)))
      (((element l inside next).accented.supplied.pruned parent).prefixed p) := by
  have hf : fate (parent.map (qualified p)) (l.prefixed p).name = fate parent l.name :=
    fate_qualified p hl hp
  have hm' := hm
  rw [Bool.and_eq_true, Label.isMissing, Bool.and_eq_true, decide_eq_true_eq] at hm'
  obtain ⟨⟨hname, ha⟩, hb⟩ := hm'
  have ht : inside.IsText := isText_of_isBlank hb
  rw [supplied_accented_element, prefixed, slips_element_of_missing hm, if_pos hm, pruned_filler,
    prefixed_filler, Nat.add_comm, pruned_element_of_kept fun _ => by rw [hf, hname, fate_noneName],
    ht.prefixed_eq, ht.pruned_eq]
  exact .missing (e := ⟨l.prefixed p, some inside⟩) (congrArg (qualified p) hname) ha hb hn

theorem apart_pruned_of_not_missing (hm : ¬ (l.isMissing && inside.isBlank) = true)
    (hi : Apart p (inside.slips (some l.name))
      ((inside.prefixed p).pruned (some (qualified p l.name)))
      ((inside.accented.supplied.pruned (some l.name)).prefixed p)) :
    Apart p ((element l inside next).slips parent)
      (((element l inside next).prefixed p).pruned (parent.map (qualified p)))
      (((element l inside next).accented.supplied.pruned parent).prefixed p) := by
  have hf : fate (parent.map (qualified p)) (l.prefixed p).name = fate parent l.name :=
    fate_qualified p hl hp
  have hv : isVacant (l.prefixed p).name
      ((inside.prefixed p).pruned (some (l.prefixed p).name)).written =
        isVacant l.name (inside.accented.supplied.pruned (some l.name)).written :=
    (isVacant_qualified p hl _).trans (hi.isVacant_eq l.name)
  rw [supplied_accented_element, prefixed, slips_element_of_not_missing hm, if_neg hm]
  by_cases hk : isVacant l.name (inside.accented.supplied.pruned (some l.name)).written = true →
      fate parent l.name = .kept
  · have hzero : (if isVacant l.name (inside.accented.supplied.pruned (some l.name)).written then
        (fate parent l.name).fillers else 0) = 0 := by
      split_ifs with h
      · rw [hk h]
        rfl
      · rfl
    rw [pruned_element_of_kept (fun h => hf.trans (hk (hv ▸ h))), hzero, Nat.add_zero]
    split_ifs with ha
    · rw [pruned_element_of_kept (l := l.front accentAttribute) hk, prefixed, Nat.add_assoc,
        Nat.add_comm]
      exact .marked (l.prefixed p) hi hn
    · rw [pruned_element_of_kept hk, prefixed, Nat.zero_add]
      exact .element (l.prefixed p) hi hn
  -- What does not stay is no accent, and in what is left inside it there are no elements.
  · obtain ⟨hvac, hk⟩ := Classical.not_imp.mp hk
    have ha : l.awaitsMark inside = false := l.awaitsMark_of_ne (fun h => hk (h ▸ fate_mover parent)) inside
    have hzero : inside.slips (some l.name) = 0 :=
      hi.eq_zero_of_isBlank ((allBlank_written _).symm.trans
        (allBlank_of_isVacant ((hi.isVacant_eq l.name).trans hvac)))
    rw [ha, if_neg Bool.false_ne_true, if_neg Bool.false_ne_true, if_pos hvac, hzero, Nat.zero_add,
      Nat.add_zero, pruned, if_pos (hv.trans hvac), hf, pruned, if_pos hvac]
    exact apart_apply hn hk l _ _

end Pruned

/-- Pruned with the prefix, a tree differs in as many places from what it is when it is pruned first. -/
theorem apart_pruned {p : Text} {f : Fragment} (h : ∀ e ∈ f.elements, ':' ∉ e.label.name)
    {parent : Option Text} (hp : ∀ q ∈ parent, ':' ∉ q) :
    Apart p (f.slips parent) ((f.prefixed p).pruned (parent.map (qualified p)))
      ((f.accented.supplied.pruned parent).prefixed p) := by
  induction f generalizing parent with
  | nil => exact .nil
  | text t next ih => exact .text t (ih h hp)
  | empty l next ih =>
    obtain ⟨hl, hn⟩ := List.forall_mem_cons.mp h
    exact apart_pruned_empty hl hp (ih hn hp)
  | element l inside next ihi ihn =>
    obtain ⟨hl, h⟩ := List.forall_mem_cons.mp h
    obtain ⟨hi, hn⟩ := List.forall_mem_append.mp h
    have hname : ∀ q ∈ some l.name, ':' ∉ q := by
      rintro _ ⟨⟩
      exact hl
    by_cases hm : (l.isMissing && inside.isBlank) = true
    · exact apart_pruned_of_missing hl hp (ihn hn hp) hm
    · exact apart_pruned_of_not_missing hl hp (ihn hn hp) hm (ihi hi hname)

end Fragment

end Formula.Markup
