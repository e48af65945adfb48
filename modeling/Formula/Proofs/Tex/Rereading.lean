import Formula.Proofs.Tex.Blanks
import Formula.Proofs.Tex.Positions

/-! # Reading an atom again

The base of an atom is its nucleus as it stands in the source, with its scripts in their canonical spelling.
That is an atom again: it is read whole, with the nucleus and every script ending where they ended when they
were written.
-/

namespace Formula.Tex

open Text

/-! ## Scripts in canonical spelling -/

theorem script?_canonical_append {s : Script} (hs : Balanced s.value) (x : Text) :
    script? (s.canonical ++ x) = some (s, x) := by
  refine script?_eq_some_iff.mpr ⟨braced s.value ++ x, rfl, ?_⟩
  exact group?_iff.mpr ⟨hs, rfl⟩

theorem skipBlanks_canonical_append (s : Script) (x : Text) :
    skipBlanks (s.canonical ++ x) = s.canonical ++ x := by
  obtain ⟨marker, value⟩ := s
  cases marker <;> rfl

/-- Scripts in canonical spelling are read back, up to where no script follows. -/
theorem scripts_canonical_append {l : List Script} (hl : ∀ s ∈ l, Balanced s.value) {x : Text}
    (hx : script? (skipBlanks x) = none) : scripts (l.flatMap Script.canonical ++ x) = (l, x) := by
  induction l with
  | nil => exact scripts_of_none hx
  | cons s l ih =>
    obtain ⟨hs, hl⟩ := List.forall_mem_cons.mp hl
    have hread : script? (skipBlanks (s.canonical ++ (l.flatMap Script.canonical ++ x))) =
        some (s, l.flatMap Script.canonical ++ x) := by
      rw [skipBlanks_canonical_append]
      exact script?_canonical_append hs _
    rw [List.flatMap_cons, List.append_assoc, scripts_of_some hread, ih hl]

theorem scripts_canonical {l : List Script} (hl : ∀ s ∈ l, Balanced s.value) :
    scripts (l.flatMap Script.canonical) = (l, []) := by
  simpa using scripts_canonical_append hl (x := []) rfl

theorem group?_canonical (l : List Script) : group? (l.flatMap Script.canonical) = none := by
  cases l with
  | nil => rfl
  | cons s l =>
    obtain ⟨marker, value⟩ := s
    cases marker <;> rfl

/-! ## Nuclei in front of other texts -/

theorem control?_append_of_control? {t name rest x : Text} (h : control? t = some (name, rest))
    (hx : opensLetter x = false) : control? (name ++ x) = some (name, x) := by
  rw [(eq_append_of_control? h).1] at h
  exact control?_append_of_opensLetter h (by simp [hx])

/-- A nucleus is read back in front of any text that cannot belong to it: one that begins with no letter and no
group. A lone backslash is read back at the end of a text only. -/
theorem ReadsNucleus.nucleus?_append {t rest x : Text} {n : Nucleus} (h : ReadsNucleus t n rest)
    (hletter : opensLetter x = false) (hgroup : group? x = none) (hend : n = .char '\\' → x = []) :
    nucleus? (n.written ++ x) = some (n, x) := by
  cases h with
  | @char c _ hb ho hc hm => simp [Nucleus.written, nucleus?, hb, ho, hc, hm]
  | backslash =>
    rw [hend rfl]
    rfl
  | @control _ name _ h ha _ =>
    have hname := control?_append_of_control? h hletter
    rw [Nucleus.written, nucleus?_of_control? hname, ha, hgroup]
    rfl
  | @symbol _ name _ h ha =>
    have hname := control?_append_of_control? h hletter
    rw [Nucleus.written, nucleus?_of_control? hname, ha]
    rfl
  | @argument _ name argument _ h ha hb =>
    have hbrace : opensLetter (braced argument ++ x) = false := opensLetter_cons (by decide) _
    have hname := control?_append_of_control? h hbrace
    have hg : group? (braced argument ++ x) = some (argument, x) := group?_iff.mpr ⟨hb, rfl⟩
    rw [Nucleus.written, List.append_assoc, nucleus?_of_control? hname, ha, hg]
    rfl
  | @group content _ hb =>
    have hg : group? (braced content ++ x) = some (content, x) := group?_iff.mpr ⟨hb, rfl⟩
    simp only [braced, List.cons_append] at hg
    simp only [Nucleus.written, braced, List.cons_append, nucleus?, hg]
    rfl

/-! ## Atoms -/

section Atoms

variable {t rest : Text} {a : Atom}

theorem skipBlanks_base_append (h : atom? t = some (a, rest)) (x : Text) :
    skipBlanks (a.base ++ x) = a.base ++ x ∧ (a.base ++ x).takeWhile isBlank = [] := by
  obtain ⟨-, r, hr, -⟩ := atom?_eq_some_iff.mp h
  obtain ⟨e, hne⟩ := eq_append_of_nucleus? hr
  obtain ⟨c, w, hw⟩ := List.exists_cons_of_ne_nil hne
  rw [hw] at e
  have hc := isBlank_of_skipBlanks e
  simp [Atom.base, hw, skipBlanks, hc]

theorem nucleus?_base (h : atom? t = some (a, rest)) :
    nucleus? a.base = some (a.nucleus, a.scripts.flatMap Script.canonical) := by
  obtain ⟨-, r, hr, -⟩ := atom?_eq_some_iff.mp h
  refine (readsNucleus_of_nucleus? hr).nucleus?_append (opensLetter_canonical _) (group?_canonical _) ?_
  intro hn
  rw [(eq_of_atom?_backslash h hn).2.1]
  rfl

theorem balanced_of_mem_scripts (h : atom? t = some (a, rest)) : ∀ s ∈ a.scripts, Balanced s.value := by
  obtain ⟨-, r, -, hs⟩ := atom?_eq_some_iff.mp h
  have hb := (balanced_scripts r).1
  rwa [hs] at hb

theorem atom?_base (h : atom? t = some (a, rest)) :
    atom? a.base = some ({ a with leading := [] }, []) := by
  obtain ⟨hskip, hblank⟩ := skipBlanks_base_append h []
  rw [List.append_nil] at hskip hblank
  have hscripts := scripts_canonical (balanced_of_mem_scripts h)
  refine atom?_eq_some_iff.mpr ⟨hblank.symm, _, ?_, hscripts⟩
  rw [hskip]
  exact nucleus?_base h

end Atoms

/-- What an atom is as a base is an atom once more, with nothing in front of it and nothing left behind it: the
same nucleus and the same scripts, so the same base. The nucleus ends where its scripts begin, and each script
is read from its own place to the place of the next one. Scripts that are written again are the same scripts. -/
theorem base_read_again (text : Text) (pos : Nat) :
    (∀ a stop, readAt atom? text pos = some (a, stop) →
      (∃ b, readAt atom? a.base 0 = some (b, a.base.length) ∧ b.base = a.base ∧ b.leading = [] ∧
        b.nucleus = a.nucleus ∧ b.scripts = a.scripts) ∧
      readAt nucleus? a.base 0 = some (a.nucleus, a.nucleus.written.length) ∧
      ∀ l s m, a.scripts = l ++ s :: m →
        readAt script? a.base (a.nucleus.written ++ l.flatMap Script.canonical).length =
          some (s, (a.nucleus.written ++ (l ++ [s]).flatMap Script.canonical).length)) ∧
    scripts ((scripts (text.drop pos)).1.flatMap Script.canonical) = ((scripts (text.drop pos)).1, []) := by
  refine ⟨?_, scripts_canonical (balanced_scripts _).1⟩
  intro a stop h
  obtain ⟨rest, ha, -⟩ := readAt_eq_some_iff.mp h
  have hatom : readAt atom? a.base 0 = some ({ a with leading := [] }, a.base.length - ([] : Text).length) :=
    readAt_of_some (atom?_base ha)
  refine ⟨⟨_, hatom, rfl, rfl, rfl, rfl⟩, ?_, ?_⟩
  · have hnucleus : readAt nucleus? a.base 0 =
        some (a.nucleus, a.base.length - (a.scripts.flatMap Script.canonical).length) :=
      readAt_of_some (nucleus?_base ha)
    rw [hnucleus, Atom.base, List.length_append, Nat.add_sub_cancel]
  · intro l s m hl
    have hs : Balanced s.value := balanced_of_mem_scripts ha s (by simp [hl])
    let front := a.nucleus.written ++ l.flatMap Script.canonical
    have hbase : a.base = front ++ (s.canonical ++ m.flatMap Script.canonical) := by
      simp [Atom.base, hl, front]
    have hdrop : a.base.drop front.length = s.canonical ++ m.flatMap Script.canonical := by
      rw [hbase, List.drop_left' rfl]
    have hread : script? (a.base.drop front.length) = some (s, m.flatMap Script.canonical) := by
      rw [hdrop]
      exact script?_canonical_append hs _
    have hstop := stop_of_drop hdrop (List.cons_ne_nil _ _)
    rw [readAt_of_some hread, hstop]
    simp [front, Nat.add_assoc]

/-- The blank in front of a script is lost, and the escaped brace stays in the value. -/
theorem base_read_again_of_escaped_brace :
    let text := " \\mathbf\x7bR\x7d_1 ^\x7b\\\x7d\x7d+".toList
    let a : Atom := ⟨[' '], .control "\\mathbf".toList (some ['R']), [⟨.sub, ['1']⟩, ⟨.sup, "\\\x7d".toList⟩]⟩
    readAt atom? text 0 = some (a, 19) ∧ a.base = "\\mathbf\x7bR\x7d_\x7b1\x7d^\x7b\\\x7d\x7d".toList ∧
      (∃ b, readAt atom? a.base 0 = some (b, 19) ∧ b.base = a.base ∧ b.leading = []) ∧
      readAt script? a.base 14 = some (⟨.sup, "\\\x7d".toList⟩, 19) := by
  intro text a
  have ha : readAt atom? text 0 = some (a, 19) := by decide +kernel
  obtain ⟨⟨b, hb, hbase, hleading, -⟩, -, hscripts⟩ := (base_read_again text 0).1 a 19 ha
  have hlast := hscripts [⟨.sub, ['1']⟩] ⟨.sup, "\\\x7d".toList⟩ [] rfl
  exact ⟨ha, by decide, ⟨b, hb, hbase, hleading⟩, hlast⟩

end Formula.Tex
