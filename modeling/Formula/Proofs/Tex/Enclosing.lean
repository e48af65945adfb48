import Formula.Proofs.Tex.Positions
import Formula.Proofs.Tex.Reading

/-! # What can be put in braces

A text in braces is read back as a group exactly if it is balanced. The value of a script always is, and so is
every atom, as a base and as the target of an accent, with one exception: the backslash that ends a text is an
atom, and it takes the closing brace with it.
-/

namespace Formula.Tex

open Text

theorem readAt_group?_braced_iff {t r : Text} :
    readAt group? (braced t ++ r) 0 = some (t, t.length + 2) ↔ Balanced t := by
  have hlen : (braced t ++ r).length - r.length = t.length + 2 := by
    rw [List.length_append, Nat.add_sub_cancel]
    simp [braced]
  constructor
  · intro h
    exact (readAt_group?_eq_some_iff.mp h).2
  · intro h
    have hread : readAt group? (braced t ++ r) 0 = some (t, (braced t ++ r).length - r.length) :=
      readAt_of_some (group?_iff.mpr ⟨h, rfl⟩)
    rw [hread, hlen]

section Atoms

variable {t rest : Text} {a : Atom}

/-- The atom at the front of a text is a lone backslash if nothing but that is left, blanks apart. -/
theorem nucleus_eq_backslash_iff (h : atom? t = some (a, rest)) :
    a.nucleus = .char '\\' ↔ skipBlanks t = ['\\'] := by
  constructor
  · intro hn
    have e := (eq_of_atom?_backslash h hn).1
    have e' := takeWhile_isBlank_append_skipBlanks t
    exact List.append_cancel_left (e'.trans e)
  · intro hs
    obtain ⟨-, r, hr, -⟩ := atom?_eq_some_iff.mp h
    rw [hs] at hr
    exact (Prod.mk.inj (Option.some.inj hr)).1.symm

theorem eq_backslash_of_nucleus (h : atom? t = some (a, rest)) (hn : a.nucleus = .char '\\') :
    a.base = ['\\'] ∧ a.target = ['\\'] := by
  have hs := (eq_of_atom?_backslash h hn).2.1
  rw [Atom.base, Atom.target, hn, hs]
  exact ⟨rfl, rfl⟩

theorem balanced_base_target_iff (h : atom? t = some (a, rest)) :
    (Balanced a.base ↔ skipBlanks t ≠ ['\\']) ∧ (Balanced a.target ↔ skipBlanks t ≠ ['\\']) := by
  have hlone : ¬ Balanced ['\\'] := by decide
  rw [Ne, ← nucleus_eq_backslash_iff h]
  by_cases hn : a.nucleus = .char '\\'
  · obtain ⟨hbase, htarget⟩ := eq_backslash_of_nucleus h hn
    simp [hn, hbase, htarget, hlone]
  · obtain ⟨hbase, htarget, -⟩ := balanced_of_atom? h hn
    simp [hn, hbase, htarget]

end Atoms

/-- The value of a script can be put in braces, in front of anything. So can an atom, as a base and as a target,
if and only if it is not the backslash that ends the text; that one is never read back, whatever comes behind
the braces. -/
theorem read_back_in_braces_iff (text r : Text) :
    (∀ pos s stop, readAt script? text pos = some (s, stop) →
      readAt group? (braced s.value ++ r) 0 = some (s.value, s.value.length + 2)) ∧
    ∀ pos a stop, readAt atom? text pos = some (a, stop) →
      (readAt group? (braced a.base ++ r) 0 = some (a.base, a.base.length + 2) ↔
        skipBlanks (text.drop pos) ≠ ['\\']) ∧
      (readAt group? (braced a.target ++ r) 0 = some (a.target, a.target.length + 2) ↔
        skipBlanks (text.drop pos) ≠ ['\\']) ∧
      (skipBlanks (text.drop pos) = ['\\'] → a.base = ['\\'] ∧ a.target = ['\\']) := by
  simp only [readAt_group?_braced_iff]
  constructor
  · intro pos s stop h
    obtain ⟨rest, hs, -⟩ := readAt_eq_some_iff.mp h
    exact (balanced_of_script? hs).1
  · intro pos a stop h
    obtain ⟨rest, ha, -⟩ := readAt_eq_some_iff.mp h
    obtain ⟨hbase, htarget⟩ := balanced_base_target_iff ha
    exact ⟨hbase, htarget, fun hs => eq_backslash_of_nucleus ha ((nucleus_eq_backslash_iff ha).mpr hs)⟩

/-- The script and the atom that it belongs to are read back. The backslash at the end of the text takes the
closing brace with it, and the group goes on to the next one. -/
theorem not_read_back_of_backslash :
    let text := "x_\x7ba\x7d\\".toList
    let r := "b\x7d".toList
    readAt script? text 1 = some (⟨.sub, ['a']⟩, 5) ∧ readAt group? (braced ['a'] ++ r) 0 = some (['a'], 3) ∧
      readAt atom? text 0 = some (⟨[], .char 'x', [⟨.sub, ['a']⟩]⟩, 5) ∧
      readAt group? (braced "x_\x7ba\x7d".toList ++ r) 0 = some ("x_\x7ba\x7d".toList, 7) ∧
      readAt atom? text 5 = some (⟨[], .char '\\', []⟩, 6) ∧
      readAt group? (braced ['\\'] ++ r) 0 ≠ some (['\\'], 3) ∧
      readAt group? (braced ['\\'] ++ r) 0 = some ("\\\x7db".toList, 5) := by
  intro text r
  obtain ⟨hscripts, hatoms⟩ := read_back_in_braces_iff text r
  have hs : readAt script? text 1 = some (⟨.sub, ['a']⟩, 5) := by decide +kernel
  have hx : readAt atom? text 0 = some (⟨[], .char 'x', [⟨.sub, ['a']⟩]⟩, 5) := by decide +kernel
  have hb : readAt atom? text 5 = some (⟨[], .char '\\', []⟩, 6) := by decide +kernel
  have hlone : skipBlanks (text.drop 5) = ['\\'] := by decide
  have hbase := (hatoms 0 _ _ hx).1.mpr (by decide)
  exact ⟨hs, hscripts 1 _ _ hs, hx, hbase, hb, fun h => (hatoms 5 _ _ hb).1.mp h hlone, by decide +kernel⟩

end Formula.Tex
