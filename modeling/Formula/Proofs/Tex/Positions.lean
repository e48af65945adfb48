import Formula.Proofs.Tex.Balanced

/-! # Groups at positions

The group at a position of a text can be found by a walk over the positions behind it, with the depth of
the braces as a number. An escaping backslash makes the walk jump two positions, maybe past the end of the
text. The walk finds what the reader of groups finds: the one part of the text from there on that is a
balanced text in braces. What stands in front of that part or behind it has no influence.
-/

namespace Formula.Tex

/-- What a reader takes at a position, with the position behind it. -/
def readAt {α : Type} (reader : Text → Option (α × Text)) (text : Text) (pos : Nat) : Option (α × Nat) :=
  (reader (text.drop pos)).map fun (a, rest) => (a, text.length - rest.length)

/-- The part of a text from one of its positions to another. -/
structure PartAt (text : Text) (pos stop : Nat) (part : Text) : Prop where
  stop_le : stop ≤ text.length
  extract_eq : text.extract pos stop = part

/-- The position behind the brace that brings the depth to zero, looked for from a position on. -/
def groupEnd? (text : Text) (depth : Int) (i : Nat) : Option Nat :=
  match _h : text[i]? with
  | none => none
  | some c =>
    if c = '\\' then groupEnd? text depth (i + 2)
    else if c = '{' then groupEnd? text (depth + 1) (i + 1)
    else if c = '}' then
      if depth - 1 = 0 then some (i + 1) else groupEnd? text (depth - 1) (i + 1)
    else groupEnd? text depth (i + 1)
termination_by text.length - i
decreasing_by
  all_goals
    have := (List.getElem?_eq_some_iff.mp _h).1
    omega

/-- The content of the group at a position, with the position behind the group. -/
def groupAt? (text : Text) (pos : Nat) : Option (Text × Nat) :=
  if text[pos]? = some '{' then
    (groupEnd? text 0 pos).map fun stop => (text.extract (pos + 1) (stop - 1), stop)
  else none

/-! ## Parts of a text -/

section Parts

variable {text part rest : Text} {pos stop : Nat}

theorem getElem?_eq_none_of_drop (h : text.drop pos = []) : text[pos]? = none := by
  rw [← List.head?_drop, h]
  rfl

theorem getElem?_of_drop {c : Char} (h : text.drop pos = c :: rest) : text[pos]? = some c := by
  rw [← List.head?_drop, h]
  rfl

theorem drop_succ_of_drop {c : Char} (h : text.drop pos = c :: rest) : text.drop (pos + 1) = rest := by
  rw [← List.tail_drop, h]
  rfl

theorem length_of_drop (h : text.drop pos = part ++ rest) (hpos : pos ≤ text.length) :
    text.length = pos + part.length + rest.length := by
  have hlen := congrArg List.length h
  rw [List.length_drop, List.length_append] at hlen
  omega

theorem lt_length_of_drop {c : Char} (h : text.drop pos = c :: rest) : pos < text.length :=
  (List.getElem?_eq_some_iff.mp (getElem?_of_drop h)).1

theorem drop_of_drop (h : text.drop pos = part ++ rest) : text.drop (pos + part.length) = rest := by
  rw [← List.drop_drop, h, List.drop_left' rfl]

theorem stop_of_drop (h : text.drop pos = part ++ rest) (hne : part ≠ []) :
    text.length - rest.length = pos + part.length := by
  obtain ⟨c, part, rfl⟩ := List.exists_cons_of_ne_nil hne
  have := length_of_drop h (lt_length_of_drop h).le
  omega

theorem drop_of_suffix (h : rest <:+ text) : text.drop (text.length - rest.length) = rest :=
  (List.suffix_iff_eq_drop.mp h).symm

theorem extract_of_append (h : text.drop pos = part ++ rest) :
    text.extract pos (pos + part.length) = part := by
  rw [List.extract_eq_take_drop, Nat.add_sub_cancel_left, h, List.take_left' rfl]

theorem extract_of_drop (h : text.drop pos = part ++ rest) (hpos : pos ≤ text.length) :
    text.extract pos (text.length - rest.length) = part := by
  rw [length_of_drop h hpos, Nat.add_sub_cancel]
  exact extract_of_append h

theorem PartAt.length_eq (h : PartAt text pos stop part) : part.length = stop - pos := by
  have hle := h.stop_le
  rw [← h.extract_eq, List.extract_eq_take_drop, List.length_take, List.length_drop]
  omega

/-- A part that is not empty stands at a position if what begins there begins with the part. -/
theorem partAt_iff (hne : part ≠ []) :
    PartAt text pos stop part ↔
      ∃ rest, text.drop pos = part ++ rest ∧ stop = text.length - rest.length := by
  constructor
  · rintro ⟨hle, rfl⟩
    have hlt : pos < stop := by
      by_contra hge
      exact hne (by simp [List.extract_eq_take_drop, Nat.sub_eq_zero_of_le (Nat.not_lt.mp hge)])
    refine ⟨text.drop stop, ?_, ?_⟩
    · have hs : pos + (stop - pos) = stop := by omega
      rw [List.extract_eq_take_drop, ← hs, ← List.drop_drop, hs, List.take_append_drop]
    · rw [List.length_drop]
      omega
  · rintro ⟨rest, h, rfl⟩
    obtain ⟨c, part, rfl⟩ := List.exists_cons_of_ne_nil hne
    exact ⟨Nat.sub_le _ _, extract_of_drop h (lt_length_of_drop h).le⟩

end Parts

/-! ## The walk over the positions -/

section Walk

variable {text t : Text} {depth i : Nat}

theorem groupEnd?_of_drop_nil (h : text.drop i = []) (d : Int) : groupEnd? text d i = none := by
  rw [groupEnd?.eq_def, getElem?_eq_none_of_drop h]

theorem groupEnd?_of_drop {c : Char} (h : text.drop i = c :: t) (d : Int) :
    groupEnd? text d i =
      if c = '\\' then groupEnd? text d (i + 2)
      else if c = '{' then groupEnd? text (d + 1) (i + 1)
      else if c = '}' then if d - 1 = 0 then some (i + 1) else groupEnd? text (d - 1) (i + 1)
      else groupEnd? text d (i + 1) := by
  rw [groupEnd?.eq_def, getElem?_of_drop h]

/-- From any position on, the walk ends where the reader of groups comes to the closing brace. Its depth
counts one brace more than the reader's. -/
theorem groupEnd?_eq (h : text.drop i = t) :
    groupEnd? text (depth + 1) i = (close? depth t).map fun (_, rest) => text.length - rest.length := by
  -- The walk is at the position where the text that the reader still has begins.
  fun_induction close? depth t generalizing i with
  | case1 depth => exact groupEnd?_of_drop_nil h _
  | case2 depth =>
    have hend : text.drop (i + 2) = [] := by
      rw [← List.tail_drop, drop_succ_of_drop h]
      rfl
    rw [groupEnd?_of_drop h, if_pos rfl, groupEnd?_of_drop_nil hend]
    rfl
  | case3 depth d r ih =>
    have ih := ih (drop_succ_of_drop (drop_succ_of_drop h))
    rw [groupEnd?_of_drop h, if_pos rfl, ih, Option.map_map]
    rfl
  | case4 depth r hb ih =>
    have ih := ih (drop_succ_of_drop h)
    rw [groupEnd?_of_drop h, if_neg hb, if_pos rfl, Option.map_map]
    exact ih
  | case5 r hb ho =>
    have hlen := length_of_drop (show text.drop i = ['}'] ++ r from h) (lt_length_of_drop h).le
    have hend : text.length - r.length = i + 1 := by
      rw [List.length_singleton] at hlen
      omega
    rw [groupEnd?_of_drop h, if_neg hb, if_neg ho, if_pos rfl, if_pos (by omega), ← hend]
    rfl
  | case6 r depth hb ho ih =>
    have ih := ih (drop_succ_of_drop h)
    have hdepth : ((depth + 1 : Nat) : Int) + 1 - 1 = depth + 1 := by omega
    rw [groupEnd?_of_drop h, if_neg hb, if_neg ho, if_pos rfl, if_neg (by omega), hdepth, ih,
      Option.map_map]
    rfl
  | case7 depth c r hb ho hc ih =>
    have ih := ih (drop_succ_of_drop h)
    rw [groupEnd?_of_drop h, if_neg hb, if_neg ho, if_neg hc, ih, Option.map_map]
    rfl

end Walk

/-! ## Groups -/

/-- A balanced text in braces stands at a position; the group is its content with the position behind it. -/
def IsGroupAt (text : Text) (pos : Nat) (g : Text × Nat) : Prop :=
  PartAt text pos g.2 (braced g.1) ∧ Balanced g.1

theorem readAt_eq_some_iff {α : Type} {reader : Text → Option (α × Text)} {text : Text} {pos stop : Nat}
    {a : α} : readAt reader text pos = some (a, stop) ↔
      ∃ rest, reader (text.drop pos) = some (a, rest) ∧ stop = text.length - rest.length := by
  simp only [readAt, Option.map_eq_some_iff, Prod.exists, Prod.mk.injEq]
  constructor
  · rintro ⟨a, rest, h, rfl, rfl⟩
    exact ⟨rest, h, rfl⟩
  · rintro ⟨rest, h, rfl⟩
    exact ⟨a, rest, h, rfl, rfl⟩

section Reading

variable {α : Type} {reader : Text → Option (α × Text)} {text rest : Text} {pos : Nat}

theorem readAt_of_some {a : α} (h : reader (text.drop pos) = some (a, rest)) :
    readAt reader text pos = some (a, text.length - rest.length) := by
  rw [readAt, h]
  rfl

theorem readAt_of_none (h : reader (text.drop pos) = none) : readAt reader text pos = none := by
  rw [readAt, h]
  rfl

end Reading

theorem readAt_group?_eq_some_iff {text : Text} {pos : Nat} {g : Text × Nat} :
    readAt group? text pos = some g ↔ IsGroupAt text pos g := by
  obtain ⟨content, stop⟩ := g
  rw [readAt_eq_some_iff, IsGroupAt, partAt_iff (show braced content ≠ [] from List.cons_ne_nil _ _)]
  constructor
  · rintro ⟨rest, h, rfl⟩
    obtain ⟨hb, e⟩ := group?_iff.mp h
    exact ⟨⟨rest, e, rfl⟩, hb⟩
  · rintro ⟨⟨rest, e, rfl⟩, hb⟩
    exact ⟨rest, group?_iff.mpr ⟨hb, e⟩, rfl⟩

theorem groupAt?_eq (text : Text) (pos : Nat) : groupAt? text pos = readAt group? text pos := by
  cases h : text.drop pos with
  | nil =>
    rw [groupAt?, getElem?_eq_none_of_drop h, readAt, h]
    rfl
  | cons c r =>
    rw [groupAt?, getElem?_of_drop h, readAt, h, group?]
    by_cases hc : c = '{'
    · subst hc
      have hstart : groupEnd? text 0 pos = groupEnd? text ((0 : Nat) + 1) (pos + 1) := by
        rw [groupEnd?_of_drop h, if_neg (by decide), if_pos rfl]
        rfl
      rw [if_pos rfl, if_pos rfl, hstart, groupEnd?_eq (drop_succ_of_drop h), Option.map_map]
      apply Option.map_congr
      rintro ⟨content, rest⟩ hclose
      have hdrop : text.drop (pos + 1) = content ++ '}' :: rest := by
        rw [drop_succ_of_drop h, eq_append_of_close? hclose]
      exact congrArg (·, text.length - rest.length) (extract_of_drop hdrop (lt_length_of_drop h))
    · rw [if_neg hc, if_neg (by simpa using hc)]
      rfl

/-- The group at a position is the part from there on that is a balanced text in braces, if there is one;
there is no other such part. The walk over the positions finds it, and it stays the same group whatever
stands in front of it and behind it. -/
theorem readAt_group_iff_balanced (text : Text) (pos : Nat) :
    groupAt? text pos = readAt group? text pos ∧
      (∀ g, readAt group? text pos = some g ↔ IsGroupAt text pos g) ∧
      (readAt group? text pos = none ↔ ∀ g, ¬ IsGroupAt text pos g) ∧
      (∀ g g', IsGroupAt text pos g → IsGroupAt text pos g' → g = g') ∧
      ∀ content stop, readAt group? text pos = some (content, stop) → ∀ before behind : Text,
        readAt group? (before ++ text.extract pos stop ++ behind) before.length =
          some (content, before.length + (stop - pos)) := by
  refine ⟨groupAt?_eq text pos, fun g => readAt_group?_eq_some_iff, ?_, ?_, ?_⟩
  · rw [Option.eq_none_iff_forall_ne_some]
    exact forall_congr' fun g => not_congr readAt_group?_eq_some_iff
  · intro g g' h h'
    rw [← readAt_group?_eq_some_iff] at h h'
    exact Option.some.inj (h.symm.trans h')
  · intro content stop h before behind
    obtain ⟨hpart, hb⟩ := readAt_group?_eq_some_iff.mp h
    have hlen : (text.extract pos stop).length = stop - pos := hpart.extract_eq ▸ hpart.length_eq
    refine readAt_group?_eq_some_iff.mpr ⟨(partAt_iff (List.cons_ne_nil _ _)).mpr ⟨behind, ?_, ?_⟩, hb⟩
    · rw [List.append_assoc, List.drop_left' rfl]
      exact congrArg (· ++ behind) hpart.extract_eq
    · simp only [List.length_append, hlen]
      omega

/-- The escaped brace belongs to the content, and so does the group in it; the last brace closes nothing. -/
theorem readAt_group_of_escaped_brace :
    let text := "a\x7b\\\x7d\x7bc\x7d\x7dd\x7d".toList
    let content := "\\\x7d\x7bc\x7d".toList
    IsGroupAt text 1 (content, 8) ∧ groupAt? text 1 = some (content, 8) ∧
      ∀ before behind : Text,
        readAt group? (before ++ text.extract 1 8 ++ behind) before.length =
          some (content, before.length + 7) := by
  intro text content
  obtain ⟨hwalk, hiff, -, -, hsame⟩ := readAt_group_iff_balanced text 1
  have hgroup : IsGroupAt text 1 (content, 8) := ⟨⟨by decide, by decide⟩, by decide⟩
  have hread := (hiff _).mpr hgroup
  exact ⟨hgroup, hwalk.trans hread, hsame content 8 hread⟩

end Formula.Tex
