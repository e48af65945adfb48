import Formula.Proofs.Markup.Scanning
import Formula.Markup.Root

/-! # What is read up to the next bracket

A tag is told from its opening bracket up to the next one. So whatever is done to a text from its first
opening bracket on, the same tag is read in front of it, and only what follows the tag may differ.
-/

namespace Formula.Markup

open Text

/-- The change leaves a text as it is up to its first opening bracket. If it puts anything behind a text
without a bracket, that begins with one. -/
structure KeepsFront (change : Text → Text) : Prop where
  nil : ∀ c ∈ (change []).head?, c = '<'
  opens : ∀ r, (change ('<' :: r)).head? = some '<'
  char : ∀ {c}, c ≠ '<' → ∀ r, change (c :: r) = c :: change r

theorem Scans.keepsFront {pass : Text → Text} (hp : Scans pass) : KeepsFront pass where
  nil := by simp [hp.nil]
  opens := hp.opens
  char := hp.char

theorem keepsFront_append (r : Text) : KeepsFront (· ++ '<' :: r) where
  nil := by simp
  opens _ := rfl
  char _ _ := rfl

namespace KeepsFront

variable {change : Text → Text} (hc : KeepsFront change)

include hc

/-- What a text without a bracket is continued by, and what a bracket becomes. -/
theorem exists_cons (r : Text) : ∃ r', change ('<' :: r) = '<' :: r' := by
  obtain ⟨r', h⟩ := List.head?_eq_some_iff.mp (hc.opens r)
  exact ⟨r', h⟩

theorem nil_cases : change [] = [] ∨ ∃ r, change [] = '<' :: r := by
  cases h : change [] with
  | nil => exact .inl rfl
  | cons c r =>
    obtain rfl := hc.nil c (by rw [h]; rfl)
    exact .inr ⟨r, rfl⟩

theorem span {p : Char → Bool} (hp : p '<' = false) (t : Text) :
    (change t).takeWhile p = t.takeWhile p ∧ (change t).dropWhile p = change (t.dropWhile p) := by
  induction t with
  | nil => rcases hc.nil_cases with h | ⟨r, h⟩ <;> simp [h, hp]
  | cons c t ih =>
    by_cases ho : c = '<'
    · subst ho
      obtain ⟨r, h⟩ := hc.exists_cons t
      simp [h, hp]
    · cases h : p c <;> simp [hc.char ho, h, ih]

theorem endsWord_eq (t : Text) : endsWord (change t) = endsWord t := by
  have ho : isWord '<' = false := by decide
  cases t with
  | nil => rcases hc.nil_cases with h | ⟨r, h⟩ <;> simp [h, endsWord, ho]
  | cons c t =>
    by_cases h : c = '<'
    · subst h
      obtain ⟨r, h⟩ := hc.exists_cons t
      rw [h, endsWord, endsWord]
    · rw [hc.char h, endsWord, endsWord]

theorem after?_eq {key : Text} (hk : '<' ∉ key) (t : Text) :
    after? key (change t) = (after? key t).map change := by
  induction key generalizing t with
  | nil => rfl
  | cons k key ih =>
    simp only [List.mem_cons, not_or] at hk
    cases t with
    | nil => rcases hc.nil_cases with h | ⟨r, h⟩ <;> simp [h, after?, Ne.symm hk.1]
    | cons c t =>
      by_cases ho : c = '<'
      · subst ho
        obtain ⟨r, h⟩ := hc.exists_cons t
        simp [h, after?, Ne.symm hk.1]
      · rw [hc.char ho, after?, after?, ih hk.2]
        split_ifs <;> rfl

theorem tagBody?_eq (t : Text) : tagBody? (change t) = (tagBody? t).map (Prod.map id change) := by
  obtain ⟨htake, hdrop⟩ := hc.span (p := fun c => !isAngle c) (by decide) t
  rw [tagBody?, tagBody?, htake, hdrop]
  cases h : t.dropWhile (!isAngle ·) with
  | nil => rcases hc.nil_cases with h | ⟨r, h⟩ <;> simp [h]
  | cons c r =>
    have ha : isAngle c = true := by
      have hd := List.head?_dropWhile_not (!isAngle ·) t
      rw [h] at hd
      simpa using hd
    by_cases ho : c = '<'
    · subst ho
      obtain ⟨r', h⟩ := hc.exists_cons r
      simp [h]
    · obtain rfl : c = '>' := by simpa [isAngle, ho] using ha
      rw [hc.char ho]
      rfl

/-! ## Tags -/

theorem tagInside?_eq (closing : Bool) (t : Text) :
    tagInside? closing (change t) = (tagInside? closing t).map (Prod.map id change) := by
  have hn : isNameChar '<' = false := by decide
  have hl : '<'.isAlpha = false := by decide
  cases t with
  | nil => rcases hc.nil_cases with h | ⟨r, h⟩ <;> simp [h, tagInside?, hl]
  | cons c t =>
    by_cases ho : c = '<'
    · subst ho
      obtain ⟨r, h⟩ := hc.exists_cons t
      simp [h, tagInside?, hl]
    · obtain ⟨htake, hdrop⟩ := hc.span hn t
      rw [hc.char ho, tagInside?, tagInside?, htake, hdrop, hc.tagBody?_eq]
      split_ifs
      · cases tagBody? (t.dropWhile isNameChar) with
        | none => rfl
        | some b =>
          simp only [Option.map_some, Option.bind_eq_bind, Option.bind_some, Prod.map, id_eq]
          split_ifs <;> rfl
      · rfl

theorem tag?_eq (r : Text) : tag? ('<' :: change r) = (tag? ('<' :: r)).map (Prod.map id change) := by
  rw [tag?, tag?, if_pos rfl, if_pos rfl, hc.after?_eq (by decide)]
  cases after? ['/'] r with
  | none => exact hc.tagInside?_eq false r
  | some r => exact hc.tagInside?_eq true r

theorem mover?_eq (r : Text) :
    mover? ('<' :: change r) = (mover? ('<' :: r)).map (Prod.map id change) := by
  have hm : '<' ∉ mover := by decide
  have ho : ∀ t, after? ('<' :: mover) ('<' :: t) = after? mover t := fun t => by simp [after?]
  rw [mover?, mover?, ho, ho, hc.after?_eq hm]
  cases after? mover r with
  | none => rfl
  | some t =>
    simp only [Option.map_some, Option.bind_eq_bind, Option.bind_some, hc.endsWord_eq, hc.tagBody?_eq]
    split_ifs <;> rfl

/-! ## Roots -/

theorem nsPrefix?_eq (t : Text) :
    nsPrefix? (change t) = (nsPrefix? t).map (Prod.map id change) := by
  have hp : isPrefixChar '<' = false := by decide
  obtain ⟨htake, hdrop⟩ := hc.span hp t
  rw [nsPrefix?, nsPrefix?, htake, hdrop]
  cases t.takeWhile isPrefixChar with
  | nil => rfl
  | cons c p =>
    cases t.dropWhile isPrefixChar with
    | nil => rcases hc.nil_cases with h | ⟨r, h⟩ <;> simp [h]
    | cons d r =>
      by_cases ho : d = '<'
      · subst ho
        obtain ⟨r', h⟩ := hc.exists_cons r
        simp [h]
      · rw [hc.char ho]
        by_cases hcolon : d = ':'
        · subst hcolon
          rfl
        · simp [hcolon]

theorem afterMath?_eq (t : Text) : afterMath? (change t) = (afterMath? t).map change := by
  have hm : '<' ∉ math := by decide
  rw [afterMath?, afterMath?, hc.after?_eq hm]
  cases after? math t with
  | none => rfl
  | some r =>
    simp only [Option.map_some, Option.filter_some, hc.endsWord_eq]
    split_ifs <;> rfl

theorem rootName?_eq (t : Text) :
    rootName? (change t) = (rootName? t).map (Prod.map id change) := by
  have hbare : (afterMath? (change t)).map (([] : Text), ·) =
      ((afterMath? t).map (([] : Text), ·)).map (Prod.map id change) := by
    rw [hc.afterMath?_eq, Option.map_map, Option.map_map]
    rfl
  rw [rootName?, rootName?, hbare, hc.nsPrefix?_eq]
  cases nsPrefix? t with
  | none => rfl
  | some q =>
    simp only [Option.map_some, Option.bind_eq_bind, Option.bind_some, Prod.map, hc.afterMath?_eq]
    cases afterMath? q.2 <;> rfl

theorem root?_eq (r : Text) : root? ('<' :: change r) = (root? ('<' :: r)).map (Prod.map id change) := by
  rw [root?, root?, if_pos rfl, if_pos rfl, hc.rootName?_eq]
  cases rootName? r with
  | none => rfl
  | some q =>
    simp only [Option.map_some, Option.bind_eq_bind, Option.bind_some, Prod.map, hc.tagBody?_eq]
    cases tagBody? q.2 <;> rfl

end KeepsFront

end Formula.Markup
