import Mathlib.Tactic.SplitIfs
import Formula.Compile.Placeholder
import Formula.Proofs.Text.Numeral

/-! # Holders among other elements

Each character may be written into an identifier element of its own. Such an element holds the place of
a placeholder exactly if its character is the placeholder, whether that is written as such or by a
reference. Tags hold no place, and neither does markup that is made of them and of other characters'
elements.
-/

namespace Formula.Compile

open Text

/-- How a character that is no ASCII character is written. -/
inductive Spelling
  | literal
  | hex (zeros : Nat)
  | decimal
  deriving DecidableEq, Repr

def Spelling.write (s : Spelling) (c : Char) : Text :=
  if c.toNat < 0x80 then
    if c = '&' then "&amp;".toList
    else if c = '<' then "&lt;".toList
    else if c = '>' then "&gt;".toList
    else [c]
  else match s with
    | literal => [c]
    | hex zeros => "&#x".toList ++ List.replicate zeros '0' ++ hexNumeral c.toNat ++ [';']
    | decimal => "&#".toList ++ Nat.toDigits 10 c.toNat ++ [';']

def identifier (s : Spelling) (c : Char) : Text :=
  "<mi>".toList ++ s.write c ++ "</mi>".toList

/-- The number of placeholders that are private-use characters of the basic plane. -/
def privateUseCount : Nat := 0xF900 - firstPlaceholder

def isPrivateUse (c : Char) : Bool :=
  firstPlaceholder ≤ c.toNat && c.toNat < firstPlaceholder + privateUseCount

theorem lt_placeholderCount {i : Nat} (hi : i < privateUseCount) : i < placeholderCount :=
  Nat.lt_trans hi (by decide)

theorem toNat_placeholder {i : Nat} (hi : i < placeholderCount) :
    (placeholder i).toNat = firstPlaceholder + i := by
  have hv : (firstPlaceholder + i).isValidChar := by
    simp only [placeholderCount, firstPlaceholder] at hi ⊢
    exact .inr (by omega)
  rw [placeholder, Char.ofNat, dif_pos hv]
  rfl

theorem eq_placeholder_iff {i : Nat} (hi : i < placeholderCount) {c : Char} :
    c = placeholder i ↔ c.toNat = firstPlaceholder + i := by
  rw [← Char.toNat_inj, toNat_placeholder hi]

theorem ne_placeholder_of_lt {i : Nat} (hi : i < placeholderCount) {c : Char} (hc : c.toNat < 0x80) :
    c ≠ placeholder i := by
  rw [ne_eq, eq_placeholder_iff hi, firstPlaceholder]
  omega

theorem isBlank_placeholder {i : Nat} (hi : i < placeholderCount) :
    isBlank (placeholder i) = false := by
  rw [← Bool.not_eq_true]
  intro h
  simp only [isBlank, toNat_placeholder hi, firstPlaceholder, Bool.or_eq_true,
    Bool.and_eq_true, decide_eq_true_eq, beq_iff_eq] at h
  omega

/-! ## References -/

theorem hexNumeral_injective {m n : Nat} (h : hexNumeral m = hexNumeral n) : m = n :=
  map_toDigits_injective (by decide) (by decide) h

theorem decimal_injective {m n : Nat} (h : Nat.toDigits 10 m = Nat.toDigits 10 n) : m = n := by
  refine map_toDigits_injective (f := id) (b := 10) (by decide) (by decide) ?_
  simpa using h

theorem exists_hexNumeral_eq_cons {n : Nat} (hn : 0 < n) :
    ∃ c r, c ≠ '0' ∧ hexNumeral n = c :: r := by
  obtain ⟨d, r, hpos, hd, h⟩ := exists_toDigits_eq_cons (b := 16) (by decide) hn
  have h0 : ∀ d < 16, 0 < d → d.digitChar.toUpper ≠ '0' := by decide
  exact ⟨_, _, h0 d hd hpos, by rw [hexNumeral, h, List.map_cons]⟩

theorem mem_hexNumeral {n : Nat} {c : Char} (h : c ∈ hexNumeral n) : c ≠ ';' ∧ c ≠ '<' := by
  obtain ⟨d, hd, rfl⟩ := List.mem_map.mp h
  obtain ⟨e, he, rfl⟩ := exists_digit_of_mem_toDigits (by decide) hd
  have hall : ∀ e < 16, e.digitChar.toUpper ≠ ';' ∧ e.digitChar.toUpper ≠ '<' := by decide
  exact hall e he

theorem mem_decimal {n : Nat} {c : Char} (h : c ∈ Nat.toDigits 10 n) :
    c ≠ ';' ∧ c ≠ '<' ∧ c ≠ 'x' ∧ c ≠ 'X' := by
  obtain ⟨e, he, rfl⟩ := exists_digit_of_mem_toDigits (by decide) h
  have hall : ∀ e < 10, e.digitChar ≠ ';' ∧ e.digitChar ≠ '<' ∧ e.digitChar ≠ 'x' ∧
      e.digitChar ≠ 'X' := by decide
  exact hall e he

theorem afterPlaceholder?_cons {i : Nat} {c : Char} {r : Text}
    (h : after? ['&', '#'] (c :: r) = none) :
    afterPlaceholder? i (c :: r) = if c = placeholder i then some r else none := by
  simp [afterPlaceholder?, h]

theorem afterPlaceholder?_hex {i : Nat} (hi : i < placeholderCount) {n : Nat} (hn : 0 < n)
    (zeros : Nat) (r : Text) :
    afterPlaceholder? i ("&#x".toList ++ List.replicate zeros '0' ++ hexNumeral n ++ [';'] ++ r) =
      if n = firstPlaceholder + i then some r else none := by
  have hne : '&' ≠ placeholder i := ne_placeholder_of_lt hi (by decide)
  have hz : (List.replicate zeros '0' ++ (hexNumeral n ++ ';' :: r)).dropWhile (· = '0') =
      hexNumeral n ++ ';' :: r := by
    obtain ⟨c, s, hc, hs⟩ := exists_hexNumeral_eq_cons hn
    rw [List.dropWhile_append_of_pos (by simp), hs]
    simp [hc]
  have ht : "&#x".toList ++ List.replicate zeros '0' ++ hexNumeral n ++ [';'] ++ r =
      '&' :: '#' :: 'x' :: (List.replicate zeros '0' ++ (hexNumeral n ++ ';' :: r)) := by
    simp
  have hm : ∀ m, ';' ∉ hexNumeral m := fun m h => (mem_hexNumeral h).1 rfl
  have hiff : hexNumeral (firstPlaceholder + i) = hexNumeral n ↔ n = firstPlaceholder + i :=
    ⟨fun h => (hexNumeral_injective h).symm, fun h => by rw [h]⟩
  rw [ht]
  simp only [afterPlaceholder?, hne, if_false, after?, if_true, true_or, hz, after?_mark (hm _) (hm _),
    hiff]

theorem afterPlaceholder?_decimal {i : Nat} (hi : i < placeholderCount) {n : Nat} (hn : 0 < n)
    (r : Text) :
    afterPlaceholder? i ("&#".toList ++ Nat.toDigits 10 n ++ [';'] ++ r) =
      if n = firstPlaceholder + i then some r else none := by
  have hne : '&' ≠ placeholder i := ne_placeholder_of_lt hi (by decide)
  have hm : ∀ m, ';' ∉ Nat.toDigits 10 m := fun m h => (mem_decimal h).1 rfl
  have hiff : Nat.toDigits 10 (firstPlaceholder + i) = Nat.toDigits 10 n ↔ n = firstPlaceholder + i :=
    ⟨fun h => (decimal_injective h).symm, fun h => by rw [h]⟩
  have ha := after?_mark (hm (firstPlaceholder + i)) (hm n) r
  obtain ⟨d, s, -, hd, hs⟩ := exists_toDigits_eq_cons (b := 10) (by decide) hn
  have hx : ¬(d.digitChar = 'x' ∨ d.digitChar = 'X') := by
    have hmem := mem_decimal (hs ▸ List.mem_cons_self : d.digitChar ∈ Nat.toDigits 10 n)
    exact not_or.mpr hmem.2.2
  have ht : "&#".toList ++ Nat.toDigits 10 n ++ [';'] ++ r =
      '&' :: '#' :: (Nat.toDigits 10 n ++ ';' :: r) := by
    simp
  simp only [hiff] at ha
  rw [ht, ← ha, hs]
  simp only [afterPlaceholder?, hne, if_false, after?, if_true, List.cons_append, hx]

/-- A character that is written is read as the placeholder if it is the placeholder. -/
theorem afterPlaceholder?_write {i : Nat} (hi : i < placeholderCount) (s : Spelling) (c : Char)
    (r : Text) :
    afterPlaceholder? i (s.write c ++ r) = if c = placeholder i then some r else none := by
  unfold Spelling.write
  by_cases hc : c.toNat < 0x80
  · have hnone : ∀ {d t}, d.toNat < 0x80 → after? ['&', '#'] (d :: t) = none →
        afterPlaceholder? i (d :: t) = none := by
      intro d t hd h
      rw [afterPlaceholder?_cons h, if_neg (ne_placeholder_of_lt hi hd)]
    rw [if_pos hc, if_neg (ne_placeholder_of_lt hi hc)]
    split_ifs with h₁ h₂ h₃
    · exact hnone (by decide) rfl
    · exact hnone (by decide) rfl
    · exact hnone (by decide) rfl
    · exact hnone hc (by simp [after?, Ne.symm h₁])
  · have hpos : 0 < c.toNat := by omega
    have ha : after? ['&', '#'] (c :: r) = none := by
      have hne : '&' ≠ c := by
        rintro rfl
        exact hc (by decide)
      simp [after?, hne]
    rw [if_neg hc]
    cases s with
    | literal => exact afterPlaceholder?_cons ha
    | hex zeros =>
      simp only [eq_placeholder_iff hi]
      exact afterPlaceholder?_hex hi hpos zeros r
    | decimal =>
      simp only [eq_placeholder_iff hi]
      exact afterPlaceholder?_decimal hi hpos r

theorem exists_write_eq_cons {c : Char} (hc : isBlank c = false) (s : Spelling) :
    ∃ d t, isBlank d = false ∧ s.write c = d :: t := by
  unfold Spelling.write
  split_ifs
  · exact ⟨_, _, by decide, rfl⟩
  · exact ⟨_, _, by decide, rfl⟩
  · exact ⟨_, _, by decide, rfl⟩
  · exact ⟨_, _, hc, rfl⟩
  · cases s with
    | literal => exact ⟨_, _, hc, rfl⟩
    | hex zeros => exact ⟨'&', _, by decide, rfl⟩
    | decimal => exact ⟨'&', _, by decide, rfl⟩

theorem not_mem_write (s : Spelling) (c : Char) : '<' ∉ s.write c := by
  unfold Spelling.write
  split_ifs with hc h₁ h₂ h₃
  · decide
  · decide
  · decide
  · simp [Ne.symm h₂]
  · cases s with
    | literal =>
      have hne : '<' ≠ c := by
        rintro rfl
        exact hc (by decide)
      simp [hne]
    | hex zeros =>
      have hm : '<' ∉ hexNumeral c.toNat := fun h => (mem_hexNumeral h).2 rfl
      simp [hm]
    | decimal =>
      have hm : '<' ∉ Nat.toDigits 10 c.toNat := fun h => (mem_decimal h).2.1 rfl
      simp [hm]

/-! ## Holders -/

theorem afterHolder?_identifier {i : Nat} (hi : i < placeholderCount) (s : Spelling) {c : Char}
    (hc : isBlank c = false) (r : Text) :
    afterHolder? i (identifier s c ++ r) = if c = placeholder i then some r else none := by
  obtain ⟨t, ht⟩ : ∃ t, t = s.write c ++ ("</mi>".toList ++ r) := ⟨_, rfl⟩
  have hr : identifier s c ++ r = '<' :: 'm' :: 'i' :: '>' :: t := by
    simp [identifier, ht]
  have hlower : Char.isLower 'm' = true ∧ Char.isLower 'i' = true ∧ Char.isLower '>' = false := by
    decide
  have hname : ('m' :: 'i' :: '>' :: t).takeWhile Char.isLower = ['m', 'i'] := by simp [hlower]
  have hbehind : ('m' :: 'i' :: '>' :: t).dropWhile Char.isLower = '>' :: t := by simp [hlower]
  have hend : endsWord ('>' :: t) = true := by
    have h : isWord '>' = false := by decide
    simp [endsWord, h]
  have hwrite : afterPlaceholder? i (skipBlanks t) =
      if c = placeholder i then some ("</mi>".toList ++ r) else none := by
    obtain ⟨d, u, hd, hw⟩ := exists_write_eq_cons hc s
    have hs : skipBlanks t = t := by simp [ht, hw, skipBlanks, hd]
    rw [hs, ht, afterPlaceholder?_write hi]
  have hshut : after? ['<', '/', 'm', 'i', '>'] (skipBlanks ("</mi>".toList ++ r)) = some r :=
    after?_append _ r
  have ho : after? ['<'] ('<' :: 'm' :: 'i' :: '>' :: t) = some ('m' :: 'i' :: '>' :: t) := rfl
  have hg : after? ['>'] (('>' :: t).dropWhile (· ≠ '>')) = some t := rfl
  have hcond : ['m', 'i'].head? = some 'm' ∧ 2 ≤ ['m', 'i'].length ∧ endsWord ('>' :: t) :=
    ⟨rfl, by decide, hend⟩
  simp only [hr, afterHolder?, ho, hname, hbehind, hg, hwrite, if_pos hcond, Option.bind_eq_bind,
    Option.bind_some]
  split
  · exact hshut
  · rfl

theorem dropWhile_ne_append {t : Text} (ht : '>' ∉ t) (r : Text) :
    (t ++ '>' :: r).dropWhile (· ≠ '>') = '>' :: r := by
  rw [List.dropWhile_append_of_pos fun c hc => by simpa using ne_of_mem_of_not_mem hc ht]
  rfl

theorem dropWhile_tag {body : Text} (hb : '>' ∉ body) (r : Text) :
    ((body ++ '>' :: r).dropWhile Char.isLower).dropWhile (· ≠ '>') = '>' :: r := by
  induction body with
  | nil => rfl
  | cons c body ih =>
    rw [List.cons_append, List.dropWhile_cons]
    split
    · exact ih (List.not_mem_of_not_mem_cons hb)
    · exact dropWhile_ne_append hb r

theorem afterHolder?_tag {i : Nat} (hi : i < placeholderCount) {body : Text} (hb : '>' ∉ body)
    (r : Text) : afterHolder? i ('<' :: (body ++ '>' :: '<' :: r)) = none := by
  have hp : afterPlaceholder? i (skipBlanks ('<' :: r)) = none := by
    have hs : skipBlanks ('<' :: r) = '<' :: r := rfl
    rw [hs, afterPlaceholder?_cons rfl, if_neg (ne_placeholder_of_lt hi (by decide))]
  have ho : after? ['<'] ('<' :: (body ++ '>' :: '<' :: r)) = some (body ++ '>' :: '<' :: r) := rfl
  have hc : after? ['>'] ('>' :: '<' :: r) = some ('<' :: r) := rfl
  simp only [afterHolder?, ho, dropWhile_tag hb, hc, hp, Option.bind_eq_bind, Option.bind_some,
    Option.bind_none, ite_self]

/-! ## Inert markup -/

theorem fill?_of_afterHolder?_eq_none {i : Nat} {e : Text} {c : Char} {r : Text}
    (h : afterHolder? i (c :: r) = none) : fill? i e (c :: r) = (fill? i e r).map (c :: ·) := by
  simp [fill?, h]

theorem fill?_append_of_not_mem {i : Nat} {e u : Text} (hu : '<' ∉ u) (v : Text) :
    fill? i e (u ++ v) = (fill? i e v).map (u ++ ·) := by
  induction u with
  | nil => simp
  | cons c u ih =>
    have hc : afterHolder? i (c :: (u ++ v)) = none := by
      simp [afterHolder?, after?, List.ne_of_not_mem_cons hu]
    rw [List.cons_append, fill?_of_afterHolder?_eq_none hc, ih (List.not_mem_of_not_mem_cons hu),
      Option.map_map]
    rfl

theorem fill?_open_append {i : Nat} {e u v : Text} (h : afterHolder? i ('<' :: (u ++ v)) = none)
    (hu : '<' ∉ u) : fill? i e ('<' :: (u ++ v)) = (fill? i e v).map ('<' :: u ++ ·) := by
  rw [fill?_of_afterHolder?_eq_none h, fill?_append_of_not_mem hu, Option.map_map]
  rfl

theorem exists_of_head? {v : Text} (h : v.head? = some '<') : ∃ r, v = '<' :: r := by
  cases v with
  | nil => simp at h
  | cons c r => exact ⟨r, by simpa using h⟩

/-- Markup that begins with a tag, unless it is empty, and in which nothing holds the place of a
private-use placeholder. -/
structure Inert (u : Text) : Prop where
  opens : ∀ {v : Text}, v.head? = some '<' → (u ++ v).head? = some '<'
  fill?_append : ∀ {i : Nat}, i < privateUseCount → ∀ (e : Text) {v : Text}, v.head? = some '<' →
    fill? i e (u ++ v) = (fill? i e v).map (u ++ ·)

namespace Inert

theorem nil : Inert [] where
  opens h := h
  fill?_append _ e v _ := by simp

theorem append {u w : Text} (hu : Inert u) (hw : Inert w) : Inert (u ++ w) where
  opens h := by
    rw [List.append_assoc]
    exact hu.opens (hw.opens h)
  fill?_append hi e v h := by
    rw [List.append_assoc, hu.fill?_append hi e (hw.opens h), hw.fill?_append hi e h, Option.map_map]
    congr 1
    funext x
    simp

theorem tag {body : Text} (ho : '<' ∉ body) (hc : '>' ∉ body) : Inert ('<' :: (body ++ ['>'])) where
  opens _ := rfl
  fill?_append := by
    intro i hi e v hv
    obtain ⟨r, rfl⟩ := exists_of_head? hv
    have h := afterHolder?_tag (lt_placeholderCount hi) hc r
    rw [List.append_cons] at h
    exact fill?_open_append h (by simpa using ho)

theorem identifier (s : Spelling) {c : Char} (hb : isBlank c = false)
    (hc : isPrivateUse c = false) : Inert (identifier s c) where
  opens _ := rfl
  fill?_append := by
    intro i hi e v hv
    have hne : c ≠ placeholder i := by
      rintro rfl
      simp [isPrivateUse, toNat_placeholder (lt_placeholderCount hi), hi] at hc
    have hcut : Compile.identifier s c =
        '<' :: ("mi>".toList ++ s.write c) ++ '<' :: ("/mi".toList ++ ['>']) := by
      simp [Compile.identifier]
    have hend : Inert ('<' :: ("/mi".toList ++ ['>'])) := tag (by decide) (by decide)
    have h := afterHolder?_identifier (lt_placeholderCount hi) s hb v
    have hm : '<' ∉ "mi>".toList ++ s.write c := by
      simpa using not_mem_write s c
    rw [if_neg hne, hcut, List.append_assoc] at h
    rw [hcut, List.append_assoc, List.cons_append, fill?_open_append h hm,
      hend.fill?_append hi e hv, Option.map_map]
    congr 1
    funext x
    simp

end Inert

/-- An element takes the place of the holder behind inert markup. -/
theorem fill?_inert_append {u : Text} (hu : Inert u) {i : Nat} (hi : i < privateUseCount)
    (s : Spelling) (e v : Text) :
    fill? i e (u ++ (identifier s (placeholder i) ++ v)) = some (u ++ (e ++ v)) := by
  have hi' := lt_placeholderCount hi
  have h := afterHolder?_identifier hi' s (isBlank_placeholder hi') v
  rw [if_pos rfl] at h
  have hf : fill? i e (identifier s (placeholder i) ++ v) = some (e ++ v) := by
    obtain ⟨r, hr⟩ : ∃ r, identifier s (placeholder i) ++ v = '<' :: r := ⟨_, rfl⟩
    rw [hr] at h ⊢
    simp [fill?, h]
  rw [hu.fill?_append hi e rfl, hf, Option.map_some]

end Formula.Compile
