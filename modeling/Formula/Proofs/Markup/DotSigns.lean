import Formula.Proofs.Markup.Attributes

/-! # Signs of a dot

A dot or a double dot is written as itself, or by a reference. Such a sign has none of the characters
that end a tag, a name or a value, and a reference that is complete has no part in what follows it. So
texts put side by side show no dot that none of them shows.
-/

namespace Formula.Markup

open Text

def isReferenceChar (c : Char) : Bool :=
  c.isAlphanum || c == '#'

structure DotSign (p : Text) : Prop where
  starts : ∀ u, startsWithDot (p ++ u) = true
  shape : p = ['˙'] ∨ p = ['¨'] ∨
    ∃ q, p = '&' :: (q ++ [';']) ∧ ∀ c ∈ q, isReferenceChar c = true

def hexDigits : List String :=
  ["2d9", "2D9", "a8", "A8"]

def decimalDigits : List String :=
  ["729", "168"]

def glyphNames : List String :=
  ["dot", "DiacriticalDot", "die", "uml", "Dot", "DoubleDot"]

/-- How a dot or a double dot is written: as itself, by its number with any zeros in front of the digits,
or by name. -/
inductive DotSpelling : Text → Prop
  | literal {c : Char} : c ∈ ['˙', '¨'] → DotSpelling [c]
  | hexadecimal {x : Char} {digits : String} (zeros : Nat) : x ∈ ['x', 'X'] → digits ∈ hexDigits →
      DotSpelling ('&' :: '#' :: x :: (List.replicate zeros '0' ++ (digits.toList ++ [';'])))
  | decimal {digits : String} (zeros : Nat) : digits ∈ decimalDigits →
      DotSpelling ('&' :: '#' :: (List.replicate zeros '0' ++ (digits.toList ++ [';'])))
  | named {name : String} : name ∈ glyphNames → DotSpelling ('&' :: (name.toList ++ [';']))

theorem dropWhile_zeros {t : Text} (ht : t.head? ≠ some '0') (n : Nat) :
    (List.replicate n '0' ++ t).dropWhile (· = '0') = t := by
  rw [List.dropWhile_append_of_pos (by simp)]
  cases t with
  | nil => rfl
  | cons c t => exact List.dropWhile_cons_of_neg (by simpa using ht)

theorem exists_zeros (t : Text) : ∃ n, t = List.replicate n '0' ++ t.dropWhile (· = '0') := by
  have hz : ∀ c ∈ t.takeWhile (· = '0'), c = '0' := fun c hc => by
    simpa using List.mem_takeWhile_imp hc
  exact ⟨_, by rw [← List.eq_replicate_of_mem hz, List.takeWhile_append_dropWhile]⟩

/-- Digits are looked for behind the zeros. -/
theorem any_digits_iff {digits : List String}
    (hd : ∀ d ∈ digits, d.toList ≠ [] ∧ d.toList.head? ≠ some '0') {t : Text} :
    ((digits.map (· ++ ";")).any fun n => startsWith n.toList (t.dropWhile (· = '0'))) = true ↔
      ∃ d ∈ digits, ∃ zeros, List.replicate zeros '0' ++ (d.toList ++ [';']) <+: t := by
  simp only [List.any_map, List.any_eq_true, Function.comp_apply, startsWith_iff, String.toList_append]
  constructor
  · rintro ⟨d, hm, u, hu⟩
    obtain ⟨zeros, hz⟩ := exists_zeros t
    refine ⟨d, hm, zeros, u, ?_⟩
    rw [List.append_assoc, hz, ← hu]
    rfl
  · rintro ⟨d, hm, zeros, u, rfl⟩
    obtain ⟨hne, h0⟩ := hd d hm
    have ht : (d.toList ++ ([';'] ++ u)).head? ≠ some '0' := by
      cases e : d.toList with
      | nil => exact absurd e hne
      | cons c r => simpa [e] using h0
    refine ⟨d, hm, u, ?_⟩
    rw [List.append_assoc (List.replicate zeros '0'), List.append_assoc d.toList [';'], dropWhile_zeros ht,
      List.append_assoc]
    rfl

theorem startsWithDotNumber_hexadecimal {x : Char} (hx : x ∈ ['x', 'X']) (r : Text) :
    startsWithDotNumber ('&' :: '#' :: x :: r) = true ↔
      ∃ d ∈ hexDigits, ∃ zeros, List.replicate zeros '0' ++ (d.toList ++ [';']) <+: r := by
  have ha : after? ['&', '#'] ('&' :: '#' :: x :: r) = some (x :: r) := rfl
  rw [← any_digits_iff (by decide)]
  simp only [startsWithDotNumber, ha, if_pos (show x = 'x' ∨ x = 'X' by simpa using hx)]
  rfl

theorem startsWithDotNumber_decimal {c : Char} (hc : c ∉ ['x', 'X']) (r : Text) :
    startsWithDotNumber ('&' :: '#' :: c :: r) = true ↔
      ∃ d ∈ decimalDigits, ∃ zeros, List.replicate zeros '0' ++ (d.toList ++ [';']) <+: c :: r := by
  have ha : after? ['&', '#'] ('&' :: '#' :: c :: r) = some (c :: r) := rfl
  rw [← any_digits_iff (by decide)]
  simp only [startsWithDotNumber, ha, if_neg (show ¬(c = 'x' ∨ c = 'X') by simpa using hc)]
  rfl

theorem startsWithDot_of_number {t : Text} (h : startsWithDotNumber t = true) :
    startsWithDot t = true := by
  rw [startsWithDot, h, Bool.or_true, Bool.true_or]

namespace DotSpelling

theorem startsWithDot {p : Text} (h : DotSpelling p) (u : Text) : startsWithDot (p ++ u) = true := by
  cases h with
  | @literal c hc =>
    have hc : c = '˙' ∨ c = '¨' := by simpa using hc
    rcases hc with rfl | rfl <;> simp [Markup.startsWithDot]
  | hexadecimal zeros hx hd =>
    apply startsWithDot_of_number
    exact (startsWithDotNumber_hexadecimal hx _).mpr ⟨_, hd, zeros, List.prefix_append _ u⟩
  | @decimal digits zeros hd =>
    apply startsWithDot_of_number
    obtain ⟨c, r, e, hc⟩ : ∃ c r, List.replicate zeros '0' ++ (digits.toList ++ [';']) = c :: r ∧
        c ∉ ['x', 'X'] := by
      cases zeros with
      | zero =>
        have hd : digits = "729" ∨ digits = "168" := by simpa [decimalDigits] using hd
        rcases hd with rfl | rfl <;> exact ⟨_, _, rfl, by decide⟩
      | succ zeros => exact ⟨_, _, rfl, by decide⟩
    have hs := (startsWithDotNumber_decimal hc (r ++ u)).mpr
      ⟨digits, hd, zeros, by rw [e]; exact List.prefix_append _ u⟩
    simpa [e] using hs
  | @named name hn =>
    have hm : dotNames = glyphNames.map fun n => "&" ++ n ++ ";" := by decide
    have ha : (dotNames.any fun n => startsWith n.toList ('&' :: (name.toList ++ [';']) ++ u)) = true := by
      rw [hm, List.any_map, List.any_eq_true]
      refine ⟨name, hn, startsWith_iff.mpr ⟨u, ?_⟩⟩
      simp
    rw [Markup.startsWithDot, ha, Bool.or_true]

theorem shape {p : Text} (h : DotSpelling p) : p = ['˙'] ∨ p = ['¨'] ∨
    ∃ q, p = '&' :: (q ++ [';']) ∧ ∀ c ∈ q, isReferenceChar c = true := by
  have hz : ∀ n, ∀ c ∈ List.replicate n '0', isReferenceChar c = true := fun n c hc => by
    rw [List.eq_of_mem_replicate hc]
    decide
  cases h with
  | @literal c hc =>
    have hc : c = '˙' ∨ c = '¨' := by simpa using hc
    exact hc.imp (by rintro rfl; rfl) (fun h => .inl (by rw [h]))
  | @hexadecimal x digits zeros hx hd =>
    have hd' : ∀ d ∈ hexDigits, d.toList.all isReferenceChar = true := by decide
    have hx' : ['x', 'X'].all isReferenceChar = true := by decide
    refine .inr (.inr ⟨'#' :: x :: (List.replicate zeros '0' ++ digits.toList), by simp, ?_⟩)
    exact List.forall_mem_cons.mpr ⟨by decide, List.forall_mem_cons.mpr ⟨List.all_eq_true.mp hx' x hx,
      List.forall_mem_append.mpr ⟨hz zeros, List.all_eq_true.mp (hd' digits hd)⟩⟩⟩
  | @decimal digits zeros hd =>
    have hd' : ∀ d ∈ decimalDigits, d.toList.all isReferenceChar = true := by decide
    refine .inr (.inr ⟨'#' :: (List.replicate zeros '0' ++ digits.toList), by simp, ?_⟩)
    exact List.forall_mem_cons.mpr ⟨by decide,
      List.forall_mem_append.mpr ⟨hz zeros, List.all_eq_true.mp (hd' digits hd)⟩⟩
  | @named name hn =>
    have hn' : ∀ n ∈ glyphNames, n.toList.all isReferenceChar = true := by decide
    exact .inr (.inr ⟨name.toList, rfl, List.all_eq_true.mp (hn' name hn)⟩)

theorem dotSign {p : Text} (h : DotSpelling p) : DotSign p :=
  ⟨h.startsWithDot, h.shape⟩

end DotSpelling

theorem exists_dotNumber {t : Text} (h : startsWithDotNumber t = true) :
    ∃ p, DotSpelling p ∧ p <+: t := by
  have ha : ∃ c r, t = '&' :: '#' :: c :: r := by
    unfold startsWithDotNumber at h
    cases ha : after? ['&', '#'] t with
    | none => simp [ha] at h
    | some r =>
      cases r with
      | nil => simp [ha] at h
      | cons c r => exact ⟨c, r, after?_eq_some_iff.mp ha⟩
  obtain ⟨c, r, rfl⟩ := ha
  by_cases hc : c ∈ ['x', 'X']
  · obtain ⟨d, hd, zeros, hp⟩ := (startsWithDotNumber_hexadecimal hc r).mp h
    exact ⟨_, .hexadecimal zeros hc hd, by simpa using hp⟩
  · obtain ⟨d, hd, zeros, hp⟩ := (startsWithDotNumber_decimal hc r).mp h
    exact ⟨_, .decimal zeros hd, by simpa using hp⟩

theorem exists_dotSpelling {t : Text} (h : startsWithDot t = true) : ∃ p, DotSpelling p ∧ p <+: t := by
  simp only [startsWithDot, Bool.or_eq_true, decide_eq_true_eq, List.any_eq_true, startsWith_iff] at h
  rcases h with ((h | h) | h) | ⟨n, hn, h⟩
  · obtain ⟨r, rfl⟩ := List.head?_eq_some_iff.mp h
    exact ⟨['˙'], .literal (by decide), List.prefix_append _ _⟩
  · obtain ⟨r, rfl⟩ := List.head?_eq_some_iff.mp h
    exact ⟨['¨'], .literal (by decide), List.prefix_append _ _⟩
  · exact exists_dotNumber h
  · have hm : ∀ n ∈ dotNames, ∃ m ∈ ["dot", "DiacriticalDot", "die", "uml", "Dot", "DoubleDot"],
        n.toList = '&' :: (m.toList ++ [';']) := by decide
    obtain ⟨m, hm, e⟩ := hm n hn
    exact ⟨_, .named hm, e ▸ h⟩

/-- A text shows a dot if a dot is written somewhere in it, in one way or another. -/
theorem showsDot_iff_spelling {t : Text} : showsDot t = true ↔ ∃ p, DotSpelling p ∧ p <:+: t := by
  rw [showsDot, anySuffix_iff]
  constructor
  · rintro ⟨s, hs, h⟩
    obtain ⟨p, hp, hps⟩ := exists_dotSpelling h
    exact ⟨p, hp, hps.isInfix.trans hs.isInfix⟩
  · rintro ⟨p, hp, a, b, rfl⟩
    exact ⟨p ++ b, ⟨a, by simp⟩, hp.startsWithDot b⟩

theorem exists_dotSign {t : Text} (h : startsWithDot t = true) : ∃ p, DotSign p ∧ p <+: t := by
  obtain ⟨p, hp, h⟩ := exists_dotSpelling h
  exact ⟨p, hp.dotSign, h⟩

theorem showsDot_iff {t : Text} : showsDot t = true ↔ ∃ p, DotSign p ∧ p <:+: t := by
  constructor
  · intro h
    obtain ⟨p, hp, hi⟩ := showsDot_iff_spelling.mp h
    exact ⟨p, hp.dotSign, hi⟩
  · rintro ⟨p, hp, a, b, rfl⟩
    exact anySuffix_iff.mpr ⟨p ++ b, ⟨a, by simp⟩, hp.starts b⟩

theorem DotSign.not_mem {p : Text} (h : DotSign p) {c : Char}
    (hc : isReferenceChar c = false) (hn : c ∉ ['&', ';', '˙', '¨']) : c ∉ p := by
  simp only [List.mem_cons, List.not_mem_nil, or_false, not_or] at hn
  rcases h.shape with rfl | rfl | ⟨q, rfl, hq⟩
  · simpa using hn.2.2.1
  · simpa using hn.2.2.2
  · simp only [List.mem_cons, List.mem_append, List.not_mem_nil, or_false, not_or]
    refine ⟨hn.1, fun hm => ?_, hn.2.1⟩
    simp [hq c hm] at hc

theorem DotSign.ne_nil {p : Text} (h : DotSign p) : p ≠ [] := by
  rcases h.shape with rfl | rfl | ⟨q, rfl, -⟩ <;> simp

def delimiters : List Char :=
  [' ', '=', '"', '<', '/', '>']

def isDelimiter (c : Char) : Bool :=
  delimiters.contains c

theorem DotSign.delimiter_not_mem {p : Text} (h : DotSign p) {c : Char} (hc : isDelimiter c = true) :
    c ∉ p := by
  have hd : (delimiters.all fun c =>
      !(isReferenceChar c || ['&', ';', '˙', '¨'].contains c)) = true := by decide
  have hc' := List.all_eq_true.mp hd c (List.contains_iff_mem.mp hc)
  rw [Bool.not_eq_true', Bool.or_eq_false_iff] at hc'
  exact h.not_mem hc'.1 (by simpa using hc'.2)

theorem showsDot_append_cons {c : Char} (hc : isDelimiter c = true) (s t : Text) :
    showsDot (s ++ c :: t) = (showsDot s || showsDot t) := by
  rw [Bool.eq_iff_iff, Bool.or_eq_true, showsDot_iff, showsDot_iff, showsDot_iff]
  constructor
  · rintro ⟨p, hp, h⟩
    exact ((infix_append_cons_iff (hp.delimiter_not_mem hc)).mp h).imp (⟨p, hp, ·⟩) (⟨p, hp, ·⟩)
  · rintro (⟨p, hp, h⟩ | ⟨p, hp, h⟩)
    · exact ⟨p, hp, (infix_append_cons_iff (hp.delimiter_not_mem hc)).mpr (.inl h)⟩
    · exact ⟨p, hp, (infix_append_cons_iff (hp.delimiter_not_mem hc)).mpr (.inr h)⟩

theorem showsDot_nil : showsDot [] = false := by
  decide

theorem showsDot_cons {c : Char} (hc : isDelimiter c = true) (t : Text) :
    showsDot (c :: t) = showsDot t := by
  have h := showsDot_append_cons hc [] t
  rwa [List.nil_append, showsDot_nil, Bool.false_or] at h

/-- No sign begins in the name of an element. -/
theorem showsDot_name_append {name : Text} (hn : ∀ c ∈ name, c.isAlpha = true) (t : Text) :
    showsDot (name ++ t) = showsDot t := by
  induction name with
  | nil => rfl
  | cons c name ih =>
    obtain ⟨hc, hn⟩ := List.forall_mem_cons.mp hn
    have hs : startsWithDot (c :: (name ++ t)) = false := by
      cases h : startsWithDot (c :: (name ++ t)) with
      | false => rfl
      | true =>
        obtain ⟨p, hp, hps⟩ := exists_dotSign h
        rcases hp.shape with rfl | rfl | ⟨q, rfl, -⟩ <;>
        · obtain ⟨rfl, -⟩ := List.cons_prefix_cons.mp hps
          exact absurd hc (by decide)
    rw [List.cons_append, showsDot, anySuffix, hs, Bool.false_or]
    exact ih hn

theorem showsDot_writtenAttributes {as : List Attribute} :
    showsDot (writtenAttributes as) = true ↔
      ∃ a ∈ as, showsDot a.name = true ∨ showsDot a.value = true := by
  simp only [showsDot_iff]
  constructor
  · rintro ⟨p, hp, h⟩
    obtain ⟨a, ha, h⟩ := (infix_writtenAttributes_iff hp.ne_nil (hp.delimiter_not_mem (by decide))
      (hp.delimiter_not_mem (by decide)) (hp.delimiter_not_mem (by decide))).mp h
    exact ⟨a, ha, h.imp (⟨p, hp, ·⟩) (⟨p, hp, ·⟩)⟩
  · rintro ⟨a, ha, ⟨p, hp, h⟩ | ⟨p, hp, h⟩⟩
    · exact ⟨p, hp, (infix_writtenAttributes_iff hp.ne_nil (hp.delimiter_not_mem (by decide))
        (hp.delimiter_not_mem (by decide)) (hp.delimiter_not_mem (by decide))).mpr ⟨a, ha, .inl h⟩⟩
    · exact ⟨p, hp, (infix_writtenAttributes_iff hp.ne_nil (hp.delimiter_not_mem (by decide))
        (hp.delimiter_not_mem (by decide)) (hp.delimiter_not_mem (by decide))).mpr ⟨a, ha, .inr h⟩⟩

/-! ## Complete references -/

def isHexDigit (c : Char) : Bool :=
  c.isDigit || ('a' ≤ c && c ≤ 'f') || ('A' ≤ c && c ≤ 'F')

/-- A number between an ampersand with a hash and a semicolon. -/
def isReferenceNumber : Text → Bool
  | [] => false
  | c :: r =>
    if c = 'x' ∨ c = 'X' then !r.isEmpty && r.all isHexDigit else (c :: r).all Char.isDigit

def isReference : Text → Bool
  | [] => false
  | c :: r => if c = '#' then isReferenceNumber r else c.isAlpha && r.all Char.isAlphanum

def completesReference (t : Text) : Bool :=
  (t.dropWhile (· ≠ ';')).head? = some ';' && isReference (t.takeWhile (· ≠ ';'))

/-- Every ampersand begins a complete reference. -/
def hasCompleteReferences : Text → Bool
  | [] => true
  | c :: r => (c ≠ '&' || completesReference r) && hasCompleteReferences r

theorem mem_semicolon_of_completesReference {t : Text} (h : completesReference t = true) : ';' ∈ t := by
  simp only [completesReference, Bool.and_eq_true, decide_eq_true_eq] at h
  exact (List.dropWhile_suffix _).subset (List.mem_of_mem_head? h.1)

theorem completesReference_of_append {s t : Text}
    (h : hasCompleteReferences (s ++ '&' :: t) = true) : completesReference t = true := by
  induction s with
  | nil =>
    simp only [List.nil_append, hasCompleteReferences, Bool.and_eq_true] at h
    simpa using h.1
  | cons c s ih =>
    simp only [List.cons_append, hasCompleteReferences, Bool.and_eq_true] at h
    exact ih h.2

/-- No sign begins in a text with complete references and goes on behind it. -/
theorem DotSign.not_straddling {p u x w : Text} (hp : DotSign p)
    (hs : hasCompleteReferences (u ++ x) = true) (h : p = x ++ w) : x = [] ∨ w = [] := by
  cases x with
  | nil => exact .inl rfl
  | cons c x =>
  rcases List.eq_nil_or_concat w with rfl | ⟨w, d, rfl⟩
  · exact .inr rfl
  rcases hp.shape with rfl | rfl | ⟨q, rfl, hq⟩
  · simp at h
  · simp at h
  · rw [List.concat_eq_append, List.cons_append, ← List.append_assoc] at h
    obtain ⟨rfl, e⟩ := List.cons.inj h
    obtain ⟨rfl, -⟩ := List.append_inj' e rfl
    have hm := mem_semicolon_of_completesReference (completesReference_of_append hs)
    exact absurd (hq _ (List.mem_append_left w hm)) (by decide)

/-- A text with complete references shows what it shows by itself. -/
theorem showsDot_append {s : Text} (hs : hasCompleteReferences s = true) (t : Text) :
    showsDot (s ++ t) = (showsDot s || showsDot t) := by
  rw [Bool.eq_iff_iff, Bool.or_eq_true, showsDot_iff, showsDot_iff, showsDot_iff]
  constructor
  · rintro ⟨p, hp, u, v, e⟩
    rcases List.append_eq_append_iff.mp e with ⟨w, rfl, -⟩ | ⟨w, e', hw⟩
    · exact .inl ⟨p, hp, u, w, rfl⟩
    · rcases List.append_eq_append_iff.mp e' with ⟨x, rfl, hx⟩ | ⟨x, rfl, rfl⟩
      · rcases hp.not_straddling hs hx with rfl | rfl
        · exact .inr ⟨p, hp, [], v, by rw [hw, hx]; rfl⟩
        · exact .inl ⟨p, hp, u, [], by simp [hx]⟩
      · exact .inr ⟨p, hp, x, v, by rw [hw]⟩
  · rintro (⟨p, hp, h⟩ | ⟨p, hp, h⟩)
    · exact ⟨p, hp, h.trans (List.prefix_append _ _).isInfix⟩
    · exact ⟨p, hp, h.trans (List.suffix_append _ _).isInfix⟩

end Formula.Markup
