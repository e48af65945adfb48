import Formula.Proofs.Markup.Namespace
import Formula.Proofs.Markup.Stripping
import Formula.Proofs.Tex.Splitting

/-! # Layout attributes and the values of others

A tag loses each of its layout attributes whole, with the blanks in front. They are looked for behind any
blank of the tag, though, and a blank may stand in the value of another attribute. If the tag goes on there
as a layout attribute does, within the value or over its end, that is cut out as well.
-/

namespace Formula.Markup

open Text

/-! ## What is cut out of a tag -/

/-- A character that is kept, or some text that is cut out. -/
inductive LayoutPart
  | kept (c : Char)
  | cut (t : Text)
  deriving DecidableEq, Repr

namespace LayoutPart

def source : LayoutPart → Text
  | kept c => [c]
  | cut t => t

def written : LayoutPart → Text
  | kept c => [c]
  | cut _ => []

end LayoutPart

theorem flatMap_written_map_kept (t : Text) : (t.map LayoutPart.kept).flatMap LayoutPart.written = t := by
  rw [List.flatMap_map]
  exact List.flatMap_singleton' t

/-- What becomes of a tag when the layout is dropped, part by part. -/
def layoutParts : Text → List LayoutPart
  | [] => []
  | c :: r =>
    if isBlank c then match _h : afterLayoutAttribute? (skipBlanks r) with
      | some rest => .cut (Tex.upTo rest (c :: r)) :: layoutParts rest
      | none => .kept c :: layoutParts r
    else .kept c :: layoutParts r
termination_by t => t.length
decreasing_by
  · have h₁ := afterLayoutAttribute?_length_le _h
    have h₂ := skipBlanks_length_le r
    simp only [List.length_cons]
    omega
  all_goals simp

theorem layoutParts_nil : layoutParts [] = [] := by
  rw [layoutParts.eq_def]

theorem flatMap_written_layoutParts (t : Text) :
    (layoutParts t).flatMap LayoutPart.written = dropLayout t := by
  fun_induction layoutParts t with
  | case1 => rw [dropLayout_nil, List.flatMap_nil]
  | case2 c r hc rest h ih =>
    rw [dropLayout_blank hc, h, List.flatMap_cons, ih]
    rfl
  | case3 c r hc h ih =>
    rw [dropLayout_blank hc, h, List.flatMap_cons, ih]
    rfl
  | case4 c r hc ih =>
    rw [dropLayout_cons (by simpa using hc), List.flatMap_cons, ih]
    rfl

theorem flatMap_source_layoutParts (t : Text) : (layoutParts t).flatMap LayoutPart.source = t := by
  fun_induction layoutParts t with
  | case1 => rfl
  | case2 c r hc rest h ih =>
    obtain ⟨u, e⟩ := ((suffix_of_afterLayoutAttribute? h).trans (skipBlanks_suffix r)).trans
      (List.suffix_cons c r)
    rw [List.flatMap_cons, ih, LayoutPart.source, ← e, Tex.upTo_append]
  | case3 c r hc h ih | case4 c r hc ih =>
    rw [List.flatMap_cons, ih]
    rfl

theorem layoutParts_of_length_le {t : Text} (h : t.length ≤ (dropLayout t).length) :
    layoutParts t = t.map .kept := by
  fun_induction layoutParts t with
  | case1 => rfl
  | case2 c r hc rest hr _ =>
    have h₁ := (dropLayout_sublist rest).length_le
    have h₂ := afterLayoutAttribute?_length_le hr
    have h₃ := skipBlanks_length_le r
    have hd : (c :: r).length ≤ (dropLayout rest).length := by
      rwa [dropLayout_blank hc, hr] at h
    rw [List.length_cons] at hd
    omega
  | case3 c r hc hr ih =>
    rw [dropLayout_blank hc, hr] at h
    rw [ih (Nat.le_of_succ_le_succ h), List.map_cons]
  | case4 c r hc ih =>
    rw [dropLayout_cons (by simpa using hc)] at h
    rw [ih (Nat.le_of_succ_le_succ h), List.map_cons]

theorem layoutParts_cons {c : Char} (hc : isBlank c = false) (r : Text) :
    layoutParts (c :: r) = .kept c :: layoutParts r := by
  rw [layoutParts.eq_def]
  simp [hc]

theorem layoutParts_blank {c : Char} (hc : isBlank c = true) (r : Text) :
    layoutParts (c :: r) = match afterLayoutAttribute? (skipBlanks r) with
      | some rest => .cut (Tex.upTo rest (c :: r)) :: layoutParts rest
      | none => .kept c :: layoutParts r := by
  rw [layoutParts.eq_def]
  simp only [hc, if_true]
  split <;> simp_all

theorem layoutParts_append {s : Text} (hs : ∀ c ∈ s, isBlank c = false) (r : Text) :
    layoutParts (s ++ r) = s.map .kept ++ layoutParts r := by
  induction s with
  | nil => rfl
  | cons c s ih =>
    obtain ⟨hc, hs⟩ := List.forall_mem_cons.mp hs
    rw [List.cons_append, layoutParts_cons hc, ih hs, List.map_cons, List.cons_append]

theorem layoutParts_gap {gap y : Text} (hg : ∀ c ∈ gap, isBlank c = true)
    (hy : ∀ c ∈ y.head?, isBlank c = false) (h : afterLayoutAttribute? y = none) :
    layoutParts (gap ++ y) = gap.map .kept ++ layoutParts y := by
  induction gap with
  | nil => rfl
  | cons c gap ih =>
    obtain ⟨hc, hg⟩ := List.forall_mem_cons.mp hg
    rw [List.cons_append, layoutParts_blank hc, skipBlanks_gap hg hy, h, ih hg, List.map_cons,
      List.cons_append]

/-! ## Where a layout attribute begins -/

theorem afterLayoutAttribute?_of_not_alpha {c : Char} (hc : c.isAlpha = false) (r : Text) :
    afterLayoutAttribute? (c :: r) = none := by
  rw [afterLayoutAttribute?_eq, List.findSome?_eq_none_iff]
  intro key hkey
  obtain ⟨hne, hchars⟩ := layoutNames_chars hkey
  obtain ⟨k, ks, rfl⟩ := List.exists_cons_of_ne_nil hne
  have hk : k ≠ c := by
    rintro rfl
    rw [(hchars k List.mem_cons_self).1] at hc
    cases hc
  rw [keyed?, after?, if_neg hk, Option.bind_none, Option.bind_none]

namespace QuotedAttribute

def isLayout (a : QuotedAttribute) : Bool :=
  layoutNames.contains a.name

def front (a : QuotedAttribute) : Text :=
  a.lead ++ (a.name ++ (a.before ++ '=' :: (a.behind ++ [a.quote])))

theorem written_append (a : QuotedAttribute) (x : Text) :
    a.written ++ x =
      a.lead ++ (a.name ++ (a.before ++ '=' :: (a.behind ++ a.quote :: (a.value ++ a.quote :: x)))) := by
  simp [written]

theorem written_eq_front (a : QuotedAttribute) : a.written = a.front ++ (a.value ++ [a.quote]) := by
  simp [written, front]

end QuotedAttribute

theorem isAngle_of_isBlank {c : Char} (h : isBlank c = true) : isAngle c = false := by
  refine Bool.eq_false_iff.mpr fun ha => ?_
  rcases Bool.or_eq_true_iff.mp ha with ha | ha <;>
  · obtain rfl := beq_iff_eq.mp ha
    exact absurd h (by decide)

namespace QuotedAttribute.WellFormed

variable {a : QuotedAttribute} (h : a.WellFormed)

include h

theorem isBlank_name : ∀ c ∈ a.name, isBlank c = false :=
  fun c hc => (h.name c hc).2.2

theorem afterLayoutAttribute?_eq (x : Text) :
    afterLayoutAttribute?
        (a.name ++ (a.before ++ '=' :: (a.behind ++ a.quote :: (a.value ++ a.quote :: x)))) =
      if a.isLayout then some x else none := by
  have hn : ∀ c ∈ a.name, isKeyChar c = true :=
    fun c hc => isKeyChar_iff.mpr ⟨h.isBlank_name c hc, (ne_of_isPlain (h.name c hc).1).2.2.2⟩
  exact afterLayoutAttribute?_named hn h.before h.behind h.quote h.value.1 x

theorem exists_lead : ∃ c gap, a.lead = c :: gap ∧ isBlank c = true ∧ ∀ c ∈ gap, isBlank c = true := by
  obtain ⟨c, gap, e⟩ := List.exists_cons_of_ne_nil h.lead_ne
  have hl := h.lead
  rw [e, List.forall_mem_cons] at hl
  exact ⟨c, gap, e, hl⟩

theorem isBlank_head (y : Text) : ∀ c ∈ (a.name ++ y).head?, isBlank c = false := by
  obtain ⟨c, name, e⟩ := List.exists_cons_of_ne_nil h.name_ne
  have hc := h.isBlank_name c (by simp [e])
  simp [e, hc]

end QuotedAttribute.WellFormed

/-- The text begins with a layout attribute, blanks in front of it included. -/
def OpensLayout (t : Text) : Prop :=
  ∃ (b : QuotedAttribute) (rest : Text), b.WellFormed ∧ b.isLayout = true ∧ t = b.written ++ rest

/-- A layout attribute that is found in a tag is an attribute as one would write it. -/
theorem opensLayout_of_afterLayoutAttribute? {c : Char} {r rest : Text} (hc : isBlank c = true) (hr : '<' ∉ r)
    (h : afterLayoutAttribute? (skipBlanks r) = some rest) : OpensLayout (c :: r) := by
  rw [afterLayoutAttribute?_eq] at h
  obtain ⟨name, hn, h⟩ := List.exists_of_findSome?_eq_some h
  obtain ⟨r₁, hk, hq⟩ := Option.bind_eq_some_iff.mp h
  obtain ⟨s, hname, hs⟩ := keyed?_eq_some_iff.mp hk
  obtain ⟨q, value, hquote, hvalue, hr₁⟩ := exists_value_of_afterQuoted? hq
  have e : c :: r = (c :: r.takeWhile isBlank) ++ (name ++ (s.takeWhile isBlank ++
      '=' :: (r₁.takeWhile isBlank ++ q :: (value ++ q :: rest)))) := by
    have hsplit := Tex.takeWhile_isBlank_append_skipBlanks
    rw [← hr₁, hsplit, ← hs, hsplit, ← hname, List.cons_append, hsplit]
  have hblank : ∀ t : Text, ∀ c ∈ t.takeWhile isBlank, isBlank c = true :=
    fun _ _ hc => List.mem_takeWhile_imp hc
  obtain ⟨hne, hchars⟩ := layoutNames_chars hn
  have hbracket : '<' ∉ value := by
    intro hm
    have hcr : '<' ∈ c :: r := by
      rw [e]
      simp [hm]
    rcases List.mem_cons.mp hcr with rfl | hcr
    · exact absurd hc (by decide)
    · exact hr hcr
  refine ⟨⟨c :: r.takeWhile isBlank, name, s.takeWhile isBlank, r₁.takeWhile isBlank, q, value⟩, rest,
    ?_, List.contains_iff_mem.mpr hn, by rw [e, QuotedAttribute.written_append]⟩
  exact
    { lead_ne := List.cons_ne_nil _ _
      lead := List.forall_mem_cons.mpr ⟨hc, hblank r⟩
      name_ne := hne
      name := fun c hc => (hchars c hc).2
      before := hblank s
      behind := hblank r₁
      quote := hquote
      value := ⟨hvalue, hbracket⟩ }

theorem OpensLayout.exists_rest {c : Char} {r : Text} (h : OpensLayout (c :: r)) :
    isBlank c = true ∧ ∃ rest, afterLayoutAttribute? (skipBlanks r) = some rest := by
  obtain ⟨b, rest, hb, hl, e⟩ := h
  obtain ⟨d, gap, hlead, hd, hgap⟩ := hb.exists_lead
  rw [b.written_append, hlead, List.cons_append] at e
  obtain ⟨rfl, rfl⟩ := List.cons.inj e
  refine ⟨hd, rest, ?_⟩
  rw [skipBlanks_gap hgap (hb.isBlank_head _), hb.afterLayoutAttribute?_eq, if_pos hl]

theorem layoutParts_cons_cases {c : Char} {r : Text} (hr : '<' ∉ r) :
    (OpensLayout (c :: r) ∧ ∃ t ps, layoutParts (c :: r) = .cut t :: ps) ∨
      (¬ OpensLayout (c :: r) ∧ layoutParts (c :: r) = .kept c :: layoutParts r) := by
  cases hc : isBlank c with
  | false =>
    refine .inr ⟨fun ho => ?_, layoutParts_cons hc r⟩
    rw [ho.exists_rest.1] at hc
    cases hc
  | true =>
    rw [layoutParts_blank hc]
    cases ha : afterLayoutAttribute? (skipBlanks r) with
    | some rest => exact .inl ⟨opensLayout_of_afterLayoutAttribute? hc hr ha, _, _, rfl⟩
    | none =>
      refine .inr ⟨fun ho => ?_, rfl⟩
      obtain ⟨-, rest, h⟩ := ho.exists_rest
      rw [ha] at h
      cases h

/-! ## Values -/

/-- A value is kept if no layout attribute begins in it. -/
theorem layoutParts_value {value y : Text} (hb : '<' ∉ value ++ y)
    (h : ∀ u v, value = u ++ v → v ≠ [] → ¬ OpensLayout (v ++ y)) :
    layoutParts (value ++ y) = value.map .kept ++ layoutParts y := by
  induction value with
  | nil => rfl
  | cons c value ih =>
    rw [List.cons_append, List.mem_cons, not_or] at hb
    have hv : ∀ u v, value = u ++ v → v ≠ [] → ¬ OpensLayout (v ++ y) :=
      fun u v e => h (c :: u) v (by rw [e]; rfl)
    rcases layoutParts_cons_cases hb.2 with ⟨ho, -⟩ | ⟨-, e⟩
    · exact absurd ho (h [] _ rfl (List.cons_ne_nil c value))
    · rw [List.cons_append, e, ih hb.2 hv, List.map_cons, List.cons_append]

/-- A value is not kept whole if a layout attribute begins in it. -/
theorem layoutParts_value_ne {u v y : Text} (hb : '<' ∉ u ++ v ++ y) (hv : v ≠ [])
    (h : OpensLayout (v ++ y)) (ps : List LayoutPart) :
    layoutParts (u ++ v ++ y) ≠ (u ++ v).map .kept ++ ps := by
  induction u with
  | nil =>
    obtain ⟨c, v, rfl⟩ := List.exists_cons_of_ne_nil hv
    rw [List.nil_append, List.cons_append, List.mem_cons, not_or] at hb
    rcases layoutParts_cons_cases hb.2 with ⟨-, t, qs, e⟩ | ⟨hn, -⟩
    · rw [List.nil_append, List.cons_append, e, List.map_cons, List.cons_append]
      intro e
      cases (List.cons.inj e).1
    · exact absurd h hn
  | cons c u ih =>
    rw [List.cons_append, List.cons_append, List.mem_cons, not_or] at hb
    rw [List.cons_append, List.cons_append, List.map_cons, List.cons_append]
    rcases layoutParts_cons_cases hb.2 with ⟨-, t, qs, e⟩ | ⟨-, e⟩ <;> rw [e] <;> intro e
    · cases (List.cons.inj e).1
    · exact ih hb.2 (List.cons.inj e).2

/-! ## Tags -/

def QuotedAttribute.parts (a : QuotedAttribute) : List LayoutPart :=
  if a.isLayout then [.cut a.written] else a.written.map .kept

/-- A start tag with its attributes told apart. It may close its own element. -/
structure StartTag where
  name : Text
  attributes : List QuotedAttribute
  trail : Text
  closed : Bool
  deriving DecidableEq, Repr

namespace StartTag

def tail (t : StartTag) : Text :=
  t.trail ++ ((if t.closed then ['/'] else []) ++ ['>'])

def written (t : StartTag) : Text :=
  '<' :: (t.name ++ (t.attributes.flatMap QuotedAttribute.written ++ t.tail))

def body (t : StartTag) : Text :=
  t.name ++ (t.attributes.flatMap QuotedAttribute.written ++ (t.trail ++ if t.closed then ['/'] else []))

theorem written_eq_body (t : StartTag) : t.written = '<' :: (t.body ++ ['>']) := by
  simp [written, body, tail]

/-- The parts of the tag of which just the layout attributes are cut out, each with its blanks. -/
def parts (t : StartTag) : List LayoutPart :=
  ('<' :: t.name).map .kept ++ (t.attributes.flatMap QuotedAttribute.parts ++ t.tail.map .kept)

def withoutLayout (t : StartTag) : StartTag :=
  { t with attributes := t.attributes.filter (!·.isLayout) }

structure WellFormed (t : StartTag) : Prop where
  letter : t.name.head?.any Char.isAlpha = true
  name : ∀ c ∈ t.name, isAngle c = false ∧ isBlank c = false
  attributes : ∀ a ∈ t.attributes, a.WellFormed ∧ '>' ∉ a.value
  trail : ∀ c ∈ t.trail, isBlank c = true

instance : DecidablePred WellFormed := fun t =>
  decidable_of_iff
    (t.name.head?.any Char.isAlpha = true ∧ (t.name.all fun c => !isAngle c && !isBlank c) = true ∧
      (∀ a ∈ t.attributes, a.WellFormed ∧ '>' ∉ a.value) ∧ allBlank t.trail = true)
    ⟨fun ⟨h₁, h₂, h₃, h₄⟩ => ⟨h₁, by simpa using h₂, h₃, List.all_eq_true.mp h₄⟩,
      fun h => ⟨h.letter, by simpa using h.name, h.attributes, List.all_eq_true.mpr h.trail⟩⟩

end StartTag

/-- The value goes on as a layout attribute does, from a blank in it. The quote that closes the value may be
taken for one that opens another, so that the rest of the tag counts as well. -/
def QuotedAttribute.Misleads (a : QuotedAttribute) (rest : Text) : Prop :=
  ∃ u v, a.value = u ++ v ∧ v ≠ [] ∧ OpensLayout (v ++ a.quote :: rest)

/-- An attribute misleads that is no layout attribute. -/
def Misleads (as : List QuotedAttribute) (tail : Text) : Prop :=
  ∃ before a after, as = before ++ a :: after ∧ a.isLayout = false ∧
    a.Misleads (after.flatMap QuotedAttribute.written ++ tail)

def StartTag.Misleads (t : StartTag) : Prop :=
  Markup.Misleads t.attributes t.tail

theorem misleads_cons_iff {a : QuotedAttribute} {as : List QuotedAttribute} {tail : Text} :
    Misleads (a :: as) tail ↔
      (a.isLayout = false ∧ a.Misleads (as.flatMap QuotedAttribute.written ++ tail)) ∨ Misleads as tail := by
  constructor
  · rintro ⟨before, b, after, e, hb, ho⟩
    cases before with
    | nil =>
      obtain ⟨rfl, rfl⟩ := List.cons.inj e
      exact .inl ⟨hb, ho⟩
    | cons c before => exact .inr ⟨before, b, after, (List.cons.inj e).2, hb, ho⟩
  · rintro (⟨ha, ho⟩ | ⟨before, b, after, rfl, hb, ho⟩)
    · exact ⟨[], a, as, rfl, ha, ho⟩
    · exact ⟨a :: before, b, after, rfl, hb, ho⟩

namespace QuotedAttribute.WellFormed

variable {a : QuotedAttribute} (h : a.WellFormed)

include h

theorem isAngle_written (hv : '>' ∉ a.value) : ∀ c ∈ a.written, isAngle c = false := by
  have hequals : isAngle '=' = false := by decide
  have hquote : isAngle a.quote = false := by rcases h.quote with e | e <;> rw [e] <;> decide
  have hvalue : ∀ c ∈ a.value, isAngle c = false := by
    intro c hc
    have hlt : c ≠ '<' := fun e => h.value.2 (e ▸ hc)
    have hgt : c ≠ '>' := fun e => hv (e ▸ hc)
    simp [isAngle, hlt, hgt]
  intro c hc
  simp only [written, List.mem_append, List.mem_cons, List.not_mem_nil, or_false] at hc
  rcases hc with hc | hc | hc | rfl | hc | rfl | hc | rfl
  · exact isAngle_of_isBlank (h.lead c hc)
  · exact (ne_of_isPlain (h.name c hc).1).1
  · exact isAngle_of_isBlank (h.before c hc)
  · exact hequals
  · exact isAngle_of_isBlank (h.behind c hc)
  · exact hquote
  · exact hvalue c hc
  · exact hquote

theorem layoutParts_of_isLayout (hl : a.isLayout = true) (x : Text) :
    layoutParts (a.written ++ x) = a.parts ++ layoutParts x := by
  obtain ⟨c, gap, hlead, hc, hgap⟩ := h.exists_lead
  have hupto := Tex.upTo_append a.written x
  rw [a.written_append, hlead, List.cons_append] at hupto ⊢
  rw [layoutParts_blank hc, skipBlanks_gap hgap (h.isBlank_head _), h.afterLayoutAttribute?_eq, if_pos hl,
    parts, if_pos hl, ← hupto]
  rfl

theorem layoutParts_front (hl : a.isLayout = false) (x : Text) :
    layoutParts (a.written ++ x) = a.front.map .kept ++ layoutParts (a.value ++ a.quote :: x) := by
  obtain ⟨hqb, hqa⟩ := isBlank_eq_false_of_quote h.quote
  have hequals : isBlank '=' = false ∧ Char.isAlpha '=' = false := by decide
  have hname := h.afterLayoutAttribute?_eq x
  rw [hl, if_neg Bool.false_ne_true] at hname
  rw [a.written_append, layoutParts_gap h.lead (h.isBlank_head _) hname, layoutParts_append h.isBlank_name,
    layoutParts_gap h.before (by simp [hequals.1]) (afterLayoutAttribute?_of_not_alpha hequals.2 _),
    layoutParts_cons hequals.1,
    layoutParts_gap h.behind (by simp [hqb]) (afterLayoutAttribute?_of_not_alpha hqa _),
    layoutParts_cons hqb, front]
  simp

/-- Any other attribute is kept whole, unless it misleads. In that case the parts behind it are of no account:
its value alone makes the difference. -/
theorem layoutParts_written_iff (hl : a.isLayout = false) {rest : Text} (hr : '<' ∉ rest)
    (ps : List LayoutPart) :
    layoutParts (a.written ++ rest) = a.parts ++ ps ↔ ¬ a.Misleads rest ∧ layoutParts rest = ps := by
  have hb : '<' ∉ a.value ++ a.quote :: rest := by
    have hw := h.bracket_written
    rw [a.written_eq_front] at hw
    simp_all
  have hparts : a.parts = a.front.map .kept ++ (a.value.map .kept ++ [.kept a.quote]) := by
    rw [parts, if_neg (by simp [hl]), a.written_eq_front, List.map_append, List.map_append, List.map_singleton]
  rw [h.layoutParts_front hl, hparts, List.append_assoc, List.append_cancel_left_eq, List.append_assoc]
  by_cases hm : a.Misleads rest
  · obtain ⟨u, v, e, hv, ho⟩ := hm
    rw [e] at hb ⊢
    exact iff_of_false (layoutParts_value_ne hb hv ho _) fun hn => hn.1 ⟨u, v, e, hv, ho⟩
  · have hkept := layoutParts_value hb fun u v e hv ho => hm ⟨u, v, e, hv, ho⟩
    rw [hkept, List.append_cancel_left_eq, layoutParts_cons (isBlank_eq_false_of_quote h.quote).1,
      List.singleton_append, List.cons.injEq]
    simp [hm]

end QuotedAttribute.WellFormed

theorem layoutParts_attributes_iff {as : List QuotedAttribute} (has : ∀ a ∈ as, a.WellFormed) {tail : Text}
    (ht : '<' ∉ tail) :
    layoutParts (as.flatMap QuotedAttribute.written ++ tail) =
        as.flatMap QuotedAttribute.parts ++ layoutParts tail ↔ ¬ Misleads as tail := by
  induction as with
  | nil =>
    refine iff_of_true rfl ?_
    rintro ⟨before, a, after, e, -⟩
    cases before <;> cases e
  | cons a as ih =>
    obtain ⟨ha, has⟩ := List.forall_mem_cons.mp has
    rw [List.flatMap_cons, List.flatMap_cons, List.append_assoc, List.append_assoc, misleads_cons_iff,
      not_or, ← ih has]
    cases hl : a.isLayout with
    | true =>
      rw [ha.layoutParts_of_isLayout hl, List.append_cancel_left_eq]
      simp
    | false =>
      have hrest : '<' ∉ as.flatMap QuotedAttribute.written ++ tail := by
        rw [List.mem_append, not_or, List.mem_flatMap]
        refine ⟨?_, ht⟩
        rintro ⟨b, hm, hc⟩
        exact (has b hm).bracket_written hc
      rw [ha.layoutParts_written_iff hl hrest]
      simp

namespace StartTag

variable {t : StartTag}

theorem flatMap_written_parts (t : StartTag) :
    t.parts.flatMap LayoutPart.written = t.withoutLayout.written := by
  have has : (t.attributes.flatMap QuotedAttribute.parts).flatMap LayoutPart.written =
      t.withoutLayout.attributes.flatMap QuotedAttribute.written := by
    rw [withoutLayout, List.flatMap_assoc]
    induction t.attributes with
    | nil => rfl
    | cons a as ih =>
      rw [List.flatMap_cons, ih, QuotedAttribute.parts]
      cases hl : a.isLayout with
      | true =>
        rw [List.filter_cons_of_neg (by simp [hl])]
        rfl
      | false =>
        rw [List.filter_cons_of_pos (by simp [hl]), List.flatMap_cons]
        exact congrArg (· ++ _) (flatMap_written_map_kept a.written)
  rw [parts, List.flatMap_append, List.flatMap_append, flatMap_written_map_kept, flatMap_written_map_kept,
    has]
  rfl

theorem parts_of_no_layout (t : StartTag) (hn : ∀ a ∈ t.attributes, a.isLayout = false) :
    t.parts = t.written.map .kept := by
  have has : t.attributes.flatMap QuotedAttribute.parts =
      (t.attributes.flatMap QuotedAttribute.written).map .kept := by
    rw [List.map_flatMap]
    exact List.flatMap_congr fun a ha => if_neg (by simp [hn a ha])
  rw [parts, written, has, List.map_cons, List.map_cons, List.map_append, List.map_append, List.cons_append]

namespace WellFormed

variable (h : t.WellFormed)

include h

theorem bracket_tail : '<' ∉ t.tail := by
  have hb : '<' ∉ t.trail := fun hm => absurd (h.trail _ hm) (by decide)
  cases hc : t.closed <;> simp [tail, hb, hc]

theorem layoutParts_tail : layoutParts t.tail = t.tail.map .kept := by
  have hend : ∀ c r, (c :: r).all (!isBlank ·) = true → c.isAlpha = false →
      layoutParts (t.trail ++ c :: r) = (t.trail ++ c :: r).map .kept := by
    intro c r hall hc
    have hblank : ∀ d ∈ c :: r, isBlank d = false := by simpa using hall
    have hr := layoutParts_append hblank []
    rw [List.append_nil, layoutParts_nil, List.append_nil] at hr
    have hgap := layoutParts_gap h.trail (by simp [hblank c List.mem_cons_self])
      (afterLayoutAttribute?_of_not_alpha hc r)
    rw [hgap, hr, ← List.map_append]
  cases hc : t.closed <;> simp only [tail, hc, if_true, if_false, Bool.false_eq_true]
  · exact hend '>' [] (by decide) (by decide)
  · exact hend '/' ['>'] (by decide) (by decide)

/-- The parts of the tag are those that one would expect, unless a value misleads. -/
theorem layoutParts_written_iff : layoutParts t.written = t.parts ↔ ¬ t.Misleads := by
  have hname : ∀ c ∈ '<' :: t.name, isBlank c = false :=
    List.forall_mem_cons.mpr ⟨by decide, fun c hc => (h.name c hc).2⟩
  rw [written, ← List.cons_append, layoutParts_append hname, parts, List.append_cancel_left_eq,
    ← h.layoutParts_tail]
  exact layoutParts_attributes_iff (fun a ha => (h.attributes a ha).1) h.bracket_tail

theorem isAngle_body : ∀ c ∈ t.body, isAngle c = false := by
  refine List.forall_mem_append.mpr ⟨fun c hc => (h.name c hc).1, List.forall_mem_append.mpr ⟨?_, ?_⟩⟩
  · intro c hc
    obtain ⟨a, ha, hc⟩ := List.mem_flatMap.mp hc
    exact (h.attributes a ha).1.isAngle_written (h.attributes a ha).2 c hc
  · refine List.forall_mem_append.mpr ⟨fun c hc => isAngle_of_isBlank (h.trail c hc), ?_⟩
    split_ifs <;> simp [isAngle]

theorem startTag?_written (after : Text) : startTag? (t.written ++ after) = some (t.written, after) := by
  have hletter : (t.body ++ '>' :: after).head?.any Char.isAlpha = true := by
    have hl := h.letter
    obtain ⟨c, name, e⟩ : ∃ c name, t.name = c :: name := by
      cases e : t.name with
      | nil => simp [e] at hl
      | cons c name => exact ⟨c, name, rfl⟩
    simpa [body, e] using hl
  rw [t.written_eq_body, List.cons_append, List.append_assoc, List.singleton_append, startTag?,
    if_pos ⟨rfl, hletter⟩, tagBody?_append h.isAngle_body]
  rfl

theorem stripLayout_written (after : Text) :
    stripLayout (t.written ++ after) = dropLayout t.written ++ stripLayout after := by
  have hs := h.startTag?_written after
  rw [written, List.cons_append] at hs ⊢
  exact stripLayout_of_some hs

end WellFormed

end StartTag

/-! ## The pass over a text -/

theorem startTag?_append_bracket (c : Char) (r x : Text) :
    startTag? (c :: (r ++ '<' :: x)) = (startTag? (c :: r)).map (Prod.map id (· ++ '<' :: x)) := by
  have hhead : (r ++ '<' :: x).head?.any Char.isAlpha = r.head?.any Char.isAlpha := by
    have hlt : Char.isAlpha '<' = false := by decide
    cases r <;> simp [hlt]
  rw [startTag?, startTag?, hhead, (keepsFront_append x).tagBody?_eq]
  split_ifs
  · cases tagBody? r <;> rfl
  · rfl

/-- Whether a tag is stripped does not depend on what stands in front of its bracket. -/
theorem stripLayout_append_bracket (before x : Text) :
    stripLayout (before ++ '<' :: x) = stripLayout before ++ stripLayout ('<' :: x) := by
  fun_induction stripLayout before with
  | case1 => rfl
  | case2 c r tag rest h ih =>
    have hs := startTag?_append_bracket c r x
    rw [h] at hs
    rw [List.cons_append, stripLayout_of_some hs, List.append_assoc]
    exact congrArg (_ ++ ·) ih
  | case3 c r h ih =>
    have hs := startTag?_append_bracket c r x
    rw [h] at hs
    rw [List.cons_append, stripLayout_of_none hs, ih, List.cons_append]

/-- A start tag of any markup loses its layout attributes and nothing else, if and only if no value in it
misleads. -/
theorem stripLayout_startTag {t : StartTag} (h : t.WellFormed) (before after : Text) :
    stripLayout (before ++ (t.written ++ after)) =
        stripLayout before ++
          ((layoutParts t.written).flatMap LayoutPart.written ++ stripLayout after) ∧
      (layoutParts t.written).flatMap LayoutPart.source = t.written ∧
      (layoutParts t.written = t.parts ↔ ¬ t.Misleads) ∧
      (¬ t.Misleads → stripLayout (before ++ (t.written ++ after)) =
        stripLayout before ++ (t.withoutLayout.written ++ stripLayout after)) ∧
      (t.Misleads → (∀ a ∈ t.attributes, a.isLayout = false) →
        (stripLayout (before ++ (t.written ++ after))).length <
          (stripLayout before ++ (t.withoutLayout.written ++ stripLayout after)).length) := by
  have hdrop : stripLayout (before ++ (t.written ++ after)) =
      stripLayout before ++ (dropLayout t.written ++ stripLayout after) := by
    rw [← h.stripLayout_written, t.written_eq_body]
    exact stripLayout_append_bracket before _
  have hiff := h.layoutParts_written_iff
  refine ⟨?_, flatMap_source_layoutParts _, hiff, ?_, ?_⟩
  · rw [hdrop, flatMap_written_layoutParts]
  · intro hm
    rw [hdrop, ← flatMap_written_layoutParts, hiff.mpr hm, t.flatMap_written_parts]
  · intro hm hn
    have hparts := t.parts_of_no_layout hn
    have hshort : (dropLayout t.written).length < t.written.length := by
      by_contra hle
      exact hiff.mp ((layoutParts_of_length_le (not_lt.mp hle)).trans hparts.symm) hm
    rw [hdrop, ← t.flatMap_written_parts, hparts, flatMap_written_map_kept]
    simp only [List.length_append]
    omega

/-- The value of `alttext` is mistaken for an attribute. -/
theorem stripLayout_startTag_alttext :
    let t : StartTag :=
      ⟨"math".toList, [⟨[' '], "alttext".toList, [], [], '\'', "a display=\"b\" c".toList⟩], [], false⟩
    let after := "<mi>x</mi></math>".toList
    t.WellFormed ∧ t.withoutLayout = t ∧ t.Misleads ∧
      t.written ++ after = "<math alttext='a display=\"b\" c'><mi>x</mi></math>".toList ∧
      stripLayout (t.written ++ after) ≠ t.withoutLayout.written ++ stripLayout after := by
  intro t after
  have h : t.WellFormed := by decide
  have hm : t.Misleads := by
    refine ⟨[], _, [], rfl, by decide, ['a'], " display=\"b\" c".toList, by decide, by decide, ?_⟩
    exact ⟨⟨[' '], "display".toList, [], [], '"', ['b']⟩, " c'>".toList, by decide, by decide, by decide⟩
  have hne : ∀ x y : Text, x.length < (stripLayout [] ++ y).length → x ≠ y := by
    rintro x _ hlt rfl
    rw [stripLayout, List.nil_append] at hlt
    exact lt_irrefl _ hlt
  obtain ⟨-, -, -, -, hshort⟩ := stripLayout_startTag h [] after
  exact ⟨h, by decide, hm, by decide, hne _ _ (hshort hm (by decide))⟩

end Formula.Markup
