import Mathlib.Data.List.Basic
import Mathlib.Data.List.TakeWhile
import Mathlib.Tactic.SplitIfs
import Formula.Markup.DotAccent
import Formula.Markup.Layout
import Formula.Markup.Root
import Formula.Proofs.Markup.Fragment
import Formula.Proofs.Tex.Blanks

/-! # Attributes

The attributes of a regular start tag stand behind a space each, with a value in double quotes. What is
looked for in the text of the attributes is then found in one of them: no equals sign is in a value, and
no name or value goes over a space or a quote.
-/

namespace Formula.Markup

open Text

structure Attribute where
  name : Text
  value : Text
  deriving DecidableEq, Repr

def Attribute.written (a : Attribute) : Text :=
  ' ' :: (a.name ++ '=' :: '"' :: (a.value ++ ['"']))

def writtenAttributes (as : List Attribute) : Text :=
  as.flatMap Attribute.written

/-- Neither of the characters that a tag or an attribute ends with, and no equals sign. -/
def isPlain (c : Char) : Bool :=
  !isAngle c && c != '"' && c != '\'' && c != '='

structure Attribute.Regular (a : Attribute) : Prop where
  name_ne : a.name ≠ []
  name : ∀ c ∈ a.name, isPlain c = true ∧ isBlank c = false
  value : ∀ c ∈ a.value, isPlain c = true
  undeclared : occurs xmlns a.value = false

instance : DecidablePred Attribute.Regular := fun a =>
  decidable_of_iff
    (a.name ≠ [] ∧ (a.name.all fun c => isPlain c && !isBlank c) = true ∧
      a.value.all isPlain = true ∧ occurs xmlns a.value = false)
    ⟨fun ⟨h₁, h₂, h₃, h₄⟩ => ⟨h₁, by simpa using h₂, List.all_eq_true.mp h₃, h₄⟩,
      fun h => ⟨h.name_ne, by simpa using h.name, List.all_eq_true.mpr h.value, h.undeclared⟩⟩

/-- Neither a blank nor an equals sign. -/
def isKeyChar (c : Char) : Bool :=
  !isBlank c && c != '='

theorem isKeyChar_iff {c : Char} : isKeyChar c = true ↔ isBlank c = false ∧ c ≠ '=' := by
  simp [isKeyChar]

theorem Attribute.written_append (a : Attribute) (x : Text) :
    a.written ++ x = ' ' :: (a.name ++ '=' :: '"' :: (a.value ++ '"' :: x)) := by
  simp [written]

theorem ne_of_isPlain {c : Char} (h : isPlain c = true) :
    isAngle c = false ∧ c ≠ '"' ∧ c ≠ '\'' ∧ c ≠ '=' := by
  simp only [isPlain, Bool.and_eq_true, Bool.not_eq_true', bne_iff_ne, ne_eq, and_assoc] at h
  exact h

namespace Attribute.Regular

variable {a : Attribute} (h : a.Regular)

include h

theorem blank_name : ∀ c ∈ a.name, isBlank c = false :=
  fun c hc => (h.name c hc).2

theorem isKeyChar_name : ∀ c ∈ a.name, isKeyChar c = true :=
  fun c hc => isKeyChar_iff.mpr ⟨h.blank_name c hc, (ne_of_isPlain (h.name c hc).1).2.2.2⟩

theorem equals_value : '=' ∉ a.value :=
  fun hm => (ne_of_isPlain (h.value _ hm)).2.2.2 rfl

theorem isAngle_written : ∀ c ∈ a.written, isAngle c = false := by
  intro c hc
  have ha : ∀ c ∈ [' ', '=', '"'], isAngle c = false := by simp [isAngle]
  simp only [written, List.mem_cons, List.mem_append, List.not_mem_nil, or_false] at hc
  rcases hc with rfl | hc | rfl | rfl | hc | rfl
  · exact ha _ (by simp)
  · exact (ne_of_isPlain (h.name c hc).1).1
  · exact ha _ (by simp)
  · exact ha _ (by simp)
  · exact (ne_of_isPlain (h.value c hc)).1
  · exact ha _ (by simp)

end Attribute.Regular

theorem writtenAttributes_cons (a : Attribute) (as : List Attribute) :
    writtenAttributes (a :: as) = a.written ++ writtenAttributes as := rfl

theorem writtenAttributes_cases (as : List Attribute) :
    as = [] ∨ (∃ t, writtenAttributes as = ' ' :: t) ∧
      ∃ t, writtenAttributes as = t ++ ['"'] := by
  rcases List.eq_nil_or_concat as with rfl | ⟨as, a, rfl⟩
  · exact .inl rfl
  · refine .inr ⟨?_, writtenAttributes as ++ ' ' :: (a.name ++ '=' :: '"' :: a.value), ?_⟩
    · cases as with
      | nil => exact ⟨_, rfl⟩
      | cons b as => exact ⟨_, rfl⟩
    · simp [writtenAttributes, Attribute.written]

/-! ## Keys -/

/-- What follows the key and an equals sign, blanks apart. -/
def keyed? (key t : Text) : Option Text :=
  (after? key t).bind fun r => after? ['='] (skipBlanks r)

theorem keyed?_eq_some_iff {key t r : Text} :
    keyed? key t = some r ↔ ∃ s, t = key ++ s ∧ skipBlanks s = '=' :: r := by
  simp only [keyed?, Option.bind_eq_some_iff, after?_eq_some_iff]
  rfl

theorem skipBlanks_gap {gap y : Text} (hg : ∀ c ∈ gap, isBlank c = true)
    (hy : ∀ c ∈ y.head?, isBlank c = false) : skipBlanks (gap ++ y) = y := by
  have hnil : skipBlanks gap = [] := skipBlanks_eq_nil_iff.mpr (List.all_eq_true.mpr hg)
  rw [skipBlanks_append_right hy, hnil, List.nil_append]

theorem isKeyChar_head? {s r : Text} (h : skipBlanks s = '=' :: r) : ∀ c ∈ s.head?, isKeyChar c = false := by
  cases s with
  | nil => cases h
  | cons c s =>
    cases hc : isBlank c with
    | true => simp [isKeyChar, hc]
    | false =>
      rw [skipBlanks, List.dropWhile_cons_of_neg (by simp [hc])] at h
      simp [isKeyChar, (List.cons.inj h).1]

theorem keyed?_name {key name gap : Text} (hk : ∀ c ∈ key, isKeyChar c = true)
    (hn : ∀ c ∈ name, isKeyChar c = true) (hg : ∀ c ∈ gap, isBlank c = true) (r : Text) :
    keyed? key (name ++ (gap ++ '=' :: r)) = if name = key then some r else none := by
  have hequals : isBlank '=' = false := by decide
  have hskip : skipBlanks (gap ++ '=' :: r) = '=' :: r := skipBlanks_gap hg (by simp [hequals])
  split_ifs with h
  · rw [keyed?_eq_some_iff]
    exact ⟨_, by rw [h], hskip⟩
  · rw [Option.eq_none_iff_forall_ne_some]
    intro u hu
    obtain ⟨s, e, hs⟩ := keyed?_eq_some_iff.mp hu
    have hname := (span_append hn (isKeyChar_head? hskip)).1
    rw [e, (span_append hk (isKeyChar_head? hs)).1] at hname
    exact h hname.symm

theorem skipBlanks_value (value r : Text) :
    skipBlanks (value ++ '"' :: r) = skipBlanks value ++ '"' :: r := by
  have hq : isBlank '"' = false := by decide
  exact skipBlanks_append_right (by simp [hq]) value

theorem keyed?_value {key value : Text} (hk : '"' ∉ key) (hv : '=' ∉ value) (r : Text) :
    keyed? key (value ++ '"' :: r) = none := by
  have hne : ∀ v u, '=' ∉ v → skipBlanks (v ++ '"' :: r) ≠ '=' :: u := by
    intro v u hv h
    rw [skipBlanks_value] at h
    cases hs : skipBlanks v with
    | nil => simp [hs] at h
    | cons c w =>
      rw [hs] at h
      obtain ⟨rfl, -⟩ := List.cons.inj h
      exact hv ((skipBlanks_suffix v).subset (hs ▸ List.mem_cons_self))
  rw [Option.eq_none_iff_forall_ne_some]
  intro u hu
  obtain ⟨s, e, hs⟩ := keyed?_eq_some_iff.mp hu
  rcases List.append_eq_append_iff.mp e with ⟨v, rfl, e'⟩ | ⟨v, rfl, rfl⟩
  · cases v with
    | nil =>
      rw [List.nil_append] at e'
      exact hne [] u (by simp) (e' ▸ hs)
    | cons c v =>
      obtain ⟨rfl, -⟩ := List.cons.inj e'
      exact hk (List.mem_append_right _ List.mem_cons_self)
  · exact hne v u (fun h => hv (List.mem_append_right _ h)) hs

/-! ## Layout attributes -/

def Attribute.isLayout (a : Attribute) : Bool :=
  layoutNames.contains a.name

theorem layoutNames_chars {key : Text} (hkey : key ∈ layoutNames) : key ≠ [] ∧
    ∀ c ∈ key, c.isAlpha = true ∧ isPlain c = true ∧ c ≠ '/' ∧ isBlank c = false := by
  have hall : ∀ key ∈ layoutNames, key ≠ [] ∧
      (key.all fun c => c.isAlpha && isPlain c && c != '/' && !isBlank c) = true := by decide
  obtain ⟨hne, hchars⟩ := hall key hkey
  exact ⟨hne, by simpa [and_assoc] using hchars⟩

theorem isKeyChar_layoutNames {key : Text} (hkey : key ∈ layoutNames) : ∀ c ∈ key, isKeyChar c = true := by
  intro c hc
  obtain ⟨-, hplain, -, hblank⟩ := (layoutNames_chars hkey).2 c hc
  exact isKeyChar_iff.mpr ⟨hblank, (ne_of_isPlain hplain).2.2.2⟩

theorem afterLayoutAttribute?_eq (t : Text) :
    afterLayoutAttribute? t = layoutNames.findSome? fun key =>
      (keyed? key t).bind fun r => afterQuoted? (skipBlanks r) := by
  simp only [afterLayoutAttribute?, keyed?, Option.bind_eq_bind, Option.bind_assoc]

theorem afterLayoutAttribute?_value {value : Text} (hv : '=' ∉ value) (r : Text) :
    afterLayoutAttribute? (value ++ '"' :: r) = none := by
  rw [afterLayoutAttribute?_eq, List.findSome?_eq_none_iff]
  intro key hkey
  have hq : '"' ∉ key := fun hm => absurd ((layoutNames_chars hkey).2 _ hm).2.1 (by decide)
  rw [keyed?_value hq hv, Option.bind_none]

theorem findSome?_key {keys : List Text} {g : Text → Option Text} {name r : Text}
    (h : ∀ key ∈ keys, g key = if name = key then some r else none) :
    keys.findSome? g = if keys.contains name then some r else none := by
  induction keys with
  | nil => rfl
  | cons key keys ih =>
    obtain ⟨hk, hks⟩ := List.forall_mem_cons.mp h
    rw [List.findSome?_cons, hk, ih hks, List.contains_cons]
    by_cases hn : name = key <;> simp [hn]

theorem isBlank_eq_false_of_quote {q : Char} (hq : q = '"' ∨ q = '\'') :
    isBlank q = false ∧ q.isAlpha = false := by
  rcases hq with rfl | rfl <;> decide

theorem afterQuoted?_append_value {q : Char} (hq : q = '"' ∨ q = '\'') {value : Text} (hv : q ∉ value)
    (x : Text) : afterQuoted? (q :: (value ++ q :: x)) = some x := by
  have hall : ∀ c ∈ value, decide (c ≠ q) = true := by
    intro c hc
    have hne : c ≠ q := fun e => hv (e ▸ hc)
    simpa using hne
  rw [afterQuoted?, if_pos hq, List.dropWhile_append_of_pos hall]
  simp

theorem exists_value_of_afterQuoted? {t rest : Text} (h : afterQuoted? t = some rest) :
    ∃ q value, (q = '"' ∨ q = '\'') ∧ q ∉ value ∧ t = q :: (value ++ q :: rest) := by
  match t with
  | [] => cases h
  | q :: r =>
    rw [afterQuoted?] at h
    split_ifs at h with hq
    split at h
    · next d rest' hd =>
      obtain rfl := Option.some.inj h
      have hdq : d = q := by
        have hhead := List.head?_dropWhile_not (· ≠ q) r
        rw [hd] at hhead
        simpa using hhead
      refine ⟨q, r.takeWhile (· ≠ q), hq, fun hm => ?_, ?_⟩
      · simpa using List.mem_takeWhile_imp hm
      · have e : r.takeWhile (· ≠ q) ++ r.dropWhile (· ≠ q) = r := List.takeWhile_append_dropWhile
        rw [hd, hdq] at e
        rw [e]
    · cases h

theorem afterLayoutAttribute?_named {name before behind value : Text} {q : Char}
    (hname : ∀ c ∈ name, isKeyChar c = true) (hbefore : ∀ c ∈ before, isBlank c = true)
    (hbehind : ∀ c ∈ behind, isBlank c = true) (hq : q = '"' ∨ q = '\'') (hvalue : q ∉ value) (x : Text) :
    afterLayoutAttribute? (name ++ (before ++ '=' :: (behind ++ q :: (value ++ q :: x)))) =
      if layoutNames.contains name then some x else none := by
  have hquoted : afterQuoted? (skipBlanks (behind ++ q :: (value ++ q :: x))) = some x := by
    rw [skipBlanks_gap hbehind (by simpa using (isBlank_eq_false_of_quote hq).1)]
    exact afterQuoted?_append_value hq hvalue x
  have hkey : ∀ key ∈ layoutNames,
      ((keyed? key (name ++ (before ++ '=' :: (behind ++ q :: (value ++ q :: x))))).bind
        fun r => afterQuoted? (skipBlanks r)) = if name = key then some x else none := by
    intro key hkey
    rw [keyed?_name (isKeyChar_layoutNames hkey) hname hbefore]
    split_ifs
    · exact hquoted
    · rfl
  rw [afterLayoutAttribute?_eq, findSome?_key hkey]

theorem Attribute.Regular.afterLayoutAttribute?_eq {a : Attribute} (h : a.Regular) (r : Text) :
    afterLayoutAttribute? (a.name ++ '=' :: '"' :: (a.value ++ '"' :: r)) =
      if a.isLayout then some r else none := by
  have hv : '"' ∉ a.value := fun hm => (ne_of_isPlain (h.value _ hm)).2.1 rfl
  have hnone : ∀ c ∈ ([] : Text), isBlank c = true := by simp
  exact afterLayoutAttribute?_named h.isKeyChar_name hnone hnone (.inl rfl) hv r

theorem dropLayout_nil : dropLayout [] = [] := by
  rw [dropLayout.eq_def]

theorem dropLayout_cons {c : Char} (hc : isBlank c = false) (r : Text) :
    dropLayout (c :: r) = c :: dropLayout r := by
  rw [dropLayout.eq_def]
  simp [hc]

theorem dropLayout_append {s : Text} (hs : ∀ c ∈ s, isBlank c = false) (r : Text) :
    dropLayout (s ++ r) = s ++ dropLayout r := by
  induction s with
  | nil => rfl
  | cons c s ih =>
    obtain ⟨hc, hs⟩ := List.forall_mem_cons.mp hs
    rw [List.cons_append, dropLayout_cons hc, ih hs, List.cons_append]

theorem dropLayout_blank {c : Char} (hc : isBlank c = true) (r : Text) :
    dropLayout (c :: r) = match afterLayoutAttribute? (skipBlanks r) with
      | some rest => dropLayout rest
      | none => c :: dropLayout r := by
  rw [dropLayout.eq_def]
  simp only [hc, if_true]
  split <;> simp_all

theorem suffix_of_afterQuoted? {t r : Text} (h : afterQuoted? t = some r) : r <:+ t := by
  obtain ⟨q, value, -, -, rfl⟩ := exists_value_of_afterQuoted? h
  exact ⟨q :: (value ++ [q]), by simp⟩

theorem suffix_of_afterLayoutAttribute? {t r : Text} (h : afterLayoutAttribute? t = some r) :
    r <:+ t := by
  have hafter : ∀ {key t r : Text}, after? key t = some r → r <:+ t := fun h =>
    after?_eq_some_iff.mp h ▸ List.suffix_append _ _
  obtain ⟨key, -, h⟩ := List.exists_of_findSome?_eq_some h
  simp only [Option.bind_eq_bind, Option.bind_eq_some_iff] at h
  obtain ⟨r₁, h₁, r₂, h₂, h⟩ := h
  have h₃ : r <:+ r₂ := (suffix_of_afterQuoted? h).trans (skipBlanks_suffix r₂)
  have h₄ : r₂ <:+ r₁ := (hafter h₂).trans (skipBlanks_suffix r₁)
  exact (h₃.trans h₄).trans (hafter h₁)

/-- Nothing new is written when the layout is dropped. -/
theorem dropLayout_sublist (t : Text) : (dropLayout t).Sublist t := by
  fun_induction dropLayout t with
  | case1 => exact .slnil
  | case2 c r hc rest h ih =>
    exact (ih.trans ((suffix_of_afterLayoutAttribute? h).trans (skipBlanks_suffix r)).sublist).cons c
  | case3 c r hc h ih => exact ih.cons_cons c
  | case4 c r hc ih => exact ih.cons_cons c

theorem dropLayout_value {value : Text} (hv : '=' ∉ value) (r : Text) :
    dropLayout (value ++ '"' :: r) = value ++ '"' :: dropLayout r := by
  induction value with
  | nil => exact dropLayout_cons (by decide) r
  | cons c value ih =>
    simp only [List.mem_cons, not_or] at hv
    rw [List.cons_append]
    cases hc : isBlank c with
    | true =>
      have hs : '=' ∉ skipBlanks value := fun h => hv.2 ((skipBlanks_suffix value).subset h)
      rw [dropLayout_blank hc, skipBlanks_value, afterLayoutAttribute?_value hs, ih hv.2]
      rfl
    | false => rw [dropLayout_cons hc, ih hv.2, List.cons_append]

/-- Dropping the layout leaves the other attributes. -/
theorem dropLayout_writtenAttributes {as : List Attribute} (has : ∀ a ∈ as, a.Regular) (r : Text) :
    dropLayout (writtenAttributes as ++ r) =
      writtenAttributes (as.filter (!·.isLayout)) ++ dropLayout r := by
  induction as with
  | nil => rfl
  | cons a as ih =>
    obtain ⟨ha, has⟩ := List.forall_mem_cons.mp has
    obtain ⟨c, name, hn⟩ := List.exists_cons_of_ne_nil ha.name_ne
    have hs : ∀ u, skipBlanks (a.name ++ u) = a.name ++ u := by
      intro u
      have hc := ha.blank_name c (hn ▸ List.mem_cons_self)
      rw [hn, List.cons_append, skipBlanks, List.dropWhile_cons_of_neg (by simp [hc])]
    rw [writtenAttributes_cons, List.append_assoc, a.written_append, dropLayout_blank (by decide), hs,
      ha.afterLayoutAttribute?_eq]
    cases hl : a.isLayout with
    | true =>
      rw [List.filter_cons_of_neg (by simp [hl])]
      exact ih has
    | false =>
      rw [List.filter_cons_of_pos (by simp [hl]), writtenAttributes_cons, List.append_assoc,
        a.written_append, ← ih has]
      simp only [Bool.false_eq_true, if_false]
      rw [dropLayout_append ha.blank_name, dropLayout_cons (by decide), dropLayout_cons (by decide),
        dropLayout_value ha.equals_value]

/-! ## The end of a tag -/

theorem after?_append_right {key s : Text} (hs : ∀ c ∈ s, c ∉ key) (t : Text) :
    after? key (t ++ s) = (after? key t).map (· ++ s) := by
  induction key generalizing t with
  | nil => rfl
  | cons k key ih =>
    have ih := ih fun c hc hk => hs c hc (List.mem_cons_of_mem k hk)
    cases t with
    | nil =>
      cases s with
      | nil => rfl
      | cons c s =>
        have hc : k ≠ c := fun e => hs c List.mem_cons_self (e ▸ List.mem_cons_self)
        simp [after?, hc]
    | cons c t =>
      simp only [List.cons_append, after?]
      split_ifs
      · exact ih t
      · rfl

theorem afterQuoted?_append {s : Text} (hs : ∀ c ∈ s, c ≠ '"' ∧ c ≠ '\'') (t : Text) :
    afterQuoted? (t ++ s) = (afterQuoted? t).map (· ++ s) := by
  have hquote : ∀ q, q = '"' ∨ q = '\'' → ∀ c ∈ s, c ≠ q := by
    rintro q (rfl | rfl) c hc
    · exact (hs c hc).1
    · exact (hs c hc).2
  cases t with
  | nil =>
    cases s with
    | nil => rfl
    | cons c s =>
      simp [afterQuoted?, hs c List.mem_cons_self]
  | cons q r =>
    simp only [List.cons_append, afterQuoted?]
    split_ifs with hq
    · rw [List.dropWhile_append]
      split_ifs with hr
      · have hnil : s.dropWhile (· ≠ q) = [] :=
          List.dropWhile_eq_nil_iff.mpr fun c hc => by simpa using hquote q hq c hc
        rw [hnil, List.isEmpty_iff.mp hr]
        rfl
      · cases hd : r.dropWhile (· ≠ q) with
        | nil => exact absurd (List.isEmpty_iff.mpr hd) hr
        | cons d rest => rfl
    · rfl

/-- The end of a tag: nothing in it is part of an attribute. -/
def IsTail (s : Text) : Prop :=
  ∀ c ∈ s, c = '/' ∨ c = '>'

namespace IsTail

variable {s : Text} (hs : IsTail s)

include hs

theorem isBlank_eq_false : ∀ c ∈ s, isBlank c = false := fun c hc => by
  rcases hs c hc with rfl | rfl <;> decide

theorem not_mem {t : Text} (ht : '/' ∉ t ∧ '>' ∉ t) : ∀ c ∈ s, c ∉ t := fun c hc => by
  rcases hs c hc with rfl | rfl
  · exact ht.1
  · exact ht.2

theorem skipBlanks_append (t : Text) : skipBlanks (t ++ s) = skipBlanks t ++ s :=
  skipBlanks_append_right (fun c hc => hs.isBlank_eq_false c (List.mem_of_mem_head? hc)) t

theorem afterLayoutAttribute?_append (t : Text) :
    afterLayoutAttribute? (t ++ s) = (afterLayoutAttribute? t).map (· ++ s) := by
  have hnames : ∀ name ∈ layoutNames, '/' ∉ name ∧ '>' ∉ name := by decide
  have hquote : ∀ c ∈ s, c ≠ '"' ∧ c ≠ '\'' := fun c hc => by
    rcases hs c hc with rfl | rfl <;> decide
  simp only [afterLayoutAttribute?]
  rw [List.map_findSome?, ← List.head?_filterMap, ← List.head?_filterMap]
  refine congrArg List.head? (List.filterMap_congr fun name hname => ?_)
  rw [after?_append_right (hs.not_mem (hnames name hname)), Function.comp_apply]
  cases after? name t with
  | none => rfl
  | some r =>
    simp only [Option.map_some, Option.bind_eq_bind, Option.bind_some]
    rw [hs.skipBlanks_append, after?_append_right (hs.not_mem (by decide))]
    cases after? ['='] (skipBlanks r) with
    | none => rfl
    | some r =>
      simp only [Option.map_some, Option.bind_some]
      rw [hs.skipBlanks_append, afterQuoted?_append hquote]

theorem dropLayout_append (t : Text) : dropLayout (t ++ s) = dropLayout t ++ s := by
  fun_induction dropLayout t with
  | case1 =>
    have h := Markup.dropLayout_append hs.isBlank_eq_false []
    rwa [List.append_nil, dropLayout_nil, List.append_nil] at h
  | case2 c r hc rest h ih =>
    rw [List.cons_append, dropLayout_blank hc, hs.skipBlanks_append, hs.afterLayoutAttribute?_append, h]
    exact ih
  | case3 c r hc h ih =>
    rw [List.cons_append, dropLayout_blank hc, hs.skipBlanks_append, hs.afterLayoutAttribute?_append, h]
    exact congrArg (c :: ·) ih
  | case4 c r hc ih =>
    rw [List.cons_append, dropLayout_cons (by simpa using hc), ih, List.cons_append]

end IsTail

/-! ## Accents -/

/-- The name says something about the accent, or goes on with something that does behind a character
that belongs to no word. -/
def Attribute.setsAccent (a : Attribute) : Bool :=
  Markup.setsAccent false (a.name ++ ['='])

theorem setsAccent_cons (b : Bool) (c : Char) (r : Text) :
    setsAccent b (c :: r) =
      ((!b && (keyed? "accent".toList (c :: r)).isSome) || setsAccent (isWord c) r) := by
  have he : ∀ s : Text, decide (s.head? = some '=') = (after? ['='] s).isSome := by
    intro s
    cases s with
    | nil => rfl
    | cons d s => by_cases hd : d = '=' <;> simp [after?, hd, Ne.symm]
  rw [setsAccent, keyed?]
  cases after? "accent".toList (c :: r) with
  | none => rfl
  | some rest => simp only [he, Option.bind_some]

theorem setsAccent_name {name : Text} (hn : ∀ c ∈ name, isKeyChar c = true) (b : Bool) (r : Text) :
    setsAccent b (name ++ '=' :: r) = (setsAccent b (name ++ ['=']) || setsAccent false r) := by
  have hk : ∀ c ∈ "accent".toList, isKeyChar c = true := List.all_eq_true.mp (by decide)
  have hg : ∀ c ∈ ([] : Text), isBlank c = true := by simp
  induction name generalizing b with
  | nil =>
    have hne : [] ≠ "accent".toList := by decide
    have h : ∀ r, keyed? "accent".toList ('=' :: r) = none := fun r =>
      (keyed?_name hk hn hg r).trans (if_neg hne)
    have hw : isWord '=' = false := by decide
    rw [List.nil_append, List.nil_append, setsAccent_cons, setsAccent_cons, h, h, hw]
    cases b <;> simp [setsAccent]
  | cons c name ih =>
    have h := fun r => keyed?_name hk hn hg r
    have hi := ih (List.forall_mem_cons.mp hn).2 (isWord c)
    simp only [List.cons_append, List.nil_append] at h ⊢
    rw [setsAccent_cons, setsAccent_cons b, h, h, hi]
    split_ifs <;> simp [Bool.or_assoc]

theorem setsAccent_value {value : Text} (hv : '=' ∉ value) (b : Bool) (r : Text) :
    setsAccent b (value ++ '"' :: r) = setsAccent false r := by
  have hk : '"' ∉ "accent".toList := by decide
  have hw : isWord '"' = false := by decide
  induction value generalizing b with
  | nil =>
    have h := keyed?_value hk hv r
    rw [List.nil_append] at h
    rw [List.nil_append, setsAccent_cons, h, hw]
    cases b <;> rfl
  | cons c value ih =>
    have h := keyed?_value hk hv r
    simp only [List.mem_cons, not_or] at hv
    rw [List.cons_append] at h
    rw [List.cons_append, setsAccent_cons, h, ih hv.2]
    cases b <;> rfl

theorem setsAccent_writtenAttributes {as : List Attribute} (has : ∀ a ∈ as, a.Regular) :
    setsAccent false (writtenAttributes as) = as.any Attribute.setsAccent := by
  have hs : isWord ' ' = false := by decide
  induction as with
  | nil => rfl
  | cons a as ih =>
    obtain ⟨ha, has⟩ := List.forall_mem_cons.mp has
    have hkey : ∀ r, keyed? "accent".toList (' ' :: r) = none := fun r => rfl
    have hq : ∀ r, setsAccent false ('"' :: r) = setsAccent false r :=
      fun r => setsAccent_value (by simp : '=' ∉ ([] : Text)) false r
    rw [writtenAttributes_cons, a.written_append, setsAccent_cons, hkey, hs,
      setsAccent_name ha.isKeyChar_name, hq, setsAccent_value ha.equals_value, ih has]
    rfl

/-! ## What occurs in attributes -/

/-- What occurs in a text and does not have a character of it lies on one side of that. -/
theorem infix_append_cons_iff {p s t : Text} {c : Char} (hc : c ∉ p) :
    p <:+: s ++ c :: t ↔ p <:+: s ∨ p <:+: t := by
  constructor
  · rintro ⟨u, v, e⟩
    rcases List.append_eq_append_iff.mp e with ⟨w, rfl, -⟩ | ⟨w, e', hw⟩
    · exact .inl ⟨u, w, rfl⟩
    · cases w with
      | nil => exact .inl ⟨u, [], by simpa using e'⟩
      | cons d w =>
        obtain ⟨rfl, rfl⟩ := List.cons.inj hw
        rcases List.append_eq_append_iff.mp e' with ⟨x, rfl, hp⟩ | ⟨x, rfl, hx⟩
        · exact absurd (hp ▸ List.mem_append_right x List.mem_cons_self) hc
        · cases x with
          | nil =>
            rw [List.nil_append] at hx
            exact absurd (hx ▸ List.mem_cons_self) hc
          | cons d x =>
            obtain ⟨-, rfl⟩ := List.cons.inj hx
            exact .inr ⟨x, v, rfl⟩
  · rintro (h | h)
    · exact h.trans (List.prefix_append _ _).isInfix
    · exact h.trans ((List.suffix_cons c t).trans (List.suffix_append s _)).isInfix

/-- What has no space, quote or equals sign, and occurs in attributes, occurs in a name or a value. -/
theorem infix_writtenAttributes_iff {p : Text} (hp : p ≠ []) (hs : ' ' ∉ p) (he : '=' ∉ p)
    (hq : '"' ∉ p) {as : List Attribute} :
    p <:+: writtenAttributes as ↔ ∃ a ∈ as, p <:+: a.name ∨ p <:+: a.value := by
  induction as with
  | nil =>
    have hn : ¬ p <:+: writtenAttributes [] := fun h => hp (List.infix_nil.mp h)
    simp [hn]
  | cons a as ih =>
    have h₀ : ∀ c t, c ∉ p → (p <:+: c :: t ↔ p <:+: t) := by
      intro c t hc
      have h := infix_append_cons_iff (s := []) (t := t) hc
      rw [List.nil_append] at h
      rw [h, List.infix_nil]
      simp [hp]
    rw [writtenAttributes_cons, a.written_append, h₀ _ _ hs, infix_append_cons_iff he, h₀ _ _ hq,
      infix_append_cons_iff hq, ih]
    simp only [List.mem_cons, exists_eq_or_imp, or_assoc]

end Formula.Markup
