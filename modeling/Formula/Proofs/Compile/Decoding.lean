import Formula.Compile.Row
import Formula.Proofs.Tex.BraceDepth
import Formula.Proofs.Tex.Weight

/-! # Gathered prescripts are read back

Gathering prescripts prints segments, and a row is read from what is printed. If the source has neither
a prescript nor the spacing command, what is read is what was printed: each copied character as itself,
and each prescript with its three arguments. No command is made where two segments meet, since every
prescript ends with a brace and begins with a backslash.
-/

namespace Formula

namespace Compile

open Tex Text

/-- What one level of a source is read as. The arguments of a prescript are kept as they are written. -/
inductive Item
  | char (c : Char)
  | prescript (a : Arguments)
  deriving DecidableEq, Repr

def Item.isPrescript : Item → Bool
  | char _ => false
  | prescript _ => true

def Item.written : Item → Text
  | char c => [c]
  | prescript a => spacing ++ Tex.prescript ++ braced a.sup ++ braced a.sub ++ braced a.base

/-- The items of a source without ineffective spacing. -/
def items : Text → List Item
  | [] => []
  | c :: r => match _h : prescript? (c :: r) with
    | none => .char c :: items r
    | some (a, rest) => .prescript a :: items rest
termination_by t => t.length
decreasing_by
  · simp
  · have := prescript?_length _h
    omega

def argumentRow (t : Text) : Row :=
  if isAbsent t then .absent else Row.ofSource t

def Row.ofItems : List Item → Row
  | [] => .nil
  | .char c :: r => .literal c (ofItems r)
  | .prescript a :: r =>
    .prescript (argumentRow a.base) (argumentRow a.sub) (argumentRow a.sup) (ofItems r)

theorem items_char {c : Char} {r : Text} (h : prescript? (c :: r) = none) :
    items (c :: r) = .char c :: items r := by
  rw [items.eq_def]
  simp only
  split <;> simp_all

theorem items_prescript {t rest : Text} {a : Arguments} (h : prescript? t = some (a, rest)) :
    items t = .prescript a :: items rest := by
  cases t with
  | nil => exact absurd (prescript?_length h) (Nat.not_lt_zero _)
  | cons c r =>
    rw [items.eq_def]
    simp only
    split <;> simp_all

theorem rowOf_eq_ofItems (t : Text) : rowOf t = Row.ofItems (items t) := by
  fun_induction items t with
  | case1 => rw [rowOf, Row.ofItems]
  | case2 c r h ih =>
    rw [rowOf.eq_def, Row.ofItems, ← ih]
    simp only
    split <;> simp_all
  | case3 c r a rest h ih =>
    rw [rowOf.eq_def, Row.ofItems, ← ih]
    simp only
    split
    · simp_all
    · next a' rest' h' =>
      obtain ⟨rfl, rfl⟩ : a = a' ∧ rest = rest' := by simpa using h.symm.trans h'
      rfl

theorem ofSource_eq_ofItems (t : Text) : Row.ofSource t = Row.ofItems (items (dropSpacing t)) :=
  rowOf_eq_ofItems _

/-! ## Places of a command -/

theorem after?_eq_none_of_occurrences {p q : Text} (hq : q <+: p) {t : Text}
    (h : startsWith q t = false) : after? p t = none := by
  by_contra hn
  obtain ⟨r, hr⟩ := Option.ne_none_iff_exists'.mp hn
  have hs : startsWith q t = true := by
    rw [startsWith_iff, after?_eq_some_iff.mp hr]
    exact hq.trans (List.prefix_append p r)
  simp [hs] at h

theorem occurrences_eq_zero {p t : Text} (h : occurs p t = false) :
    occurrences p t = 0 := by
  induction t with
  | nil => rfl
  | cons c t ih =>
    rw [occurs, anySuffix, Bool.or_eq_false_iff] at h
    rw [occurrences, ih h.2, h.1]
    rfl

def hspace : Text := "\\hspace".toList

theorem hspace_prefix_spacing : hspace <+: spacing := by decide

theorem startsWith_of_occurrences_cons {p : Text} (hp : isWordControl p = true) {c : Char}
    {u t : Text} (h : occurrences p (c :: u ++ t) = occurrences p t) :
    startsWith p (c :: u ++ t) = false ∧ occurrences p (u ++ t) = occurrences p t := by
  have hle := (weight_occurrences hp).le_append u t
  rw [List.cons_append, occurrences] at h
  split_ifs at h with hs
  · omega
  · exact ⟨by simpa using hs, by omega⟩

theorem dropSpacing_append {u t : Text} (h : occurrences hspace (u ++ t) = occurrences hspace t) :
    dropSpacing (u ++ t) = u ++ dropSpacing t := by
  induction u with
  | nil => rfl
  | cons c u ih =>
    obtain ⟨hs, hu⟩ := startsWith_of_occurrences_cons (by decide) h
    have hn := after?_eq_none_of_occurrences hspace_prefix_spacing hs
    rw [List.cons_append, dropSpacing.eq_def]
    simp only
    split
    · simp_all
    · rw [ih hu]
      rfl

theorem dropSpacing_spacing_append (t : Text) : dropSpacing (spacing ++ t) = dropSpacing t := by
  have ha := after?_append spacing t
  generalize hx : spacing ++ t = x at ha
  cases x with
  | nil => exact absurd (List.append_eq_nil_iff.mp hx).1 (by decide)
  | cons c r =>
    rw [dropSpacing.eq_def]
    simp only
    split <;> simp_all

theorem prescript?_eq_none {t : Text} (h : startsWith Tex.prescript t = false) :
    prescript? t = none := by
  have ha := after?_eq_none_of_occurrences List.prefix_rfl h
  simp [prescript?, ha]

theorem items_append {u t : Text}
    (h : occurrences Tex.prescript (u ++ t) = occurrences Tex.prescript t) :
    items (u ++ t) = u.map .char ++ items t := by
  induction u with
  | nil => rfl
  | cons c u ih =>
    obtain ⟨hs, hu⟩ := startsWith_of_occurrences_cons (by decide) h
    rw [List.cons_append] at hs ⊢
    rw [items_char (prescript?_eq_none hs), ih hu]
    rfl

/-! ## Printers of segments -/

/-- Copied text is printed as it is, and a prescript begins with no letter. -/
structure Printer (print : Segment → Text) : Prop where
  copied : ∀ t, print (.copied t) = t
  prescript : ∀ l a t, opensLetter (print (.prescript l a) ++ t) = false

theorem printer_written : Printer Segment.written where
  copied _ := rfl
  prescript _ _ _ := rfl

/-- The letters at the front of the first text are at the front of the second one, too. -/
def LettersFrom (x y : Text) : Prop :=
  ∀ w : Text, (∀ d ∈ w, d.isAlpha = true) → w <+: x → w <+: y

theorem LettersFrom.append {x y : Text} (h : LettersFrom x y) (s : Text) :
    LettersFrom (s ++ x) (s ++ y) := by
  induction s with
  | nil => exact h
  | cons c s ih =>
    intro w hw hs
    rcases List.prefix_cons_iff.mp hs with rfl | ⟨v, rfl, hv⟩
    · exact List.nil_prefix
    · rw [List.cons_append, List.cons_prefix_cons]
      exact ⟨rfl, ih v (fun d hd => hw d (List.mem_cons_of_mem _ hd)) hv⟩

theorem lettersFrom_of_opensLetter {x : Text} (h : opensLetter x = false) (y : Text) :
    LettersFrom x y := by
  intro w hw hx
  cases w with
  | nil => exact List.nil_prefix
  | cons d w =>
    obtain ⟨r, rfl⟩ := hx
    simp [opensLetter, hw d List.mem_cons_self] at h

theorem LettersFrom.occurrences_le {x y : Text} (h : LettersFrom x y) {p : Text}
    (hp : isWordControl p = true) (s : Text) :
    occurrences p (s ++ x) + occurrences p y ≤ occurrences p (s ++ y) + occurrences p x := by
  induction s with
  | nil =>
    simp only [List.nil_append]
    omega
  | cons c s ih =>
    have hs : startsWith p (c :: (s ++ x)) = true → startsWith p (c :: (s ++ y)) = true := by
      obtain ⟨d, w, rfl, hw⟩ := exists_letters_of_isWordControl hp
      rw [startsWith_iff, startsWith_iff, List.cons_prefix_cons, List.cons_prefix_cons]
      rintro ⟨rfl, hx⟩
      exact ⟨rfl, h.append s _ hw hx⟩
    simp only [List.cons_append, occurrences]
    split_ifs <;> simp_all <;> omega

namespace Printer

variable {print : Segment → Text} (hprint : Printer print) {p : Text}

include hprint

theorem lettersFrom (before t : Text) :
    LettersFrom ((segmentsBehind before t).flatMap print) t := by
  induction before, t using segmentsBehind_induction with
  | nil before =>
    rw [segmentsBehind]
    exact fun _ _ h => h
  | cons before t s source rest hr e ih =>
    have ht := hr.eq_append
    rw [e, List.flatMap_cons]
    cases s with
    | copied u =>
      have hu : u = source := by cases hr <;> rfl
      rw [hprint.copied, ht, hu]
      exact ih.append source
    | prescript l a => exact lettersFrom_of_opensLetter (hprint.prescript l a _) t

/-- No command begins in a copied segment if none is in the source. -/
theorem occurrences_copied {before t source rest : Text} (hp : isWordControl p = true)
    (ht : t = source ++ rest) (h : occurrences p t = 0) :
    occurrences p (source ++ (segmentsBehind before rest).flatMap print) =
      occurrences p ((segmentsBehind before rest).flatMap print) := by
  have h₁ := (hprint.lettersFrom before rest).occurrences_le hp source
  have h₂ := (weight_occurrences hp).le_append source ((segmentsBehind before rest).flatMap print)
  rw [← ht, h] at h₁
  omega

end Printer

/-! ## Reading what is printed -/

/-- A segment without the spacing before it. -/
def bare : Segment → Text
  | .copied t => t
  | .prescript l a =>
    Tex.prescript ++ braced (side (l.value .sup)) ++ braced (side (l.value .sub)) ++ braced a.base

def segmentItems : Segment → List Item
  | .copied t => t.map .char
  | .prescript l a => [.prescript ⟨side (l.value .sup), side (l.value .sub), a.base⟩]

theorem printer_bare : Printer bare where
  copied _ := rfl
  prescript _ _ _ := rfl

theorem bare_prescript_append (l : ScriptPair) (a : Atom) (t : Text) :
    bare (.prescript l a) ++ t = Tex.prescript ++ (braced (side (l.value .sup)) ++
      (braced (side (l.value .sub)) ++ (braced a.base ++ t))) := by
  simp [bare]

theorem written_prescript_append (l : ScriptPair) (a : Atom) (t : Text) :
    (Segment.prescript l a).written ++ t = spacing ++ (bare (.prescript l a) ++ t) := by
  simp [bare, Segment.written]

theorem occurrences_bare {p before t middle rest : Text} {l : ScriptPair} {a : Atom}
    (hp : isWordControl p = true) (hpre : occurrences p Tex.prescript = 0)
    (hstrut : occurrences p strut = 0) (hl : leadingScripts? before t = some (l, middle))
    (ha : atom? middle = some (a, rest)) (h : occurrences p t = 0) (x : Text) :
    occurrences p (bare (.prescript l a) ++ x) = occurrences p x := by
  have hw := weight_occurrences hp
  have h₁ := weight_leadingScripts?_le hw hl
  have h₂ := weight_atom?_le hw ha
  have h₃ := ScriptPair.weight_values hw (distinct_of_leadingScripts? hl)
  have hs : ∀ m, occurrences p (l.value m) = 0 → occurrences p (side (l.value m)) = 0 := by
    intro m hm
    unfold side
    split_ifs
    · exact hstrut
    · exact hm
  rw [bare_prescript_append, hw.append_braced, hw.braced_append, hw.braced_append, hpre,
    hs .sup (by omega), hs .sub (by omega)]
  omega

theorem dropSpacing_gatherBehind {before t : Text} (h : occurrences hspace t = 0) :
    dropSpacing (gatherBehind before t) = (segmentsBehind before t).flatMap bare := by
  induction before, t using segmentsBehind_induction with
  | nil before => simp [segmentsBehind, dropSpacing]
  | cons before t s source rest hr e ih =>
    have hle := (weight_occurrences (p := hspace) (by decide)).le_append source rest
    rw [← hr.eq_append] at hle
    have ih := ih (by omega)
    rw [hr.gatherBehind_eq, e, List.flatMap_cons, ← ih]
    cases hr with
    | prescript hl ha _ =>
      rw [written_prescript_append, dropSpacing_spacing_append]
      exact dropSpacing_append (occurrences_bare (by decide) (by decide) (by decide) hl ha h _)
    | control hc =>
      exact dropSpacing_append
        (printer_written.occurrences_copied (by decide) (eq_append_of_control? hc).1 h)
    | backslash | char _ _ | lone _ _ | sizing _ _ _ =>
      exact dropSpacing_append (printer_written.occurrences_copied (by decide) rfl h)

theorem prescript?_written {a b c : Text} (ha : Balanced a) (hb : Balanced b) (hc : Balanced c)
    (t : Text) :
    prescript? (Tex.prescript ++ (braced a ++ (braced b ++ (braced c ++ t)))) =
      some (⟨a, b, c⟩, t) := by
  have hs : ∀ u x, skipBlanks (braced u ++ x) = braced u ++ x := fun _ _ => rfl
  have hh : (braced a ++ (braced b ++ (braced c ++ t))).head?.any Char.isAlpha = false := rfl
  simp only [prescript?, after?_append, Option.bind_eq_bind, Option.bind_some, hh]
  simp [hs, group?_iff.mpr ⟨ha, rfl⟩, group?_iff.mpr ⟨hb, rfl⟩, group?_iff.mpr ⟨hc, rfl⟩]

theorem items_bare {before t : Text} {w : BraceWalk} (hw : w.escaped = false)
    (hp : (w.run t).escaped = false) (h : occurrences Tex.prescript t = 0) :
    items ((segmentsBehind before t).flatMap bare) =
      (segmentsBehind before t).flatMap segmentItems := by
  induction before, t using segmentsBehind_induction generalizing w with
  | nil before => simp [segmentsBehind, items]
  | cons before t s source rest hr e ih =>
    have hle := (weight_occurrences (p := Tex.prescript) (by decide)).le_append source rest
    rw [← hr.eq_append] at hle
    have hs := (hr.run hw hp).1
    have hp' := hp
    rw [hr.eq_append, BraceWalk.run_append] at hp'
    have ih := ih hs hp' (by omega)
    rw [e, List.flatMap_cons, List.flatMap_cons, ← ih]
    cases hr with
    | @prescript _ _ _ l a hl ha _ =>
      have hn : a.nucleus ≠ .char '\\' := by
        intro hn
        simp [not_paired_of_backslash hl ha hn hw] at hp
      have hv := (balanced_of_leadingScripts? hl).1
      rw [bare_prescript_append]
      exact items_prescript (prescript?_written (balanced_side (hv .sup))
        (balanced_side (hv .sub)) (balanced_of_atom? ha hn).1 _)
    | control hc =>
      exact items_append (printer_bare.occurrences_copied (by decide) (eq_append_of_control? hc).1 h)
    | backslash | char _ _ | lone _ _ | sizing _ _ _ =>
      exact items_append (printer_bare.occurrences_copied (by decide) rfl h)

theorem flatMap_written_segmentItems (s : Segment) :
    (segmentItems s).flatMap Item.written = s.written := by
  cases s with
  | copied t => simp [segmentItems, Item.written, Segment.written, List.flatMap_map]
  | prescript l a => simp [segmentItems, Item.written, Segment.written]

theorem countP_segmentItems (s : Segment) :
    (segmentItems s).countP Item.isPrescript = if s.isPrescript then 1 else 0 := by
  cases s with
  | copied t => simp [segmentItems, Segment.isPrescript, Item.isPrescript, Function.comp_def]
  | prescript l a => rfl

theorem countP_flatMap_segmentItems (l : List Segment) :
    (l.flatMap segmentItems).countP Item.isPrescript = l.countP Segment.isPrescript := by
  induction l with
  | nil => rfl
  | cons s l ih =>
    rw [List.flatMap_cons, List.countP_append, countP_segmentItems, ih, List.countP_cons]
    omega

/-- What is read from gathered prescripts is what was gathered: the same prescripts with the same
arguments in the same order, and around them the characters that were copied. -/
theorem items_gatherPrescripts {t : Text} (ht : Paired t) (hp : occurs Tex.prescript t = false)
    (hs : occurs "hspace".toList t = false) :
    gatherPrescripts t = ((segments t).flatMap segmentItems).flatMap Item.written ∧
      items (dropSpacing (gatherPrescripts t)) = (segments t).flatMap segmentItems ∧
      (items (dropSpacing (gatherPrescripts t))).countP Item.isPrescript = prescriptCount t ∧
      Row.ofSource (gatherPrescripts t) = Row.ofItems ((segments t).flatMap segmentItems) := by
  have hp' : occurrences Tex.prescript t = 0 := occurrences_eq_zero hp
  have hs' : occurrences hspace t = 0 := by
    refine occurrences_eq_zero ?_
    rw [← Bool.not_eq_true, occurs_iff] at hs ⊢
    exact fun h => hs ((List.suffix_cons _ _).isInfix.trans h)
  have hi : items (dropSpacing (gatherPrescripts t)) = (segments t).flatMap segmentItems := by
    have hd : dropSpacing (gatherPrescripts t) = (segmentsBehind [] t).flatMap bare :=
      dropSpacing_gatherBehind hs'
    rw [hd]
    exact items_bare (w := .start) rfl ht hp'
  refine ⟨?_, hi, ?_, ?_⟩
  · simp only [gatherPrescripts, List.flatMap_assoc, flatMap_written_segmentItems]
  · rw [hi, countP_flatMap_segmentItems, prescriptCount]
  · rw [ofSource_eq_ofItems, hi]

theorem items_gatherPrescripts_of_two :
    let t := "x \x7b\x7d_a^\x7bb\\\x7d\x7d R^2 = _1\\bar\x7by\x7d".toList
    Paired t ∧ occurs Tex.prescript t = false ∧ occurs "hspace".toList t = false ∧
      items (dropSpacing (gatherPrescripts t)) = "x ".toList.map .char ++
        .prescript ⟨"b\\\x7d".toList, "a".toList, "R^\x7b2\x7d".toList⟩ ::
          (" = ".toList.map .char ++
            [.prescript ⟨strut, "1".toList, "\\bar\x7by\x7d".toList⟩]) := by
  intro t
  have ht : Paired t := by decide
  have hp : occurs Tex.prescript t = false := by decide
  have hs : occurs "hspace".toList t = false := by decide
  refine ⟨ht, hp, hs, ?_⟩
  rw [(items_gatherPrescripts ht hp hs).2.1]
  decide +kernel

end Compile

end Formula
