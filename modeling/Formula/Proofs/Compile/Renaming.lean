import Formula.Proofs.Compile.Decoding

/-! # Renaming symbols

The characters beyond ASCII that are no blanks have no meaning in a source: each of them may be replaced by
another one. A renamed source is read as the renamed row. Every reader looks only for ASCII characters and for
blanks, which a renaming leaves as they are and makes of nothing else.
-/

namespace Formula.Compile

open Tex Text

/-- A character beyond ASCII that is no blank. -/
def isSymbol (c : Char) : Bool :=
  0x80 ≤ c.toNat && !isBlank c

/-- Symbols become symbols, and nothing else changes. -/
structure Renaming where
  toFun : Char → Char
  isSymbol_toFun : ∀ c, isSymbol c = true → isSymbol (toFun c) = true
  toFun_eq_self : ∀ c, isSymbol c = false → toFun c = c

instance : CoeFun Renaming fun _ => Char → Char :=
  ⟨Renaming.toFun⟩

def Row.map (f : Char → Char) : Row → Row
  | absent => absent
  | nil => nil
  | literal c rest => literal (f c) (rest.map f)
  | prescript base sub sup rest => prescript (base.map f) (sub.map f) (sup.map f) (rest.map f)

namespace Renaming

variable (ρ : Renaming)

/-! ## Characters -/

theorem isSymbol_apply (c : Char) : isSymbol (ρ c) = isSymbol c := by
  cases h : isSymbol c with
  | true => exact ρ.isSymbol_toFun c h
  | false => rw [ρ.toFun_eq_self c h, h]

theorem apply_eq_iff {a : Char} (ha : isSymbol a = false) (c : Char) : ρ c = a ↔ c = a := by
  cases h : isSymbol c with
  | true =>
    have hc : isSymbol (ρ c) = true := (ρ.isSymbol_apply c).trans h
    refine iff_of_false ?_ ?_
    · rintro rfl
      simp [ha] at hc
    · rintro rfl
      simp [ha] at h
  | false => rw [ρ.toFun_eq_self c h]

theorem isBlank_apply (c : Char) : isBlank (ρ c) = isBlank c := by
  cases h : isSymbol c with
  | true =>
    have hc := ρ.isSymbol_toFun c h
    simp only [isSymbol, Bool.and_eq_true, Bool.not_eq_true'] at h hc
    rw [h.2, hc.2]
  | false => rw [ρ.toFun_eq_self c h]

theorem isSymbol_of_lt {c : Char} (h : c.toNat < 0x80) : isSymbol c = false := by
  simp only [isSymbol, Bool.and_eq_false_iff, decide_eq_false_iff_not]
  exact .inl (Nat.not_le.mpr h)

theorem not_isSymbol_of_all {t : Text} (h : t.all (!isSymbol ·) = true) : ∀ a ∈ t, isSymbol a = false := by
  simpa using h

theorem isAlpha_apply (c : Char) : (ρ c).isAlpha = c.isAlpha := by
  have hsymbol : ∀ {c : Char}, isSymbol c = true → c.isAlpha = false := by
    intro c h
    by_contra ha
    have halnum : c.isAlphanum = true := by simp_all [Char.isAlphanum]
    have hle := (toNat_of_isAlphanum halnum).2
    rw [isSymbol_of_lt (by omega)] at h
    cases h
  cases h : isSymbol c with
  | true => rw [hsymbol h, hsymbol (ρ.isSymbol_toFun c h)]
  | false => rw [ρ.toFun_eq_self c h]

theorem map_eq_iff {p : Text} (hp : ∀ a ∈ p, isSymbol a = false) {t : Text} : t.map ρ = p ↔ t = p := by
  induction p generalizing t with
  | nil => exact List.map_eq_nil_iff
  | cons a p ih =>
    obtain ⟨ha, hp⟩ := List.forall_mem_cons.mp hp
    cases t with
    | nil => simp
    | cons c t => rw [List.map_cons, List.cons_eq_cons, List.cons_eq_cons, ρ.apply_eq_iff ha, ih hp]

/-! ## Readers -/

theorem after?_map {p : Text} (hp : ∀ a ∈ p, isSymbol a = false) (t : Text) :
    after? p (t.map ρ) = (after? p t).map (List.map ρ) := by
  induction p generalizing t with
  | nil => rfl
  | cons a p ih =>
    obtain ⟨ha, hp⟩ := List.forall_mem_cons.mp hp
    cases t with
    | nil => rfl
    | cons c t =>
      have hc : a = ρ c ↔ a = c := eq_comm.trans ((ρ.apply_eq_iff ha c).trans eq_comm)
      rw [List.map_cons, after?, after?, ih hp]
      simp only [hc]
      split <;> rfl

theorem skipBlanks_map (t : Text) : skipBlanks (t.map ρ) = (skipBlanks t).map ρ := by
  rw [skipBlanks, List.dropWhile_map]
  congr 2
  exact funext ρ.isBlank_apply

theorem trim_map (t : Text) : trim (t.map ρ) = (trim t).map ρ := by
  have hend : ∀ t : Text, trimEnd (t.map ρ) = (trimEnd t).map ρ := by
    intro t
    rw [trimEnd, ← List.map_reverse]
    change (skipBlanks (t.reverse.map ρ)).reverse = _
    rw [skipBlanks_map, ← List.map_reverse]
    rfl
  rw [trim, skipBlanks_map, hend, trim]

theorem close?_map (depth : Nat) (t : Text) :
    close? depth (t.map ρ) = (close? depth t).map fun (u, rest) => (u.map ρ, rest.map ρ) := by
  have hb : ρ '\\' = '\\' := ρ.toFun_eq_self _ (by decide)
  have ho : ρ '{' = '{' := ρ.toFun_eq_self _ (by decide)
  have hc : ρ '}' = '}' := ρ.toFun_eq_self _ (by decide)
  fun_induction close? depth t with
  | case1 => rw [List.map_nil, close?_nil]; rfl
  | case2 depth => rw [List.map_cons, hb]; cases depth <;> rfl
  | case3 depth d r ih =>
    rw [List.map_cons, List.map_cons, hb, close?_escape, ih, Option.map_map, Option.map_map]
    congr 1
    funext p
    simp [hb]
  | case4 depth r _ ih =>
    rw [List.map_cons, ho, close?_open, ih, Option.map_map, Option.map_map]
    congr 1
    funext p
    simp [ho]
  | case5 r => rw [List.map_cons, hc, close?_shut]; rfl
  | case6 r depth _ _ ih =>
    rw [List.map_cons, hc, close?_shut_succ, ih, Option.map_map, Option.map_map]
    congr 1
    funext p
    simp [hc]
  | case7 depth c r hb ho hc ih =>
    have hne : ∀ {a : Char}, isSymbol a = false → c ≠ a → ρ c ≠ a :=
      fun ha h => mt (ρ.apply_eq_iff ha c).mp h
    rw [List.map_cons, close?_char (hne (by decide) hb) (hne (by decide) ho) (hne (by decide) hc), ih,
      Option.map_map, Option.map_map]
    rfl

theorem group?_map (t : Text) :
    group? (t.map ρ) = (group? t).map fun (u, rest) => (u.map ρ, rest.map ρ) := by
  cases t with
  | nil => rfl
  | cons c r =>
    rw [List.map_cons, group?, group?, close?_map]
    simp only [ρ.apply_eq_iff (show isSymbol '{' = false by decide)]
    split <;> rfl

theorem isAbsent_map (t : Text) : isAbsent (t.map ρ) = isAbsent t := by
  have hstrut : ∀ a ∈ strut, isSymbol a = false := not_isSymbol_of_all (by decide)
  simp only [isAbsent, trim_map, List.map_eq_nil_iff, ρ.map_eq_iff hstrut]

theorem dropSpacing_map (t : Text) : dropSpacing (t.map ρ) = (dropSpacing t).map ρ := by
  have hspacing : ∀ a ∈ spacing, isSymbol a = false := not_isSymbol_of_all (by decide)
  fun_induction dropSpacing t with
  | case1 => simp [dropSpacing]
  | case2 c r rest h ih =>
    have hmap := ρ.after?_map hspacing (c :: r)
    rw [h] at hmap
    rw [after?_eq_some_iff.mp hmap, dropSpacing_spacing_append, ih]
  | case3 c r h ih =>
    have hmap := ρ.after?_map hspacing (c :: r)
    rw [h] at hmap
    rw [List.map_cons, dropSpacing.eq_def]
    simp only
    split
    · next rest hrest => exact absurd (hmap.symm.trans hrest) (Option.some_ne_none rest).symm
    · rw [ih, List.map_cons]

def arguments (a : Arguments) : Arguments :=
  ⟨a.sup.map ρ, a.sub.map ρ, a.base.map ρ⟩

theorem prescript?_map (t : Text) :
    prescript? (t.map ρ) = (prescript? t).map fun (a, rest) => (ρ.arguments a, rest.map ρ) := by
  have hprescript : ∀ a ∈ Tex.prescript, isSymbol a = false := not_isSymbol_of_all (by decide)
  have hhead : ∀ t : Text, (t.map ρ).head?.any Char.isAlpha = t.head?.any Char.isAlpha := by
    intro t
    cases t with
    | nil => rfl
    | cons c t => exact ρ.isAlpha_apply c
  have hgroup : ∀ t : Text, group? (skipBlanks (t.map ρ)) =
      (group? (skipBlanks t)).map fun (u, rest) => (u.map ρ, rest.map ρ) := by
    intro t
    rw [skipBlanks_map, group?_map]
  rw [prescript?, ρ.after?_map hprescript, prescript?]
  cases after? Tex.prescript t with
  | none => rfl
  | some r =>
    simp only [Option.map_some, Option.bind_eq_bind, Option.bind_some, hhead, hgroup]
    split
    · rfl
    cases group? (skipBlanks r) with
    | none => rfl
    | some p =>
      simp only [Option.map_some, Option.bind_some, hgroup]
      cases group? (skipBlanks p.2) with
      | none => rfl
      | some q =>
        simp only [Option.map_some, Option.bind_some, hgroup]
        cases group? (skipBlanks q.2) <;> rfl

theorem rowOf_map (t : Text) : rowOf (t.map ρ) = (rowOf t).map ρ := by
  have hargument : ∀ {u : Text}, rowOf ((dropSpacing u).map ρ) = (rowOf (dropSpacing u)).map ρ →
      (if isAbsent (u.map ρ) then Row.absent else rowOf (dropSpacing (u.map ρ))) =
        (if isAbsent u then Row.absent else rowOf (dropSpacing u)).map ρ := by
    intro u h
    rw [isAbsent_map, dropSpacing_map, h]
    split <;> rfl
  fun_induction rowOf t with
  | case1 => simp [rowOf, Row.map]
  | case2 c r h ih =>
    have hmap := ρ.prescript?_map (c :: r)
    rw [h] at hmap
    rw [List.map_cons, rowOf.eq_def]
    simp only
    split
    · rw [ih, Row.map]
    · next a rest hrest => exact absurd (hmap.symm.trans hrest) (Option.some_ne_none _).symm
  | case3 c r a rest h ihb ihl ihu ihr =>
    have hmap := ρ.prescript?_map (c :: r)
    rw [h] at hmap
    rw [List.map_cons, rowOf.eq_def]
    simp only
    split
    · next hnone => exact absurd (hmap.symm.trans hnone) (Option.some_ne_none _)
    · next a' rest' hrest =>
      obtain ⟨rfl, rfl⟩ := Prod.mk.inj (Option.some.inj (hmap.symm.trans hrest))
      rw [Row.map, ← hargument ihb, ← hargument ihl, ← hargument ihu, ← ihr]
      rfl

theorem ofSource_map (t : Text) : Row.ofSource (t.map ρ) = (Row.ofSource t).map ρ := by
  rw [Row.ofSource, dropSpacing_map, rowOf_map]
  rfl

end Renaming

end Formula.Compile
