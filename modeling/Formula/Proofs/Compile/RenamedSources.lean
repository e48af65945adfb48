import Mathlib.Logic.Equiv.Basic
import Formula.Proofs.Compile.Capture
import Formula.Proofs.Compile.Renaming

/-! # Renamed sources and their markup

What a source is to be compiled to goes along with every renaming. What it is compiled to does not: a renaming
may turn a symbol that stands before a prescript into the placeholder of this prescript. If the source or the
renamed one is without such a symbol, then the two are compiled alike exactly if both are. Only where no symbol
at all stands before a prescript no renaming can do harm.
-/

namespace Formula.Compile

open Tex Text

/-- No symbol stands before a prescript, neither on its level nor inside of a prescript there. These literals
stand before the row. -/
def Row.UnprecededFrom (seen : Text) : Row → Prop
  | absent => True
  | nil => True
  | literal c rest => rest.UnprecededFrom (seen ++ [c])
  | prescript base sub sup rest =>
    (∀ c ∈ seen, isSymbol c = false) ∧ base.UnprecededFrom [] ∧ sub.UnprecededFrom [] ∧
      sup.UnprecededFrom [] ∧
      rest.UnprecededFrom (seen ++ (base.literals ++ (sub.literals ++ sup.literals)))

/-- No symbol of the source stands before a prescript of the same level, if there are placeholders for all
prescripts. -/
def Unpreceded (source : Text) : Prop :=
  (Row.ofSource source).Fits placeholderCount → (Row.ofSource source).UnprecededFrom []

def Piece.map (f : Char → Char) : Piece → Piece
  | char c => char (f c)
  | tag t => tag t

theorem isSymbol_placeholder {index : Nat} (hi : index < placeholderCount) :
    isSymbol (placeholder index) = true := by
  have hle : 0x80 ≤ (placeholder index).toNat := by
    rw [toNat_placeholder hi, firstPlaceholder]
    omega
  simp [isSymbol, hle, isBlank_placeholder hi]

namespace Row

variable {f : Char → Char}

theorem literals_map (row : Row) : (row.map f).literals = row.literals.map f := by
  induction row with
  | absent | nil => rfl
  | literal c rest ih => rw [map, literals, ih, literals, List.map_cons]
  | prescript base sub sup rest ihb ihl ihu ihr =>
    simp only [map, literals, ihb, ihl, ihu, ihr, List.map_append]

theorem fitsFrom_map {bound index : Nat} {row : Row} :
    (row.map f).FitsFrom bound index ↔ row.FitsFrom bound index := by
  induction row generalizing index with
  | absent | nil => exact Iff.rfl
  | literal _ _ ih => exact ih
  | prescript base sub sup rest ihb ihl ihu ihr => simp only [map, FitsFrom, ihb, ihl, ihu, ihr]

theorem argumentPieces_map (row : Row) (l : List Piece) :
    (row.map f).argumentPieces (l.map (Piece.map f)) = (row.argumentPieces l).map (Piece.map f) := by
  cases row <;> simp [map, argumentPieces, Piece.map]

theorem pieces_map (row : Row) : (row.map f).pieces = row.pieces.map (Piece.map f) := by
  have hmultiscript : ∀ b l u : List Piece,
      multiscriptPieces (b.map (Piece.map f)) (l.map (Piece.map f)) (u.map (Piece.map f)) =
        (multiscriptPieces b l u).map (Piece.map f) := by
    intro b l u
    simp [multiscriptPieces, Piece.map]
  induction row with
  | absent | nil => rfl
  | literal c rest ih => rw [map, pieces, pieces, ih, List.map_cons, Piece.map]
  | prescript base sub sup rest ihb ihl ihu ihr =>
    rw [map, pieces, pieces, ihb, ihl, ihu, ihr, argumentPieces_map, argumentPieces_map,
      argumentPieces_map, hmultiscript, List.map_append]

end Row

namespace Renaming

variable (ρ : Renaming)

/-! ## Markup -/

theorem map_eq_self {t : Text} (h : ∀ a ∈ t, isSymbol a = false) : t.map ρ = t :=
  (ρ.map_eq_iff h).mpr rfl

theorem write_map (c : Char) : Spelling.literal.write (ρ c) = (Spelling.literal.write c).map ρ := by
  cases h : isSymbol c with
  | true =>
    have hwrite : ∀ {d : Char}, isSymbol d = true → Spelling.literal.write d = [d] := by
      intro d hd
      have hge : ¬d.toNat < 0x80 := by
        intro hlt
        rw [isSymbol_of_lt hlt] at hd
        cases hd
      rw [Spelling.write, if_neg hge]
    rw [hwrite h, hwrite (ρ.isSymbol_toFun c h), List.map_singleton]
  | false =>
    have hwrite : ∀ a ∈ Spelling.literal.write c, isSymbol a = false := by
      unfold Spelling.write
      split_ifs
      · exact not_isSymbol_of_all (by decide)
      · exact not_isSymbol_of_all (by decide)
      · exact not_isSymbol_of_all (by decide)
      all_goals simpa using h
    rw [ρ.toFun_eq_self c h, ρ.map_eq_self hwrite]

theorem identifier_map (c : Char) : identifier .literal (ρ c) = (identifier .literal c).map ρ := by
  have ho : "<mi>".toList.map ρ = "<mi>".toList := ρ.map_eq_self (not_isSymbol_of_all (by decide))
  have hc : "</mi>".toList.map ρ = "</mi>".toList := ρ.map_eq_self (not_isSymbol_of_all (by decide))
  rw [identifier, identifier, write_map, List.map_append, List.map_append, ho, hc]

theorem written_map (l : List Piece) : written (l.map (Piece.map ρ)) = (written l).map ρ := by
  have hpiece : ∀ p : Piece, (p.map ρ).written = p.written.map ρ := by
    intro p
    cases p with
    | char c =>
      rw [Piece.map, Piece.written, Piece.written, ρ.isBlank_apply, ρ.identifier_map]
      split <;> rfl
    | tag t =>
      have htag : (Piece.tag t).written.all (!isSymbol ·) = true := by
        cases t with
        | openMath mode => cases mode <;> decide
        | _ => decide
      exact (ρ.map_eq_self (not_isSymbol_of_all htag)).symm
  induction l with
  | nil => rfl
  | cons p l ih => rw [List.map_cons, written_cons, written_cons, hpiece, ih, List.map_append]

end Renaming

theorem PlacedIff.map {p : Prop} {l i : List Piece} (h : PlacedIff p l i) (ρ : Renaming) :
    PlacedIff p (l.map (Piece.map ρ)) (i.map (Piece.map ρ)) := by
  rcases h with ⟨hp, rfl⟩ | ⟨hp, front, c, b, b', hc, rfl, rfl⟩
  · exact .inl ⟨hp, rfl⟩
  · refine .inr ⟨hp, front.map (Piece.map ρ), ρ c, b.map (Piece.map ρ), b'.map (Piece.map ρ), ?_, ?_, ?_⟩
    · rw [ρ.isBlank_apply, hc]
    · simp [Piece.map]
    · simp [Piece.map]

theorem mathPieces_map (f : Char → Char) (mode : Mode) (l : List Piece) :
    mathPieces mode (l.map (Piece.map f)) = (mathPieces mode l).map (Piece.map f) := by
  simp [mathPieces, Piece.map]

/-! ## Sources -/

theorem Renaming.fits_map (ρ : Renaming) (source : Text) :
    (Row.ofSource (source.map ρ)).Fits placeholderCount ↔ (Row.ofSource source).Fits placeholderCount := by
  rw [ρ.ofSource_map]
  exact Row.fitsFrom_map

/-- What a source is to be compiled to is renamed with it. -/
theorem intended_map (source : Text) (ρ : Renaming) (mode : Mode) :
    intended (source.map ρ) mode = (intended source mode).map (List.map ρ) := by
  simp only [intended, ρ.fits_map]
  split
  · rw [← written_mathPieces_pieces, ← written_mathPieces_pieces, ρ.ofSource_map, Row.pieces_map,
      mathPieces_map, ρ.written_map]
    rfl
  · rfl

/-- If the pieces of a source or those of its renaming are all in their places, then the two are renamed into
one another exactly if both are. -/
theorem written_map_eq_iff {p q : Prop} {l i l' : List Piece} (h : PlacedIff p l i) (ρ : Renaming)
    (h' : PlacedIff q l' (i.map (Piece.map ρ))) (hor : p ∨ q) :
    written l' = (written l).map ρ ↔ p ∧ q := by
  rw [← ρ.written_map]
  rcases hor with hp | hq
  · obtain rfl := h.eq hp
    rw [h'.eq_iff, and_iff_right hp]
  · obtain rfl := h'.eq hq
    rw [eq_comm, (h.map ρ).eq_iff, and_iff_left hq]

/-- Of a source and its renaming at least one is undisturbed. Then the runs end alike exactly if both are. -/
theorem compileSource_map_iff (source : Text) (ρ : Renaming) (mode : Mode) (t t' : Trace)
    (h : Undisturbed source ∨ Undisturbed (source.map ρ)) :
    (outcome (compileSource literalEngine (source.map ρ) mode) t').1 =
        (outcome (compileSource literalEngine source mode) t).1.map (List.map ρ) ↔
      Undisturbed source ∧ Undisturbed (source.map ρ) := by
  by_cases hfits : (Row.ofSource source).Fits placeholderCount
  · have hfits' := (ρ.fits_map source).mpr hfits
    have hplaced := placedIff_mathPieces hfits mode
    have hplaced' := placedIff_mathPieces hfits' mode
    simp only [Undisturbed, hfits, hfits', true_imp_iff] at h ⊢
    have hpieces : mathPieces mode (Row.ofSource (source.map ρ)).pieces =
        (mathPieces mode (Row.ofSource source).pieces).map (Piece.map ρ) := by
      rw [ρ.ofSource_map, Row.pieces_map, mathPieces_map]
    rw [hpieces] at hplaced'
    rw [delivers_compileSource hfits mode t, delivers_compileSource hfits' mode t', Except.map,
      Except.ok.injEq]
    exact written_map_eq_iff hplaced ρ hplaced' h
  · have hfits' := mt (ρ.fits_map source).mp hfits
    rw [compileSource_of_not_fits hfits mode t, compileSource_of_not_fits hfits' mode t']
    exact iff_of_true rfl ⟨fun h => absurd h hfits, fun h => absurd h hfits'⟩

/-! ## Renamings that do harm -/

def Renaming.swap (a b : Char) (ha : isSymbol a = true) (hb : isSymbol b = true) : Renaming where
  toFun := Equiv.swap a b
  isSymbol_toFun := by
    intro c hc
    rw [Equiv.swap_apply_def]
    split_ifs <;> assumption
  toFun_eq_self := by
    intro c hc
    refine Equiv.swap_apply_of_ne_of_ne ?_ ?_
    · rintro rfl
      rw [ha] at hc
      cases hc
    · rintro rfl
      rw [hb] at hc
      cases hc

theorem Row.UnprecededFrom.undisturbedFrom {row : Row} {index : Nat} {seen : Text}
    (h : row.UnprecededFrom seen) (hfits : row.FitsFrom placeholderCount index) (ρ : Renaming) :
    (row.map ρ).UndisturbedFrom index (seen.map ρ) := by
  induction row generalizing index seen with
  | absent | nil => trivial
  | literal c rest ih =>
    have ih := ih h hfits
    rw [List.map_append] at ih
    exact ih
  | prescript base sub sup rest ihb ihl ihu ihr =>
    obtain ⟨hi, hfb, hfl, hfu, hfr⟩ := hfits
    obtain ⟨hseen, hb, hl, hu, hr⟩ := h
    refine ⟨?_, ihb hb hfb, ihl hl hfl, ihu hu hfu, ?_⟩
    · rw [ρ.map_eq_self hseen]
      intro hmem
      have hp := hseen _ hmem
      rw [isSymbol_placeholder hi] at hp
      cases hp
    · have ih := ihr hr hfr
      simp only [List.map_append, ← Row.literals_map] at ih
      exact ih

/-- A symbol before a prescript is swapped with the placeholder of the prescript. -/
theorem Row.exists_not_undisturbedFrom {row : Row} {index : Nat} {seen : Text}
    (h : ¬row.UnprecededFrom seen) (hfits : row.FitsFrom placeholderCount index) :
    ∃ ρ : Renaming, Function.Injective ρ ∧ ¬(row.map ρ).UndisturbedFrom index (seen.map ρ) := by
  induction row generalizing index seen with
  | absent | nil => exact absurd trivial h
  | literal c rest ih =>
    obtain ⟨ρ, hρ, hn⟩ := ih h hfits
    rw [List.map_append] at hn
    exact ⟨ρ, hρ, hn⟩
  | prescript base sub sup rest ihb ihl ihu ihr =>
    obtain ⟨hi, hfb, hfl, hfu, hfr⟩ := hfits
    rw [Row.UnprecededFrom, not_and_or, not_and_or, not_and_or, not_and_or] at h
    rcases h with hseen | hb | hl | hu | hr
    · obtain ⟨c, hc⟩ := not_forall.mp hseen
      obtain ⟨hc, hsymbol⟩ := Classical.not_imp.mp hc
      rw [Bool.not_eq_false] at hsymbol
      refine ⟨.swap c (placeholder index) hsymbol (isSymbol_placeholder hi), ?_, ?_⟩
      · exact (Equiv.swap c (placeholder index)).injective
      · intro hd
        exact hd.1 (List.mem_map.mpr ⟨c, hc, Equiv.swap_apply_left c _⟩)
    · obtain ⟨ρ, hρ, hn⟩ := ihb hb hfb
      exact ⟨ρ, hρ, fun hd => hn hd.2.1⟩
    · obtain ⟨ρ, hρ, hn⟩ := ihl hl hfl
      exact ⟨ρ, hρ, fun hd => hn hd.2.2.1⟩
    · obtain ⟨ρ, hρ, hn⟩ := ihu hu hfu
      exact ⟨ρ, hρ, fun hd => hn hd.2.2.2.1⟩
    · obtain ⟨ρ, hρ, hn⟩ := ihr hr hfr
      simp only [List.map_append, ← Row.literals_map] at hn
      exact ⟨ρ, hρ, fun hd => hn hd.2.2.2.2⟩

/-- Every renaming of a source is undisturbed exactly if no symbol stands before a prescript. -/
theorem undisturbed_map_iff (source : Text) :
    (∀ ρ : Renaming, Function.Injective ρ → Undisturbed (source.map ρ)) ↔ Unpreceded source := by
  have hmap : ∀ ρ : Renaming, Undisturbed (source.map ρ) ↔
      ((Row.ofSource source).Fits placeholderCount →
        ((Row.ofSource source).map ρ).UndisturbedFrom 0 ([].map ρ)) := by
    intro ρ
    rw [Undisturbed, ρ.fits_map, ρ.ofSource_map]
    exact Iff.rfl
  constructor
  · intro h hfits
    by_contra hn
    obtain ⟨ρ, hρ, hd⟩ := Row.exists_not_undisturbedFrom hn hfits
    exact hd ((hmap ρ).mp (h ρ hρ) hfits)
  · intro h ρ _
    exact (hmap ρ).mpr fun hfits => (h hfits).undisturbedFrom hfits ρ

/-- A source is compiled as it is to be exactly if no prescript has its placeholder among the literals before
it. If this holds for the source or for its renaming, then the two are compiled to renamed markup exactly if it
holds for both. And all renamings are compiled as they are to be exactly if no symbol at all stands before a
prescript. -/
theorem compileSource_renamed_iff (source : Text) :
    (∀ mode t, (outcome (compileSource literalEngine source mode) t).1 = intended source mode ↔
      Undisturbed source) ∧
    (∀ (ρ : Renaming) (mode : Mode) (t t' : Trace), Undisturbed source ∨ Undisturbed (source.map ρ) →
      ((outcome (compileSource literalEngine (source.map ρ) mode) t').1 =
          (outcome (compileSource literalEngine source mode) t).1.map (List.map ρ) ↔
        Undisturbed source ∧ Undisturbed (source.map ρ))) ∧
    ((∀ ρ : Renaming, Function.Injective ρ → ∀ mode t,
        (outcome (compileSource literalEngine (source.map ρ) mode) t).1 =
          (intended source mode).map (List.map ρ)) ↔
      Unpreceded source) := by
  refine ⟨compileSource_eq_intended_iff source, compileSource_map_iff source, ?_⟩
  simp only [← intended_map, compileSource_eq_intended_iff, ← undisturbed_map_iff]
  exact ⟨fun h ρ hρ => h ρ hρ .inline .empty, fun h ρ hρ _ _ => h ρ hρ⟩

/-- The symbol before a prescript becomes its placeholder, and the element goes into its place. -/
theorem compileSource_renamed_of_placeholder :
    let source := "é\\prescript\x7b\x7d\x7b\x7d\x7bx\x7d".toList
    let ρ : Renaming := .swap 'é' (placeholder 0) (by decide) (by decide)
    let element := "<mmultiscripts><mrow><mrow><mi>x</mi></mrow></mrow><mprescripts/>".toList ++
      "<none/><none/></mmultiscripts>".toList
    let run := fun source => (outcome (compileSource literalEngine source .inline) .empty).1
    Undisturbed source ∧ ¬Undisturbed (source.map ρ) ∧
      run source = .ok (mathElement .inline ("<mi>é</mi>".toList ++ element)) ∧
      run (source.map ρ) = .ok (mathElement .inline (element ++ identifier .literal (placeholder 0))) ∧
      run (source.map ρ) ≠ (run source).map (List.map ρ) := by
  intro source ρ element run
  have hsource : Undisturbed source := by decide +kernel
  have hrenamed : ¬Undisturbed (source.map ρ) := by decide +kernel
  obtain ⟨hintended, hmap, -⟩ := compileSource_renamed_iff source
  refine ⟨hsource, hrenamed, ?_, by decide +kernel, ?_⟩
  · exact ((hintended .inline .empty).mpr hsource).trans (by decide +kernel)
  · exact fun h => hrenamed ((hmap ρ .inline .empty .empty (.inl hsource)).mp h).2

end Formula.Compile
