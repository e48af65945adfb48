import Formula.Proofs.Compile.Pieces

/-! # Symbols in the places of placeholders

Nothing tells a placeholder from the same character in the source. A prescript gets its own place exactly if
its placeholder is none of the literals before it, on its level and inside of the prescripts there. Otherwise
its element replaces the first of these literals, and no element that is placed later makes up for that.
-/

namespace Formula.Compile

open Tex Text

namespace Row

/-- The pieces of a row, those of each prescript where the prescript stands. -/
def pieces : Row → List Piece
  | absent => []
  | nil => []
  | literal c rest => .char c :: rest.pieces
  | prescript base sub sup rest =>
    multiscriptPieces (base.argumentPieces base.pieces) (sub.argumentPieces sub.pieces)
      (sup.argumentPieces sup.pieces) ++ rest.pieces

/-- No prescript has its placeholder among the literals before it. The first one has this index, and these
literals stand before the row. -/
def UndisturbedFrom (index : Nat) (seen : Text) : Row → Prop
  | absent => True
  | nil => True
  | literal c rest => rest.UndisturbedFrom index (seen ++ [c])
  | prescript base sub sup rest =>
    placeholder index ∉ seen ∧ base.UndisturbedFrom 0 [] ∧ sub.UndisturbedFrom 0 [] ∧
      sup.UndisturbedFrom 0 [] ∧
      rest.UndisturbedFrom (index + 1) (seen ++ (base.literals ++ (sub.literals ++ sup.literals)))

instance decidableUndisturbedFrom : (index : Nat) → (seen : Text) → (row : Row) →
    Decidable (row.UndisturbedFrom index seen)
  | _, _, absent => .isTrue trivial
  | _, _, nil => .isTrue trivial
  | index, seen, literal c rest => decidableUndisturbedFrom index (seen ++ [c]) rest
  | index, seen, prescript base sub sup rest =>
    have := decidableUndisturbedFrom 0 [] base
    have := decidableUndisturbedFrom 0 [] sub
    have := decidableUndisturbedFrom 0 [] sup
    have := decidableUndisturbedFrom (index + 1)
      (seen ++ (base.literals ++ (sub.literals ++ sup.literals))) rest
    inferInstanceAs (Decidable (_ ∧ _ ∧ _ ∧ _ ∧ _))

end Row

/-- No prescript of the source has its placeholder among the literals before it, if there are placeholders for
all of them. -/
def Undisturbed (source : Text) : Prop :=
  (Row.ofSource source).Fits placeholderCount → (Row.ofSource source).UndisturbedFrom 0 []

instance (source : Text) : Decidable (Undisturbed source) :=
  inferInstanceAs (Decidable (_ → _))

/-- What a source is to be compiled to: the element of each prescript stands where the prescript stands. -/
def intended (source : Text) (mode : Mode) : Except Failure Text :=
  if (Row.ofSource source).Fits placeholderCount then
    .ok ((Row.ofSource source).markup (fun _ _ => .literal) mode)
  else .error .noPlaceholder

/-! ## Intended pieces -/

theorem written_pieces (row : Row) (position : Nat) :
    written row.pieces = row.content (fun _ _ => .literal) (fun _ => .literal) position := by
  induction row generalizing position with
  | absent | nil => rfl
  | literal c rest ih => rw [Row.pieces, written_cons, ih (position + 1), Piece.written, Row.content]
  | prescript base sub sup rest ihb ihl ihu ihr =>
    rw [Row.pieces, written_append, written_multiscriptPieces, written_argumentPieces,
      written_argumentPieces, written_argumentPieces, ihb 0, ihl 0, ihu 0, ihr (position + 1),
      Row.content]

theorem written_mathPieces_pieces (row : Row) (mode : Mode) :
    written (mathPieces mode row.pieces) = row.markup (fun _ _ => .literal) mode := by
  rw [written_mathPieces, written_pieces row 0, Row.markup]

theorem char_mem_multiscriptPieces {c : Char} {base sub sup : List Piece} :
    Piece.char c ∈ multiscriptPieces base sub sup ↔
      Piece.char c ∈ base ∨ Piece.char c ∈ sub ∨ Piece.char c ∈ sup := by
  simp [multiscriptPieces]

theorem char_mem_argumentPieces {row : Row} {c : Char} (h : Piece.char c ∈ row.pieces ↔ c ∈ row.literals) :
    Piece.char c ∈ row.argumentPieces row.pieces ↔ c ∈ row.literals := by
  cases row with
  | absent => simp [Row.argumentPieces, Row.literals]
  | nil | literal _ _ | prescript _ _ _ _ => simpa [Row.argumentPieces] using h

theorem char_mem_pieces {row : Row} {c : Char} : Piece.char c ∈ row.pieces ↔ c ∈ row.literals := by
  induction row with
  | absent | nil => simp [Row.pieces, Row.literals]
  | literal d rest ih => simp [Row.pieces, Row.literals, ih]
  | prescript base sub sup rest ihb ihl ihu ihr =>
    simp only [Row.pieces, Row.literals, List.mem_append, char_mem_multiscriptPieces,
      char_mem_argumentPieces ihb, char_mem_argumentPieces ihl, char_mem_argumentPieces ihu, ihr, or_assoc]

/-! ## Displaced elements -/

/-- Up to some place the pieces are as intended; there an element begins instead of a character. -/
def Displaced (actual intended : List Piece) : Prop :=
  ∃ front c b b', isBlank c = false ∧ actual = front ++ .tag .openMultiscripts :: b ∧
    intended = front ++ .char c :: b'

def OpensElement (e : List Piece) : Prop :=
  ∃ b, e = .tag .openMultiscripts :: b

theorem opensElement_of_mem {row : Row} {e : List Piece} (h : e ∈ row.elementPieces) : OpensElement e := by
  induction row with
  | absent | nil => exact absurd h List.not_mem_nil
  | literal _ _ ih => exact ih h
  | prescript base sub sup rest _ _ _ ih =>
    rcases List.mem_cons.mp h with rfl | h
    · exact ⟨_, rfl⟩
    · exact ih h

theorem displaced_append {c : Char} (hc : isBlank c = false) {e : List Piece} (he : OpensElement e)
    (u v w : List Piece) : Displaced (u ++ (e ++ v)) (u ++ .char c :: w) := by
  obtain ⟨b, rfl⟩ := he
  exact ⟨u, c, b ++ v, w, hc, rfl, rfl⟩

theorem exists_of_place?_eq_some {c : Char} {e l l' : List Piece} (h : place? c e l = some l') :
    ∃ u v, l = u ++ .char c :: v ∧ l' = u ++ (e ++ v) := by
  by_cases hc : Piece.char c ∈ l
  · obtain ⟨u, v, rfl, hu⟩ := List.eq_append_cons_of_mem hc
    rw [place?_append hu] at h
    exact ⟨u, v, rfl, (Option.some.inj h).symm⟩
  · rw [place?_of_not_mem hc] at h
    cases h

namespace Displaced

variable {l i : List Piece}

theorem append (h : Displaced l i) (front back back' : List Piece) :
    Displaced (front ++ (l ++ back)) (front ++ (i ++ back')) := by
  obtain ⟨u, c, b, b', hc, rfl, rfl⟩ := h
  exact ⟨front ++ u, c, b ++ back, b' ++ back', hc, by simp, by simp⟩

/-- An element that is placed before the difference is a difference itself. -/
theorem place? (h : Displaced l i) {c : Char} (hc : isBlank c = false) {e l' : List Piece}
    (he : OpensElement e) (hl : Compile.place? c e l = some l') : Displaced l' i := by
  obtain ⟨u, v, hsplit, rfl⟩ := exists_of_place?_eq_some hl
  obtain ⟨front, d, b, b', hd, hactual, rfl⟩ := h
  rw [hactual, List.append_eq_append_iff] at hsplit
  rcases hsplit with ⟨w, hu, hw⟩ | ⟨w, hfront, hw⟩
  · cases w with
    | nil => simp at hw
    | cons p w =>
      obtain ⟨rfl, -⟩ := List.cons_eq_cons.mp hw
      exact ⟨front, d, w ++ (e ++ v), b', hd, by simp [hu], rfl⟩
  · cases w with
    | nil => simp at hw
    | cons p w =>
      obtain ⟨rfl, -⟩ := List.cons_eq_cons.mp hw
      rw [hfront, List.append_assoc]
      exact displaced_append hc he u v (w ++ .char d :: b')

theorem placeAll (h : Displaced l i) {index : Nat} {es : List (List Piece)}
    (hes : index + es.length ≤ placeholderCount) (hopens : ∀ e ∈ es, OpensElement e) :
    Displaced (placeAll index es l) i := by
  induction es generalizing index l with
  | nil => exact h
  | cons e es ih =>
    rw [List.length_cons] at hes
    obtain ⟨he, hopens⟩ := List.forall_mem_cons.mp hopens
    rw [Compile.placeAll]
    cases hl : Compile.place? (placeholder index) e l with
    | none => exact ih h (by omega) hopens
    | some l' => exact ih (h.place? (isBlank_placeholder (by omega)) he hl) (by omega) hopens

theorem written_ne (h : Displaced l i) : written l ≠ written i := by
  obtain ⟨front, c, b, b', hc, rfl, rfl⟩ := h
  intro heq
  have hchar : (Piece.char c).written = identifier .literal c := by simp [Piece.written, hc]
  rw [written_append, written_append, List.append_cancel_left_eq, written_cons, written_cons, hchar] at heq
  have hthird : some 'm' = some 'i' := congrArg (·[2]?) heq
  exact absurd hthird (by decide)

end Displaced

/-! ## When a row is placed as intended -/

/-- The pieces are as intended if the condition holds, and otherwise an element is displaced. -/
def PlacedIff (p : Prop) (actual intended : List Piece) : Prop :=
  (p ∧ actual = intended) ∨ (¬p ∧ Displaced actual intended)

namespace PlacedIff

variable {p q : Prop} {l l' i i' : List Piece}

theorem refl (l : List Piece) : PlacedIff True l l :=
  .inl ⟨trivial, rfl⟩

theorem eq (h : PlacedIff p l i) (hp : p) : l = i := by
  rcases h with ⟨-, rfl⟩ | ⟨hn, -⟩
  · rfl
  · exact absurd hp hn

theorem append (h : PlacedIff p l i) (h' : PlacedIff q l' i') : PlacedIff (p ∧ q) (l ++ l') (i ++ i') := by
  rcases h with ⟨hp, rfl⟩ | ⟨hp, hd⟩
  · rcases h' with ⟨hq, rfl⟩ | ⟨hq, hd⟩
    · exact .inl ⟨⟨hp, hq⟩, rfl⟩
    · refine .inr ⟨fun h => hq h.2, ?_⟩
      simpa using hd.append l [] []
  · exact .inr ⟨fun h => hp h.1, hd.append [] l' i'⟩

theorem mathPieces (h : PlacedIff p l i) (mode : Mode) :
    PlacedIff p (mathPieces mode l) (mathPieces mode i) := by
  have h := ((refl [.tag (.openMath mode), .tag .openRow]).append h).append
    (refl [.tag .closeRow, .tag .closeMath])
  rwa [true_and, and_true] at h

theorem eq_iff (h : PlacedIff p l i) : written l = written i ↔ p := by
  rcases h with ⟨hp, rfl⟩ | ⟨hp, hd⟩
  · exact iff_of_true rfl hp
  · exact iff_of_false hd.written_ne hp

end PlacedIff

theorem placedIff_multiscriptPieces {p q r : Prop} {base sub sup base' sub' sup' : List Piece}
    (hb : PlacedIff p base base') (hl : PlacedIff q sub sub') (hu : PlacedIff r sup sup') :
    PlacedIff (p ∧ q ∧ r) (multiscriptPieces base sub sup) (multiscriptPieces base' sub' sup') := by
  have h := ((PlacedIff.refl [.tag .openMultiscripts]).append hb).append
    ((PlacedIff.refl [.tag .prescripts]).append
      ((hl.append hu).append (PlacedIff.refl [.tag .closeMultiscripts])))
  simpa only [multiscriptPieces, true_and, and_true, List.append_assoc, List.cons_append,
    List.nil_append] using h

theorem placedIff_argumentPieces {p : Prop} {row : Row} (h : PlacedIff p row.placed row.pieces) :
    PlacedIff p (row.argumentPieces row.placed) (row.argumentPieces row.pieces) := by
  have hp := ((PlacedIff.refl [.tag .openRow, .tag .openRow]).append h).append
    (PlacedIff.refl [.tag .closeRow, .tag .closeRow])
  rw [true_and, and_true] at hp
  cases row with
  | absent =>
    rcases h with ⟨hp, -⟩ | ⟨-, hd⟩
    · exact .inl ⟨hp, rfl⟩
    · exact absurd rfl hd.written_ne
  | nil | literal _ _ | prescript _ _ _ _ => exact hp

/-- The prescripts of a row find their places behind what is already in its place, unless a character there
is the placeholder of one of them. -/
theorem placedIff_placeAll {row : Row} {index : Nat} (hfits : row.FitsFrom placeholderCount index)
    {u : List Piece} {seen : Text} (hu : ∀ c, Piece.char c ∈ u ↔ c ∈ seen) :
    PlacedIff (row.UndisturbedFrom index seen)
      (placeAll index row.elementPieces (u ++ (row.skeleton index).map .char)) (u ++ row.pieces) := by
  -- What is already in its place goes over into `u`, and its characters into `seen`.
  induction row generalizing index u seen with
  | absent | nil => exact .refl _
  | literal c rest ih =>
    have hmem : ∀ d, Piece.char d ∈ u ++ [.char c] ↔ d ∈ seen ++ [c] := by
      intro d
      simp [hu]
    have ih := ih hfits hmem
    rw [List.append_assoc, List.append_assoc] at ih
    exact ih
  | prescript base sub sup rest ihb ihl ihu ihr =>
    obtain ⟨hi, hfb, hfl, hfu, hfr⟩ := hfits
    have hnil : ∀ c, Piece.char c ∈ [] ↔ c ∈ [] := by simp
    have helement := placedIff_multiscriptPieces (placedIff_argumentPieces (ihb hfb hnil))
      (placedIff_argumentPieces (ihl hfl hnil)) (placedIff_argumentPieces (ihu hfu hnil))
    have hlength : index + 1 + rest.elementPieces.length ≤ placeholderCount :=
      length_elementPieces_le hfr hi
    have hopens : ∀ e ∈ rest.elementPieces, OpensElement e := fun _ => opensElement_of_mem
    rw [Row.elementPieces_prescript, placeAll, Row.skeleton, List.map_cons, Row.pieces]
    by_cases hseen : placeholder index ∈ seen
    · refine .inr ⟨fun h => h.1 hseen, Displaced.placeAll ?_ hlength hopens⟩
      obtain ⟨v, w, rfl, hv⟩ := List.eq_append_cons_of_mem ((hu _).mpr hseen)
      rw [List.append_assoc, List.append_assoc, List.cons_append, place?_append hv, Option.getD_some]
      exact displaced_append (isBlank_placeholder hi) ⟨_, rfl⟩ v _ _
    · rw [place?_append (mt (hu _).mp hseen), Option.getD_some]
      rcases helement with ⟨⟨hb, hl, hu'⟩, heq⟩ | ⟨hdisturbed, hd⟩
      · rw [heq]
        have hmem : ∀ c, Piece.char c ∈ u ++ multiscriptPieces (base.argumentPieces base.pieces)
            (sub.argumentPieces sub.pieces) (sup.argumentPieces sup.pieces) ↔
              c ∈ seen ++ (base.literals ++ (sub.literals ++ sup.literals)) := by
          intro c
          simp only [List.mem_append, hu, char_mem_multiscriptPieces,
            char_mem_argumentPieces char_mem_pieces]
        have ih := ihr hfr hmem
        rw [List.append_assoc, List.append_assoc] at ih
        rcases ih with ⟨hr, h⟩ | ⟨hr, h⟩
        · exact .inl ⟨⟨hseen, hb, hl, hu', hr⟩, h⟩
        · exact .inr ⟨fun h => hr h.2.2.2.2, h⟩
      · refine .inr ⟨?_, Displaced.placeAll (hd.append u _ _) hlength hopens⟩
        rintro ⟨-, hb, hl, hu', -⟩
        exact hdisturbed ⟨hb, hl, hu'⟩

/-! ## Sources -/

theorem placedIff_mathPieces {row : Row} (hfits : row.Fits placeholderCount) (mode : Mode) :
    PlacedIff (row.UndisturbedFrom 0 []) (mathPieces mode row.placed) (mathPieces mode row.pieces) := by
  have hnil : ∀ c, Piece.char c ∈ [] ↔ c ∈ [] := by simp
  exact (placedIff_placeAll hfits hnil).mathPieces mode

/-- A source is compiled as it is to be exactly if no prescript has its placeholder among the literals before
it. -/
theorem compileSource_eq_intended_iff (source : Text) (mode : Mode) (t : Trace) :
    (outcome (compileSource literalEngine source mode) t).1 = intended source mode ↔
      Undisturbed source := by
  rw [intended, Undisturbed]
  split
  · next hfits =>
    rw [delivers_compileSource hfits mode t, Except.ok.injEq, ← written_mathPieces_pieces,
      (placedIff_mathPieces hfits mode).eq_iff, imp_iff_right hfits]
  · next hfits => exact iff_of_true (compileSource_of_not_fits hfits mode t) fun h => absurd h hfits

end Formula.Compile
