import Formula.Proofs.Compile.Plain

/-! # Markup in pieces

An engine that writes every character as it stands gives markup that is a list of pieces: tags, and identifiers
that hold one character each. An element goes into the place of the first identifier that holds the character
of its placeholder, and no tag is mistaken for such an identifier. So the markup of a source is told by its row
and by where the first of the pieces stand.
-/

namespace Formula.Compile

open Tex Text

/-- Every character is written as such, as far as it has no meaning in markup. -/
def literalEngine : Engine Text :=
  plainEngine fun _ _ => .literal

inductive MarkupTag
  | openMath (mode : Mode)
  | closeMath
  | openRow
  | closeRow
  | openMultiscripts
  | closeMultiscripts
  | prescripts
  | absent
  deriving DecidableEq, Repr

namespace MarkupTag

def body : MarkupTag → Text
  | openMath mode => "math".toList ++ displayAttribute mode
  | closeMath => "/math".toList
  | openRow => "mrow".toList
  | closeRow => "/mrow".toList
  | openMultiscripts => "mmultiscripts".toList
  | closeMultiscripts => "/mmultiscripts".toList
  | prescripts => "mprescripts/".toList
  | absent => "none/".toList

theorem not_mem_body (t : MarkupTag) : '<' ∉ t.body ∧ '>' ∉ t.body := by
  cases t with
  | openMath mode => cases mode <;> decide
  | _ => decide

end MarkupTag

inductive Piece
  | char (c : Char)
  | tag (t : MarkupTag)
  deriving DecidableEq, Repr

/-- A blank leaves no identifier. -/
def Piece.written : Piece → Text
  | char c => if isBlank c then [] else identifier .literal c
  | tag t => '<' :: (t.body ++ ['>'])

def written (l : List Piece) : Text :=
  l.flatMap Piece.written

@[simp] theorem written_nil : written [] = [] := rfl

@[simp] theorem written_cons (p : Piece) (l : List Piece) : written (p :: l) = p.written ++ written l := by
  simp [written]

@[simp] theorem written_append (l l' : List Piece) : written (l ++ l') = written l ++ written l' := by
  simp [written]

/-- The pieces with others in the place of the first one that holds this character. -/
def place? (c : Char) (element : List Piece) : List Piece → Option (List Piece)
  | [] => none
  | p :: l => if p = .char c then some (element ++ l) else (place? c element l).map (p :: ·)

def placeAll (index : Nat) : List (List Piece) → List Piece → List Piece
  | [], l => l
  | e :: es, l => placeAll (index + 1) es ((place? (placeholder index) e l).getD l)

def mathPieces (mode : Mode) (content : List Piece) : List Piece :=
  [.tag (.openMath mode), .tag .openRow] ++ content ++ [.tag .closeRow, .tag .closeMath]

def multiscriptPieces (base sub sup : List Piece) : List Piece :=
  .tag .openMultiscripts :: (base ++ .tag .prescripts :: (sub ++ sup ++ [.tag .closeMultiscripts]))

namespace Row

def argumentPieces (row : Row) (content : List Piece) : List Piece :=
  match row with
  | absent => [.tag .absent]
  | _ => [.tag .openRow, .tag .openRow] ++ content ++ [.tag .closeRow, .tag .closeRow]

/-- The pieces that go in for the prescripts of a row. -/
def elementPieces : Row → List (List Piece)
  | absent => []
  | nil => []
  | literal _ rest => rest.elementPieces
  | prescript base sub sup rest =>
    multiscriptPieces
        (base.argumentPieces (placeAll 0 base.elementPieces ((base.skeleton 0).map .char)))
        (sub.argumentPieces (placeAll 0 sub.elementPieces ((sub.skeleton 0).map .char)))
        (sup.argumentPieces (placeAll 0 sup.elementPieces ((sup.skeleton 0).map .char))) ::
      rest.elementPieces

def placed (row : Row) : List Piece :=
  placeAll 0 row.elementPieces ((row.skeleton 0).map .char)

theorem elementPieces_prescript (base sub sup rest : Row) :
    (prescript base sub sup rest).elementPieces =
      multiscriptPieces (base.argumentPieces base.placed) (sub.argumentPieces sub.placed)
        (sup.argumentPieces sup.placed) :: rest.elementPieces :=
  rfl

end Row

/-! ## Places -/

section Place

variable {c : Char} {e l l' : List Piece}

theorem place?_of_not_mem (h : Piece.char c ∉ l) : place? c e l = none := by
  induction l with
  | nil => rfl
  | cons p l ih =>
    rw [place?, if_neg (List.ne_of_not_mem_cons h).symm, ih (List.not_mem_of_not_mem_cons h)]
    rfl

theorem place?_append (h : Piece.char c ∉ l) (l' : List Piece) :
    place? c e (l ++ .char c :: l') = some (l ++ (e ++ l')) := by
  induction l with
  | nil => exact if_pos rfl
  | cons p l ih =>
    rw [List.cons_append, place?, if_neg (List.ne_of_not_mem_cons h).symm,
      ih (List.not_mem_of_not_mem_cons h)]
    rfl

theorem place?_append_of_not_mem (h : Piece.char c ∉ l') :
    place? c e (l ++ l') = (place? c e l).map (· ++ l') := by
  by_cases hl : Piece.char c ∈ l
  · obtain ⟨u, v, rfl, hu⟩ := List.eq_append_cons_of_mem hl
    rw [place?_append hu, List.append_assoc, List.cons_append, place?_append hu]
    simp
  · rw [place?_of_not_mem hl, place?_of_not_mem (List.not_mem_append hl h)]
    rfl

theorem placeAll_mathPieces (index : Nat) (es : List (List Piece)) (mode : Mode) (l : List Piece) :
    placeAll index es (mathPieces mode l) = mathPieces mode (placeAll index es l) := by
  induction es generalizing index l with
  | nil => rfl
  | cons e es ih =>
    have hplace : place? (placeholder index) e (mathPieces mode l) =
        (place? (placeholder index) e l).map (mathPieces mode) := by
      have hend : Piece.char (placeholder index) ∉ [Piece.tag .closeRow, .tag .closeMath] := by simp
      rw [mathPieces, place?_append_of_not_mem hend]
      simp only [List.cons_append, List.nil_append, place?, reduceCtorEq, if_false, Option.map_map]
      rfl
    rw [placeAll, hplace, placeAll, ← ih]
    cases place? (placeholder index) e l <;> rfl

end Place

/-! ## Places in markup -/

theorem head?_written {l : List Piece} : written l = [] ∨ (written l).head? = some '<' := by
  induction l with
  | nil => exact .inl rfl
  | cons p l ih =>
    cases p with
    | tag t => exact .inr rfl
    | char c =>
      rw [written_cons, Piece.written]
      split
      · exact ih
      · exact .inr rfl

theorem afterHolder?_last_tag {index : Nat} {body : Text} (hb : '>' ∉ body) :
    afterHolder? index ('<' :: (body ++ ['>'])) = none := by
  have ho : after? ['<'] ('<' :: (body ++ ['>'])) = some (body ++ ['>']) := rfl
  have hc : after? ['>'] ['>'] = some [] := rfl
  have hp : afterPlaceholder? index (skipBlanks []) = none := rfl
  simp only [afterHolder?, ho, dropWhile_tag hb, hc, hp, Option.bind_eq_bind, Option.bind_some,
    Option.bind_none, ite_self]

theorem fill?_tag_append {index : Nat} (hi : index < placeholderCount) {body : Text}
    (ho : '<' ∉ body) (hc : '>' ∉ body) (e : Text) (l : List Piece) :
    fill? index e ('<' :: (body ++ ['>']) ++ written l) =
      (fill? index e (written l)).map ('<' :: (body ++ ['>']) ++ ·) := by
  have hnone : afterHolder? index ('<' :: (body ++ ['>'] ++ written l)) = none := by
    rcases head?_written (l := l) with hw | hw
    · rw [hw, List.append_nil]
      exact afterHolder?_last_tag hc
    · obtain ⟨r, hr⟩ := exists_of_head? hw
      rw [hr, List.append_assoc]
      exact afterHolder?_tag hi hc r
  exact fill?_open_append hnone (by simpa using ho)

theorem fill?_identifier_append {index : Nat} (hi : index < placeholderCount) {c : Char}
    (hc : isBlank c = false) (e : Text) (l : List Piece) :
    fill? index e (identifier .literal c ++ written l) =
      if c = placeholder index then some (e ++ written l)
      else (fill? index e (written l)).map (identifier .literal c ++ ·) := by
  have hholder := afterHolder?_identifier hi .literal hc (written l)
  split
  · next heq =>
    rw [if_pos heq] at hholder
    obtain ⟨r, hr⟩ : ∃ r, identifier .literal c ++ written l = '<' :: r := ⟨_, rfl⟩
    rw [hr] at hholder ⊢
    simp only [fill?, hholder]
  · next hne =>
    have hcut : identifier .literal c =
        '<' :: ("mi>".toList ++ Spelling.literal.write c) ++ '<' :: ("/mi".toList ++ ['>']) := by
      simp [identifier]
    have hm : '<' ∉ "mi>".toList ++ Spelling.literal.write c := by
      simpa using not_mem_write .literal c
    rw [if_neg hne, hcut, List.append_assoc] at hholder
    rw [hcut, List.append_assoc, List.cons_append, fill?_open_append hholder hm,
      fill?_tag_append hi (by decide) (by decide), Option.map_map]
    congr 1
    funext x
    simp

theorem fill?_written {index : Nat} (hi : index < placeholderCount) (e l : List Piece) :
    fill? index (written e) (written l) = (place? (placeholder index) e l).map written := by
  induction l with
  | nil => rfl
  | cons p l ih =>
    cases p with
    | tag t =>
      obtain ⟨ho, hc⟩ := t.not_mem_body
      rw [written_cons, place?, if_neg (by simp), Option.map_map, Piece.written,
        fill?_tag_append hi ho hc, ih, Option.map_map]
      rfl
    | char c =>
      simp only [written_cons, place?, Piece.written, Piece.char.injEq]
      split
      · next hblank =>
        have hne : c ≠ placeholder index := by
          rintro rfl
          simp [isBlank_placeholder hi] at hblank
        rw [if_neg hne, List.nil_append, ih, Option.map_map]
        congr 1
        funext x
        simp [Piece.written, hblank]
      · next hblank =>
        have hblank : isBlank c = false := by simpa using hblank
        rw [fill?_identifier_append hi hblank, ih, Option.map_map]
        split
        · simp
        · rw [Option.map_map]
          congr 1
          funext x
          simp [Piece.written, hblank]

/-- The texts of elements go where the elements go. -/
theorem fillAll_written {index : Nat} {es : List (List Piece)} (h : index + es.length ≤ placeholderCount)
    (l : List Piece) :
    (fillAll index (es.map written) (written l)).1 = written (placeAll index es l) := by
  induction es generalizing index l with
  | nil => rfl
  | cons e es ih =>
    rw [List.length_cons] at h
    have ih : ∀ l, (fillAll (index + 1) (es.map written) (written l)).1 =
        written (placeAll (index + 1) es l) := ih (by omega)
    rw [List.map_cons, fillAll, fill?_written (by omega), placeAll]
    cases place? (placeholder index) e l with
    | none => exact ih l
    | some l' => exact ih l'

/-! ## Pieces of the answers -/

theorem identifiers_literal (position : Nat) (t : Text) :
    identifiers (fun _ => .literal) position t = written (t.map .char) := by
  induction t generalizing position with
  | nil => rfl
  | cons c t ih => rw [identifiers, ih, List.map_cons, written_cons, Piece.written]

theorem written_mathPieces (mode : Mode) (l : List Piece) :
    written (mathPieces mode l) = mathElement mode (written l) := by
  have ho : (Piece.tag (.openMath mode)).written = openMath mode := by cases mode <;> rfl
  have hor : (Piece.tag .openRow).written = "<mrow>".toList := rfl
  have hcr : (Piece.tag .closeRow).written = "</mrow>".toList := rfl
  have hc : (Piece.tag .closeMath).written = "</math>".toList := rfl
  unfold mathElement mrow
  simp only [mathPieces, written_append, written_cons, written_nil, ho, hor, hcr, hc, List.append_assoc,
    List.append_nil]

theorem written_multiscriptPieces (base sub sup : List Piece) :
    written (multiscriptPieces base sub sup) =
      multiscripts (written base) (written sub) (written sup) := by
  have ho : (Piece.tag .openMultiscripts).written = "<mmultiscripts>".toList := rfl
  have hm : (Piece.tag .prescripts).written = "<mprescripts/>".toList := rfl
  have hc : (Piece.tag .closeMultiscripts).written = "</mmultiscripts>".toList := rfl
  unfold multiscripts
  simp only [multiscriptPieces, written_append, written_cons, written_nil, ho, hm, hc,
    List.append_assoc, List.append_nil]

theorem written_argumentPieces (row : Row) (l : List Piece) :
    written (row.argumentPieces l) = row.argumentElement (written l) := by
  have ha : written [.tag .absent] = absentMarkup := rfl
  have ho : (Piece.tag .openRow).written = "<mrow>".toList := rfl
  have hc : (Piece.tag .closeRow).written = "</mrow>".toList := rfl
  have hp : written ([.tag .openRow, .tag .openRow] ++ l ++ [.tag .closeRow, .tag .closeRow]) =
      mrow (mrow (written l)) := by
    unfold mrow
    simp only [written_append, written_cons, written_nil, ho, hc, List.append_assoc, List.append_nil]
  cases row with
  | absent => exact ha
  | nil | literal _ _ | prescript _ _ _ _ => exact hp

theorem argumentMarkup_mathPieces (l : List Piece) :
    argumentMarkup (written (mathPieces .inline l)) = mrow (mrow (written l)) := by
  have h : mathContent? (mathElement .inline (written l)) = some (mrow (written l)) :=
    mathContent?_mathElement _ _
  rw [written_mathPieces]
  exact congrArg (fun o => mrow (o.getD (mathElement .inline (written l)))) h

theorem length_elementPieces_le {row : Row} {bound index : Nat} (h : row.FitsFrom bound index)
    (hi : index ≤ bound) : index + row.elementPieces.length ≤ bound := by
  induction row generalizing index with
  | absent | nil => exact hi
  | literal _ _ ih => exact ih h hi
  | prescript _ _ _ _ _ _ _ ih =>
    obtain ⟨hlt, -, -, -, hrest⟩ := h
    have ih := ih hrest hlt
    rw [Row.elementPieces, List.length_cons]
    omega

/-! ## Runs -/

def Delivers {α : Type} (x : Run α) (a : α) : Prop :=
  ∀ t, (outcome x t).1 = .ok a

namespace Delivers

variable {α β : Type}

theorem pure (a : α) : Delivers (pure a : Run α) a :=
  fun _ => rfl

theorem bind {x : Run α} {k : α → Run β} {a : α} {b : β} (hx : Delivers x a) (hk : Delivers (k a) b) :
    Delivers (x >>= k) b := by
  intro t
  have ha := hx t
  rw [outcome_bind]
  generalize outcome x t = r at ha
  obtain ⟨result, t'⟩ := r
  obtain rfl : result = .ok a := ha
  exact hk t'

theorem map {x : Run α} {a : α} (hx : Delivers x a) (f : α → β) :
    Delivers (do return f (← x)) (f a) :=
  hx.bind (pure (f a))

end Delivers

theorem delivers_compileWith {row : Row} (hfits : row.Fits placeholderCount) (mode : Mode) :
    Delivers (row.compileWith literalEngine mode (row.elementPieces.map written))
      (written (mathPieces mode row.placed)) := by
  have hlength : 0 + row.elementPieces.length ≤ placeholderCount :=
    length_elementPieces_le hfits (Nat.zero_le _)
  have hfill : (fillAll 0 (row.elementPieces.map written) (mathElement mode
      (identifiers (fun _ => .literal) 0 (row.skeleton 0)))).1 = written (mathPieces mode row.placed) := by
    rw [identifiers_literal, ← written_mathPieces, fillAll_written hlength, placeAll_mathPieces]
    rfl
  intro t
  rw [Row.compileWith, outcome_bind, outcome_ask]
  simp only [literalEngine, plainEngine]
  rw [outcome_bind, outcome_report]
  exact congrArg Except.ok hfill

theorem delivers_argumentWith {row : Row} (hfits : row.Fits placeholderCount)
    {elements : Run (List Text)} (he : Delivers elements (row.elementPieces.map written)) :
    Delivers (row.argumentWith literalEngine elements) (written (row.argumentPieces row.placed)) := by
  have hp : Delivers (do
      let markup ← row.compileWith literalEngine .inline (← elements)
      return argumentMarkup markup) (mrow (mrow (written row.placed))) := by
    rw [← argumentMarkup_mathPieces]
    exact he.bind ((delivers_compileWith hfits .inline).map argumentMarkup)
  rw [written_argumentPieces]
  cases row with
  | absent => exact Delivers.pure _
  | nil | literal _ _ | prescript _ _ _ _ => exact hp

theorem delivers_elements {row : Row} {index : Nat} (hfits : row.FitsFrom placeholderCount index) :
    Delivers (row.elements literalEngine index) (row.elementPieces.map written) := by
  induction row generalizing index with
  | absent | nil => exact Delivers.pure _
  | literal _ _ ih => exact ih hfits
  | prescript base sub sup rest ihb ihl ihu ihr =>
    obtain ⟨hi, hb, hl, hu, hr⟩ := hfits
    rw [Row.elements, if_neg (Nat.not_le.mpr hi), Row.elementPieces_prescript, List.map_cons,
      written_multiscriptPieces]
    exact (delivers_argumentWith hb (ihb hb)).bind <|
      (delivers_argumentWith hl (ihl hl)).bind <|
        (delivers_argumentWith hu (ihu hu)).bind <|
          (ihr hr).map _

/-- The markup of a source is that of its row, with the elements in the places they find. -/
theorem delivers_compileSource {source : Text} (hfits : (Row.ofSource source).Fits placeholderCount)
    (mode : Mode) : Delivers (compileSource literalEngine source mode)
      (written (mathPieces mode (Row.ofSource source).placed)) :=
  (delivers_elements hfits).bind (delivers_compileWith hfits mode)

/-- Without placeholders for all prescripts of a level nothing is delivered. -/
theorem compileSource_of_not_fits {source : Text}
    (hfits : ¬(Row.ofSource source).Fits placeholderCount) (mode : Mode) (t : Trace) :
    (outcome (compileSource literalEngine source mode) t).1 = .error .noPlaceholder := by
  obtain ⟨reach, -, -, s, hs, -, hmisfit⟩ := exists_reach (Row.ofSource source) mode
  obtain ⟨rest, rfl⟩ := hmisfit hfits
  have hplays : Plays literalEngine (compileSource literalEngine source mode) _ :=
    plays_compileSource source mode
  rw [hs] at hplays
  have hanswers : AnswersFirst literalEngine t.calls ((Row.ofSource source).calls mode) reach :=
    fun _ _ _ _ => ⟨_, rfl⟩
  exact eq_error_of_failure? (hplays.of_answersFirst hanswers).2

end Formula.Compile
