import Formula.Proofs.Compile.Holder
import Formula.Proofs.Compile.Walk
import Formula.Proofs.Tex.Blanks

/-! # Compiling with a plain engine

A plain engine writes each character that is no blank into an element of its own. Over such an engine
the markup of a source follows the row of the source: a literal is its element, and a prescript is a
multiscript of its arguments, which stands where the prescript stands. No placeholder gets lost, since
those of a row are told apart by their numbers, and the multiscripts that are already in the markup hold
no placeholder of their own.
-/

namespace Formula.Compile

open Tex Text

/-! ## Plain engines -/

/-- The elements of the characters from a position on. -/
def identifiers (spell : Nat → Spelling) (position : Nat) : Text → Text
  | [] => []
  | c :: r => (if isBlank c then [] else identifier (spell position) c) ++
      identifiers spell (position + 1) r

def displayAttribute : Mode → Text
  | .inline => " display=\"inline\"".toList
  | .block => " display=\"block\"".toList

def openMath (mode : Mode) : Text :=
  "<math".toList ++ displayAttribute mode ++ ['>']

def mrow (content : Text) : Text :=
  "<mrow>".toList ++ content ++ "</mrow>".toList

def mathElement (mode : Mode) (content : Text) : Text :=
  openMath mode ++ mrow content ++ "</math>".toList

/-- How the engine spells a character may depend on the call and on the position. -/
def plainEngine (style : Call → Nat → Spelling) : Engine Text :=
  fun _ c => .ok (mathElement c.mode (identifiers (style c) 0 c.source))

/-! ## The markup of a row -/

namespace Row

def argumentElement (row : Row) (content : Text) : Text :=
  match row with
  | absent => absentMarkup
  | _ => mrow (mrow content)

section Content

variable (style : Call → Nat → Spelling)

def content (spell : Nat → Spelling) (position : Nat) : Row → Text
  | absent => []
  | nil => []
  | literal c rest => (if isBlank c then [] else identifier (spell position) c) ++
      rest.content spell (position + 1)
  | prescript base sub sup rest =>
    multiscripts (base.argumentElement (base.content (style ⟨base.skeleton 0, .inline⟩) 0))
        (sub.argumentElement (sub.content (style ⟨sub.skeleton 0, .inline⟩) 0))
        (sup.argumentElement (sup.content (style ⟨sup.skeleton 0, .inline⟩) 0)) ++
      rest.content spell (position + 1)

def argument (row : Row) : Text :=
  row.argumentElement (row.content style (style ⟨row.skeleton 0, .inline⟩) 0)

def multiscriptElements : Row → List Text
  | absent => []
  | nil => []
  | literal _ rest => rest.multiscriptElements
  | prescript base sub sup rest =>
    multiscripts (base.argument style) (sub.argument style) (sup.argument style) ::
      rest.multiscriptElements

def markup (mode : Mode) (row : Row) : Text :=
  mathElement mode (row.content style (style ⟨row.skeleton 0, mode⟩) 0)

end Content

def literals : Row → Text
  | absent => []
  | nil => []
  | literal c rest => c :: rest.literals
  | prescript base sub sup rest => base.literals ++ sub.literals ++ sup.literals ++ rest.literals

end Row

theorem dropSpacing_subset (t : Text) : dropSpacing t ⊆ t := by
  fun_induction dropSpacing t with
  | case1 => exact List.Subset.refl _
  | case2 c r rest h ih =>
    rw [after?_eq_some_iff.mp h]
    exact List.Subset.trans ih (List.subset_append_right _ _)
  | case3 c r h ih => exact List.cons_subset_cons c ih

theorem subset_of_group?_skipBlanks {t u rest : Text} (h : group? (skipBlanks t) = some (u, rest)) :
    u ⊆ t ∧ rest ⊆ t := by
  have hs : braced u ++ rest ⊆ t := eq_append_of_group? h ▸ (skipBlanks_suffix t).subset
  refine ⟨fun c hc => hs ?_, fun c hc => hs (List.mem_append_right _ hc)⟩
  simp [braced, hc]

theorem subset_of_prescript? {t rest : Text} {a : Arguments} (h : prescript? t = some (a, rest)) :
    a.sup ⊆ t ∧ a.sub ⊆ t ∧ a.base ⊆ t ∧ rest ⊆ t := by
  simp only [prescript?, Option.bind_eq_bind, Option.bind_eq_some_iff] at h
  obtain ⟨r, hr, h⟩ := h
  split at h
  · simp at h
  · simp only [Option.bind_eq_some_iff, Prod.exists, Option.pure_def, Option.some.injEq,
      Prod.mk.injEq] at h
    obtain ⟨sup, r₁, h₁, sub, r₂, h₂, base, r₃, h₃, rfl, rfl⟩ := h
    have hr : r ⊆ t := after?_eq_some_iff.mp hr ▸ List.subset_append_right _ _
    obtain ⟨hsup, hr₁⟩ := subset_of_group?_skipBlanks h₁
    obtain ⟨hsub, hr₂⟩ := subset_of_group?_skipBlanks h₂
    obtain ⟨hbase, hr₃⟩ := subset_of_group?_skipBlanks h₃
    have hr₁ := List.Subset.trans hr₁ hr
    have hr₂ := List.Subset.trans hr₂ hr₁
    exact ⟨List.Subset.trans hsup hr, List.Subset.trans hsub hr₁, List.Subset.trans hbase hr₂,
      List.Subset.trans hr₃ hr₂⟩

theorem literals_rowOf_subset (t : Text) : (rowOf t).literals ⊆ t := by
  fun_induction rowOf t with
  | case1 => exact List.Subset.refl _
  | case2 c r h ih =>
    exact List.cons_subset_cons c ih
  | case3 c r a rest h ihb ihl ihu ihr =>
    obtain ⟨hsup, hsub, hbase, hrest⟩ := subset_of_prescript? h
    have hargument : ∀ {u : Text}, (rowOf (dropSpacing u)).literals ⊆ dropSpacing u → u ⊆ c :: r →
        (if isAbsent u then Row.absent else rowOf (dropSpacing u)).literals ⊆ c :: r := by
      intro u hd hu
      split
      · exact List.nil_subset _
      · exact List.Subset.trans (List.Subset.trans hd (dropSpacing_subset u)) hu
    simp only [Row.literals, List.append_subset]
    exact ⟨⟨⟨hargument ihb hbase, hargument ihl hsub⟩, hargument ihu hsup⟩,
      List.Subset.trans ihr hrest⟩

theorem literals_ofSource_subset (t : Text) : (Row.ofSource t).literals ⊆ t :=
  List.Subset.trans (literals_rowOf_subset _) (dropSpacing_subset t)

/-! ## Filling the places -/

theorem inert_openRow : Inert "<mrow>".toList :=
  Inert.tag (show '<' ∉ "mrow".toList by decide) (by decide)

theorem Inert.mrow {u : Text} (h : Inert u) : Inert (mrow u) := by
  have hc : Inert "</mrow>".toList := Inert.tag (show '<' ∉ "/mrow".toList by decide) (by decide)
  exact (inert_openRow.append h).append hc

theorem inert_openMath (mode : Mode) : Inert (openMath mode) := by
  cases mode with
  | inline => exact Inert.tag (show '<' ∉ "math display=\"inline\"".toList by decide) (by decide)
  | block => exact Inert.tag (show '<' ∉ "math display=\"block\"".toList by decide) (by decide)

theorem inert_absentMarkup : Inert absentMarkup :=
  Inert.tag (show '<' ∉ "none/".toList by decide) (by decide)

theorem inert_multiscripts {b l u : Text} (hb : Inert b) (hl : Inert l) (hu : Inert u) :
    Inert (multiscripts b l u) := by
  have ho : Inert "<mmultiscripts>".toList :=
    Inert.tag (show '<' ∉ "mmultiscripts".toList by decide) (by decide)
  have hm : Inert "<mprescripts/>".toList :=
    Inert.tag (show '<' ∉ "mprescripts/".toList by decide) (by decide)
  have hc : Inert "</mmultiscripts>".toList :=
    Inert.tag (show '<' ∉ "/mmultiscripts".toList by decide) (by decide)
  exact ((((ho.append hb).append hm).append hl).append hu).append hc

section Fill

variable {style : Call → Nat → Spelling}

theorem inert_literal (s : Spelling) {c : Char} (h : isPrivateUse c = false) :
    Inert (if isBlank c then [] else identifier s c) := by
  split
  · exact .nil
  · next hb => exact .identifier s (by simpa using hb) h

theorem inert_argumentElement (row : Row) {u : Text} (h : Inert u) :
    Inert (row.argumentElement u) := by
  cases row with
  | absent => exact inert_absentMarkup
  | nil | literal _ _ | prescript _ _ _ _ => exact h.mrow.mrow

theorem inert_content {row : Row} (h : ∀ c ∈ row.literals, isPrivateUse c = false)
    (spell : Nat → Spelling) (position : Nat) : Inert (row.content style spell position) := by
  induction row generalizing spell position with
  | absent | nil => exact .nil
  | literal c rest ih =>
    simp only [Row.literals, List.forall_mem_cons] at h
    exact (inert_literal _ h.1).append (ih h.2 _ _)
  | prescript base sub sup rest ihb ihl ihu ihr =>
    simp only [Row.literals, List.forall_mem_append] at h
    obtain ⟨⟨⟨hb, hl⟩, hu⟩, hr⟩ := h
    refine (inert_multiscripts ?_ ?_ ?_).append (ihr hr _ _)
    · exact inert_argumentElement _ (ihb hb _ _)
    · exact inert_argumentElement _ (ihl hl _ _)
    · exact inert_argumentElement _ (ihu hu _ _)

theorem inert_argument {row : Row} (h : ∀ c ∈ row.literals, isPrivateUse c = false) :
    Inert (row.argument style) :=
  inert_argumentElement row (inert_content h _ _)

/-- The multiscripts of a row find the holders of their placeholders, each behind what is already in its
place. -/
theorem fillAll_identifiers {row : Row} {index : Nat} (hfits : row.FitsFrom privateUseCount index)
    (h : ∀ c ∈ row.literals, isPrivateUse c = false) (spell : Nat → Spelling) (position : Nat)
    {u : Text} (hu : Inert u) (v : Text) :
    fillAll index (row.multiscriptElements style)
        (u ++ (identifiers spell position (row.skeleton index) ++ v)) =
      (u ++ (row.content style spell position ++ v), []) := by
  -- What is already in its place goes over into the inert markup `u`.
  induction row generalizing index position u with
  | absent | nil => rfl
  | literal c rest ih =>
    simp only [Row.literals, List.forall_mem_cons] at h
    have ih := ih hfits h.2 (position + 1) (hu.append (inert_literal (spell position) h.1))
    simpa only [Row.multiscriptElements, Row.skeleton, Row.content, identifiers,
      List.append_assoc] using ih
  | prescript base sub sup rest _ _ _ ih =>
    obtain ⟨hi, -, -, -, hfits⟩ := hfits
    simp only [Row.literals, List.forall_mem_append] at h
    obtain ⟨⟨⟨hb, hl⟩, hsup⟩, hr⟩ := h
    have he : Inert (multiscripts (base.argument style) (sub.argument style) (sup.argument style)) :=
      inert_multiscripts (inert_argument hb) (inert_argument hl) (inert_argument hsup)
    have ih := ih hfits hr (position + 1) (hu.append he)
    have hf := fill?_inert_append hu hi (spell position)
      (multiscripts (base.argument style) (sub.argument style) (sup.argument style))
      (identifiers spell (position + 1) (rest.skeleton (index + 1)) ++ v)
    simp only [Row.multiscriptElements, Row.skeleton, identifiers, isBlank_placeholder (lt_placeholderCount hi),
      Bool.false_eq_true, if_false, List.append_assoc, fillAll]
    rw [hf]
    simpa only [Row.content, Row.argument, List.append_assoc] using ih

theorem fillAll_mathElement {row : Row} (hfits : row.Fits privateUseCount)
    (h : ∀ c ∈ row.literals, isPrivateUse c = false) (spell : Nat → Spelling) (mode : Mode) :
    fillAll 0 (row.multiscriptElements style)
        (mathElement mode (identifiers spell 0 (row.skeleton 0))) =
      (mathElement mode (row.content style spell 0), []) := by
  have ho : Inert (openMath mode ++ "<mrow>".toList) := (inert_openMath mode).append inert_openRow
  have he : ∀ t, mathElement mode t =
      openMath mode ++ "<mrow>".toList ++ (t ++ ("</mrow>".toList ++ "</math>".toList)) := by
    have hassoc : ∀ a b t c d : Text, a ++ (b ++ t ++ c) ++ d = a ++ b ++ (t ++ (c ++ d)) := by simp
    exact fun t => hassoc _ _ t _ _
  rw [he, he]
  exact fillAll_identifiers hfits h spell 0 ho _

end Fill

/-! ## The run -/

/-- The run ends with a value after these calls and reports nothing. -/
def Yields {α : Type} (x : Run α) (a : α) (calls : List Call) : Prop :=
  ∀ t, outcome x t = (.ok a, ⟨t.calls ++ calls, t.log⟩)

namespace Yields

variable {α β : Type}

theorem pure (a : α) : Yields (pure a : Run α) a [] :=
  fun t => by simp

theorem bind {x : Run α} {k : α → Run β} {a : α} {b : β} {calls calls' : List Call}
    (hx : Yields x a calls) (hk : Yields (k a) b calls') :
    Yields (x >>= k) b (calls ++ calls') := by
  intro t
  rw [outcome_bind, hx t]
  simp only
  rw [hk, List.append_assoc]

theorem map {x : Run α} {a : α} {calls : List Call} (hx : Yields x a calls) (f : α → β) :
    Yields (do return f (← x)) (f a) calls :=
  List.append_nil calls ▸ hx.bind (pure (f a))

end Yields

section Runs

variable {style : Call → Nat → Spelling}

theorem yields_compileWith {row : Row} (hfits : row.Fits privateUseCount)
    (h : ∀ c ∈ row.literals, isPrivateUse c = false) (mode : Mode) :
    Yields (row.compileWith (plainEngine style) mode (row.multiscriptElements style))
      (row.markup style mode) [⟨row.skeleton 0, mode⟩] := by
  intro t
  have hf : fillAll 0 (row.multiscriptElements style) _ = _ :=
    fillAll_mathElement hfits h (style ⟨row.skeleton 0, mode⟩) mode
  rw [Row.compileWith, outcome_bind, outcome_ask]
  simp only [plainEngine, hf]
  rw [outcome_bind, outcome_report]
  simp [Trace.call, Trace.report, Row.markup]

theorem before?_append (p t : Text) : before? p (t ++ p) = some t := by
  simp [before?, after?_append]

theorem mathContent?_mathElement (mode : Mode) (content : Text) :
    mathContent? (mathElement mode content) = some (mrow content) := by
  have hword : ∀ t, endsWord (displayAttribute mode ++ t) = true := by
    intro t
    have h : isWord ' ' = false := by decide
    cases mode with
    | inline | block => exact congrArg Bool.not h
  have hd : (displayAttribute mode ++ '>' :: (mrow content ++ "</math>".toList)).dropWhile (· ≠ '>') =
      '>' :: (mrow content ++ "</math>".toList) :=
    dropWhile_ne_append (by cases mode <;> decide) _
  have he : mathElement mode content =
      "<math".toList ++ (displayAttribute mode ++ '>' :: (mrow content ++ "</math>".toList)) := by
    have hassoc : ∀ a b t d : Text, a ++ b ++ ['>'] ++ t ++ d = a ++ (b ++ '>' :: (t ++ d)) := by simp
    exact hassoc _ _ _ _
  have hs : skipBlanks (mathElement mode content) = mathElement mode content := by
    rw [he]
    rfl
  have ht : trimEnd (mrow content ++ "</math>".toList) = mrow content ++ "</math>".toList := by
    have hn : trimEnd "</math>".toList = "</math>".toList := by decide
    rw [trimEnd_append_of_not_blank _ (by decide), hn]
  have hg : after? ['>'] ('>' :: (mrow content ++ "</math>".toList)) =
      some (mrow content ++ "</math>".toList) := rfl
  rw [mathContent?, hs, he, after?_append]
  simp only [Option.bind_eq_bind, Option.bind_some, hword, if_true, hd, hg, ht, before?_append]

theorem argumentMarkup_markup (row : Row) :
    argumentMarkup (row.markup style .inline) =
      mrow (mrow (row.content style (style ⟨row.skeleton 0, .inline⟩) 0)) := by
  have h : mathContent? (row.markup style .inline) =
      some (mrow (row.content style (style ⟨row.skeleton 0, .inline⟩) 0)) :=
    mathContent?_mathElement _ _
  exact congrArg (fun o => mrow (o.getD (row.markup style .inline))) h

theorem yields_argumentWith {row : Row} (hfits : row.Fits privateUseCount)
    (h : ∀ c ∈ row.literals, isPrivateUse c = false) {elements : Run (List Text)}
    (he : Yields elements (row.multiscriptElements style) row.nestedCalls) :
    Yields (row.argumentWith (plainEngine style) elements) (row.argument style)
      (row.argumentCalls row.nestedCalls) := by
  have hp : Yields (do
      let markup ← row.compileWith (plainEngine style) .inline (← elements)
      return argumentMarkup markup)
      (mrow (mrow (row.content style (style ⟨row.skeleton 0, .inline⟩) 0)))
      (row.nestedCalls ++ [⟨row.skeleton 0, .inline⟩]) := by
    rw [← argumentMarkup_markup]
    exact he.bind ((yields_compileWith hfits h .inline).map argumentMarkup)
  cases row with
  | absent => exact Yields.pure _
  | nil | literal _ _ | prescript _ _ _ _ => exact hp

theorem yields_elements {row : Row} {index : Nat} (hfits : row.FitsFrom privateUseCount index)
    (h : ∀ c ∈ row.literals, isPrivateUse c = false) :
    Yields (row.elements (plainEngine style) index) (row.multiscriptElements style)
      row.nestedCalls := by
  induction row generalizing index with
  | absent | nil => exact Yields.pure _
  | literal c rest ih => exact ih hfits fun d hd => h d (List.mem_cons_of_mem c hd)
  | prescript base sub sup rest ihb ihl ihu ihr =>
    obtain ⟨hi, hb, hl, hu, hr⟩ := hfits
    simp only [Row.literals, List.forall_mem_append] at h
    obtain ⟨⟨⟨cb, cl⟩, cu⟩, cr⟩ := h
    have hguard : ¬placeholderCount ≤ index := by
      have hle : privateUseCount ≤ placeholderCount := by decide
      omega
    rw [Row.elements, if_neg hguard, Row.nestedCalls, List.append_assoc, List.append_assoc]
    exact (yields_argumentWith hb cb (ihb hb cb)).bind <|
      (yields_argumentWith hl cl (ihl hl cl)).bind <|
        (yields_argumentWith hu cu (ihu hu cu)).bind <|
          (ihr hr cr).map _

end Runs

/-- Over a plain engine a source without private-use characters is compiled to the markup of its row,
and no placeholder is reported as missing. -/
theorem compileSource_plainEngine (style : Call → Nat → Spelling) (source : Text) (mode : Mode)
    (t : Trace) (hsource : ∀ c ∈ source, isPrivateUse c = false)
    (hfits : (Row.ofSource source).Fits privateUseCount) :
    outcome (compileSource (plainEngine style) source mode) t =
      (.ok ((Row.ofSource source).markup style mode),
        ⟨t.calls ++ (Row.ofSource source).calls mode, t.log⟩) := by
  have h : ∀ c ∈ (Row.ofSource source).literals, isPrivateUse c = false :=
    fun c hc => hsource c (literals_ofSource_subset source hc)
  exact ((yields_elements hfits h).bind (yields_compileWith hfits h mode)) t

/-- A prescript in the base of another one, with spacing before each of the two and a strut for a side. -/
theorem compileSource_plainEngine_of_nested :
    let source := "é\\hspace\x7b0pt\x7d\\prescript\x7b\\mathstrut\x7d\x7bn\x7d\x7b".toList ++
      "\\prescript\x7b<\x7d\x7b\x7d\x7b\\hspace\x7b0pt\x7dH\x7d\x7d".toList
    let style : Call → Nat → Spelling := fun _ k => if k = 0 then .hex 1 else .decimal
    let inner := "<mmultiscripts><mrow><mrow><mi>H</mi></mrow></mrow><mprescripts/><none/>".toList ++
      "<mrow><mrow><mi>&lt;</mi></mrow></mrow></mmultiscripts>".toList
    (∀ c ∈ source, isPrivateUse c = false) ∧ (Row.ofSource source).Fits privateUseCount ∧
      outcome (compileSource (plainEngine style) source .block) .empty =
        (.ok ("<math display=\"block\"><mrow><mi>&#x0E9;</mi><mmultiscripts>".toList ++
            mrow (mrow inner) ++ "<mprescripts/><mrow><mrow><mi>n</mi></mrow></mrow><none/>".toList ++
            "</mmultiscripts></mrow></math>".toList),
          ⟨[⟨"H".toList, .inline⟩, ⟨"<".toList, .inline⟩, ⟨[placeholder 0], .inline⟩,
            ⟨"n".toList, .inline⟩, ⟨['é', placeholder 0], .block⟩], []⟩) := by
  intro source style inner
  have hsource : ∀ c ∈ source, isPrivateUse c = false := by
    have h : source.all (!isPrivateUse ·) = true := by decide +kernel
    simpa using h
  have hfits : (Row.ofSource source).Fits privateUseCount := by decide +kernel
  refine ⟨hsource, hfits, ?_⟩
  rw [compileSource_plainEngine style source .block .empty hsource hfits]
  decide +kernel

end Formula.Compile
