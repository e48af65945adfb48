import Formula.Proofs.Tex.Nesting

/-! # Environments around prescripts

Gathering the prescripts of a nested text keeps it nested exactly if no mark is taken into one of them.
The names of environments are groups like others, and may themselves hold left scripts. As the content
of a group is split in one way wherever it stands, the two names of an environment stay equal.
-/

namespace Formula.Tex

open Text

section Gather

variable {before t rest : Text}

theorem balanced_gatherBehind (h : Balanced t) : Balanced (gatherBehind before t) := by
  have hr : BraceWalk.start.run (gatherBehind before t) = BraceWalk.start.run t :=
    run_segmentsBehind rfl h.paired
  rw [balanced_iff] at h ⊢
  unfold WellNested netDepth Paired at h ⊢
  rwa [hr]

theorem leadingScripts?_eq_none {c : Char} {r : Text} (hc : c ≠ '{') (hm : isMarker c = false) :
    leadingScripts? before (c :: r) = none := by
  simp [leadingScripts?, leadIn?, after?, hc.symm, opensScript, hm]

theorem gatherBehind_cons (before : Text) {c : Char} {r : Text} (hb : c ≠ '\\') (hc : c ≠ '{')
    (hm : isMarker c = false) :
    gatherBehind before (c :: r) = c :: gatherBehind (c :: before) r :=
  (ReadsSegment.char hb (leadingScripts?_eq_none hc hm)).gatherBehind_eq

theorem gatherBehind_blanks (before : Text) {gap : Text} (hg : allBlank gap = true) :
    gatherBehind before (gap ++ t) = gap ++ gatherBehind (gap.reverse ++ before) t := by
  induction gap generalizing before with
  | nil => rfl
  | cons c gap ih =>
    have hc : isBlank c = true := List.all_eq_true.mp hg c List.mem_cons_self
    have hg' : allBlank gap = true :=
      List.all_eq_true.mpr fun d hd => List.all_eq_true.mp hg d (List.mem_cons_of_mem _ hd)
    obtain ⟨hb, ho, -⟩ := ne_of_isBlank hc
    rw [List.cons_append, gatherBehind_cons before hb ho (isMarker_of_isBlank hc), ih _ hg']
    simp

theorem gatherBehind_braced (before : Text) {e r : Text} (he : Balanced e) (hne : e ≠ []) :
    ∃ b, gatherBehind before (braced e ++ r) =
      braced (gatherBehind ['{'] e) ++ gatherBehind b r := by
  obtain ⟨c, u, rfl⟩ := List.exists_cons_of_ne_nil hne
  have hc : c ≠ '}' := by
    rintro rfl
    simpa using closing_shut_iff.mp (show Closing 0 _ from he)
  have hl : leadingScripts? before ('{' :: (c :: u ++ '}' :: r)) = none := by
    simp [leadingScripts?, leadIn?, after?, hc.symm, opensScript, isMarker, Marker.ofChar?]
  have ho := (ReadsSegment.char (by decide) hl).gatherBehind_eq
  have hs := segmentsBehind_append_shut (u := []) before r he.inner
  have hb : braced (c :: u) ++ r = '{' :: (c :: u ++ '}' :: r) := by simp [braced]
  refine ⟨'}' :: ((c :: u).reverse ++ '{' :: before), ?_⟩
  rw [hb, ho]
  unfold gatherBehind
  simp only [List.nil_append, List.reverse_singleton, List.singleton_append] at hs ⊢
  rw [hs, List.flatMap_append]
  have hz := gatherBehind_cons ((c :: u).reverse ++ [] ++ '{' :: before) (c := '}') (r := r)
    (by decide) (by decide) (by decide)
  unfold gatherBehind at hz
  rw [hz]
  simp [braced, Segment.written]

theorem environmentName?_gatherBehind {e : Text} (h : environmentName? t = some e) :
    environmentName? (gatherBehind before t) = some (gatherBehind ['{'] e) := by
  obtain ⟨hne, hb, r, hr⟩ := environmentName?_eq_some_iff.mp h
  have hg : allBlank (t.takeWhile isBlank) = true := List.all_takeWhile
  rw [environmentName?_eq_some_iff]
  refine ⟨gatherBehind_ne_nil hne, balanced_gatherBehind hb, ?_⟩
  rw [← takeWhile_isBlank_append_skipBlanks t, gatherBehind_blanks before hg, hr]
  obtain ⟨b, hb⟩ := gatherBehind_braced ((t.takeWhile isBlank).reverse ++ before) (r := r) hb hne
  rw [hb]
  refine ⟨gatherBehind b r, ?_⟩
  rw [skipBlanks, List.dropWhile_append_of_pos (List.all_eq_true.mp hg)]
  rfl

end Gather

/-- The scope with its name as it is after the prescripts are gathered. -/
def Scope.renamed : Scope → Scope
  | group => group
  | environment name => environment (gatherBehind ['{'] name)

section Steps

variable {before t source rest : Text} {stack out : List Scope}

theorem Scope.afterChar_renamed {c : Char} {stack stack' : List Scope}
    (h : afterChar c stack = some stack') :
    afterChar c (stack.map renamed) = some (stack'.map renamed) := by
  unfold afterChar at h ⊢
  split_ifs at h ⊢
  · rw [← Option.some.inj h]
    rfl
  · match stack with
    | group :: stack =>
      rw [← Option.some.inj h]
      rfl
  · rw [Option.some.inj h]

theorem Scope.afterControl_renamed {name x : Text} {stack stack' : List Scope}
    (hx : ∀ e, environmentName? rest = some e →
      environmentName? x = some (gatherBehind ['{'] e))
    (h : afterControl name rest stack = some stack') :
    afterControl name x (stack.map renamed) = some (stack'.map renamed) := by
  unfold afterControl at h ⊢
  split_ifs at h ⊢
  · obtain ⟨e, he, rfl⟩ := Option.map_eq_some_iff.mp h
    rw [hx e he]
    rfl
  · split at h
    · next e e' stack he =>
      split_ifs at h with hee
      rw [hx e he, ← Option.some.inj h, hee]
      simp [renamed]
    · simp at h
  · rw [Option.some.inj h]

theorem scopes_control_renamed {name : Text} (b : Text)
    (h : control? (name ++ rest) = some (name, rest))
    (hf : scopes stack (name ++ rest) = some out) :
    ∃ stack', scopes stack' rest = some out ∧
      scopes (stack.map Scope.renamed) (name ++ gatherBehind b rest) =
        scopes (stack'.map Scope.renamed) (gatherBehind b rest) := by
  rw [scopes_control h] at hf
  obtain ⟨stack', hs, hf⟩ := Option.bind_eq_some_iff.mp hf
  have h' := control?_append_of_opensLetter h (x := gatherBehind b rest) opensLetter_of_gatherBehind
  refine ⟨stack', hf, ?_⟩
  rw [scopes_control h',
    Scope.afterControl_renamed (fun e he => environmentName?_gatherBehind he) hs, Option.bind_some]

theorem TakesScripts.scopes_renamed {l : List Script} (b : Text)
    (h : TakesScripts l (source ++ rest) rest) (hf : scopes stack (source ++ rest) = some out) :
    ∃ stack', scopes stack' rest = some out ∧
      scopes (stack.map Scope.renamed) (source ++ gatherBehind b rest) =
        scopes (stack'.map Scope.renamed) (gatherBehind b rest) := by
  cases h with
  | nested _ hp =>
    obtain ⟨s, e, hs⟩ := hp
    obtain rfl := List.append_cancel_right e
    exact ⟨stack, by rwa [hs rest id] at hf, hs _ opensLetter_of_gatherBehind _⟩
  | mark _ _ hp =>
    obtain ⟨s, mark, e, hs, hc, -, -⟩ := hp
    rw [← List.append_assoc] at e
    obtain rfl := List.append_cancel_right e
    rw [List.append_assoc, hs _ id] at hf
    obtain ⟨stack', hf', hr⟩ := scopes_control_renamed b hc hf
    refine ⟨stack', hf', ?_⟩
    have ho : opensLetter (mark ++ gatherBehind b rest) = true →
        opensLetter (mark ++ rest) = true := by
      cases mark with
      | nil => exact opensLetter_of_gatherBehind
      | cons c mark => exact id
    rw [List.append_assoc, hs _ ho, hr]

theorem Nucleus.isLoose_of_isSizing {n : Nucleus} (h : n.isSizing = true) : n.isLoose = false := by
  cases n with
  | control name argument =>
    have hs : ∀ name ∈ sizing, isMark name = false := by decide
    exact hs name (by simpa [isSizing] using h)
  | _ => simp [isSizing] at h

theorem ReadsSegment.scopes_copied {u : Text} (h : ReadsSegment before t (.copied u) source rest)
    (hf : scopes stack t = some out) :
    ∃ stack', scopes stack' rest = some out ∧
      scopes (stack.map Scope.renamed) (u ++ gatherBehind (source.reverse ++ before) rest) =
        scopes (stack'.map Scope.renamed) (gatherBehind (source.reverse ++ before) rest) := by
  cases h with
  | control h =>
    have e := (eq_append_of_control? h).1
    subst e
    exact scopes_control_renamed _ h hf
  | backslash =>
    rw [scopes_backslash] at hf
    exact ⟨stack, hf ▸ scopes_nil, by simp⟩
  | @char c r hb _ =>
    rw [scopes_char (control?_of_ne hb)] at hf
    obtain ⟨stack', hs, hf⟩ := Option.bind_eq_some_iff.mp hf
    refine ⟨stack', hf, ?_⟩
    rw [List.singleton_append, scopes_char (control?_of_ne hb), Scope.afterChar_renamed hs,
      Option.bind_some]
  | lone hl _ => exact (leadingScripts?_takes hl hf).scopes_renamed _ hf
  | @sizing _ middle _ l a hl ha hz =>
    have hz' := Nucleus.isLoose_of_isSizing hz
    cases leadingScripts?_takes hl hf with
    | nested _ hp =>
      have hf' := hf
      rw [hp.scopes] at hf'
      exact ((atom?_takes ha hz' hf').of_passes hp).scopes_renamed _ hf
    | mark _ _ hp =>
      obtain ⟨content, hn⟩ := hp.nucleus_eq_group ha
      simp [hn, Nucleus.isSizing] at hz

end Steps

/-! ## Captured marks -/

/-- A mark, or the backslash that ends the text, is taken into the prescript. -/
def Captures (l : ScriptPair) (a : Atom) : Prop :=
  (∃ s ∈ l.toList, isMark s.value = true) ∨ a.nucleus.isLoose = true ∨
    ∃ s ∈ a.scripts, isMark s.value = true

/-- No prescript among the segments captures a mark. -/
def Clear (l : List Segment) : Prop :=
  ∀ p a, .prescript p a ∈ l → ¬ Captures p a

def arguments (l : ScriptPair) (a : Atom) : List Text :=
  [side (l.value .sup), side (l.value .sub), a.base]

section Captured

variable {before t source rest : Text} {stack out : List Scope} {l : ScriptPair} {a : Atom}

theorem jointlyNested_side_iff {value : Text} :
    JointlyNested (side value) ↔ JointlyNested value := by
  unfold side
  split
  · next h =>
    rw [h]
    decide +kernel
  · rfl

theorem neutral_spacing_prescript : Neutral (spacing ++ prescript) ['{'] := by
  have hs : Neutral "\\hspace".toList (braced "0pt".toList ++ (prescript ++ ['{'])) :=
    .control (by decide) (by decide)
  have ha : Neutral (braced "0pt".toList) (prescript ++ ['{']) :=
    .braced (by decide) (by decide +kernel)
  have hp : Neutral prescript ['{'] := .control (by decide) (by decide)
  exact hs.append (t := braced "0pt".toList ++ prescript) (ha.append hp)

theorem scopes_prescript (hl : ∀ m, Balanced (l.value m)) (stack : List Scope) (r : Text) :
    scopes stack ((Segment.prescript l a).written ++ r) =
      if JointlyNested (l.value .sup) ∧ JointlyNested (l.value .sub) then
        scopes stack (braced a.base ++ r)
      else none := by
  have e : (Segment.prescript l a).written ++ r =
      (spacing ++ prescript) ++ (braced (side (l.value .sup)) ++
        (braced (side (l.value .sub)) ++ (braced a.base ++ r))) := by
    simp [Segment.written]
  rw [e, neutral_spacing_prescript _ (fun h => by simp [braced, opensLetter] at h),
    scopes_braced (balanced_side (hl .sup)), scopes_braced (balanced_side (hl .sub)), ite_and]
  simp only [jointlyNested_side_iff]

theorem ScriptPair.value_of_mem (hd : ∀ s ∈ l.second, s.marker ≠ l.first.marker) {s : Script}
    (hs : s ∈ l.toList) : l.value s.marker = s.value := by
  unfold ScriptPair.toList at hs
  unfold ScriptPair.value ScriptPair.toList
  rcases List.mem_cons.mp hs with rfl | hs
  · simp
  · have hm := hd s (Option.mem_toList.mp hs)
    have hn : l.second = some s := Option.mem_toList.mp hs
    simp [hn, hm.symm]

variable {middle : Text}

theorem nested_of_not_captures (hl : leadingScripts? before t = some (l, middle))
    (ha : atom? middle = some (a, rest)) (hf : scopes stack t = some out) (hc : ¬ Captures l a) :
    (∀ v ∈ arguments l a, JointlyNested v) ∧ Passes t rest := by
  rw [Captures, not_or, not_or] at hc
  obtain ⟨hc₁, hc₂, hc₃⟩ := hc
  have hn : a.nucleus.isLoose = false := by simpa using hc₂
  cases leadingScripts?_takes hl hf with
  | mark hs hm _ => exact absurd ⟨_, hs, hm⟩ hc₁
  | nested hs hp =>
    have hf' := hf
    rw [hp.scopes] at hf'
    cases atom?_takes ha hn hf' with
    | mark hs hm _ => exact absurd ⟨_, hs, hm⟩ hc₃
    | nested hs' hp' =>
      refine ⟨?_, hp.trans hp'⟩
      have hv : ∀ m, JointlyNested (l.value m) := by
        intro m
        by_cases hm : l.value m = []
        · rw [hm]
          decide +kernel
        · obtain ⟨s, hmem, -, e⟩ := ScriptPair.mem_of_value hm
          rw [e]
          exact (hs s hmem).2
      have hb := (jointlyNested_base_iff ha hn hf').mpr fun s h => (hs' s h).2
      simp [arguments, jointlyNested_side_iff, hv, hb]

theorem scopes_of_not_captures (hl : leadingScripts? before t = some (l, middle))
    (ha : atom? middle = some (a, rest)) (hf : scopes stack t = some out) (hc : ¬ Captures l a)
    (stack' : List Scope) (x : Text) :
    scopes stack' ((Segment.prescript l a).written ++ x) = scopes stack' x := by
  have hv := (nested_of_not_captures hl ha hf hc).1
  simp only [arguments, List.forall_mem_cons, jointlyNested_side_iff] at hv
  obtain ⟨hsup, hsub, hbase, -⟩ := hv
  have hn : a.nucleus ≠ .char '\\' := by
    intro hn
    exact hc (.inr (.inl (by simp [hn, Nucleus.isLoose])))
  rw [scopes_prescript (balanced_of_leadingScripts? hl).1, if_pos ⟨hsup, hsub⟩,
    scopes_braced (balanced_of_atom? ha hn).1, if_pos hbase]

theorem ScriptPair.not_isMark_of_jointlyNested
    (hd : ∀ s ∈ l.second, s.marker ≠ l.first.marker)
    (hv : JointlyNested (l.value .sup) ∧ JointlyNested (l.value .sub)) :
    ∀ s ∈ l.toList, isMark s.value = false := by
  intro s hs
  by_contra hm
  refine not_jointlyNested_of_isMark (by simpa using hm) ?_
  rw [← ScriptPair.value_of_mem hd hs]
  cases s.marker
  · exact hv.2
  · exact hv.1

/-- The backslash that ends the text takes the brace that is to close the base. -/
theorem scopes_braced_backslash (ha : atom? t = some (a, rest)) (hb : a.nucleus = .char '\\')
    (hf : scopes stack t = some out) (b : Text) (stack' : List Scope) :
    out = stack ∧
      scopes stack' (braced a.base ++ gatherBehind b rest) = some (.group :: stack') := by
  obtain ⟨e, hn, rfl⟩ := eq_of_atom?_backslash ha hb
  rw [e, Neutral.blanks t _ id, scopes_backslash] at hf
  refine ⟨(Option.some.inj hf).symm, ?_⟩
  have hbase : a.base = ['\\'] := by simp [Atom.base, hb, hn, Nucleus.written]
  have hc : control? ['\\', '}'] = some (['\\', '}'], []) := rfl
  rw [hbase, gatherBehind_nil, List.append_nil, braced, List.cons_append, scopes_open,
    List.singleton_append, scopes_control hc, Scope.afterControl_of_not_isMark (by decide),
    Option.bind_some, scopes_nil]

theorem not_jointlyNested_base_of_isMark (ha : atom? t = some (a, rest))
    (hb : a.nucleus ≠ .char '\\') (hf : scopes stack t = some out)
    (hc : a.nucleus.isLoose = true ∨ ∃ s ∈ a.scripts, isMark s.value = true) :
    ¬ JointlyNested a.base := by
  cases hl : a.nucleus.isLoose with
  | true =>
    cases hn : a.nucleus with
    | char c =>
      rw [hn] at hb hl
      simp only [Nucleus.isLoose, decide_eq_true_eq] at hl
      exact absurd (by rw [hl]) hb
    | control name argument =>
      rw [hn] at hl
      exact not_jointlyNested_base ha hn hl
    | group content => simp [hn, Nucleus.isLoose] at hl
  | false =>
    obtain ⟨s, hs, hm⟩ := hc.resolve_left (by simp [hl])
    intro hn
    exact not_jointlyNested_of_isMark hm ((jointlyNested_base_iff ha hl hf).mp hn s hs)

theorem scopes_of_captures (b : Text) (hl : leadingScripts? before t = some (l, middle))
    (ha : atom? middle = some (a, rest)) (hf : scopes stack t = some out) (hc : Captures l a) :
    scopes (stack.map Scope.renamed) ((Segment.prescript l a).written ++ gatherBehind b rest) ≠
      some (out.map Scope.renamed) := by
  rw [scopes_prescript (balanced_of_leadingScripts? hl).1]
  split
  · next hv =>
    have hs := ScriptPair.not_isMark_of_jointlyNested (distinct_of_leadingScripts? hl) hv
    have hc' : a.nucleus.isLoose = true ∨ ∃ s ∈ a.scripts, isMark s.value = true := by
      refine hc.resolve_left ?_
      rintro ⟨s, hs', hm⟩
      simp [hs s hs'] at hm
    cases leadingScripts?_takes hl hf with
    | mark hs' hm _ => simp [hs _ hs'] at hm
    | nested _ hp =>
      rw [hp.scopes] at hf
      by_cases hb : a.nucleus = .char '\\'
      · obtain ⟨rfl, he⟩ := scopes_braced_backslash ha hb hf b (stack.map Scope.renamed)
        rw [he]
        intro h
        simpa using congrArg List.length (Option.some.inj h)
      · have hn := not_jointlyNested_base_of_isMark ha hb hf hc'
        rw [scopes_braced (balanced_of_atom? ha hb).1, if_neg hn]
        simp
  · simp

end Captured

/-! ## The rewritten text -/

section Rewritten

variable {before t : Text} {stack out : List Scope}

theorem clear_copied_iff {u : Text} {l : List Segment} : Clear (.copied u :: l) ↔ Clear l := by
  simp [Clear]

theorem clear_prescript_iff {p : ScriptPair} {a : Atom} {l : List Segment} :
    Clear (.prescript p a :: l) ↔ ¬ Captures p a ∧ Clear l := by
  constructor
  · intro h
    exact ⟨h p a List.mem_cons_self, fun q b hm => h q b (List.mem_cons_of_mem _ hm)⟩
  · rintro ⟨hc, hl⟩ q b hm
    rcases List.mem_cons.mp hm with e | hm
    · obtain ⟨rfl, rfl⟩ := Segment.prescript.inj e
      exact hc
    · exact hl q b hm

theorem scopes_gatherBehind (hf : scopes stack t = some out) :
    (scopes (stack.map Scope.renamed) (gatherBehind before t) = some (out.map Scope.renamed) ↔
      Clear (segmentsBehind before t)) ∧
    (Clear (segmentsBehind before t) → ∀ p a, .prescript p a ∈ segmentsBehind before t →
      ∀ v ∈ arguments p a, JointlyNested v) := by
  induction before, t using segmentsBehind_induction generalizing stack with
  | nil before =>
    rw [scopes_nil] at hf
    simp [segmentsBehind, Clear, ← Option.some.inj hf]
  | cons before t s source rest hr e ih =>
    rw [hr.gatherBehind_eq, e]
    cases s with
    | copied u =>
      obtain ⟨stack', hf', hs⟩ := hr.scopes_copied hf
      obtain ⟨hi, hv⟩ := ih hf'
      rw [clear_copied_iff, Segment.written, hs]
      exact ⟨hi, fun hc p a hm => hv hc p a (by simpa using hm)⟩
    | prescript p a =>
      rw [clear_prescript_iff]
      cases hr with
      | prescript hl ha _ =>
        by_cases hc : Captures p a
        · have hn := scopes_of_captures (source.reverse ++ before) hl ha hf hc
          simp [hn, hc]
        · obtain ⟨hv, hp⟩ := nested_of_not_captures hl ha hf hc
          have hf' := hf
          rw [hp.scopes] at hf'
          obtain ⟨hi, hv'⟩ := ih hf'
          rw [scopes_of_not_captures hl ha hf hc, hi]
          refine ⟨by simp [hc], ?_⟩
          rintro ⟨-, hc'⟩ q b hm
          rcases List.mem_cons.mp hm with e | hm
          · obtain ⟨rfl, rfl⟩ := Segment.prescript.inj e
            exact hv
          · exact hv' hc' q b hm

/-- A nested text stays nested exactly if no prescript captures a mark, and then all that is put into
prescripts is nested by itself. -/
theorem jointlyNested_gatherPrescripts_iff (ht : JointlyNested t) :
    (JointlyNested (gatherPrescripts t) ↔ Clear (segments t)) ∧
      (Clear (segments t) → ∀ p a, .prescript p a ∈ segments t →
        ∀ v ∈ arguments p a, JointlyNested v) :=
  scopes_gatherBehind ht

theorem not_jointlyNested_of_spaced_script :
    let t := "\\begin\x7bmatrix\x7d x _2 \\end\x7bmatrix\x7d".toList
    JointlyNested t ∧ ¬ JointlyNested (gatherPrescripts t) := by
  have ht : JointlyNested "\\begin\x7bmatrix\x7d x _2 \\end\x7bmatrix\x7d".toList := by
    decide +kernel
  have hm : .prescript ⟨⟨.sub, ['2']⟩, none⟩ ⟨[' '], .control endMark (some "matrix".toList), []⟩ ∈
      segments "\\begin\x7bmatrix\x7d x _2 \\end\x7bmatrix\x7d".toList := by
    decide +kernel
  refine ⟨ht, ?_⟩
  intro h
  exact (jointlyNested_gatherPrescripts_iff ht).1.mp h _ _ hm (.inr (.inl (by decide)))

end Rewritten

end Formula.Tex
