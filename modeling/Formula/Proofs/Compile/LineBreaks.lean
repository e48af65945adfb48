import Formula.Proofs.Compile.Decoding
import Formula.Proofs.Compile.Walk
import Formula.Proofs.Tex.Tokens

/-! # Sources that go to the engine as they are

Spacing and prescripts are looked for by their letters, wherever these stand. A source without them goes to
the engine unchanged, in the one call that is made for it. Otherwise nothing that goes to the engine is as
long as the source. Where neither command is a token of the source, it takes a line break to mistake
something for one: its second backslash, with the letters behind it.
-/

namespace Formula.Compile

open Tex Text

/-- What stands at the front of the text does not go to the engine as it is. -/
def Consumed (t : Text) : Prop :=
  spacing <+: t ∨ (prescript? t).isSome = true

/-! ## Sources without prescripts -/

section Plain

variable {t source : Text}

theorem dropSpacing_eq_self (h : ∀ s, s <:+ t → ¬ spacing <+: s) : dropSpacing t = t := by
  induction t with
  | nil => simp [dropSpacing]
  | cons c r ih =>
    have ha : after? spacing (c :: r) = none := by
      by_contra hn
      obtain ⟨rest, hr⟩ := Option.ne_none_iff_exists'.mp hn
      exact h _ List.suffix_rfl ⟨rest, (after?_eq_some_iff.mp hr).symm⟩
    rw [dropSpacing.eq_def]
    simp only
    split
    · simp_all
    · rw [ih fun s hs => h s (hs.trans (List.suffix_cons c r))]

theorem items_eq_chars (h : ∀ s, s <:+ t → prescript? s = none) : items t = t.map .char := by
  induction t with
  | nil => simp [items]
  | cons c r ih =>
    rw [items_char (h _ List.suffix_rfl), ih fun s hs => h s (hs.trans (List.suffix_cons c r))]
    rfl

theorem ofSource_eq_chars (h : ∀ s, s <:+ t → ¬ Consumed s) :
    Row.ofSource t = Row.ofItems (t.map .char) := by
  have hd : dropSpacing t = t := dropSpacing_eq_self fun s hs hp => h s hs (.inl hp)
  have hi : items t = t.map .char := by
    refine items_eq_chars fun s hs => ?_
    by_contra hn
    exact h s hs (.inr (Option.isSome_iff_ne_none.mpr hn))
  rw [ofSource_eq_ofItems, hd, hi]

theorem skeleton_chars (t : Text) (index : Nat) : (Row.ofItems (t.map .char)).skeleton index = t := by
  induction t with
  | nil => rfl
  | cons c r ih => exact congrArg (c :: ·) ih

theorem elements_chars (engine : Engine Text) (t : Text) (index : Nat) :
    (Row.ofItems (t.map .char)).elements engine index = pure [] := by
  induction t with
  | nil => rfl
  | cons c r ih => exact ih

/-- A source with nothing to consume makes one call, and the answer comes back as it is. -/
theorem outcome_compileSource_of_not_consumed (h : ∀ s, s <:+ source → ¬ Consumed s)
    (engine : Engine Text) (mode : Mode) (t : Trace) :
    outcome (compileSource engine source mode) t =
      (engine t.calls ⟨source, mode⟩, t.call ⟨source, mode⟩) := by
  rw [compileSource, ofSource_eq_chars h, elements_chars, pure_bind, Row.compileWith, skeleton_chars,
    outcome_bind, outcome_ask]
  cases engine t.calls ⟨source, mode⟩ with
  | error failure => rfl
  | ok markup =>
    change outcome ((report [] : Run Unit) >>= fun _ => pure markup) _ = _
    rw [outcome_bind, outcome_report, Trace.report_nil]
    rfl

end Plain

/-! ## Calls for sources with prescripts -/

section Shorter

variable {t source : Text}

theorem length_skeleton (l : List Item) (index : Nat) :
    ((Row.ofItems l).skeleton index).length = l.length := by
  induction l generalizing index with
  | nil => rfl
  | cons i l ih =>
    cases i with
    | char c => exact congrArg (· + 1) (ih index)
    | prescript a => exact congrArg (· + 1) (ih (index + 1))

theorem length_of_prescript? {rest : Text} {a : Arguments} (h : prescript? t = some (a, rest)) :
    rest.length + 1 < t.length := by
  have hp : Tex.prescript.length = 10 := rfl
  simp only [prescript?, Option.bind_eq_bind, Option.bind_eq_some_iff, after?_eq_some_iff] at h
  obtain ⟨r, rfl, h⟩ := h
  split at h
  · cases h
  · simp only [Option.bind_eq_some_iff, Prod.exists, Option.pure_def, Option.some.injEq,
      Prod.mk.injEq] at h
    obtain ⟨_, r₁, h₁, _, r₂, h₂, _, r₃, h₃, -, rfl⟩ := h
    have g₁ := group?_length h₁
    have g₂ := group?_length h₂
    have g₃ := group?_length h₃
    have s₁ := skipBlanks_length_le r
    have s₂ := skipBlanks_length_le r₁
    have s₃ := skipBlanks_length_le r₂
    change r₃.length + 1 < _
    rw [List.length_append]
    omega

theorem length_items_le (t : Text) : (items t).length ≤ t.length := by
  fun_induction items t with
  | case1 => simp
  | case2 c r _ ih => simpa using ih
  | case3 c r a rest h ih =>
    have := length_of_prescript? h
    simp only [List.length_cons] at this ⊢
    omega

theorem length_skeleton_le (t : Text) (index : Nat) : ((rowOf t).skeleton index).length ≤ t.length := by
  rw [rowOf_eq_ofItems, length_skeleton]
  exact length_items_le t

theorem length_items_lt {s : Text} (hs : s <:+ t) (h : (prescript? s).isSome = true) :
    (items t).length < t.length := by
  fun_induction items t with
  | case1 =>
    rw [List.suffix_nil.mp hs] at h
    cases h
  | case2 c r hn ih =>
    rcases List.suffix_cons_iff.mp hs with rfl | hs
    · rw [hn] at h
      cases h
    · simpa using ih hs
  | case3 c r a rest h' _ =>
    have h₁ := length_of_prescript? h'
    have h₂ := length_items_le rest
    simp only [List.length_cons] at h₁ ⊢
    omega

theorem length_dropSpacing_lt {s : Text} (hs : s <:+ t) (h : spacing <+: s) :
    (dropSpacing t).length < t.length := by
  have hpos : spacing.length = 12 := rfl
  fun_induction dropSpacing t with
  | case1 =>
    rw [List.suffix_nil.mp hs] at h
    exact absurd (List.prefix_nil.mp h) (by decide)
  | case2 c r rest hr _ =>
    have hle := dropSpacing_length_le rest
    rw [after?_eq_some_iff.mp hr, List.length_append]
    omega
  | case3 c r hn ih =>
    rcases List.suffix_cons_iff.mp hs with rfl | hs
    · obtain ⟨rest, e⟩ := h
      rw [← e, after?_append] at hn
      cases hn
    · simpa using ih hs

/-- The calls for the arguments of prescripts are shorter than the text with the prescripts. -/
theorem length_of_mem_nestedCalls (t : Text) : ∀ c ∈ (rowOf t).nestedCalls, c.source.length < t.length := by
  have hargument : ∀ {u : Text} {n : Nat}, u.length < n →
      (∀ c ∈ (rowOf (dropSpacing u)).nestedCalls, c.source.length < (dropSpacing u).length) →
      ∀ c ∈ (if isAbsent u then Row.absent else rowOf (dropSpacing u)).argumentCalls
        (if isAbsent u then Row.absent else rowOf (dropSpacing u)).nestedCalls, c.source.length < n := by
    intro u n hu ih c hc
    have hd := dropSpacing_length_le u
    split at hc
    · cases hc
    · unfold Row.argumentCalls at hc
      split at hc
      · cases hc
      · rcases List.mem_append.mp hc with hc | hc
        · exact (ih c hc).trans_le (hd.trans hu.le)
        · rw [List.mem_singleton.mp hc]
          exact ((length_skeleton_le _ 0).trans hd).trans_lt hu
  fun_induction rowOf t with
  | case1 => simp [Row.nestedCalls]
  | case2 c r _ ih =>
    intro d hd
    have := ih d hd
    simp only [List.length_cons]
    omega
  | case3 c r a rest h ihb ihl ihu ihr =>
    have hlt := prescript?_length h
    intro d hd
    simp only [Row.nestedCalls, List.mem_append] at hd
    rcases hd with ((hd | hd) | hd) | hd
    · exact hargument (by omega) ihb d hd
    · exact hargument (by omega) ihl d hd
    · exact hargument (by omega) ihu d hd
    · have := ihr d hd
      omega

/-- Where something is consumed, every call for the source is shorter than the source. -/
theorem length_of_mem_calls {s : Text} (hs : s <:+ source) (h : Consumed s) (mode : Mode) :
    ∀ c ∈ (Row.ofSource source).calls mode, c.source.length < source.length := by
  have hle := dropSpacing_length_le source
  intro c hc
  rcases List.mem_append.mp hc with hc | hc
  · exact (length_of_mem_nestedCalls _ c hc).trans_le hle
  · rw [List.mem_singleton.mp hc]
    by_cases hp : ∃ u, u <:+ source ∧ spacing <+: u
    · obtain ⟨u, hu, hp⟩ := hp
      exact (length_skeleton_le _ 0).trans_lt (length_dropSpacing_lt hu hp)
    · have hd : dropSpacing source = source := dropSpacing_eq_self fun u hu hpu => hp ⟨u, hu, hpu⟩
      have hpre := h.resolve_left fun hps => hp ⟨s, hs, hps⟩
      rw [ofSource_eq_ofItems, hd, length_skeleton]
      exact length_items_lt hs hpre

end Shorter

/-! ## The calls of a run -/

theorem mem_of_mem_play {α : Type} {engine : Engine α} {before : List Call} {steps : List Step} {c : Call}
    (h : c ∈ (play engine before steps).1) : Step.call c ∈ steps := by
  induction steps generalizing before with
  | nil => cases h
  | cons step steps ih =>
    cases step with
    | fail failure => cases h
    | call d =>
      simp only [play] at h
      split at h
      · rcases List.mem_cons.mp h with rfl | h
        · exact List.mem_cons_self
        · exact List.mem_cons_of_mem _ (ih h)
      · rw [List.mem_singleton.mp h]
        exact List.mem_cons_self

theorem mem_nestedCalls_of_step {row : Row} {c : Call} {index : Nat} (h : Step.call c ∈ row.steps index) :
    c ∈ row.nestedCalls := by
  have hargument : ∀ {row : Row}, (∀ {index}, Step.call c ∈ row.steps index → c ∈ row.nestedCalls) →
      Step.call c ∈ row.argumentSteps (row.steps 0) → c ∈ row.argumentCalls row.nestedCalls := by
    intro row ih h
    unfold Row.argumentSteps at h
    unfold Row.argumentCalls
    split at h
    · cases h
    · rcases List.mem_append.mp h with h | h
      · exact List.mem_append_left _ (ih h)
      · obtain rfl := Step.call.inj (List.mem_singleton.mp h)
        exact List.mem_append_right _ (List.mem_singleton.mpr rfl)
  induction row generalizing index with
  | absent | nil => cases h
  | literal _ rest ih => exact ih h
  | prescript base sub sup rest ihb ihl ihu ihr =>
    rw [Row.steps] at h
    simp only [Row.nestedCalls, List.mem_append] at h ⊢
    rcases h with h | h | h | h | h
    · split at h
      · cases List.mem_singleton.mp h
      · cases h
    · exact .inl (.inl (.inl (hargument ihb h)))
    · exact .inl (.inl (.inr (hargument ihl h)))
    · exact .inl (.inr (hargument ihu h))
    · exact .inr (ihr h)

/-- The calls of a run, behind those that were made before. -/
theorem exists_calls (engine : Engine Text) (source : Text) (mode : Mode) (t : Trace) :
    ∃ calls, (outcome (compileSource engine source mode) t).2.calls = t.calls ++ calls ∧
      ∀ c ∈ calls, c ∈ (Row.ofSource source).calls mode := by
  refine ⟨_, (plays_compileSource source mode t).1, fun c hc => ?_⟩
  rcases List.mem_append.mp (mem_of_mem_play hc) with h | h
  · exact List.mem_append_left _ (mem_nestedCalls_of_step h)
  · obtain rfl := Step.call.inj (List.mem_singleton.mp h)
    exact List.mem_append_right _ (List.mem_singleton.mpr rfl)

/-! ## Line breaks -/

/-- What is consumed begins with one of the two commands. -/
theorem Consumed.exists_readsToken {t : Text} (h : Consumed t) :
    ∃ name rest, (name = hspace ∨ name = Tex.prescript) ∧ ReadsToken t name rest := by
  rcases h with ⟨r, rfl⟩ | h
  · have hc : control? (hspace ++ ("\x7b0pt\x7d".toList ++ r)) = some (hspace, _) :=
      control?_of_isWordControl (by decide) rfl
    exact ⟨_, _, .inl rfl, .control hc⟩
  · obtain ⟨⟨a, rest⟩, h'⟩ := Option.isSome_iff_exists.mp h
    simp only [prescript?, Option.bind_eq_bind, Option.bind_eq_some_iff, after?_eq_some_iff] at h'
    obtain ⟨r, rfl, h'⟩ := h'
    split at h'
    · cases h'
    · next ho =>
      have hc : control? (Tex.prescript ++ r) = some (Tex.prescript, r) :=
        control?_of_isWordControl (by decide) (by simpa [opensLetter] using ho)
      exact ⟨_, _, .inr rfl, .control hc⟩

/-- Where neither command is a token, what is consumed has the second backslash of a line break at its
front. -/
theorem Consumed.behind_lineBreak {source s : Text} (hspace : hspace ∉ tokens source)
    (hprescript : Tex.prescript ∉ tokens source) (hs : s <:+ source) (h : Consumed s) :
    ∃ before behind, tokens source = before ++ lineBreak :: behind ∧ s = '\\' :: behind.flatten := by
  obtain ⟨name, rest, hname, hr⟩ := h.exists_readsToken
  have hback : ∃ r, s = '\\' :: r := by
    rw [hr.eq_append]
    rcases hname with rfl | rfl
    · exact ⟨_, rfl⟩
    · exact ⟨_, rfl⟩
  obtain ⟨r, rfl⟩ := hback
  rw [← flatten_tokens source] at hs
  rcases (tokenized_tokens source).at_backslash hs with ⟨u, hu, v, hv⟩ | ⟨before, behind, e, hb⟩
  · obtain ⟨rfl, -⟩ := hv.unique hr
    rcases hname with rfl | rfl
    · exact absurd hu hspace
    · exact absurd hu hprescript
  · exact ⟨before, behind, e, by rw [hb]⟩

theorem suffix_of_lineBreak {source : Text} {before behind : List Text}
    (h : tokens source = before ++ lineBreak :: behind) : '\\' :: behind.flatten <:+ source := by
  have e := flatten_tokens source
  rw [h, List.flatten_append, List.flatten_cons] at e
  exact ⟨before.flatten ++ ['\\'], by rw [← e]; simp [lineBreak]⟩

/-- A source in which neither command is a token goes to the engine as it is, in one call whose answer comes
back unchanged, exactly if no line break is mistaken for the beginning of a command. Otherwise every call
is shorter than the source. -/
theorem compileSource_unchanged_iff {source : Text} (hspace : hspace ∉ tokens source)
    (hprescript : Tex.prescript ∉ tokens source) :
    ((∀ (engine : Engine Text) (mode : Mode) (t : Trace), outcome (compileSource engine source mode) t =
        (engine t.calls ⟨source, mode⟩, t.call ⟨source, mode⟩)) ↔
      ∀ before behind, tokens source = before ++ lineBreak :: behind →
        ¬ Consumed ('\\' :: behind.flatten)) ∧
    ∀ before behind, tokens source = before ++ lineBreak :: behind → Consumed ('\\' :: behind.flatten) →
      ∀ (engine : Engine Text) (mode : Mode) (t : Trace), ∃ calls,
        (outcome (compileSource engine source mode) t).2.calls = t.calls ++ calls ∧
          ∀ c ∈ calls, c.source.length < source.length := by
  have hshorter : ∀ before behind, tokens source = before ++ lineBreak :: behind →
      Consumed ('\\' :: behind.flatten) → ∀ (engine : Engine Text) (mode : Mode) (t : Trace), ∃ calls,
        (outcome (compileSource engine source mode) t).2.calls = t.calls ++ calls ∧
          ∀ c ∈ calls, c.source.length < source.length := by
    intro before behind e h engine mode t
    obtain ⟨calls, hcalls, hmem⟩ := exists_calls engine source mode t
    exact ⟨calls, hcalls, fun c hc => length_of_mem_calls (suffix_of_lineBreak e) h mode c (hmem c hc)⟩
  refine ⟨⟨?_, ?_⟩, hshorter⟩
  · intro h before behind e hconsumed
    obtain ⟨calls, hcalls, hlt⟩ := hshorter before behind e hconsumed (fun _ _ => .ok []) .inline .empty
    rw [h] at hcalls
    have hc : calls = [⟨source, .inline⟩] := by simpa [Trace.call, Trace.empty] using hcalls.symm
    exact absurd (hlt ⟨source, .inline⟩ (by rw [hc]; exact List.mem_singleton.mpr rfl)) (Nat.lt_irrefl _)
  · intro h engine mode t
    refine outcome_compileSource_of_not_consumed (fun s hs hconsumed => ?_) engine mode t
    obtain ⟨before, behind, e, rfl⟩ := hconsumed.behind_lineBreak hspace hprescript hs
    exact h before behind e hconsumed

/-- A line break in front of the letters of a prescript. -/
theorem compileSource_changed_of_lineBreak :
    let letters := "prescript\x7b\x7d\x7bb\x7d\x7bc\x7d".toList
    let source := 'a' :: '\\' :: '\\' :: letters
    hspace ∉ tokens source ∧ Tex.prescript ∉ tokens source ∧
      ¬ ∀ (engine : Engine Text) (mode : Mode) (t : Trace), outcome (compileSource engine source mode) t =
        (engine t.calls ⟨source, mode⟩, t.call ⟨source, mode⟩) := by
  intro letters source
  have hs : hspace ∉ tokens source := by decide +kernel
  have hp : Tex.prescript ∉ tokens source := by decide +kernel
  have ht : tokens source = [['a']] ++ lineBreak :: letters.map ([·]) := by decide +kernel
  have hc : (prescript? ('\\' :: (letters.map ([·])).flatten)).isSome = true := by decide +kernel
  exact ⟨hs, hp, fun h => (compileSource_unchanged_iff hs hp).1.mp h _ _ ht (.inr hc)⟩

end Formula.Compile
