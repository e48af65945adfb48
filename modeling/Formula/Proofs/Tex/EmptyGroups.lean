import Formula.Proofs.Tex.Blanks
import Formula.Proofs.Tex.NestedPrescripts

/-! # Empty groups behind commands

An empty group directly behind a command is the argument of that command, and the reader of nuclei takes
it so. Gathering prescripts only asks whether a marker waits for a value before an empty group. So a
command keeps its empty argument unless one or two scripts and a base follow the group: then the group
goes, and the command is left without it.
-/

namespace Formula.Tex

open Text

/-! ## Left scripts behind an empty group -/

/-- One or two scripts at the front of a text, with different markers, and what follows them. -/
inductive ReadsPair : Text → ScriptPair → Text → Prop
  | one {t rest : Text} {s : Script} : script? t = some (s, rest) →
      (∀ s' r, script? (skipBlanks rest) = some (s', r) → s'.marker = s.marker) →
      ReadsPair t ⟨s, none⟩ rest
  | two {t r rest : Text} {s s' : Script} : script? t = some (s, r) →
      script? (skipBlanks r) = some (s', rest) → s'.marker ≠ s.marker →
      ReadsPair t ⟨s, some s'⟩ rest

theorem leadingScripts?_of_leadIn? {before t start rest : Text} {l : ScriptPair}
    (h : leadIn? before t = some start) :
    leadingScripts? before t = some (l, rest) ↔ ReadsPair start l rest := by
  simp only [leadingScripts?, h, Option.bind_eq_bind, Option.bind_some, Option.bind_eq_some_iff,
    Prod.exists, Option.pure_def]
  constructor
  · rintro ⟨s, r, hs, h⟩
    split at h
    · next hn =>
      obtain ⟨rfl, rfl⟩ := Prod.mk.inj (Option.some.inj h)
      exact .one hs (by simp [hn])
    · next s' r' hs' =>
      split at h <;> obtain ⟨rfl, rfl⟩ := Prod.mk.inj (Option.some.inj h)
      · next hm => exact .one hs (by simp [hs', hm])
      · next hm => exact .two hs hs' hm
  · intro h
    cases h with
    | @one _ s hs hsame =>
      refine ⟨s, rest, hs, ?_⟩
      split
      · rfl
      · next s' r hs' => rw [if_pos (hsame s' r hs')]
    | @two r _ s s' hs hs' hm =>
      refine ⟨s, r, hs, ?_⟩
      simp only [hs', if_neg hm]

theorem opensScript_of_script? {t : Text} {p : Script × Text} (h : script? t = some p) :
    opensScript t = true := by
  obtain ⟨r, rfl, -⟩ := script?_eq_some_iff.mp h
  simpa [opensScript] using isMarker_iff.mpr (by cases p.1.marker <;> simp [Marker.char])

theorem ReadsPair.opensScript {t rest : Text} {l : ScriptPair} (h : ReadsPair t l rest) :
    opensScript t = true := by
  cases h with
  | one hs _ => exact opensScript_of_script? hs
  | two hs _ _ => exact opensScript_of_script? hs

theorem leadIn?_emptyGroup (before r : Text) : leadIn? before (braced [] ++ r) =
    if awaitsValue before || !opensScript (skipBlanks r) then none else some (skipBlanks r) := by
  have h : after? ['{', '}'] (braced [] ++ r) = some r := after?_append (braced []) r
  rw [leadIn?, h]

theorem leadingScripts?_emptyGroup_iff {before r rest : Text} {l : ScriptPair} :
    leadingScripts? before (braced [] ++ r) = some (l, rest) ↔
      awaitsValue before = false ∧ ReadsPair (skipBlanks r) l rest := by
  by_cases hb : (awaitsValue before || !opensScript (skipBlanks r)) = true
  · have hn : leadIn? before (braced [] ++ r) = none := by rw [leadIn?_emptyGroup, if_pos hb]
    have hl : leadingScripts? before (braced [] ++ r) = none := by
      rw [leadingScripts?, hn]
      rfl
    rw [hl]
    refine iff_of_false (fun h => by cases h) ?_
    rintro ⟨ha, hp⟩
    rw [ha, hp.opensScript] at hb
    cases hb
  · have hs : leadIn? before (braced [] ++ r) = some (skipBlanks r) := by
      rw [leadIn?_emptyGroup, if_neg hb]
    rw [leadingScripts?_of_leadIn? hs]
    simp only [Bool.or_eq_true, not_or, Bool.not_eq_true] at hb
    exact ⟨fun h => ⟨hb.1, h⟩, And.right⟩

/-- Behind blanks, the text goes on with left scripts and a base that sizes no delimiter. -/
def OpensPrescript (t : Text) (l : ScriptPair) (a : Atom) (rest : Text) : Prop :=
  ∃ middle, ReadsPair (skipBlanks t) l middle ∧ atom? middle = some (a, rest) ∧
    a.nucleus.isSizing = false

theorem upTo_append_left (s : Text) {t rest : Text} (h : rest.length ≤ t.length) :
    upTo rest (s ++ t) = s ++ upTo rest t := by
  rw [upTo, upTo, List.length_append, Nat.add_sub_assoc h, List.take_length_add_append]

section Gather

variable {before r rest : Text}

/-- An empty group for which no marker waits becomes part of a prescript if it can. -/
theorem gatherBehind_of_opensPrescript {l : ScriptPair} {a : Atom} (hb : awaitsValue before = false)
    (h : OpensPrescript r l a rest) : gatherBehind before (braced [] ++ r) =
      (Segment.prescript l a).written ++
        gatherBehind ((upTo rest (braced [] ++ r)).reverse ++ before) rest := by
  obtain ⟨middle, hp, ha, hz⟩ := h
  have hl := leadingScripts?_emptyGroup_iff.mpr ⟨hb, hp⟩
  have hs := segmentsBehind_atom hl ha
  rw [hz] at hs
  rw [gatherBehind, hs]
  rfl

theorem ReadsPair.length_lt {l : ScriptPair} (h : ReadsPair (skipBlanks r) l rest) :
    rest.length < r.length := by
  have hs := skipBlanks_length_le r
  cases h with
  | one hf _ =>
    have := script?_length hf
    omega
  | two hf hf' _ =>
    have h₁ := script?_length hf
    have h₂ := script?_skipBlanks_length hf'
    omega

/-- What is read behind an empty group reaches beyond the group. -/
theorem emptyGroup_prefix_of_lt {source : Text} (hlt : rest.length < r.length)
    (e : braced [] ++ r = source ++ rest) (t : Text) : braced [] <+: source ++ t := by
  have hle : (braced []).length ≤ source.length := by
    have h := congrArg List.length e
    simp only [List.length_append] at h
    omega
  have hp : braced [] <+: source :=
    List.prefix_of_prefix_length_le (List.prefix_append _ r) (e ▸ List.prefix_append _ _) hle
  exact hp.trans (List.prefix_append _ _)

/-- Otherwise it is copied, by itself or with what is read behind it. -/
theorem emptyGroup_prefix_gatherBehind (before : Text) (h : ∀ l a rest, ¬ OpensPrescript r l a rest) :
    braced [] <+: gatherBehind before (braced [] ++ r) := by
  have hmiddle : ∀ {l middle}, leadingScripts? before (braced [] ++ r) = some (l, middle) →
      middle.length < r.length :=
    fun hl => (leadingScripts?_emptyGroup_iff.mp hl).2.length_lt
  obtain ⟨s, source, rest, hr⟩ := exists_readsSegment before (t := braced [] ++ r) (by simp [braced])
  have e := hr.eq_append
  rw [hr.gatherBehind_eq]
  generalize ht : braced [] ++ r = t at hr e
  cases hr with
  | control hc =>
    obtain ⟨_, rfl⟩ := exists_cons_of_control? hc
    cases ht
  | backslash => cases ht
  | char _ _ =>
    obtain ⟨rfl, rfl⟩ := List.cons.inj ht
    exact ⟨_, (congrArg (List.cons '{') (gatherBehind_cons _ (by decide) (by decide) (by decide))).symm⟩
  | lone hl _ =>
    rw [← ht] at hl
    exact emptyGroup_prefix_of_lt (hmiddle hl) ht _
  | sizing hl ha _ =>
    rw [← ht] at hl
    exact emptyGroup_prefix_of_lt ((atom?_length ha).trans (hmiddle hl)) ht _
  | prescript hl ha hz =>
    rw [← ht] at hl
    exact absurd ⟨_, (leadingScripts?_emptyGroup_iff.mp hl).2, ha, hz⟩ (h _ _ _)

end Gather

/-! ## Commands -/

theorem awaitsValue_of_isAlpha {c : Char} (hc : c.isAlpha = true) (before : Text) :
    awaitsValue (c :: before) = false := by
  have hb : isBlank c = false := isBlank_of_isAlphanum (by simp [Char.isAlphanum, hc])
  have hm : isMarker c = false := by
    by_contra hm
    rcases isMarker_iff.mp (by simpa using hm) with rfl | rfl <;> exact absurd hc (by decide)
  simp [awaitsValue, skipBlanks, opensScript, hb, hm]

theorem awaitsValue_of_isWordControl {name : Text} (hn : isWordControl name = true) (before : Text) :
    awaitsValue (name.reverse ++ before) = false := by
  obtain ⟨c, w, rfl, hw⟩ := exists_letters_of_isWordControl hn
  obtain ⟨u, d, e⟩ := (List.eq_nil_or_concat (c :: w)).resolve_left (List.cons_ne_nil c w)
  have hd : d.isAlpha = true := hw d (by rw [e]; simp)
  rw [e, List.reverse_cons, List.concat_eq_append, List.reverse_append]
  exact awaitsValue_of_isAlpha hd _

theorem takesArgument_of_isWordControl {name : Text} (hn : isWordControl name = true) :
    takesArgument name = true := by
  obtain ⟨c, w, rfl, hw⟩ := exists_letters_of_isWordControl hn
  exact List.all_eq_true.mpr fun d hd => isLetter_of_isAlpha (hw d hd)

/-- The reader of nuclei takes a group directly behind a command as its argument. -/
theorem nucleus?_argument {name argument rest : Text} (hn : isWordControl name = true)
    (ha : Balanced argument) : nucleus? (name ++ (braced argument ++ rest)) =
      some (.control name (some argument), rest) := by
  have hc : control? (name ++ (braced argument ++ rest)) = some (name, braced argument ++ rest) :=
    control?_of_isWordControl hn rfl
  have hg : group? (braced argument ++ rest) = some (argument, rest) := group?_iff.mpr ⟨ha, rfl⟩
  rw [nucleus?_of_control? hc, takesArgument_of_isWordControl hn, hg]
  rfl

/-- An empty group directly behind a command is its argument for the reader of nuclei. Gathering
prescripts leaves the command its argument exactly if no prescript can be made of the group and of what
follows it. Otherwise that prescript stands directly behind the command. -/
theorem emptyArgument_kept_iff {name : Text} (hn : isWordControl name = true) (r : Text) :
    nucleus? (name ++ (braced [] ++ r)) = some (.control name (some []), r) ∧
      (name ++ braced [] <+: gatherPrescripts (name ++ (braced [] ++ r)) ↔
        ∀ l a rest, ¬ OpensPrescript r l a rest) ∧
      ∀ l a rest, OpensPrescript r l a rest →
        gatherPrescripts (name ++ (braced [] ++ r)) = name ++ ((Segment.prescript l a).written ++
          gatherBehind (upTo rest (name ++ (braced [] ++ r))).reverse rest) := by
  have hc : control? (name ++ (braced [] ++ r)) = some (name, braced [] ++ r) :=
    control?_of_isWordControl hn rfl
  have hg : gatherPrescripts (name ++ (braced [] ++ r)) =
      name ++ gatherBehind (name.reverse ++ []) (braced [] ++ r) :=
    (ReadsSegment.control hc).gatherBehind_eq
  have hb := awaitsValue_of_isWordControl hn []
  refine ⟨nucleus?_argument hn .nil, ?_, ?_⟩
  · rw [hg, List.prefix_append_right_inj]
    constructor
    · rintro hp l a rest h
      rw [gatherBehind_of_opensPrescript hb h] at hp
      exact absurd (List.cons_prefix_cons.mp hp).1 (by decide)
    · exact emptyGroup_prefix_gatherBehind _
  · intro l a rest h
    have hle : rest.length ≤ (braced [] ++ r).length := by
      obtain ⟨middle, hp, ha, -⟩ := h
      have h₁ := hp.length_lt
      have h₂ := atom?_length ha
      rw [List.length_append]
      omega
    rw [hg, gatherBehind_of_opensPrescript hb h, upTo_append_left name hle, List.reverse_append,
      List.append_nil]

theorem emptyArgument_lost_of_script :
    let name := "\\sqrt".toList
    isWordControl name = true ∧ OpensPrescript "_1x".toList ⟨⟨.sub, ['1']⟩, none⟩ ⟨[], .char 'x', []⟩ [] ∧
      ¬ name ++ braced [] <+: gatherPrescripts (name ++ (braced [] ++ "_1x".toList)) := by
  intro name
  have hn : isWordControl name = true := by decide
  have hx : atom? ['x'] = some (⟨[], .char 'x', []⟩, []) := by
    rw [atom?_eq_some_iff]
    exact ⟨rfl, [], rfl, by simp [scripts, script?, skipBlanks]⟩
  have ho : OpensPrescript "_1x".toList ⟨⟨.sub, ['1']⟩, none⟩ ⟨[], .char 'x', []⟩ [] :=
    ⟨['x'], .one rfl (fun _ _ h => by cases h), hx, rfl⟩
  exact ⟨hn, ho, fun h => (emptyArgument_kept_iff hn _).2.1.mp h _ _ _ ho⟩

end Formula.Tex
