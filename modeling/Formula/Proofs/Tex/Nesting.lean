import Formula.Proofs.Tex.BraceDepth
import Formula.Proofs.Tex.Environments

/-! # Prescripts and environments

Left scripts take their values and their base from what is next, whatever it is. Where that is a mark of
an environment, the mark is torn from its place, and the environment is not nested any more. Everything
else is taken from nested texts in nested pieces.
-/

namespace Formula.Tex

open Text

/-- The front of a text, up to `rest`, leaves every stack as it is. -/
def Passes (t rest : Text) : Prop :=
  ∃ source, t = source ++ rest ∧ Neutral source rest

/-- The front of a text, up to `rest`, ends with a mark whose name follows. Before the mark it leaves
every stack as it is. -/
def PassesMark (t rest : Text) : Prop :=
  ∃ source mark, t = source ++ (mark ++ rest) ∧ Neutral source (mark ++ rest) ∧
    control? (mark ++ rest) = some (mark, rest) ∧ isMark mark = true ∧
    (environmentName? rest).isSome = true

section Passing

variable {t u rest : Text}

theorem Passes.refl : Passes t t :=
  ⟨[], rfl, .nil⟩

theorem Passes.trans (h : Passes t u) (h' : Passes u rest) : Passes t rest := by
  obtain ⟨s, rfl, hs⟩ := h
  obtain ⟨s', rfl, hs'⟩ := h'
  exact ⟨s ++ s', (List.append_assoc _ _ _).symm, hs.append hs'⟩

theorem Passes.trans_mark (h : Passes t u) (h' : PassesMark u rest) : PassesMark t rest := by
  obtain ⟨s, rfl, hs⟩ := h
  obtain ⟨s', mark, rfl, hs', hc, hm, he⟩ := h'
  refine ⟨s ++ s', mark, (List.append_assoc _ _ _).symm, hs.append hs', hc, hm, he⟩

theorem Passes.scopes (h : Passes t rest) (stack : List Scope) :
    scopes stack t = scopes stack rest := by
  obtain ⟨s, rfl, hs⟩ := h
  exact hs rest id stack

theorem passes_skipBlanks (t : Text) : Passes t (skipBlanks t) :=
  ⟨t.takeWhile isBlank, (takeWhile_isBlank_append_skipBlanks t).symm, .blanks t⟩

end Passing

/-! ## Readers over nested texts -/

/-- The value that is read up to `rest` is nested, or it is a mark. -/
inductive TakesValue (value t rest : Text) : Prop
  | nested : isMark value = false → JointlyNested value → Passes t rest → TakesValue value t rest
  | mark : isMark value = true → PassesMark t rest → TakesValue value t rest

theorem TakesValue.of_passes {value t u rest : Text} (h : TakesValue value u rest)
    (hp : Passes t u) : TakesValue value t rest := by
  cases h with
  | nested hm hv h => exact .nested hm hv (hp.trans h)
  | mark hm h => exact .mark hm (hp.trans_mark h)

section Readers

variable {stack out : List Scope} {t rest : Text}

theorem scopes_mark {name : Text} (h : control? t = some (name, rest)) (hm : isMark name = true)
    (hf : scopes stack t = some out) : (environmentName? rest).isSome = true := by
  rw [scopes_control h] at hf
  obtain ⟨stack', hs, -⟩ := Option.bind_eq_some_iff.mp hf
  rw [Option.isSome_iff_ne_none]
  intro he
  have he' : Scope.afterControl name rest stack = none := by
    rcases isMark_iff.mp hm with rfl | rfl
    · rw [Scope.afterControl_begin, he, Option.map_none]
    · rw [Scope.afterControl_end, he]
  simp [he'] at hs

theorem ReadsValue.takes {value : Text} (h : ReadsValue t value rest)
    (hf : scopes stack t = some out) : TakesValue value t rest := by
  cases h with
  | group hb =>
    have hv : JointlyNested value := by
      by_contra hv
      simp [scopes_braced hb, hv] at hf
    have hm : isMark value = false := by
      by_contra hm
      exact not_jointlyNested_of_isMark (by simpa using hm) hv
    exact .nested hm hv ⟨_, rfl, .braced hb hv⟩
  | control h =>
    have e := (eq_append_of_control? h).1
    cases hm : isMark value with
    | true => exact .mark hm ⟨[], value, e, .nil, e ▸ h, hm, scopes_mark h hm hf⟩
    | false =>
      have hn : Neutral value rest := .control (e ▸ h) hm
      exact .nested hm hn.jointlyNested ⟨value, e, hn⟩
  | @char c rest hb ho hc _ =>
    have hn : Neutral [c] rest := .char hb ho hc
    exact .nested (isMark_singleton c) hn.jointlyNested ⟨[c], rfl, hn⟩

theorem script?_takes {s : Script} (h : script? t = some (s, rest))
    (hf : scopes stack t = some out) : TakesValue s.value t rest := by
  obtain ⟨r, rfl, hr⟩ := script?_eq_some_iff.mp h
  obtain ⟨hb, ho, hc⟩ := s.marker.char_ne
  have hp : Passes (s.marker.char :: r) (skipBlanks r) :=
    Passes.trans (u := r) ⟨[s.marker.char], rfl, .char hb ho hc⟩ (passes_skipBlanks r)
  rw [hp.scopes] at hf
  exact ((readsValue_of_scriptValue? hr).takes hf).of_passes hp

theorem script?_skipBlanks_takes {s : Script} (h : script? (skipBlanks t) = some (s, rest))
    (hf : scopes stack t = some out) : TakesValue s.value t rest := by
  have hp := passes_skipBlanks t
  rw [hp.scopes] at hf
  exact (script?_takes h hf).of_passes hp

theorem PassesMark.script?_eq_none (h : PassesMark t rest) : script? (skipBlanks rest) = none := by
  obtain ⟨_, _, _, _, _, _, he⟩ := h
  obtain ⟨e, he⟩ := Option.isSome_iff_exists.mp he
  obtain ⟨-, -, r, hr⟩ := environmentName?_eq_some_iff.mp he
  rw [hr]
  rfl

/-- The scripts that are read up to `rest` have nested values, or the last value is a mark. -/
inductive TakesScripts (l : List Script) (t rest : Text) : Prop
  | nested : (∀ s ∈ l, isMark s.value = false ∧ JointlyNested s.value) → Passes t rest →
      TakesScripts l t rest
  | mark {s : Script} : s ∈ l → isMark s.value = true → PassesMark t rest → TakesScripts l t rest

theorem TakesScripts.of_passes {l : List Script} {u : Text} (h : TakesScripts l u rest)
    (hp : Passes t u) : TakesScripts l t rest := by
  cases h with
  | nested hl h => exact .nested hl (hp.trans h)
  | mark hs hm h => exact .mark hs hm (hp.trans_mark h)

theorem TakesScripts.cons {l : List Script} {s : Script} {u : Text} (hm : isMark s.value = false)
    (hv : JointlyNested s.value) (hp : Passes t u) (h : TakesScripts l u rest) :
    TakesScripts (s :: l) t rest := by
  cases h with
  | nested hl h => exact .nested (List.forall_mem_cons.mpr ⟨⟨hm, hv⟩, hl⟩) (hp.trans h)
  | mark hs hm h => exact .mark (List.mem_cons_of_mem _ hs) hm (hp.trans_mark h)

theorem scripts_takes (hf : scopes stack t = some out) :
    TakesScripts (scripts t).1 t (scripts t).2 := by
  fun_induction scripts t with
  | case1 t _ => exact .nested (by simp) .refl
  | case2 t s rest h more ih =>
    cases script?_skipBlanks_takes h hf with
    | nested hm hv hp =>
      rw [hp.scopes] at hf
      exact (ih hf).cons hm hv hp
    | mark hm hp =>
      have he : more = ([], rest) := by
        simp only [more]
        rw [scripts, hp.script?_eq_none]
      rw [he]
      exact .mark List.mem_cons_self hm hp

theorem leadIn?_passes {before start : Text} (h : leadIn? before t = some start) :
    Passes t start := by
  rcases leadIn?_source h with rfl | ⟨r, rfl, rfl⟩
  · exact .refl
  · have hb : Neutral (braced []) r := .braced .nil (by decide +kernel)
    exact Passes.trans ⟨braced [], rfl, hb⟩ (passes_skipBlanks r)

theorem leadingScripts?_takes {before : Text} {l : ScriptPair}
    (h : leadingScripts? before t = some (l, rest)) (hf : scopes stack t = some out) :
    TakesScripts l.toList t rest := by
  obtain ⟨start, hs, h⟩ := leadingScripts?_cases h
  have hp := leadIn?_passes hs
  rw [hp.scopes] at hf
  refine TakesScripts.of_passes ?_ hp
  rcases h with ⟨hn, h⟩ | ⟨s, r, hs, -, h, hr⟩
  · rw [ScriptPair.toList, hn]
    cases script?_takes h hf with
    | nested hm hv hp => exact .nested (by simp [hm, hv]) hp
    | mark hm hp => exact .mark List.mem_cons_self hm hp
  · rw [ScriptPair.toList, hs]
    cases script?_takes h hf with
    | nested hm hv hp =>
      rw [hp.scopes] at hf
      refine TakesScripts.cons hm hv hp ?_
      cases script?_skipBlanks_takes hr hf with
      | nested hm hv hp => exact .nested (by simp [hm, hv]) hp
      | mark hm hp => exact .mark (by simp) hm hp
    | mark hm hp => simp [hp.script?_eq_none] at hr

end Readers

/-! ## Atoms -/

/-- The nucleus is a mark, or the backslash that ends a text. Neither can stand in a group alone. -/
def Nucleus.isLoose : Nucleus → Bool
  | .char c => c = '\\'
  | .control name _ => isMark name
  | .group _ => false

section Atoms

variable {stack out : List Scope} {t rest : Text}

theorem ReadsNucleus.neutral {n : Nucleus} (h : ReadsNucleus t n rest) (hl : n.isLoose = false)
    (hf : scopes stack t = some out) : t = n.written ++ rest ∧ Neutral n.written rest := by
  cases h with
  | char hb ho hc _ => exact ⟨rfl, .char hb ho hc⟩
  | backslash => simp [Nucleus.isLoose] at hl
  | control h _ _ | symbol h _ =>
    have e := (eq_append_of_control? h).1
    exact ⟨e, .control (e ▸ h) hl⟩
  | @argument _ name argument rest h _ hb =>
    have e := (eq_append_of_control? h).1
    have hn : Neutral name (braced argument ++ rest) := .control (e ▸ h) hl
    have hv : JointlyNested argument := by
      by_contra hv
      rw [e, hn _ id, scopes_braced hb, if_neg hv] at hf
      simp at hf
    exact ⟨by rw [e]; exact (List.append_assoc _ _ _).symm, hn.append (.braced hb hv)⟩
  | group hb =>
    refine ⟨rfl, .braced hb ?_⟩
    by_contra hv
    simp [scopes_braced hb, hv] at hf

theorem PassesMark.nucleus_eq_group {a : Atom} {r : Text} (h : PassesMark t rest)
    (ha : atom? rest = some (a, r)) : ∃ content, a.nucleus = .group content := by
  obtain ⟨_, _, _, _, _, _, he⟩ := h
  obtain ⟨e, he⟩ := Option.isSome_iff_exists.mp he
  obtain ⟨-, hb, r', hr⟩ := environmentName?_eq_some_iff.mp he
  obtain ⟨-, u, hn, -⟩ := atom?_eq_some_iff.mp ha
  have hg : nucleus? (braced e ++ r') = some (.group e, r') := by
    have hg : group? (braced e ++ r') = some (e, r') := group?_iff.mpr ⟨hb, rfl⟩
    simp only [braced, List.cons_append] at hg ⊢
    simp only [nucleus?, hg]
    rfl
  rw [hr, hg] at hn
  exact ⟨e, (Prod.mk.inj (Option.some.inj hn)).1.symm⟩

theorem atom?_takes {a : Atom} (h : atom? t = some (a, rest)) (hl : a.nucleus.isLoose = false)
    (hf : scopes stack t = some out) : TakesScripts a.scripts t rest := by
  obtain ⟨-, r, hn, hs⟩ := atom?_eq_some_iff.mp h
  have hp := passes_skipBlanks t
  rw [hp.scopes] at hf
  have hp' : Passes t r := hp.trans ⟨_, (readsNucleus_of_nucleus? hn).neutral hl hf⟩
  rw [← hp.scopes, hp'.scopes] at hf
  have ht := scripts_takes hf
  rw [hs] at ht
  exact ht.of_passes hp'

theorem scopes_canonical {l : List Script} (hb : ∀ s ∈ l, Balanced s.value) (stack : List Scope)
    (r : Text) : scopes stack (l.flatMap Script.canonical ++ r) =
      if ∀ s ∈ l, JointlyNested s.value then scopes stack r else none := by
  induction l with
  | nil => simp
  | cons s l ih =>
    obtain ⟨hs, hl⟩ := List.forall_mem_cons.mp hb
    obtain ⟨h₁, h₂, h₃⟩ := s.marker.char_ne
    have e : (s :: l).flatMap Script.canonical ++ r =
        s.marker.char :: (braced s.value ++ (l.flatMap Script.canonical ++ r)) := by
      simp [Script.canonical]
    rw [e, scopes_of_ne h₁ h₂ h₃, scopes_braced hs, ih hl]
    by_cases hv : JointlyNested s.value <;> simp [hv]

theorem jointlyNested_base_iff {a : Atom} (h : atom? t = some (a, rest))
    (hl : a.nucleus.isLoose = false) (hf : scopes stack t = some out) :
    JointlyNested a.base ↔ ∀ s ∈ a.scripts, JointlyNested s.value := by
  obtain ⟨-, r, hn, hr⟩ := atom?_eq_some_iff.mp h
  rw [(passes_skipBlanks t).scopes] at hf
  have hb := (balanced_scripts r).1
  rw [hr] at hb
  have hn' : Neutral a.nucleus.written (a.scripts.flatMap Script.canonical) :=
    ((readsNucleus_of_nucleus? hn).neutral hl hf).2.mono (by simp [opensLetter_canonical])
  have hc := scopes_canonical hb [] []
  rw [List.append_nil] at hc
  rw [JointlyNested, Atom.base, hn' _ id, hc]
  simp

theorem control?_mark {name r : Text} (hm : isMark name = true) (hr : opensLetter r = false) :
    control? (name ++ r) = some (name, r) := by
  have hn : control? (name ++ []) = some (name, []) := by
    rcases isMark_iff.mp hm with rfl | rfl <;> decide
  exact control?_append_of_opensLetter hn (by simp [hr])

theorem ReadsNucleus.balanced_argument {name : Text} {argument : Option Text}
    (h : ReadsNucleus t (.control name argument) rest) : ∀ v ∈ argument, Balanced v := by
  cases h with
  | argument _ _ hv => simpa using hv
  | _ => simp

theorem Atom.base_eq_append {a : Atom} {name : Text} {argument : Option Text}
    (hn : a.nucleus = .control name argument) (hv : ∀ v ∈ argument, Balanced v)
    (hb : ∀ s ∈ a.scripts, Balanced s.value) :
    ∃ x, a.base = name ++ x ∧ opensLetter x = false ∧
      ∀ stack, scopes stack x = some stack ∨ scopes stack x = none := by
  have hc : ∀ stack, scopes stack (a.scripts.flatMap Script.canonical) = some stack ∨
      scopes stack (a.scripts.flatMap Script.canonical) = none := by
    intro stack
    have hc := scopes_canonical hb stack []
    rw [List.append_nil, scopes_nil] at hc
    rw [hc]
    split <;> simp
  rw [Atom.base, hn]
  cases argument with
  | none => exact ⟨_, rfl, opensLetter_canonical _, hc⟩
  | some argument =>
    refine ⟨braced argument ++ _, List.append_assoc _ _ _, rfl, ?_⟩
    intro stack
    rw [scopes_braced (hv argument rfl)]
    split
    · exact hc stack
    · exact .inr rfl

theorem not_jointlyNested_base {a : Atom} (h : atom? t = some (a, rest)) {name : Text}
    {argument : Option Text} (hn : a.nucleus = .control name argument) (hm : isMark name = true) :
    ¬ JointlyNested a.base := by
  obtain ⟨-, r, hr, hs⟩ := atom?_eq_some_iff.mp h
  have hr' := readsNucleus_of_nucleus? hr
  have hb := (balanced_scripts r).1
  rw [hn] at hr'
  rw [hs] at hb
  obtain ⟨x, e, hx, hf⟩ := Atom.base_eq_append hn hr'.balanced_argument hb
  rw [JointlyNested, e, scopes_control (control?_mark hm hx)]
  rcases isMark_iff.mp hm with rfl | rfl
  · rw [Scope.afterControl_begin]
    cases environmentName? x with
    | none => simp
    | some e => rcases hf [.environment e] with hf | hf <;> simp [hf]
  · rw [Scope.afterControl_end]
    cases environmentName? x <;> simp

end Atoms

end Formula.Tex
