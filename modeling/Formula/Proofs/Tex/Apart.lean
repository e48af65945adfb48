import Formula.Proofs.Tex.BoldArguments

/-! # Commands that stand apart

A pass that looks for a command and what stands behind it comes to the same before and after another pass,
if that one neither takes nor brings about anything right behind the command. Where no `\limits` stands
right behind a `\bm`, dropping limits and unifying bold may change places.
-/

namespace Formula.Tex

open Text

/-- Right behind no `u` in the list, blanks apart, stands a `v`. -/
def Apart (u v : Text) (ts : List Text) : Prop :=
  ∀ s, u :: s <:+ ts → (skipBlankTokens s).head? ≠ some v

namespace Apart

variable {u v w : Text} {ts us : List Text}

theorem nil (u v : Text) : Apart u v [] := by
  intro s hs
  exact absurd (List.suffix_nil.mp hs) (List.cons_ne_nil _ _)

theorem cons_iff :
    Apart u v (w :: ts) ↔ (w = u → (skipBlankTokens ts).head? ≠ some v) ∧ Apart u v ts := by
  constructor
  · intro h
    refine ⟨?_, fun s hs => h s (hs.trans (List.suffix_cons w ts))⟩
    rintro rfl
    exact h ts List.suffix_rfl
  · rintro ⟨hw, ht⟩ s hs
    rcases List.suffix_cons_iff.mp hs with e | hs
    · obtain ⟨rfl, rfl⟩ := List.cons.inj e
      exact hw rfl
    · exact ht s hs

instance decidable (u v : Text) : (ts : List Text) → Decidable (Apart u v ts)
  | [] => .isTrue (nil u v)
  | _ :: ts => have := decidable u v ts; decidable_of_iff _ cons_iff.symm

theorem cons_of_ne (hw : w ≠ u) (h : Apart u v ts) : Apart u v (w :: ts) :=
  cons_iff.mpr ⟨fun e => absurd e hw, h⟩

theorem of_suffix (hs : us <:+ ts) (h : Apart u v ts) : Apart u v us :=
  fun s h' => h s (h'.trans hs)

theorem skipped (h : Apart u v ts) : Apart u v (skipBlankTokens ts) :=
  h.of_suffix (List.dropWhile_suffix _)

/-- The first tokens behind the blanks are the same before and after a sweep, unless they are what it is
about. -/
theorem head?_of_sweep (hv : v ≠ bm ∧ v ≠ mathbf) (hs : Sweep BoldStep ts us)
    (h : (skipBlankTokens us).head? = some v) : (skipBlankTokens ts).head? = some v := by
  have hp : (mathbf == v) = (bm == v) := by
    rw [beq_eq_false_iff_ne.mpr hv.1.symm, beq_eq_false_iff_ne.mpr hv.2.symm]
  have he := hs.skipBlankTokens.head?_any_eq (p := (· == v)) hp
  rw [h, Option.any_some, beq_self_eq_true] at he
  cases hh : (skipBlankTokens ts).head? with
  | none =>
    rw [hh] at he
    cases he
  | some w =>
    rw [hh, Option.any_some] at he
    rw [beq_iff_eq.mp he.symm]

theorem of_sweep (hu : u ≠ mathbf ∧ isWordControl u = true)
    (hv : (v ≠ bm ∧ v ≠ mathbf) ∧ isWordControl v = true) (hs : Sweep BoldStep ts us) (h : Apart u v ts) : Apart u v us := by
  have hne : ∀ {x y : Text}, isWordControl x = true → isWordControl y = false → y ≠ x := by
    rintro x _ hx hy rfl
    rw [hx] at hy
    cases hy
  induction hs with
  | nil => exact h
  | keep hs ih =>
    obtain ⟨hw, h⟩ := cons_iff.mp h
    exact cons_iff.mpr ⟨fun e => mt (head?_of_sweep hv.1 hs) (hw e), ih h⟩
  | @replace a b ts us hab _ ih =>
    have hus : Apart u v us := ih (h.of_suffix (List.suffix_append _ _))
    cases hab with
    | group _ => exact hus.cons_of_ne hu.1.symm
    | @argument gap w _ _ =>
      have hshut : Apart u v (['}'] :: us) := hus.cons_of_ne (hne hu.2 rfl)
      have hw : Apart u v (w :: ['}'] :: us) :=
        cons_iff.mpr ⟨fun _ e => hne hv.2 rfl (Option.some.inj e), hshut⟩
      exact (hw.cons_of_ne (hne hu.2 rfl)).cons_of_ne hu.1.symm

end Apart

/-! ## Limits and bold -/

section Limits

variable {ts : List Text}

theorem skipBlankTokens_filter (h : (skipBlankTokens ts).head? ≠ some limits) :
    skipBlankTokens (ts.filter (· ≠ limits)) = (skipBlankTokens ts).filter (· ≠ limits) := by
  induction ts with
  | nil => rfl
  | cons w ts ih =>
    cases hb : isBlankToken w with
    | true =>
      have hw : w ≠ limits := by
        rintro rfl
        exact absurd hb (by decide)
      have e : ∀ us, skipBlankTokens (w :: us) = skipBlankTokens us :=
        fun _ => List.dropWhile_cons_of_pos hb
      rw [e] at h ⊢
      rw [List.filter_cons_of_pos (by simpa using hw), e, ih h]
    | false =>
      have e : ∀ us, skipBlankTokens (w :: us) = w :: us :=
        fun _ => List.dropWhile_cons_of_neg (by simp [hb])
      rw [e] at h ⊢
      have hw : w ≠ limits := fun hw => h (congrArg some hw)
      rw [List.filter_cons_of_pos (by simpa using hw), e]

theorem filter_cons_of_ne {w : Text} (hw : w ≠ limits) (ts : List Text) :
    (w :: ts).filter (· ≠ limits) = w :: ts.filter (· ≠ limits) :=
  List.filter_cons_of_pos (by simpa using hw)

theorem skipBlankTokens_filter_eq_cons {w : Text} {us : List Text} (hw : w ≠ limits)
    (h : skipBlankTokens ts = w :: us) :
    skipBlankTokens (ts.filter (· ≠ limits)) = w :: us.filter (· ≠ limits) := by
  have hh : (skipBlankTokens ts).head? ≠ some limits := by
    rw [h]
    exact fun e => hw (Option.some.inj e)
  rw [skipBlankTokens_filter hh, h, filter_cons_of_ne hw]

theorem head?_skipBlankTokens_filter (h : (skipBlankTokens ts).head? ≠ some limits) :
    (skipBlankTokens (ts.filter (· ≠ limits))).head? = (skipBlankTokens ts).head? := by
  rw [skipBlankTokens_filter h]
  cases hs : skipBlankTokens ts with
  | nil => rfl
  | cons x us =>
    have hx : x ≠ limits := fun hx => h (by rw [hs, hx]; rfl)
    rw [filter_cons_of_ne hx]
    rfl

theorem Apart.filter_limits {u v : Text} (hl : Apart u limits ts) (h : Apart u v ts) :
    Apart u v (ts.filter (· ≠ limits)) := by
  induction ts with
  | nil => exact h
  | cons w ts ih =>
    obtain ⟨hwl, hl⟩ := cons_iff.mp hl
    obtain ⟨hw, h⟩ := cons_iff.mp h
    by_cases hne : w = limits
    · rw [List.filter_cons_of_neg (by simpa using hne)]
      exact ih hl h
    · rw [filter_cons_of_ne hne]
      refine cons_iff.mpr ⟨fun e => ?_, ih hl h⟩
      rw [head?_skipBlankTokens_filter (hwl e)]
      exact hw e

namespace BoldArgument

def sweep : BoldArgument → List Text → List Text
  | group => boldGroups
  | control => boldControls
  | char => boldChars

/-- The tokens that are written for a `\bm` with an argument that begins with the given token. -/
def written : BoldArgument → Text → List Text
  | group, _ => [mathbf]
  | control, u | char, u => [mathbf, ['{'], u, ['}']]

def onward : BoldArgument → Text → List Text → List Text
  | group, u, us => u :: us
  | control, _, us | char, _, us => us

variable {k : BoldArgument} {t u : Text} {us : List Text}

theorem sweep_nil (k : BoldArgument) : k.sweep [] = [] := by
  cases k
  · exact boldGroups.eq_1
  · exact boldControls.eq_1
  · exact boldChars.eq_1

theorem sweep_sweep (k : BoldArgument) (ts : List Text) : Sweep BoldStep ts (k.sweep ts) := by
  cases k
  · exact sweep_boldGroups ts
  · exact sweep_boldControls ts
  · exact sweep_boldChars ts

theorem begins_of_opens (h : k.Opens ts) (hs : skipBlankTokens ts = u :: us) : k.begins u = true := by
  simpa [hs] using h.1

theorem sweep_argument (h : k.Opens ts) (hs : skipBlankTokens ts = u :: us) :
    k.sweep (bm :: ts) = k.written u ++ k.sweep (k.onward u us) := by
  have hu := begins_of_opens h hs
  cases k with
  | group =>
    change boldGroups (bm :: ts) = mathbf :: boldGroups (u :: us)
    have hu : u = ['{'] := by simpa [begins] using hu
    rw [boldGroups, hs, if_pos ⟨rfl, by rw [hu]; rfl⟩]
  | control =>
    change boldControls (bm :: ts) = mathbf :: ['{'] :: u :: ['}'] :: boldControls us
    rw [boldControls, if_pos rfl]
    split
    · next v vs hv =>
      obtain ⟨rfl, rfl⟩ := List.cons.inj (hs.symm.trans hv)
      exact if_pos hu
    · next hv => cases hs.symm.trans hv
  | char =>
    change boldChars (bm :: ts) = mathbf :: ['{'] :: u :: ['}'] :: boldChars us
    rw [boldChars, if_pos ⟨rfl, h.2 rfl⟩]
    split
    · next v vs hv =>
      obtain ⟨rfl, rfl⟩ := List.cons.inj (hs.symm.trans hv)
      exact if_pos hu
    · next hv => cases hs.symm.trans hv

theorem sweep_cons (h : t = bm → ¬ k.Opens ts) : k.sweep (t :: ts) = t :: k.sweep ts := by
  cases k with
  | group =>
    change boldGroups (t :: ts) = t :: boldGroups ts
    rw [boldGroups, if_neg]
    rintro ⟨e, hh⟩
    exact h e (opens_group_iff.mpr hh)
  | control =>
    change boldControls (t :: ts) = t :: boldControls ts
    rw [boldControls]
    split
    · next e =>
      split
      · next u us hs => exact if_neg fun hu => h e ⟨by rw [hs]; exact hu, fun hk => by cases hk⟩
      · rfl
    · rfl
  | char =>
    change boldChars (t :: ts) = t :: boldChars ts
    rw [boldChars]
    split
    · next e =>
      split
      · next u us hs => exact if_neg fun hu => h e.1 ⟨by rw [hs]; exact hu, fun _ => e.2⟩
      · rfl
    · rfl

theorem filter_written (k : BoldArgument) (hu : u ≠ limits) :
    (k.written u).filter (· ≠ limits) = k.written u := by
  have hmathbf : mathbf ≠ limits := by decide
  have hopen : ['{'] ≠ limits := by decide
  have hshut : ['}'] ≠ limits := by decide
  cases k <;> simp [written, hu, hmathbf, hopen, hshut]

theorem filter_onward (k : BoldArgument) (hu : u ≠ limits) (us : List Text) :
    (k.onward u us).filter (· ≠ limits) = k.onward u (us.filter (· ≠ limits)) := by
  cases k with
  | group => exact filter_cons_of_ne hu us
  | control | char => rfl

theorem suffix_onward (k : BoldArgument) (u : Text) (us : List Text) : k.onward u us <:+ u :: us := by
  cases k with
  | group => exact List.suffix_rfl
  | control | char => exact List.suffix_cons u us

/-- Dropping `\limits` neither gives an argument nor takes one away, unless it stands right there. -/
theorem opens_filter_iff (h : (skipBlankTokens ts).head? ≠ some limits) :
    k.Opens (ts.filter (· ≠ limits)) ↔ k.Opens ts := by
  rw [Opens, Opens, head?_skipBlankTokens_filter h]
  cases ts with
  | nil => rfl
  | cons w ts =>
    have hw : w ≠ limits := by
      rintro rfl
      exact h rfl
    rw [filter_cons_of_ne hw]
    rfl

theorem sweep_filter (k : BoldArgument) (h : Apart bm limits ts) :
    k.sweep (ts.filter (· ≠ limits)) = (k.sweep ts).filter (· ≠ limits) := by
  have hbm : bm ≠ limits := by decide
  induction hn : ts.length using Nat.strongRecOn generalizing ts with
  | ind n ih =>
    cases ts with
    | nil => rw [List.filter_nil, sweep_nil, List.filter_nil]
    | cons t ts =>
      obtain ⟨hl, hts⟩ := Apart.cons_iff.mp h
      have hlt : ts.length < n := by simp [← hn]
      by_cases ht : t = bm ∧ k.Opens ts
      · obtain ⟨rfl, ho⟩ := ht
        cases hs : skipBlankTokens ts with
        | nil =>
          rw [Opens, hs] at ho
          cases ho.1
        | cons u us =>
          have hu : u ≠ limits := fun e => hl rfl (by rw [hs, e]; rfl)
          have hsuffix : k.onward u us <:+ ts :=
            (k.suffix_onward u us).trans (hs ▸ List.dropWhile_suffix _)
          have ih := ih _ (hsuffix.length_le.trans_lt hlt) (hts.of_suffix hsuffix) rfl
          rw [filter_cons_of_ne hbm, sweep_argument ((opens_filter_iff (hl rfl)).mpr ho)
            (skipBlankTokens_filter_eq_cons hu hs), sweep_argument ho hs, List.filter_append,
            filter_written k hu, ← filter_onward k hu, ih]
      · have ih := ih _ hlt hts rfl
        have hnot : t = bm → ¬ k.Opens ts := fun e ho => ht ⟨e, ho⟩
        rw [sweep_cons hnot]
        by_cases hne : t = limits
        · rw [hne, List.filter_cons_of_neg (by simp), List.filter_cons_of_neg (by simp), ih]
        · rw [filter_cons_of_ne hne, filter_cons_of_ne hne, sweep_cons, ih]
          exact fun e => mt (opens_filter_iff (hl e)).mp (hnot e)

end BoldArgument

end Limits

theorem unifyBold_dropLimits {t : Text} (h : Apart bm limits (tokens t)) :
    unifyBold (dropLimits t) = dropLimits (unifyBold t) := by
  have hsweep : ∀ (k : BoldArgument) {ts : List Text}, Apart bm limits ts → Apart bm limits (k.sweep ts) :=
    fun k ts => Apart.of_sweep (by decide) (by decide) (k.sweep_sweep ts)
  have hg := hsweep .group h
  have hc := hsweep .control hg
  calc unifyBold (dropLimits t)
      = (BoldArgument.char.sweep (BoldArgument.control.sweep
          (BoldArgument.group.sweep ((tokens t).filter (· ≠ limits))))).flatten := by
        rw [unifyBold, tokens_dropLimits]
        rfl
    _ = ((BoldArgument.char.sweep (BoldArgument.control.sweep
          (BoldArgument.group.sweep (tokens t)))).filter (· ≠ limits)).flatten := by
        rw [BoldArgument.sweep_filter .group h, BoldArgument.sweep_filter .control hg,
          BoldArgument.sweep_filter .char hc]
    _ = dropLimits (unifyBold t) := by
        rw [dropLimits, tokens_unifyBold]
        rfl

end Formula.Tex
