import Formula.Tex.Bold
import Formula.Tex.Limits
import Formula.Proofs.Tex.BraceDepth

/-! # Sweeps over tokens

Dropping limits and unifying bold replace some runs of tokens and keep the others. What a sweep does to
a text follows from what it does to the runs that it replaces.
-/

namespace Formula.Tex

/-- A list of tokens with some runs of them replaced. -/
inductive Sweep (R : List Text → List Text → Prop) : List Text → List Text → Prop
  | nil : Sweep R [] []
  | keep {u : Text} {ts us : List Text} : Sweep R ts us → Sweep R (u :: ts) (u :: us)
  | replace {a b ts us : List Text} : R a b → Sweep R ts us → Sweep R (a ++ ts) (b ++ us)

/-- One command that is dropped. -/
inductive LimitsStep : List Text → List Text → Prop
  | drop : LimitsStep [limits] []

/-- One `\bm` that is spelt `\mathbf`, with the blanks behind it. -/
inductive BoldStep : List Text → List Text → Prop
  | group {gap : List Text} : (∀ u ∈ gap, isBlankToken u = true) → BoldStep (bm :: gap) [mathbf]
  | argument {gap : List Text} {u : Text} : (∀ u ∈ gap, isBlankToken u = true) →
      isWordControl u = true ∨ isAlphanumToken u = true →
      BoldStep (bm :: gap ++ [u]) [mathbf, ['{'], u, ['}']]

theorem flatten_bold_argument (gap : List Text) (u : Text) :
    (bm :: gap ++ [u]).flatten = bm ++ (gap.flatten ++ u) ∧
      [mathbf, ['{'], u, ['}']].flatten = mathbf ++ braced u := by
  simp [braced]

theorem sweep_filter_limits (ts : List Text) : Sweep LimitsStep ts (ts.filter (· ≠ limits)) := by
  induction ts with
  | nil => exact .nil
  | cons u ts ih =>
    by_cases h : u = limits
    · rw [List.filter_cons_of_neg (by simpa using h), h]
      exact .replace (a := [limits]) (b := []) .drop ih
    · rw [List.filter_cons_of_pos (by simpa using h)]
      exact .keep ih

theorem takeWhile_append_skipBlankTokens (ts : List Text) :
    ts.takeWhile isBlankToken ++ skipBlankTokens ts = ts :=
  List.takeWhile_append_dropWhile

theorem isBlankToken_of_mem_takeWhile (ts : List Text) :
    ∀ u ∈ ts.takeWhile isBlankToken, isBlankToken u = true :=
  fun _ h => List.mem_takeWhile_imp h

theorem sweep_boldGroups (ts : List Text) : Sweep BoldStep ts (boldGroups ts) := by
  fun_induction boldGroups ts with
  | case1 => exact .nil
  | case2 t ts h ih =>
    obtain ⟨rfl, -⟩ := h
    have hs := Sweep.replace (.group (isBlankToken_of_mem_takeWhile ts)) ih
    rwa [List.cons_append, takeWhile_append_skipBlankTokens] at hs
  | case3 t ts _ ih => exact .keep ih

theorem Sweep.bold_argument {ts us vs : List Text} {u : Text} (hs : skipBlankTokens ts = u :: us)
    (hu : isWordControl u = true ∨ isAlphanumToken u = true) (h : Sweep BoldStep us vs) :
    Sweep BoldStep (bm :: ts) (mathbf :: ['{'] :: u :: ['}'] :: vs) := by
  have e : bm :: ts = (bm :: ts.takeWhile isBlankToken ++ [u]) ++ us := by
    rw [List.append_assoc, List.singleton_append, ← hs, List.cons_append,
      takeWhile_append_skipBlankTokens]
  rw [e]
  exact .replace (.argument (isBlankToken_of_mem_takeWhile ts) hu) h

theorem sweep_boldControls (ts : List Text) : Sweep BoldStep ts (boldControls ts) := by
  fun_induction boldControls ts with
  | case1 => exact .nil
  | case2 ts u us hs hu ih => exact .bold_argument hs (.inl hu) ih
  | case3 ts u us _ _ ih => exact .keep ih
  | case4 ts _ ih => exact .keep ih
  | case5 t ts _ ih => exact .keep ih

theorem sweep_boldChars (ts : List Text) : Sweep BoldStep ts (boldChars ts) := by
  fun_induction boldChars ts with
  | case1 => exact .nil
  | case2 t ts ht u us hs hu ih =>
    rw [ht.1]
    exact .bold_argument hs (.inr hu) ih
  | case3 t ts _ u us _ _ ih => exact .keep ih
  | case4 t ts _ _ ih => exact .keep ih
  | case5 t ts _ ih => exact .keep ih

/-! ## Braces -/

theorem BraceWalk.run_flatten_cons (w : BraceWalk) (u : Text) (ts : List Text) :
    w.run (u :: ts).flatten = (w.run u).run ts.flatten := by
  rw [List.flatten_cons, run_append]

/-- Both runs of tokens are balanced, and no new token ends with a lone backslash. -/
structure KeepsBraces (a b : List Text) : Prop where
  source : Balanced a.flatten
  target : Balanced b.flatten
  paired : ∀ u ∈ b, Paired u

theorem Sweep.run {R : List Text → List Text → Prop} (hR : ∀ a b, R a b → KeepsBraces a b)
    {ts us : List Text} (h : Sweep R ts us) (ht : ∀ u ∈ ts, Paired u) :
    (∀ u ∈ us, Paired u) ∧
      ∀ w : BraceWalk, w.escaped = false → w.run us.flatten = w.run ts.flatten := by
  induction h with
  | nil => exact ⟨ht, fun _ _ => rfl⟩
  | @keep u ts us _ ih =>
    obtain ⟨hu, hts⟩ := List.forall_mem_cons.mp ht
    obtain ⟨hus, hr⟩ := ih hts
    refine ⟨List.forall_mem_cons.mpr ⟨hu, hus⟩, ?_⟩
    intro w hw
    rw [BraceWalk.run_flatten_cons, BraceWalk.run_flatten_cons, hr _ (hu.run hw)]
  | @replace a b ts us hab _ ih =>
    obtain ⟨ha, hb, hp⟩ := hR a b hab
    obtain ⟨-, hts⟩ := List.forall_mem_append.mp ht
    obtain ⟨hus, hr⟩ := ih hts
    refine ⟨List.forall_mem_append.mpr ⟨hp, hus⟩, ?_⟩
    intro w hw
    rw [List.flatten_append, List.flatten_append, BraceWalk.run_append, BraceWalk.run_append,
      BraceWalk.run_of_balanced hw ha, BraceWalk.run_of_balanced hw hb, hr w hw]

theorem LimitsStep.keepsBraces {a b : List Text} (h : LimitsStep a b) : KeepsBraces a b := by
  cases h
  have hl : Balanced limits := balanced_of_isWordControl (by decide)
  exact ⟨by simpa using hl, .nil, by simp⟩

theorem balanced_of_isBlankToken {u : Text} (h : isBlankToken u = true) : Balanced u := by
  unfold isBlankToken at h
  split at h
  · obtain ⟨hb, ho, hc⟩ := ne_of_isBlank h
    exact .singleton hb ho hc
  · simp at h

theorem balanced_of_isAlphanumToken {u : Text} (h : isAlphanumToken u = true) : Balanced u := by
  unfold isAlphanumToken at h
  split at h
  · next c =>
    refine .singleton ?_ ?_ ?_ <;>
    · rintro rfl
      exact absurd h (by decide)
  · simp at h

theorem balanced_flatten {ts : List Text} (h : ∀ u ∈ ts, Balanced u) : Balanced ts.flatten := by
  simpa [List.flatMap] using Balanced.flatMap h

theorem BoldStep.keepsBraces {a b : List Text} (h : BoldStep a b) : KeepsBraces a b := by
  have hb : Balanced bm := balanced_of_isWordControl (by decide)
  have hm : Balanced mathbf := balanced_of_isWordControl (by decide)
  cases h with
  | @group gap hg =>
    constructor
    · exact hb.append (balanced_flatten fun u hu => balanced_of_isBlankToken (hg u hu))
    · simpa using hm
    · simpa using hm.paired
  | @argument gap u hg hu =>
    have hu' : Balanced u := by
      rcases hu with hu | hu
      · exact balanced_of_isWordControl hu
      · exact balanced_of_isAlphanumToken hu
    have hgap := balanced_flatten fun u hu => balanced_of_isBlankToken (hg u hu)
    constructor
    · simpa using hb.append (hgap.append hu')
    · simpa [braced] using hm.append hu'.braced
    · have ho : Paired ['{'] := by decide
      have hc : Paired ['}'] := by decide
      simp [hm.paired, hu'.paired, ho, hc]

theorem paired_of_mem_tokens {t : Text} {w : BraceWalk} (hw : w.escaped = false)
    (ht : (w.run t).escaped = false) : ∀ u ∈ tokens t, Paired u := by
  fun_induction tokens t generalizing w with
  | case1 => simp
  | case2 c r name rest h ih =>
    have hn := balanced_of_control? h
    rw [(eq_append_of_control? h).1, BraceWalk.run_append, BraceWalk.run_of_balanced hw hn] at ht
    exact List.forall_mem_cons.mpr ⟨hn.paired, ih hw ht⟩
  | case3 c r h ih =>
    have hb := BraceWalk.ne_backslash_of_control? h hw ht
    refine List.forall_mem_cons.mpr ⟨?_, ih (BraceWalk.step_escaped hw hb) ht⟩
    exact BraceWalk.step_escaped (w := BraceWalk.start) rfl hb

theorem run_dropLimits {t : Text} (ht : Paired t) :
    BraceWalk.start.run (dropLimits t) = BraceWalk.start.run t := by
  have hs := (sweep_filter_limits (tokens t)).run (fun _ _ => LimitsStep.keepsBraces)
    (paired_of_mem_tokens rfl ht)
  rw [dropLimits, hs.2 _ rfl, flatten_tokens]

theorem run_unifyBold {t : Text} (ht : Paired t) :
    BraceWalk.start.run (unifyBold t) = BraceWalk.start.run t := by
  have hB : ∀ a b, BoldStep a b → KeepsBraces a b := fun _ _ => BoldStep.keepsBraces
  have hg := (sweep_boldGroups (tokens t)).run hB (paired_of_mem_tokens rfl ht)
  have hc := (sweep_boldControls (boldGroups (tokens t))).run hB hg.1
  have ha := (sweep_boldChars (boldControls (boldGroups (tokens t)))).run hB hc.1
  rw [unifyBold, ha.2 _ rfl, hc.2 _ rfl, hg.2 _ rfl, flatten_tokens]

end Formula.Tex
