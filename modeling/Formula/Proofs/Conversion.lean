import Formula.Conversion
import Formula.Proofs.Compile.Outcome
import Formula.Proofs.Markup.Survival

/-! # What conversion makes of a reply

The markup of a formula is what its backend's reply is cleaned up to, and empty where there is none. An
empty answer says that there is no formula or no markup: nothing that is cleaned up vanishes.
-/

namespace Formula.Conversion

open Compile Tex Text

/-- The reply has no markup in it. -/
def isVoid : Except Failure (Option Text) → Bool
  | .error _ => true
  | .ok reply => allBlank (reply.getD [])

def replyReport (source : Text) : Except Failure (Option Text) → List Log.Entry
  | .error failure => failureReport failure source
  | .ok reply => if allBlank (reply.getD []) then silenceReport source else []

def replyLevels : Except Failure (Option Text) → List Log.Level
  | .error _ => [.warning, .debug]
  | .ok reply => if allBlank (reply.getD []) then [.warning] else []

theorem levels_replyReport (source : Text) (reply : Except Failure (Option Text)) :
    (replyReport source reply).map Log.Entry.level = replyLevels reply := by
  cases reply with
  | error failure => rfl
  | ok reply =>
    unfold replyReport replyLevels
    dsimp only
    split_ifs <;> rfl

def replyMarkup : Except Failure (Option Text) → Text
  | .error _ => []
  | .ok reply => if allBlank (reply.getD []) then [] else Markup.cleanUp (reply.getD [])

/-- A backend's markup names the element `math`. -/
def NamesMath (backend : Backend) : Prop :=
  ∀ source mode t raw, (outcome (backend source mode) t).1 = .ok (some raw) → allBlank raw = false →
    Markup.holdsMath raw = true

theorem replyMarkup_eq_nil_iff {reply : Except Failure (Option Text)}
    (h : ∀ raw, reply = .ok (some raw) → allBlank raw = false → Markup.holdsMath raw = true) :
    replyMarkup reply = [] ↔ isVoid reply = true := by
  match reply with
  | .error _ => simp [replyMarkup, isVoid]
  | .ok none => simp [replyMarkup, isVoid, allBlank]
  | .ok (some raw) =>
    simp only [replyMarkup, isVoid, Option.getD_some]
    split_ifs with hb
    · simp [hb]
    · simp [hb, Markup.cleanUp_ne_nil_of_holdsMath (h raw rfl (by simpa using hb))]

theorem run_markupOf_of_allBlank (backend : Backend) (source : Option Text)
    (hs : allBlank (source.getD []) = true) (mode : Option Mode) (t : Trace) :
    (markupOf backend source mode).run t = ([], t) := by
  rw [markupOf]
  dsimp only
  rw [if_pos hs]
  rfl

/-- The backend is run once, and its reply decides about the rest. -/
theorem run_markupOf (backend : Backend) (source : Option Text)
    (hs : allBlank (source.getD []) = false) (mode : Option Mode) (t : Trace) :
    let s := source.getD []
    let run := outcome (backend s (mode.getD (modeOf s))) t
    (markupOf backend source mode).run t =
      (replyMarkup run.1, run.2.report (replyReport s run.1)) := by
  intro s run
  have hrun : ((backend s (mode.getD (modeOf s))).run).run t = run := rfl
  rw [markupOf]
  dsimp only
  rw [if_neg (by simp [hs]), StateT.run_bind, hrun]
  obtain ⟨failure | reply, t'⟩ := run
  · rfl
  · change StateT.run (if allBlank (reply.getD []) then _ else _) t' = _
    simp only [replyMarkup, replyReport]
    split_ifs
    · rfl
    · rw [Trace.report_nil]
      rfl

/-- A reply of nothing and no formula are the only reasons for an empty answer. What is reported depends
on the reply alone, and without a formula the backend is not run. -/
theorem markupOf_eq_nil_iff {backend : Backend} (hb : NamesMath backend) (source : Option Text)
    (mode : Option Mode) (t : Trace) :
    let s := source.getD []
    let run := outcome (backend s (mode.getD (modeOf s))) t
    let made := (markupOf backend source mode).run t
    (made.1 = [] ↔ allBlank s = true ∨ isVoid run.1 = true) ∧
      (allBlank s = true → made.2 = t) ∧
      (allBlank s = false → made.2 = run.2.report (replyReport s run.1)) ∧
      (replyReport s run.1).map Log.Entry.level = replyLevels run.1 := by
  intro s run made
  refine ⟨?_, fun hs => ?_, fun hs => ?_, levels_replyReport s run.1⟩
  · cases hs : allBlank s with
    | true =>
      have hmade : made = ([], t) := run_markupOf_of_allBlank backend source hs mode t
      simp [hmade]
    | false =>
      have hmade : made = (replyMarkup run.1, run.2.report (replyReport s run.1)) :=
        run_markupOf backend source hs mode t
      have hvoid : replyMarkup run.1 = [] ↔ isVoid run.1 = true :=
        replyMarkup_eq_nil_iff fun raw => hb _ _ t raw
      simp [hmade, hvoid]
  · exact congrArg Prod.snd (run_markupOf_of_allBlank backend source hs mode t)
  · exact congrArg Prod.snd (run_markupOf backend source hs mode t)

/-- An engine that knows one formula, has nothing to say about another and fails on the rest. -/
def threeWays : Engine (Option Text) := fun _ call =>
  if call.source = ['x'] then .ok (some "<mtr><math><mrow></mrow></math></mtr>".toList)
  else if call.source = ['y'] then .ok none
  else .error ⟨"ValueError".toList, "no formula".toList⟩

theorem markupOf_of_threeWays :
    NamesMath (ask threeWays) ∧
      ((markupOf (ask threeWays) (some ['x']) none).run .empty).1 ≠ [] ∧
      ((markupOf (ask threeWays) (some ['y']) none).run .empty).1 = [] ∧
      ((markupOf (ask threeWays) (some ['z']) none).run .empty).2.log.map Log.Entry.level =
        [.warning, .debug] := by
  have hn : NamesMath (ask threeWays) := by
    intro source mode t raw h hb
    rw [outcome_ask] at h
    simp only [threeWays] at h
    split_ifs at h with hx hy
    · obtain rfl := Option.some.inj (Except.ok.inj h)
      decide
    · cases h
  obtain ⟨hx, -⟩ := markupOf_eq_nil_iff hn (some ['x']) none .empty
  obtain ⟨hy, -⟩ := markupOf_eq_nil_iff hn (some ['y']) none .empty
  obtain ⟨-, -, hz, hl⟩ := markupOf_eq_nil_iff hn (some ['z']) none .empty
  refine ⟨hn, ?_, ?_, ?_⟩
  · rw [ne_eq, hx]
    decide
  · rw [hy]
    decide
  · rw [hz (by decide)]
    decide

end Formula.Conversion
