import Formula.Compile.Engine

/-! # Outcomes of runs

The outcome of a run from a trace is its value or failure, with the trace behind it. A run that fails
leaves what it has done so far in the trace.
-/

namespace Formula.Compile

open Tex

variable {α β : Type}

def outcome (x : Run α) (t : Trace) : Except Failure α × Trace :=
  x.run.run t

@[simp] theorem outcome_pure (a : α) (t : Trace) : outcome (pure a) t = (.ok a, t) := rfl

@[simp] theorem outcome_throw (failure : Failure) (t : Trace) :
    outcome (throw failure : Run α) t = (.error failure, t) := rfl

theorem outcome_bind (x : Run α) (k : α → Run β) (t : Trace) :
    outcome (x >>= k) t = match outcome x t with
      | (.ok a, t') => outcome (k a) t'
      | (.error failure, t') => (.error failure, t') := by
  simp only [outcome, ExceptT.run_bind, StateT.run_bind]
  generalize hx : (x.run).run t = r
  obtain ⟨a | a, t'⟩ := r <;> rfl

theorem outcome_ask (engine : Engine α) (source : Text) (mode : Mode) (t : Trace) :
    outcome (ask engine source mode) t = (engine t.calls ⟨source, mode⟩, t.call ⟨source, mode⟩) := by
  have hg : outcome (get : Run Trace) t = (.ok t, t) := rfl
  have hs : outcome (set (t.call ⟨source, mode⟩) : Run Unit) t = (.ok (), t.call ⟨source, mode⟩) :=
    rfl
  rw [ask, outcome_bind, hg]
  simp only
  rw [outcome_bind, hs]
  simp only
  cases engine t.calls ⟨source, mode⟩ <;> rfl

theorem outcome_report (entries : List Log.Entry) (t : Trace) :
    outcome (report entries : Run Unit) t = (.ok (), t.report entries) := rfl

@[simp] theorem Trace.report_nil (t : Trace) : t.report [] = t := by
  simp [Trace.report]

end Formula.Compile
