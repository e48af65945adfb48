import Formula.Log
import Formula.Tex.Mode

/-! # Engines

An engine turns the source of a formula into markup. It is no part of this library: it may answer each
call as it likes, also in the light of the calls before, and it may fail. A run leaves a trace of the
calls that were made and of the entries that were logged, whether it ends with a value or fails.
-/

namespace Formula.Compile

open Tex

structure Call where
  source : Text
  mode : Mode
  deriving DecidableEq, Repr

structure Failure where
  kind : Text
  message : Text
  deriving DecidableEq, Repr

/-- The answer to a call, given the calls before it, the oldest first. -/
abbrev Engine (α : Type) := List Call → Call → Except Failure α

structure Trace where
  calls : List Call
  log : List Log.Entry
  deriving DecidableEq, Repr

namespace Trace

def empty : Trace := ⟨[], []⟩

def call (c : Call) (t : Trace) : Trace :=
  { t with calls := t.calls ++ [c] }

def report (entries : List Log.Entry) (t : Trace) : Trace :=
  { t with log := t.log ++ entries }

end Trace

abbrev Run := ExceptT Failure (StateM Trace)

variable {α : Type}

/-- Makes a call. It is in the trace even if the engine fails. -/
def ask (engine : Engine α) (source : Text) (mode : Mode) : Run α := do
  let before ← get
  set (before.call ⟨source, mode⟩)
  match engine before.calls ⟨source, mode⟩ with
  | .ok answer => return answer
  | .error failure => throw failure

def report (entries : List Log.Entry) : StateM Trace Unit :=
  modify (Trace.report entries)

end Formula.Compile
