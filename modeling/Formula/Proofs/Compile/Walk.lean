import Formula.Compile.Multiscripts
import Formula.Proofs.Compile.Decoding
import Formula.Proofs.Compile.Outcome

/-! # The calls that a source makes

The calls that compiling a source makes are known from its row alone: for each prescript those of its
base, its subscript and its superscript, each behind those of the prescripts in it, and last the row
itself. What the engine answers has no influence on them, but a failure ends the run with the call that
fails. On a level with more prescripts than there are placeholders, the run ends where they give out.
-/

namespace Formula.Compile

open Tex

namespace Row

def argumentCalls (row : Row) (nested : List Call) : List Call :=
  match row with
  | absent => []
  | _ => nested ++ [⟨row.skeleton 0, .inline⟩]

def nestedCalls : Row → List Call
  | absent => []
  | nil => []
  | literal _ rest => rest.nestedCalls
  | prescript base sub sup rest =>
    base.argumentCalls base.nestedCalls ++ sub.argumentCalls sub.nestedCalls ++
      sup.argumentCalls sup.nestedCalls ++ rest.nestedCalls

/-- The calls for a row, those for its prescripts first. -/
def calls (mode : Mode) (row : Row) : List Call :=
  row.nestedCalls ++ [⟨row.skeleton 0, mode⟩]

/-- Every prescript has a number below the bound, if those of this row are counted from an index. -/
def FitsFrom (bound index : Nat) : Row → Prop
  | absent => True
  | nil => True
  | literal _ rest => rest.FitsFrom bound index
  | prescript base sub sup rest =>
    index < bound ∧ base.FitsFrom bound 0 ∧ sub.FitsFrom bound 0 ∧ sup.FitsFrom bound 0 ∧
      rest.FitsFrom bound (index + 1)

/-- No level of the row has more prescripts than the bound. -/
def Fits (bound : Nat) (row : Row) : Prop :=
  row.FitsFrom bound 0

instance decidableFitsFrom (bound : Nat) : (index : Nat) → (row : Row) →
    Decidable (row.FitsFrom bound index)
  | _, absent => .isTrue trivial
  | _, nil => .isTrue trivial
  | index, literal _ rest => decidableFitsFrom bound index rest
  | index, prescript base sub sup rest =>
    have := decidableFitsFrom bound 0 base
    have := decidableFitsFrom bound 0 sub
    have := decidableFitsFrom bound 0 sup
    have := decidableFitsFrom bound (index + 1) rest
    inferInstanceAs (Decidable (_ ∧ _ ∧ _ ∧ _ ∧ _))

instance (bound : Nat) (row : Row) : Decidable (row.Fits bound) :=
  decidableFitsFrom bound 0 row

theorem mode_of_mem_nestedCalls {row : Row} {c : Call} (h : c ∈ row.nestedCalls) :
    c.mode = .inline := by
  have hargument : ∀ {row : Row} {nested : List Call}, (∀ c ∈ nested, c.mode = .inline) →
      ∀ c ∈ row.argumentCalls nested, c.mode = .inline := by
    intro row nested hn c hc
    unfold argumentCalls at hc
    split at hc
    · simp at hc
    · rcases List.mem_append.mp hc with hc | hc
      · exact hn c hc
      · rw [List.mem_singleton.mp hc]
  induction row generalizing c with
  | absent | nil => simp [nestedCalls] at h
  | literal _ rest ih => exact ih h
  | prescript base sub sup rest ihb ihl ihu ihr =>
    simp only [nestedCalls, List.mem_append] at h
    rcases h with ((h | h) | h) | h
    · exact hargument (fun _ => ihb) c h
    · exact hargument (fun _ => ihl) c h
    · exact hargument (fun _ => ihu) c h
    · exact ihr h

end Row

/-! ## Steps -/

/-- What a run does next, whatever the engine has answered so far. -/
inductive Step
  | call (c : Call)
  | fail (failure : Failure)

namespace Row

def argumentSteps (row : Row) (nested : List Step) : List Step :=
  match row with
  | absent => []
  | _ => nested ++ [.call ⟨row.skeleton 0, .inline⟩]

def steps (index : Nat) : Row → List Step
  | absent => []
  | nil => []
  | literal _ rest => rest.steps index
  | prescript base sub sup rest =>
    (if placeholderCount ≤ index then [.fail .noPlaceholder] else []) ++
      (base.argumentSteps (base.steps 0) ++ (sub.argumentSteps (sub.steps 0) ++
        (sup.argumentSteps (sup.steps 0) ++ rest.steps (index + 1))))

end Row

/-- The calls that are made of the steps, and the failure that ends them. -/
def play {α : Type} (engine : Engine α) (before : List Call) : List Step → List Call × Option Failure
  | [] => ([], none)
  | .fail failure :: _ => ([], some failure)
  | .call c :: steps => match engine before c with
    | .ok _ =>
      let played := play engine (before ++ [c]) steps
      (c :: played.1, played.2)
    | .error failure => ([c], some failure)

def failure? {α : Type} : Except Failure α → Option Failure
  | .ok _ => none
  | .error failure => some failure

/-- The run makes the calls of the steps, up to the first failure, and fails exactly with it. -/
def Plays {α β : Type} (engine : Engine α) (x : Run β) (steps : List Step) : Prop :=
  ∀ t, (outcome x t).2.calls = t.calls ++ (play engine t.calls steps).1 ∧
    failure? (outcome x t).1 = (play engine t.calls steps).2

section Plays

variable {α β γ : Type} {engine : Engine α}

theorem play_append (before : List Call) (s s' : List Step) :
    play engine before (s ++ s') = match play engine before s with
      | (calls, none) =>
        (calls ++ (play engine (before ++ calls) s').1, (play engine (before ++ calls) s').2)
      | (calls, some failure) => (calls, some failure) := by
  induction s generalizing before with
  | nil => simp [play]
  | cons step s ih =>
    cases step with
    | fail failure => rfl
    | call c =>
      simp only [List.cons_append, play]
      cases engine before c with
      | error failure => rfl
      | ok a =>
        simp only [ih]
        obtain ⟨calls, failure⟩ := play engine (before ++ [c]) s
        cases failure <;> simp

namespace Plays

theorem pure (b : β) : Plays engine (pure b : Run β) [] :=
  fun t => by simp [play, failure?]

theorem throw (failure : Failure) : Plays engine (throw failure : Run β) [.fail failure] :=
  fun t => by simp [play, failure?]

theorem report (entries : List Log.Entry) : Plays engine (report entries : Run Unit) [] :=
  fun t => by simp [outcome_report, Trace.report, play, failure?]

theorem ask (source : Text) (mode : Mode) :
    Plays engine (ask engine source mode) [.call ⟨source, mode⟩] := by
  intro t
  rw [outcome_ask]
  simp only [Trace.call, play]
  cases engine t.calls ⟨source, mode⟩ <;> simp [failure?]

theorem bind {x : Run β} {k : β → Run γ} {s s' : List Step} (hx : Plays engine x s)
    (hk : ∀ b, Plays engine (k b) s') : Plays engine (x >>= k) (s ++ s') := by
  intro t
  obtain ⟨hc, hf⟩ := hx t
  rw [outcome_bind, play_append]
  generalize outcome x t = r at hc hf
  generalize play engine t.calls s = p at hc hf
  obtain ⟨result, t'⟩ := r
  obtain ⟨calls, failure⟩ := p
  simp only at hc hf
  subst hf
  cases result with
  | error failure => exact ⟨hc, rfl⟩
  | ok b =>
    obtain ⟨hc', hf'⟩ := hk b t'
    rw [hc] at hc' hf'
    simp only [failure?]
    exact ⟨by rw [hc', List.append_assoc], hf'⟩

theorem bind_nil {x : Run β} {k : β → Run γ} {s : List Step} (hx : Plays engine x s)
    (hk : ∀ b, Plays engine (k b) []) : Plays engine (x >>= k) s :=
  List.append_nil s ▸ hx.bind hk

end Plays

end Plays

/-! ## The steps of a row -/

section Rows

variable {engine : Engine Text}

theorem plays_compileWith (row : Row) (mode : Mode) (elements : List Text) :
    Plays engine (row.compileWith engine mode elements) [.call ⟨row.skeleton 0, mode⟩] := by
  refine (Plays.ask _ _).bind_nil fun markup => ?_
  exact (Plays.report _).bind_nil fun _ => Plays.pure _

theorem plays_argumentWith (row : Row) {elements : Run (List Text)} {steps : List Step}
    (h : Plays engine elements steps) :
    Plays engine (row.argumentWith engine elements) (row.argumentSteps steps) := by
  have hp : Plays engine (do
      let markup ← row.compileWith engine .inline (← elements)
      return argumentMarkup markup) (steps ++ [.call ⟨row.skeleton 0, .inline⟩]) := by
    refine h.bind fun es => ?_
    exact (plays_compileWith row .inline es).bind_nil fun _ => Plays.pure _
  cases row with
  | absent => exact Plays.pure _
  | nil | literal _ _ | prescript _ _ _ _ => exact hp

theorem plays_elements (index : Nat) (row : Row) :
    Plays engine (row.elements engine index) (row.steps index) := by
  induction row generalizing index with
  | absent | nil => exact Plays.pure _
  | literal _ rest ih => exact ih index
  | prescript base sub sup rest ihb ihl ihu ihr =>
    have hp : Plays engine (do
        let b ← base.argumentWith engine (base.elements engine 0)
        let l ← sub.argumentWith engine (sub.elements engine 0)
        let u ← sup.argumentWith engine (sup.elements engine 0)
        let others ← rest.elements engine (index + 1)
        return multiscripts b l u :: others) _ :=
      (plays_argumentWith base (ihb 0)).bind fun _ =>
        (plays_argumentWith sub (ihl 0)).bind fun _ =>
          (plays_argumentWith sup (ihu 0)).bind fun _ =>
            (ihr (index + 1)).bind_nil fun _ => Plays.pure _
    rw [Row.elements, Row.steps]
    split
    · exact (Plays.throw _).bind fun _ => hp
    · exact hp

theorem plays_compileSource (source : Text) (mode : Mode) :
    Plays engine (compileSource engine source mode)
      ((Row.ofSource source).steps 0 ++ [.call ⟨(Row.ofSource source).skeleton 0, mode⟩]) :=
  (plays_elements 0 _).bind fun es => plays_compileWith _ mode es

end Rows

/-- The steps are these calls if they fit. Otherwise they are calls from the front, up to the prescript
that finds no placeholder. -/
def Follows (steps : List Step) (calls : List Call) (fits : Prop) : Prop :=
  (fits ∧ steps = calls.map .call) ∨
    (¬fits ∧ ∃ made missed rest, calls = made ++ missed ∧
      steps = made.map .call ++ .fail .noPlaceholder :: rest)

theorem Follows.append {s s' : List Step} {c c' : List Call} {p q : Prop} (h : Follows s c p)
    (h' : Follows s' c' q) : Follows (s ++ s') (c ++ c') (p ∧ q) := by
  rcases h with ⟨hp, rfl⟩ | ⟨hp, made, missed, rest, rfl, rfl⟩
  · rcases h' with ⟨hq, rfl⟩ | ⟨hq, made, missed, rest, rfl, rfl⟩
    · exact .inl ⟨⟨hp, hq⟩, by simp⟩
    · exact .inr ⟨fun h => hq h.2, c ++ made, missed, rest, by simp, by simp⟩
  · exact .inr ⟨fun h => hp h.1, made, missed ++ c', rest ++ s', by simp, by simp⟩

theorem follows_argumentSteps {row : Row} {p : Prop} (h : Follows (row.steps 0) row.nestedCalls p) :
    Follows (row.argumentSteps (row.steps 0)) (row.argumentCalls row.nestedCalls) p := by
  have hc : Follows [.call ⟨row.skeleton 0, .inline⟩] [⟨row.skeleton 0, .inline⟩] True :=
    .inl ⟨trivial, rfl⟩
  have ha := h.append hc
  rw [and_true] at ha
  cases row with
  | absent => exact h
  | nil | literal _ _ | prescript _ _ _ _ => exact ha

theorem follows_steps (index : Nat) (row : Row) :
    Follows (row.steps index) row.nestedCalls (row.FitsFrom placeholderCount index) := by
  induction row generalizing index with
  | absent | nil => exact .inl ⟨trivial, rfl⟩
  | literal _ rest ih => exact ih index
  | prescript base sub sup rest ihb ihl ihu ihr =>
    have hguard : Follows (if placeholderCount ≤ index then [.fail .noPlaceholder] else []) []
        (index < placeholderCount) := by
      split
      · next h => exact .inr ⟨by omega, [], [], [], rfl, rfl⟩
      · next h => exact .inl ⟨by omega, rfl⟩
    have h := hguard.append ((follows_argumentSteps (ihb 0)).append
      ((follows_argumentSteps (ihl 0)).append
        ((follows_argumentSteps (ihu 0)).append (ihr (index + 1)))))
    rw [Row.nestedCalls, List.append_assoc, List.append_assoc]
    exact h

/-- The steps of a source are the calls of the walk up to some place. If the row does not fit, they stop
there, and that is before the row itself is compiled. -/
theorem exists_reach (row : Row) (mode : Mode) :
    ∃ reach ≤ (row.calls mode).length,
      (reach = (row.calls mode).length ↔ row.Fits placeholderCount) ∧
        ∃ s, row.steps 0 ++ [.call ⟨row.skeleton 0, mode⟩] =
            ((row.calls mode).take reach).map .call ++ s ∧
          (row.Fits placeholderCount → s = []) ∧
          (¬row.Fits placeholderCount → ∃ rest, s = .fail .noPlaceholder :: rest) := by
  rcases follows_steps 0 row with ⟨hfits, hs⟩ | ⟨hfits, made, missed, rest, hm, hs⟩
  · refine ⟨_, Nat.le_refl _, iff_of_true rfl hfits, [], ?_, fun _ => rfl, fun h => absurd hfits h⟩
    rw [List.take_length, hs]
    simp [Row.calls]
  · have hw : row.calls mode = made ++ (missed ++ [⟨row.skeleton 0, mode⟩]) := by
      rw [← List.append_assoc, ← hm]
      rfl
    have hl : (row.calls mode).length = made.length + (missed.length + 1) := by simp [hw]
    have ht : (row.calls mode).take made.length = made := by simp [hw]
    refine ⟨made.length, by omega, iff_of_false (by omega) hfits,
      .fail .noPlaceholder :: (rest ++ [.call ⟨row.skeleton 0, mode⟩]), ?_,
      fun h => absurd h hfits, fun _ => ⟨_, rfl⟩⟩
    rw [ht, hs, List.append_assoc, List.cons_append]

/-! ## Answers and failures -/

/-- The engine answers the first `n` of the calls, made one after the other. -/
def AnswersFirst {α : Type} (engine : Engine α) (before calls : List Call) (n : Nat) : Prop :=
  ∀ k c, k < n → calls[k]? = some c → ∃ answer, engine (before ++ calls.take k) c = .ok answer

section Answers

variable {α : Type} {engine : Engine α}

theorem AnswersFirst.tail {before calls : List Call} {c : Call} {n : Nat}
    (h : AnswersFirst engine before (c :: calls) (n + 1)) :
    AnswersFirst engine (before ++ [c]) calls n := by
  intro k d hk hd
  obtain ⟨a, ha⟩ := h (k + 1) d (by omega) hd
  exact ⟨a, by simpa using ha⟩

theorem play_of_answersFirst {before calls : List Call} {n : Nat}
    (h : AnswersFirst engine before calls n) (s : List Step) :
    play engine before ((calls.take n).map .call ++ s) =
      (calls.take n ++ (play engine (before ++ calls.take n) s).1,
        (play engine (before ++ calls.take n) s).2) := by
  induction calls generalizing before n with
  | nil => simp
  | cons c calls ih =>
    cases n with
    | zero => simp
    | succ n =>
      obtain ⟨a, ha⟩ := h 0 c (by omega) rfl
      rw [List.take_zero, List.append_nil] at ha
      simp only [List.take_succ_cons, List.map_cons, List.cons_append, play, ha, ih h.tail]
      simp

/-- The first call that fails is the last one that is made. -/
theorem play_of_failure {before calls : List Call} {n reach : Nat} {c : Call} {failure : Failure}
    (hn : n < reach) (hc : calls[n]? = some c) (h : AnswersFirst engine before calls n)
    (hf : engine (before ++ calls.take n) c = .error failure) (s : List Step) :
    play engine before ((calls.take reach).map .call ++ s) = (calls.take (n + 1), some failure) := by
  induction calls generalizing before n reach with
  | nil => simp at hc
  | cons d calls ih =>
    obtain ⟨reach, rfl⟩ := Nat.exists_eq_succ_of_ne_zero (Nat.ne_zero_of_lt hn)
    cases n with
    | zero =>
      obtain rfl : d = c := by simpa using hc
      rw [List.take_zero, List.append_nil] at hf
      simp [play, hf]
    | succ n =>
      obtain ⟨a, ha⟩ := h 0 d (by omega) rfl
      rw [List.take_zero, List.append_nil] at ha
      have ih := ih (Nat.lt_of_succ_lt_succ hn) hc h.tail (by simpa using hf)
      simp only [List.take_succ_cons, List.map_cons, List.cons_append, play, ha, ih]

theorem exists_ok_of_failure? {result : Except Failure α} (h : failure? result = none) :
    ∃ a, result = .ok a := by
  cases result with
  | ok a => exact ⟨a, rfl⟩
  | error failure => simp [failure?] at h

theorem eq_error_of_failure? {result : Except Failure α} {failure : Failure}
    (h : failure? result = some failure) : result = .error failure := by
  cases result with
  | ok a => simp [failure?] at h
  | error failure => simpa [failure?] using h

variable {β : Type} {x : Run β} {walk : List Call} {reach : Nat} {s : List Step} {t : Trace}

theorem Plays.of_answersFirst (hx : Plays engine x ((walk.take reach).map .call ++ s))
    (h : AnswersFirst engine t.calls walk reach) :
    (outcome x t).2.calls =
        t.calls ++ walk.take reach ++ (play engine (t.calls ++ walk.take reach) s).1 ∧
      failure? (outcome x t).1 = (play engine (t.calls ++ walk.take reach) s).2 := by
  obtain ⟨hc, hf⟩ := hx t
  rw [play_of_answersFirst h] at hc hf
  exact ⟨by rw [hc, List.append_assoc], hf⟩

theorem Plays.of_failure (hx : Plays engine x ((walk.take reach).map .call ++ s)) {n : Nat}
    {c : Call} {failure : Failure} (hn : n < reach) (hc : walk[n]? = some c)
    (h : AnswersFirst engine t.calls walk n)
    (he : engine (t.calls ++ walk.take n) c = .error failure) :
    (outcome x t).2.calls = t.calls ++ walk.take (n + 1) ∧ (outcome x t).1 = .error failure := by
  obtain ⟨hcalls, hf⟩ := hx t
  rw [play_of_failure hn hc h he] at hcalls hf
  exact ⟨hcalls, eq_error_of_failure? hf⟩

end Answers

/-- The calls that a source makes are known before the engine answers: for each prescript those of its
base, its subscript and its superscript, and the row with the placeholders last. If a call fails, it is
the last one, and the run fails with its failure. -/
theorem calls_compileSource (source : Text) (mode : Mode) :
    let row := Row.ofSource source
    let walk := row.calls mode
    walk = row.nestedCalls ++ [⟨row.skeleton 0, mode⟩] ∧ (∀ c ∈ row.nestedCalls, c.mode = .inline) ∧
      ∃ reach ≤ walk.length, (reach = walk.length ↔ row.Fits placeholderCount) ∧
        ∀ (engine : Engine Text) (t : Trace),
          (AnswersFirst engine t.calls walk reach →
            (outcome (compileSource engine source mode) t).2.calls = t.calls ++ walk.take reach ∧
            (row.Fits placeholderCount →
              ∃ markup, (outcome (compileSource engine source mode) t).1 = .ok markup) ∧
            (¬row.Fits placeholderCount →
              (outcome (compileSource engine source mode) t).1 = .error .noPlaceholder)) ∧
          ∀ n c failure, n < reach → walk[n]? = some c → AnswersFirst engine t.calls walk n →
            engine (t.calls ++ walk.take n) c = .error failure →
              (outcome (compileSource engine source mode) t).2.calls =
                t.calls ++ walk.take (n + 1) ∧
              (outcome (compileSource engine source mode) t).1 = .error failure := by
  intro row walk
  refine ⟨rfl, fun c => Row.mode_of_mem_nestedCalls, ?_⟩
  obtain ⟨reach, hle, hreach, s, hs, hfits, hmisfit⟩ := exists_reach row mode
  refine ⟨reach, hle, hreach, fun engine t => ?_⟩
  have hx : Plays engine (compileSource engine source mode) ((walk.take reach).map .call ++ s) :=
    hs ▸ plays_compileSource source mode
  constructor
  · intro h
    obtain ⟨hc, hf⟩ := hx.of_answersFirst h
    by_cases hrow : row.Fits placeholderCount
    · obtain rfl := hfits hrow
      exact ⟨by simpa [play] using hc, fun _ => exists_ok_of_failure? hf, fun h => absurd hrow h⟩
    · obtain ⟨rest, rfl⟩ := hmisfit hrow
      exact ⟨by simpa [play] using hc, fun h => absurd h hrow, fun _ => eq_error_of_failure? hf⟩
  · intro n c failure hn hc h he
    exact hx.of_failure hn hc h he

/-- The superscript is absent, the base is compiled, and the subscript ends the run. -/
theorem calls_compileSource_of_failing_sub :
    let source := "a\\prescript\x7b\x7d\x7bb\x7d\x7bc\x7d".toList
    let failure : Failure := ⟨"ValueError".toList, "b".toList⟩
    let engine : Engine Text := fun _ c =>
      if c.source = "b".toList then .error failure else .ok c.source
    let run := outcome (compileSource engine source .block) .empty
    (Row.ofSource source).calls .block =
        [⟨"c".toList, .inline⟩, ⟨"b".toList, .inline⟩, ⟨['a', placeholder 0], .block⟩] ∧
      run.2.calls = [⟨"c".toList, .inline⟩, ⟨"b".toList, .inline⟩] ∧ run.1 = .error failure := by
  intro source failure engine run
  have hwalk : (Row.ofSource source).calls .block =
      [⟨"c".toList, .inline⟩, ⟨"b".toList, .inline⟩, ⟨['a', placeholder 0], .block⟩] := by
    decide +kernel
  have hfits : (Row.ofSource source).Fits placeholderCount := by decide +kernel
  obtain ⟨-, -, reach, -, hreach, h⟩ := calls_compileSource source .block
  have hanswers : AnswersFirst engine Trace.empty.calls ((Row.ofSource source).calls .block) 1 := by
    intro k c hk hc
    obtain rfl : k = 0 := by omega
    obtain rfl : ⟨"c".toList, .inline⟩ = c := by simpa [hwalk] using hc
    exact ⟨_, rfl⟩
  refine ⟨hwalk, ?_⟩
  have hlt : 1 < reach := by rw [hreach.mpr hfits, hwalk]; decide
  have hrun := (h engine .empty).2 1 ⟨"b".toList, .inline⟩ failure hlt (by rw [hwalk]; rfl) hanswers rfl
  rw [hwalk] at hrun
  exact hrun

/-! ## More prescripts than placeholders -/

def barePrescript : Text :=
  Tex.prescript ++ (braced [] ++ (braced [] ++ braced []))

def barePrescripts (n : Nat) : Text :=
  (List.replicate n barePrescript).flatten

theorem barePrescripts_succ (n : Nat) : barePrescripts (n + 1) = barePrescript ++ barePrescripts n := by
  rw [barePrescripts, List.replicate_succ, List.flatten_cons]
  rfl

theorem opensLetter_barePrescripts (n : Nat) : opensLetter (barePrescripts n) = false := by
  cases n with
  | zero => rfl
  | succ n => rfl

theorem dropSpacing_barePrescripts (n : Nat) : dropSpacing (barePrescripts n) = barePrescripts n := by
  induction n with
  | zero => simp [barePrescripts, dropSpacing]
  | succ n ih =>
    have h := (weight_occurrences (p := hspace) (by decide)).append barePrescript
      (opensLetter_barePrescripts n)
    have hzero : occurrences hspace barePrescript = 0 := by decide
    rw [barePrescripts_succ, dropSpacing_append (by rw [h, hzero, Nat.zero_add]), ih]

theorem items_barePrescripts (n : Nat) :
    items (barePrescripts n) = List.replicate n (.prescript ⟨[], [], []⟩) := by
  induction n with
  | zero => simp [barePrescripts, items]
  | succ n ih =>
    have h := prescript?_written .nil .nil .nil (barePrescripts n)
    rw [barePrescripts_succ, List.replicate_succ, ← ih]
    exact items_prescript h

theorem ofSource_barePrescripts (n : Nat) :
    Row.ofSource (barePrescripts n) = Row.ofItems (List.replicate n (.prescript ⟨[], [], []⟩)) := by
  rw [ofSource_eq_ofItems, dropSpacing_barePrescripts, items_barePrescripts]

theorem nestedCalls_barePrescripts (n : Nat) : (Row.ofSource (barePrescripts n)).nestedCalls = [] := by
  rw [ofSource_barePrescripts]
  induction n with
  | zero => rfl
  | succ n ih => exact ih

theorem length_calls_barePrescripts (n : Nat) (mode : Mode) :
    ((Row.ofSource (barePrescripts n)).calls mode).length = 1 := by
  rw [Row.calls, nestedCalls_barePrescripts]
  rfl

theorem fitsFrom_replicate_iff (n bound index : Nat) :
    (Row.ofItems (List.replicate n (.prescript ⟨[], [], []⟩))).FitsFrom bound index ↔
      n = 0 ∨ index + n ≤ bound := by
  induction n generalizing index with
  | zero => simp [Row.ofItems, Row.FitsFrom]
  | succ n ih =>
    have hargument : argumentRow [] = .absent := rfl
    simp only [List.replicate_succ, Row.ofItems, Row.FitsFrom, hargument, ih, true_and]
    omega

theorem fits_barePrescripts_iff (n bound : Nat) :
    (Row.ofSource (barePrescripts n)).Fits bound ↔ n ≤ bound := by
  rw [ofSource_barePrescripts, Row.Fits, fitsFrom_replicate_iff]
  omega

/-- With more prescripts on a level than there are placeholders, the run ends before any call. -/
theorem outcome_barePrescripts (engine : Engine Text) (mode : Mode) (t : Trace) {n : Nat}
    (hn : placeholderCount < n) :
    let run := outcome (compileSource engine (barePrescripts n) mode) t
    run.2.calls = t.calls ∧ run.1 = .error .noPlaceholder := by
  intro run
  let row := Row.ofSource (barePrescripts n)
  have hmisfit : ¬row.Fits placeholderCount := by
    rw [fits_barePrescripts_iff]
    omega
  have hcalls : (row.calls mode).length = 1 := length_calls_barePrescripts n mode
  obtain ⟨reach, hle, hreach, s, hs, -, hrest⟩ := exists_reach row mode
  obtain ⟨rest, rfl⟩ := hrest hmisfit
  obtain rfl : reach = 0 := by
    rw [hcalls] at hle hreach
    have : reach ≠ 1 := fun h => hmisfit (hreach.mp h)
    omega
  have hx : Plays engine (compileSource engine (barePrescripts n) mode) _ :=
    hs ▸ plays_compileSource (barePrescripts n) mode
  obtain ⟨hc, hf⟩ := hx.of_answersFirst (t := t) (fun k _ hk _ => absurd hk (Nat.not_lt_zero k))
  exact ⟨by simpa [play] using hc, eq_error_of_failure? hf⟩

/-- Spacing that does nothing makes no call, though it is neither blank nor a strut. One prescript too many on
a level, and no call is made at all. -/
theorem calls_compileSource_of_spaced_and_crowded :
    let spaced := "\\prescript\x7b\\hspace\x7b0pt\x7d\x7d\x7b\x7d\x7bx\x7d".toList
    let crowded := barePrescripts (placeholderCount + 1)
    let engine : Engine Text := fun _ c => .ok c.source
    (outcome (compileSource engine spaced .inline) .empty).2.calls =
        [⟨['x'], .inline⟩, ⟨[placeholder 0], .inline⟩] ∧
      ((Row.ofSource crowded).calls .inline).length = 1 ∧
      (outcome (compileSource engine crowded .inline) .empty).2.calls = [] ∧
      (outcome (compileSource engine crowded .inline) .empty).1 = .error .noPlaceholder := by
  intro spaced crowded engine
  exact ⟨by decide +kernel, length_calls_barePrescripts _ _,
    outcome_barePrescripts engine .inline .empty (Nat.lt_succ_self _)⟩

end Formula.Compile
