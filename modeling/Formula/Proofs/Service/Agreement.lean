import Formula.Proofs.Conversion
import Formula.Proofs.Recognition
import Formula.Service.Routes

/-! # Two ways to convert a formula

A recogniser's answer can be sent to be converted as it is, or its formula can be taken out first and then be
sent. Both ways give one description of the formula, whatever the backend does on the way: it is run with the
same source and the same mode, and what it makes is dealt with before the routes differ. The first way also
gives the recogniser's answer back, and so it fails where that cannot be encoded.
-/

namespace Formula.Service

open Compile Conversion Tex Text

def overBackend (backend : Backend) (maxChars : Int) : Service :=
  ⟨maxChars, fun source mode => markupOf backend (some source) (some mode)⟩

/-! ## The description of a formula -/

theorem outcome_lift {α : Type} (x : StateM Trace α) (t : Trace) :
    outcome (liftM x : Run α) t = (.ok (x.run t).1, (x.run t).2) := rfl

/-- The canonical source, the mode that it is converted in, and the markup. -/
def description (latex : Str) (shown : Bool) (markup : Text) : Members :=
  [("latex", .text latex), ("display", .truth shown), ("mathml", .text (latex.map fun _ => markup))]

def converted (backend : Backend) (latex : Text) (shown : Bool) : StateM Trace Text :=
  markupOf backend (some latex) (some (modeOfBool shown))

theorem outcome_describe (backend : Backend) (maxChars : Int) (latex : Str) (display : Option Bool)
    (t : Trace) :
    let shown := display.getD (hasDisplayCue latex.text)
    let made := (converted backend latex.text shown).run t
    outcome ((overBackend backend maxChars).describe latex display) t =
      (.ok (description latex shown made.1), made.2) := by
  intro shown made
  rw [describe, outcome_bind]
  have hlift : outcome ((overBackend backend maxChars).converter latex.text (modeOfBool shown)) t =
      (.ok made.1, made.2) := outcome_lift _ t
  rw [hlift]
  rfl

theorem outcome_canonicalStr (source : Str) (t : Trace) :
    outcome (canonicalStr source) t =
      (.ok (source.map canonical), t.report (canonicalReport source.text)) := by
  rw [canonicalStr, outcome_bind]
  rfl

section Answers

variable (backend : Backend) {maxChars : Int}

theorem oversize?_eq_none {s : Str} (hs : s.text.length ≤ maxChars) :
    (overBackend backend maxChars).oversize? s = none := by
  rw [oversize?, if_neg (by simpa [overBackend] using hs)]

/-- What both routes do with a source once it has been found short enough. -/
theorem outcome_canonicalStr_describe (maxChars : Int) (source : Str) (display : Option Bool) (t : Trace) :
    let latex := source.map canonical
    let shown := display.getD (hasDisplayCue latex.text)
    let made := (converted backend latex.text shown).run (t.report (canonicalReport source.text))
    outcome (canonicalStr source >>= fun s => (overBackend backend maxChars).describe s display) t =
      (.ok (description latex shown made.1), made.2) := by
  intro latex shown made
  rw [outcome_bind, outcome_canonicalStr]
  exact outcome_describe backend maxChars latex display _

theorem run_answer_mathml {source : Str} (hs : source.text.length ≤ maxChars) (display : Option Bool)
    (t : Trace) :
    let latex := source.map canonical
    let shown := display.getD (hasDisplayCue latex.text)
    let made := (converted backend latex.text shown).run (t.report (canonicalReport source.text))
    ((overBackend backend maxChars).answer (.mathml ⟨source, display, true⟩)).run t =
      (.object 200 (description latex shown made.1), made.2) := by
  intro latex shown made
  have hrun : (canonicalStr source >>= fun s =>
      (overBackend backend maxChars).describe s display).run.run t =
      (.ok (description latex shown made.1), made.2) :=
    outcome_canonicalStr_describe backend maxChars source display t
  rw [answer, mathmlRoute, oversize?_eq_none backend hs]
  dsimp only
  rw [if_pos rfl, StateT.run_bind, hrun]
  rfl

theorem run_answer_convert {content : Str} (hs : content.text.length ≤ maxChars) (display : Option Bool)
    (t : Trace) :
    let source := content.map Recognition.formula
    let latex := source.map canonical
    let shown := display.getD (hasDisplayCue latex.text)
    let made := (converted backend latex.text shown).run (t.report (canonicalReport source.text))
    ((overBackend backend maxChars).answer (.convert ⟨content, display⟩)).run t =
      (.object 200 (description latex shown made.1 ++ [("raw", .text content)]), made.2) := by
  intro source latex shown made
  have hrun : (canonicalStr source >>= fun s =>
      (overBackend backend maxChars).describe s display).run.run t =
      (.ok (description latex shown made.1), made.2) :=
    outcome_canonicalStr_describe backend maxChars source display t
  rw [answer, convertRoute, oversize?_eq_none backend hs]
  dsimp only
  rw [StateT.run_bind, hrun]
  rfl

end Answers

/-! ## Responses -/

theorem encodable_description {latex : Str} (h : latex.halves = []) (shown : Bool) (markup : Text) :
    Encodable (description latex shown markup) := by
  simp [description, Value.encodable_text h, Value.encodable_text (Str.halves_map h _)]

section Responses

variable {Request Response : Type} {stack : Stack Request Response}

theorem run_respond {service : Service} {request : Request} {query : Query} {answer : Answer} {t t' : Trace}
    (hread : stack.read request = .ok query) (h : (service.answer query).run t = (answer, t')) :
    (service.respond stack request).run t = (stack.send answer, t') := by
  rw [respond, hread]
  dsimp only
  rw [StateT.run_bind, h]
  rfl

/-- An object that is answered to a query is sent to the request that makes the query, if both can be
encoded. -/
theorem run_respond_ask (hstack : stack.Reliable) {service : Service} {query : Query} {t t' : Trace}
    {status : Nat} {members : Members} (hquery : Encodable query.members) (hmembers : Encodable members)
    (h : (service.answer query).run t = (.object status members, t')) :
    (service.respond stack (stack.ask query)).run t = (stack.object status members, t') := by
  rw [run_respond (hstack.read_ask query hquery) h, hstack.send_object status members hmembers]

end Responses

/-- A recogniser's answer is converted as its formula is, once it has been taken out: with the same answer to
all that is asked of both, the same calls and the same reports. The formula is not longer than the
recogniser's answer, so it is not turned away either. The mode that is shown is the one that the backend is
run with. Both answers are sent, if the recogniser's answer is all characters. -/
theorem answers_agree {Request Response : Type} {stack : Stack Request Response} (hstack : stack.Reliable)
    (backend : Backend) {maxChars : Int} {content : Str} (hs : content.text.length ≤ maxChars)
    (display : Option Bool) (t : Trace) :
    let service := overBackend backend maxChars
    let source := content.map Recognition.formula
    let latex := source.map canonical
    let shown := display.getD (hasDisplayCue latex.text)
    let reported := t.report (canonicalReport source.text)
    let run := outcome (backend latex.text (modeOfBool shown)) reported
    let asIs := Query.convert ⟨content, display⟩
    let takenOut := Query.mathml ⟨source, display, true⟩
    ∃ markup t',
      (service.answer asIs).run t =
        (.object 200 (description latex shown markup ++ [("raw", .text content)]), t') ∧
      (service.answer takenOut).run t = (.object 200 (description latex shown markup), t') ∧
      (allBlank latex.text = true → markup = [] ∧ t' = reported) ∧
      (allBlank latex.text = false →
        markup = replyMarkup run.1 ∧ t' = run.2.report (replyReport latex.text run.1)) ∧
      (content.halves = [] →
        (service.respond stack (stack.ask asIs)).run t =
          (stack.object 200 (description latex shown markup ++ [("raw", .text content)]), t') ∧
        (service.respond stack (stack.ask takenOut)).run t =
          (stack.object 200 (description latex shown markup), t')) := by
  intro service source latex shown reported run asIs takenOut
  have hsource : (source.text.length : Int) ≤ maxChars :=
    Int.le_trans (Int.ofNat_le.mpr (Recognition.length_formula_le content.text)) hs
  have hasIs := run_answer_convert backend hs display t
  have htakenOut := run_answer_mathml backend hsource display t
  refine ⟨((converted backend latex.text shown).run reported).1,
    ((converted backend latex.text shown).run reported).2, hasIs, htakenOut, fun hb => ?_, fun hb => ?_,
    fun hwhole => ?_⟩
  · have h : (converted backend latex.text shown).run reported = ([], reported) :=
      run_markupOf_of_allBlank backend (some latex.text) hb _ reported
    simp [h]
  · have h : (converted backend latex.text shown).run reported =
        (replyMarkup run.1, run.2.report (replyReport latex.text run.1)) :=
      run_markupOf backend (some latex.text) hb (some (modeOfBool shown)) reported
    simp [h]
  · have hformula : source.halves = [] := Str.halves_map hwhole _
    have hlatex : latex.halves = [] := Str.halves_map hformula _
    have hdescription := encodable_description hlatex shown
    have hconvert : Encodable asIs.members := by simp [asIs, Query.members, Value.encodable_text hwhole]
    have hmathml : Encodable takenOut.members := by
      simp [takenOut, Query.members, Value.encodable_text hformula]
    refine ⟨run_respond_ask hstack hconvert ?_ hasIs,
      run_respond_ask hstack hmathml (hdescription _) htakenOut⟩
    exact encodable_append.mpr ⟨hdescription _, by simp [Value.encodable_text hwhole]⟩

/-! ## A plain stack -/

def stringMember (members : Members) (name : String) : Str :=
  match members.lookup name with
  | some (.text s) => s
  | _ => .ofText []

def truthMember? (members : Members) (name : String) : Option Bool :=
  match members.lookup name with
  | some (.truth b) => some b
  | _ => none

/-- A stack that can be relied on. Its requests and responses are just what they bring, and one that fails
brings nothing. -/
def plainStack : Stack (String × String × Members) (Option (Nat × Members)) where
  request method path members := (method, path, members)
  object status members := some (status, members)
  internalError := none
  read := fun (_, path, members) =>
    let display := truthMember? members "display"
    match path with
    | "/health" => .ok .health
    | "/api/normalize" => .ok (.canonical ⟨stringMember members "latex"⟩)
    | "/api/mathml" =>
      .ok (.mathml ⟨stringMember members "latex", display, (truthMember? members "normalize").getD true⟩)
    | "/api/convert" => .ok (.convert ⟨stringMember members "content", display⟩)
    | _ => .error (some (404, []))
  send
    | .object status members => if Encodable members then some (status, members) else none
    | .refusal status detail => some (status, [("detail", .text (.ofText detail))])
    | .failure _ => none

theorem reliable_plainStack : plainStack.Reliable where
  read_ask query _ := by
    cases query with
    | health => rfl
    | canonical form => rfl
    | mathml form =>
      obtain ⟨latex, display, tidies⟩ := form
      cases display <;> rfl
    | convert form =>
      obtain ⟨content, display⟩ := form
      cases display <;> rfl
  send_object _ _ h := if_pos h
  send_of_not_encodable _ _ h := if_neg h

theorem answers_agree_of_dollars :
    let service := overBackend (ask threeWays) 20000
    let content := Str.ofText "$$x$$".toList
    let source := Str.ofText ['x']
    ∃ markup t',
      (service.respond plainStack (plainStack.ask (.convert ⟨content, none⟩))).run .empty =
        (some (200, description source false markup ++ [("raw", .text content)]), t') ∧
      (service.respond plainStack (plainStack.ask (.mathml ⟨source, none, true⟩))).run .empty =
        (some (200, description source false markup), t') ∧
      t'.calls = [⟨['x'], .inline⟩] := by
  intro service content source
  have hsource : content.map Recognition.formula = source := by decide +kernel
  have hlatex : source.map canonical = source := by decide +kernel
  have hs : (content.text.length : Int) ≤ 20000 := by decide
  obtain ⟨markup, t', -, -, -, hrun, hsent⟩ :=
    answers_agree reliable_plainStack (ask threeWays) hs none .empty
  rw [hsource, hlatex] at hrun hsent
  obtain ⟨hconvert, hmathml⟩ := hsent rfl
  refine ⟨markup, t', hconvert, hmathml, ?_⟩
  rw [(hrun (by decide)).2]
  decide +kernel

/-- The recogniser's answer begins with half of a pair. Its formula is converted, and the answer cannot be
sent. -/
theorem not_sent_back_of_half :
    let service := overBackend (ask threeWays) 20000
    let content : Str := ⟨"\uF8FF $$x$$".toList, ['\uF8FF']⟩
    let source := content.map Recognition.formula
    plainStack.Reliable ∧ (content.text.length : Int) ≤ service.maxChars ∧ source = .ofText ['x'] ∧
      ((service.respond plainStack (plainStack.ask (.convert ⟨content, none⟩))).run .empty).1 = none ∧
      ∃ markup,
        ((service.respond plainStack (plainStack.ask (.mathml ⟨source, none, true⟩))).run .empty).1 =
          some (200, description source false markup) := by
  intro service content source
  have hs : (content.text.length : Int) ≤ 20000 := by decide
  have hsource : source = .ofText ['x'] := by decide +kernel
  have hlatex : source.map canonical = source := by decide +kernel
  let asIs := Query.convert ⟨content, none⟩
  let takenOut := Query.mathml ⟨source, none, true⟩
  have hasIs : plainStack.read (plainStack.ask asIs) = .ok asIs := rfl
  have htakenOut : plainStack.read (plainStack.ask takenOut) = .ok takenOut := rfl
  refine ⟨reliable_plainStack, hs, hsource, ?_, ?_⟩
  · rw [run_respond hasIs (run_answer_convert (ask threeWays) hs none .empty)]
    refine reliable_plainStack.send_of_not_encodable _ _ ?_
    simp [Value.encodable]
  · have hs : (source.text.length : Int) ≤ 20000 := by decide +kernel
    have hshown : Option.getD none (hasDisplayCue source.text) = false := by decide +kernel
    have h := run_answer_mathml (ask threeWays) hs none .empty
    dsimp only at h
    rw [hlatex, hshown] at h
    rw [run_respond htakenOut h]
    have hhalves : source.halves = [] := by decide +kernel
    exact ⟨_, reliable_plainStack.send_object _ _ (encodable_description hhalves _ _)⟩

end Formula.Service
