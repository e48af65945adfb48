import Formula.Proofs.Tex.Ordinary
import Formula.Proofs.Tex.Positions

/-! # Readers that go over positions

The readers once more, as they go over the positions of a text. Each is given a position, finds the next ones
by counting what has been read, and answers with the position where it stops. They read what the readers of
the front of a text read. None of them stops where it has begun or past the end of the text, and for that
reason the loop that takes in script after script comes to an end.
-/

namespace Formula.Tex

open Text

/-- The reader takes something off the front of a text and leaves what is behind that. -/
def Consumes {α : Type} (reader : Text → Option (α × Text)) : Prop :=
  ∀ ⦃t a rest⦄, reader t = some (a, rest) → ∃ source, source ≠ [] ∧ t = source ++ rest

/-- What is read at a position of the text ends behind that position and within the text. -/
def Advances {α : Type} (text : Text) (cursor : Nat → Option (α × Nat)) : Prop :=
  ∀ ⦃pos a stop⦄, cursor pos = some (a, stop) → pos < stop ∧ stop ≤ text.length

/-! ## Readers that consume -/

section Consuming

variable {α : Type} {reader : Text → Option (α × Text)} {text rest : Text} {pos : Nat}

theorem Consumes.of_length_lt
    (hs : ∀ t a rest, reader t = some (a, rest) → ∃ source, t = source ++ rest)
    (hl : ∀ t a rest, reader t = some (a, rest) → rest.length < t.length) : Consumes reader := by
  intro t a rest h
  obtain ⟨source, rfl⟩ := hs t a rest h
  refine ⟨source, ?_, rfl⟩
  rintro rfl
  exact lt_irrefl _ (hl _ _ _ h)

theorem Consumes.drop_stop (hc : Consumes reader) {a : α}
    (h : reader (text.drop pos) = some (a, rest)) : text.drop (text.length - rest.length) = rest := by
  obtain ⟨source, -, e⟩ := hc h
  have hsuffix : rest <:+ text.drop pos := ⟨source, e.symm⟩
  exact drop_of_suffix (hsuffix.trans (List.drop_suffix _ _))

theorem advances_of_drop {source : Text} (h : text.drop pos = source ++ rest) (hne : source ≠ []) :
    pos < pos + source.length ∧ pos + source.length ≤ text.length := by
  have hpos := List.length_pos_iff.mpr hne
  have hstop := stop_of_drop h hne
  omega

theorem advances_of_readAt {readers : Nat → Text → Option (α × Text)} {cursor : Nat → Option (α × Nat)}
    (hc : ∀ pos, Consumes (readers pos)) (he : ∀ pos, cursor pos = readAt (readers pos) text pos) :
    Advances text cursor := by
  intro pos a stop h
  rw [he] at h
  obtain ⟨rest, hr, rfl⟩ := readAt_eq_some_iff.mp h
  obtain ⟨source, hne, e⟩ := hc pos hr
  rw [stop_of_drop e hne]
  exact advances_of_drop e hne

theorem ne_nil_of_control? {t name : Text} (h : control? t = some (name, rest)) : name ≠ [] := by
  rintro rfl
  simpa using (eq_append_of_control? h).2

theorem consumes_control? : Consumes control? := by
  intro t name rest h
  exact ⟨name, ne_nil_of_control? h, (eq_append_of_control? h).1⟩

theorem consumes_group? : Consumes group? := by
  intro t content rest h
  exact ⟨braced content, List.cons_ne_nil _ _, eq_append_of_group? h⟩

theorem consumes_script? : Consumes script? := by
  apply Consumes.of_length_lt
  · intro t s rest h
    obtain ⟨-, source, e, -⟩ := balanced_of_script? h
    exact ⟨source, e⟩
  · intro t s rest h
    have := script?_length h
    omega

theorem consumes_nucleus? : Consumes nucleus? := by
  intro t n rest h
  obtain ⟨e, hne⟩ := eq_append_of_nucleus? h
  exact ⟨n.written, hne, e⟩

theorem consumes_atom? : Consumes atom? := by
  apply Consumes.of_length_lt
  · intro t a rest h
    exact exists_source_of_atom? h
  · intro t a rest h
    exact atom?_length h

theorem consumes_leadingScripts? (before : Text) : Consumes (leadingScripts? before) := by
  apply Consumes.of_length_lt
  · intro t l rest h
    obtain ⟨-, source, e, -⟩ := balanced_of_leadingScripts? h
    exact ⟨source, e⟩
  · intro t l rest h
    exact leadingScripts?_length h

theorem consumes_accent? : Consumes accent? := by
  intro t a rest h
  exact consumes_control? (accent?_eq_some_iff.mp h)

end Consuming

/-! ## Runs of characters, control sequences -/

/-- The first position from `pos` on whose character fails the test; the end of the text if there is none. -/
def skipAt (p : Char → Bool) (text : Text) (pos : Nat) : Nat :=
  match _h : text[pos]? with
  | none => pos
  | some c => if p c then skipAt p text (pos + 1) else pos
termination_by text.length - pos
decreasing_by
  have := (List.getElem?_eq_some_iff.mp _h).1
  omega

def controlAt? (text : Text) (pos : Nat) : Option Text :=
  if text[pos]? = some '\\' then
    let stop := skipAt Char.isAlpha text (pos + 1)
    if pos + 1 < stop then some (text.extract pos stop)
    else if pos + 1 < text.length then some (text.extract pos (pos + 2))
    else none
  else none

section Controls

variable {text rest : Text} {pos : Nat}

theorem drop_of_getElem? {c : Char} (h : text[pos]? = some c) : text.drop pos = c :: text.drop (pos + 1) := by
  obtain ⟨hlt, hc⟩ := List.getElem?_eq_some_iff.mp h
  rw [List.drop_eq_getElem_cons hlt, hc]

theorem skipAt_eq (p : Char → Bool) (text : Text) (pos : Nat) :
    skipAt p text pos = pos + ((text.drop pos).takeWhile p).length := by
  fun_induction skipAt p text pos with
  | case1 pos h =>
    rw [List.drop_eq_nil_of_le (List.getElem?_eq_none_iff.mp h)]
    rfl
  | case2 pos c h hp ih =>
    rw [ih, drop_of_getElem? h, List.takeWhile_cons_of_pos hp, List.length_cons]
    omega
  | case3 pos c h hp =>
    rw [drop_of_getElem? h, List.takeWhile_cons_of_neg hp]
    rfl

theorem drop_skipAt (p : Char → Bool) (text : Text) (pos : Nat) :
    text.drop (skipAt p text pos) = (text.drop pos).dropWhile p := by
  rw [skipAt_eq]
  exact drop_of_drop List.takeWhile_append_dropWhile.symm

theorem drop_skipAt_isBlank (text : Text) (pos : Nat) :
    text.drop (skipAt isBlank text pos) = skipBlanks (text.drop pos) :=
  drop_skipAt isBlank text pos

theorem controlAt?_eq (text : Text) (pos : Nat) :
    controlAt? text pos = (control? (text.drop pos)).map Prod.fst := by
  cases h : text.drop pos with
  | nil => simp [controlAt?, getElem?_eq_none_of_drop h, control?]
  | cons b r =>
    have hlen := length_of_drop (show text.drop pos = [b] ++ r from h) (lt_length_of_drop h).le
    rw [controlAt?, getElem?_of_drop h, skipAt_eq, drop_succ_of_drop h]
    by_cases hb : b = '\\'
    · subst hb
      cases r with
      | nil => simp [hlen, control?]
      | cons c r =>
        cases hc : c.isAlpha with
        | true =>
          let name := '\\' :: c :: r.takeWhile Char.isAlpha
          have hname : text.drop pos = name ++ r.dropWhile Char.isAlpha := by
            rw [h, List.cons_append, List.cons_append, List.takeWhile_append_dropWhile]
          have hstop : pos + 1 + ((c :: r).takeWhile Char.isAlpha).length = pos + name.length := by
            rw [List.takeWhile_cons_of_pos hc]
            simp only [name, List.length_cons]
            omega
          have hlt : pos + 1 < pos + name.length := by simp [name]
          simp only [if_true, hstop, hlt, extract_of_append hname]
          simp [control?, hc, name]
        | false =>
          have hextract := extract_of_append (show text.drop pos = ['\\', c] ++ r from h)
          simp_all [control?]
    · simp [control?_of_ne hb, hb]

theorem controlAt?_of_control? {name : Text} (h : control? (text.drop pos) = some (name, rest)) :
    controlAt? text pos = some name ∧ text.drop (pos + name.length) = rest ∧
      text.length - rest.length = pos + name.length := by
  have e := (eq_append_of_control? h).1
  exact ⟨by rw [controlAt?_eq, h]; rfl, drop_of_drop e, stop_of_drop e (ne_nil_of_control? h)⟩

theorem partAt_of_controlAt? {name : Text} (h : controlAt? text pos = some name) :
    name ≠ [] ∧ PartAt text pos (pos + name.length) name := by
  rw [controlAt?_eq] at h
  obtain ⟨⟨name, rest⟩, hc, rfl⟩ := Option.map_eq_some_iff.mp h
  have hne := ne_nil_of_control? hc
  obtain ⟨-, -, hstop⟩ := controlAt?_of_control? hc
  exact ⟨hne, (partAt_iff hne).mpr ⟨rest, (eq_append_of_control? hc).1, hstop.symm⟩⟩

theorem readAt_control?_eq (text : Text) (pos : Nat) :
    readAt control? text pos = (controlAt? text pos).map fun name => (name, pos + name.length) := by
  cases h : control? (text.drop pos) with
  | none => rw [readAt_of_none h, controlAt?_eq, h]; rfl
  | some p =>
    obtain ⟨name, rest⟩ := p
    obtain ⟨hname, -, hstop⟩ := controlAt?_of_control? h
    rw [readAt_of_some h, hname, hstop]
    rfl

end Controls

/-! ## Scripts -/

def scriptValueAt? (text : Text) (i : Nat) : Option (Text × Nat) :=
  match text[i]? with
  | none => none
  | some c =>
    if c = '{' then groupAt? text i
    else if c = '\\' then (controlAt? text i).map fun name => (name, i + name.length)
    else if c = '}' || isMarker c then none
    else some ([c], i + 1)

def scriptAt? (text : Text) (pos : Nat) : Option (Script × Nat) := do
  let c ← text[pos]?
  let marker ← Marker.ofChar? c
  let (value, stop) ← scriptValueAt? text (skipAt isBlank text (pos + 1))
  return (⟨marker, value⟩, stop)

section Scripts

variable (text : Text) (pos : Nat)

theorem scriptValueAt?_eq : scriptValueAt? text pos = readAt scriptValue? text pos := by
  cases h : text.drop pos with
  | nil => simp [scriptValueAt?, getElem?_eq_none_of_drop h, readAt, h, scriptValue?]
  | cons c r =>
    have hchar := stop_of_drop (show text.drop pos = [c] ++ r from h) (List.cons_ne_nil _ _)
    have hgroup := groupAt?_eq text pos
    have hcontrol := readAt_control?_eq text pos
    rw [readAt, h] at hgroup hcontrol
    simp only [scriptValueAt?, getElem?_of_drop h, readAt, h, scriptValue?]
    split_ifs
    · exact hgroup
    · exact hcontrol.symm
    · rfl
    · simp [hchar]

theorem scriptAt?_eq : scriptAt? text pos = readAt script? text pos := by
  cases h : text.drop pos with
  | nil => simp [scriptAt?, getElem?_eq_none_of_drop h, readAt, h, script?]
  | cons c r =>
    have hi : text.drop (skipAt isBlank text (pos + 1)) = skipBlanks r := by
      rw [drop_skipAt_isBlank, drop_succ_of_drop h]
    simp only [scriptAt?, getElem?_of_drop h, scriptValueAt?_eq, readAt, hi, h, script?,
      Option.bind_eq_bind, Option.bind_some]
    cases Marker.ofChar? c with
    | none => rfl
    | some marker => cases scriptValue? (skipBlanks r) <;> rfl

theorem advances_scriptAt? : Advances text (scriptAt? text) :=
  advances_of_readAt (fun _ => consumes_script?) (scriptAt?_eq text)

end Scripts

/-- The scripts from a position on, one after the other, with blanks before each of them skipped. -/
def scriptsAt (text : Text) (pos : Nat) : List Script × Nat :=
  match _h : scriptAt? text (skipAt isBlank text pos) with
  | none => ([], pos)
  | some (s, stop) =>
    let more := scriptsAt text stop
    (s :: more.1, more.2)
termination_by text.length - pos
decreasing_by
  have hskip := skipAt_eq isBlank text pos
  have hstop := advances_scriptAt? text _h
  omega

theorem scriptsAt_eq {text : Text} {pos : Nat} (hpos : pos ≤ text.length) :
    scriptsAt text pos =
      ((scripts (text.drop pos)).1, text.length - (scripts (text.drop pos)).2.length) := by
  fun_induction scriptsAt text pos with
  | case1 pos h =>
    have hnone : script? (skipBlanks (text.drop pos)) = none := by
      rw [scriptAt?_eq, readAt, drop_skipAt_isBlank] at h
      exact Option.map_eq_none_iff.mp h
    rw [scripts_of_none hnone, List.length_drop, Nat.sub_sub_self hpos]
  | case2 pos s stop h more ih =>
    have hstop := (advances_scriptAt? text h).2
    rw [scriptAt?_eq, readAt_eq_some_iff] at h
    obtain ⟨rest, hread, rfl⟩ := h
    have hrest := consumes_script?.drop_stop hread
    rw [drop_skipAt_isBlank] at hread
    rw [hrest] at ih
    rw [scripts_of_some hread]
    simp only [more, ih hstop]

/-! ## Nuclei and atoms -/

def nucleusAt? (text : Text) (pos : Nat) : Option (Nucleus × Nat) :=
  match text[pos]? with
  | none => none
  | some c =>
    if c = '}' || isMarker c then none
    else if c = '\\' then match controlAt? text pos with
      | none => some (.char c, pos + 1)
      | some name =>
        if takesArgument name then match groupAt? text (pos + name.length) with
          | some (argument, stop) => some (.control name (some argument), stop)
          | none => some (.control name none, pos + name.length)
        else some (.control name none, pos + name.length)
    else if c = '{' then (groupAt? text pos).map fun (content, stop) => (.group content, stop)
    else some (.char c, pos + 1)

def atomAt? (text : Text) (pos : Nat) : Option (Atom × Nat) := do
  let start := skipAt isBlank text pos
  let (nucleus, behind) ← nucleusAt? text start
  let (scripts, stop) := scriptsAt text behind
  return (⟨text.extract pos start, nucleus, scripts⟩, stop)

section Atoms

variable (text : Text) (pos : Nat)

theorem nucleusAt?_eq : nucleusAt? text pos = readAt nucleus? text pos := by
  cases h : text.drop pos with
  | nil => simp [nucleusAt?, getElem?_eq_none_of_drop h, readAt, h, nucleus?]
  | cons c r =>
    have hchar := stop_of_drop (show text.drop pos = [c] ++ r from h) (List.cons_ne_nil _ _)
    have hcontrol := controlAt?_eq text pos
    have hgroup := groupAt?_eq text pos
    rw [readAt, h] at hgroup
    rw [h] at hcontrol
    simp only [nucleusAt?, getElem?_of_drop h, readAt, h, nucleus?]
    split_ifs
    · rfl
    · cases hn : control? (c :: r) with
      | none =>
        rw [hn] at hcontrol
        simp [hcontrol, hchar]
      | some p =>
        obtain ⟨name, rest⟩ := p
        have hn' : control? (text.drop pos) = some (name, rest) := h ▸ hn
        obtain ⟨hname, hdrop, hstop⟩ := controlAt?_of_control? hn'
        have hargument := groupAt?_eq text (pos + name.length)
        rw [readAt, hdrop] at hargument
        simp only [hname, hargument]
        split_ifs
        · cases group? rest with
          | none => simp [hstop]
          | some q => rfl
        · simp [hstop]
    · rw [hgroup, Option.map_map, Option.map_map]
      rfl
    · simp [hchar]

theorem atomAt?_eq : atomAt? text pos = readAt atom? text pos := by
  have hstart := drop_skipAt_isBlank text pos
  have hleading : text.extract pos (skipAt isBlank text pos) = (text.drop pos).takeWhile isBlank := by
    rw [skipAt_eq]
    exact extract_of_append List.takeWhile_append_dropWhile.symm
  rw [atomAt?, nucleusAt?_eq, readAt, readAt, atom?, hleading, hstart]
  cases h : nucleus? (skipBlanks (text.drop pos)) with
  | none => rfl
  | some p =>
    obtain ⟨n, rest⟩ := p
    have hdrop := consumes_nucleus?.drop_stop (hstart ▸ h)
    have hs := scriptsAt_eq (Nat.sub_le text.length rest.length)
    rw [hdrop] at hs
    simp only [Option.bind_eq_bind, Option.map_some, Option.bind_some, Option.pure_def, hs]

end Atoms

/-! ## Left scripts -/

/-- Where the scripts behind a lead-in at a position begin. -/
def leadInAt? (text : Text) (pos : Nat) : Option Nat :=
  let before := (text.take pos).reverse
  if startsWith ['{', '}'] (text.drop pos) then
    let start := skipAt isBlank text (pos + 2)
    if awaitsValue before then none
    else if text[start]?.any isMarker then some start
    else none
  else if text[pos]?.any isMarker && opensBare before then some pos
  else none

def leadingScriptsAt? (text : Text) (pos : Nat) : Option (ScriptPair × Nat) := do
  let start ← leadInAt? text pos
  let (first, stop) ← scriptAt? text start
  match scriptAt? text (skipAt isBlank text stop) with
  | none => return (⟨first, none⟩, stop)
  | some (second, stop') =>
    if second.marker = first.marker then return (⟨first, none⟩, stop)
    else return (⟨first, some second⟩, stop')

section LeftScripts

variable (text : Text) (pos : Nat)

theorem leadIn?_suffix {before t start : Text} (h : leadIn? before t = some start) : start <:+ t := by
  rcases leadIn?_source h with rfl | ⟨r, rfl, rfl⟩
  · exact List.suffix_rfl
  · exact (skipBlanks_suffix r).trans (List.suffix_append ['{', '}'] r)

theorem opensScript_drop : opensScript (text.drop pos) = text[pos]?.any isMarker := by
  rw [opensScript, List.head?_drop]

/-- A lead-in is found at the position where what the reader of lead-ins leaves begins. -/
theorem leadInAt?_eq :
    leadInAt? text pos =
      (leadIn? (text.take pos).reverse (text.drop pos)).map fun start => text.length - start.length := by
  rw [leadInAt?, leadIn?, startsWith]
  cases h : after? ['{', '}'] (text.drop pos) with
  | none =>
    have hstart : text[pos]?.any isMarker = true → text.length - (text.drop pos).length = pos := by
      intro hm
      obtain ⟨c, hc, -⟩ := (Option.any_eq_true _ _).mp hm
      have hlt := (List.getElem?_eq_some_iff.mp hc).1
      rw [List.length_drop]
      omega
    simp only [Option.isSome_none, Bool.false_eq_true, if_false, opensScript_drop, Bool.and_eq_true]
    split_ifs with hm
    · rw [Option.map_some, hstart hm.1]
    · rfl
  | some r =>
    let lead := ['{', '}'] ++ r.takeWhile isBlank
    have hlead : text.drop pos = lead ++ skipBlanks r := by
      rw [after?_eq_some_iff.mp h, List.append_assoc, takeWhile_isBlank_append_skipBlanks]
    have hr : text.drop (pos + 2) = r := drop_of_drop (after?_eq_some_iff.mp h)
    have hstart : skipAt isBlank text (pos + 2) = pos + lead.length := by
      rw [skipAt_eq, hr, List.length_append]
      exact Nat.add_assoc _ _ _
    have hstop := stop_of_drop hlead (List.cons_ne_nil _ _)
    simp only [Option.isSome_some, if_true, hstart, ← opensScript_drop, drop_of_drop hlead]
    cases awaitsValue (text.take pos).reverse <;> cases opensScript (skipBlanks r) <;> simp [hstop]

theorem leadingScriptsAt?_eq :
    leadingScriptsAt? text pos = readAt (leadingScripts? (text.take pos).reverse) text pos := by
  rw [leadingScriptsAt?, leadInAt?_eq, readAt, leadingScripts?]
  cases hl : leadIn? (text.take pos).reverse (text.drop pos) with
  | none => rfl
  | some start =>
    have hstart : text.drop (text.length - start.length) = start :=
      drop_of_suffix ((leadIn?_suffix hl).trans (List.drop_suffix _ _))
    simp only [Option.bind_eq_bind, Option.map_some, Option.bind_some, scriptAt?_eq, readAt, hstart]
    cases hf : script? start with
    | none => rfl
    | some p =>
      obtain ⟨first, rest⟩ := p
      have hrest : text.drop (text.length - rest.length) = rest := consumes_script?.drop_stop (hstart ▸ hf)
      have hskip : text.drop (skipAt isBlank text (text.length - rest.length)) = skipBlanks rest := by
        rw [drop_skipAt_isBlank, hrest]
      simp only [Option.map_some, Option.bind_some, hskip]
      cases script? (skipBlanks rest) with
      | none => rfl
      | some q =>
        simp only [Option.map_some]
        split_ifs <;> rfl

end LeftScripts

/-! ## Accents -/

/-- The accent at a position, with no letter behind it. The longer one is tried first. -/
def accentAt? (text : Text) (pos : Nat) : Option (Accent × Nat) := do
  let accent ← [Accent.ddot, .dot].find? fun a => startsWith a.control (text.drop pos)
  let stop := pos + accent.control.length
  if text[stop]?.any Char.isAlpha then none
  else return (accent, stop)

theorem accentAt?_eq (text : Text) (pos : Nat) : accentAt? text pos = readAt accent? text pos := by
  have hletter : ∀ (a : Accent) (rest : Text), after? a.control (text.drop pos) = some rest →
      text[pos + a.control.length]?.any Char.isAlpha = opensLetter rest ∧
        text.length - rest.length = pos + a.control.length := by
    intro a rest h
    have e := after?_eq_some_iff.mp h
    refine ⟨?_, stop_of_drop e (by cases a <;> exact List.cons_ne_nil _ _)⟩
    rw [opensLetter, ← drop_of_drop e, List.head?_drop]
  have hspelling : accent? (text.drop pos) = accentBySpelling? (text.drop pos) := (accentBySpelling?_eq _).symm
  rw [readAt, hspelling, accentAt?, accentBySpelling?]
  cases hddot : after? Accent.ddot.control (text.drop pos) with
  | some rest =>
    obtain ⟨ho, hstop⟩ := hletter .ddot rest hddot
    cases hl : opensLetter rest <;> simp [startsWith, hddot, ho, hl, Option.filter, hstop]
  | none =>
    cases hdot : after? Accent.dot.control (text.drop pos) with
    | some rest =>
      obtain ⟨ho, hstop⟩ := hletter .dot rest hdot
      cases hl : opensLetter rest <;> simp [startsWith, hddot, hdot, ho, hl, Option.filter, hstop]
    | none => simp [startsWith, hddot, hdot]

theorem accentAt?_of_control? {text rest : Text} {pos : Nat} {a : Accent}
    (h : control? (text.drop pos) = some (a.control, rest)) :
    accentAt? text pos = some (a, pos + a.control.length) := by
  obtain ⟨-, -, hstop⟩ := controlAt?_of_control? h
  rw [accentAt?_eq, readAt_of_some (accent?_eq_some_iff.mpr h), hstop]

end Formula.Tex
