import Formula.Proofs.Tex.Cursors

/-! # Progress

Every reader that goes over the positions of a text ends behind the position where it has begun, and within
the text. The loops that gather prescripts, set accents and take in scripts go on from position to position
by such readers. None of them can run on for more rounds than there are characters left, and what a loop puts
out is what the recursion over the rest of the text gives.
-/

namespace Formula.Tex

open Text

/-! ## Loops over positions -/

/-- A loop goes from one position to another, by rounds that put out one thing each, and stops where no round
is possible. -/
inductive Loop {α : Type} (round? : Nat → Option (α × Nat)) : Nat → List α → Nat → Prop
  | stop {pos : Nat} : round? pos = none → Loop round? pos [] pos
  | next {pos middle stop : Nat} {a : α} {out : List α} : round? pos = some (a, middle) →
      Loop round? middle out stop → Loop round? pos (a :: out) stop

/-- From every position the loop comes to a stop, after at most one round for each character left. -/
def Ends {α : Type} (text : Text) (round? : Nat → Option (α × Nat)) : Prop :=
  ∀ pos, ∃ out stop, Loop round? pos out stop ∧ out.length ≤ text.length - pos

section Loops

variable {α : Type} {text : Text} {round? : Nat → Option (α × Nat)}

theorem Loop.unique {pos stop stop' : Nat} {out out' : List α} (h : Loop round? pos out stop)
    (h' : Loop round? pos out' stop') : out' = out ∧ stop' = stop := by
  induction h generalizing out' with
  | stop hr =>
    cases h' with
    | stop _ => exact ⟨rfl, rfl⟩
    | next hr' _ => simp [hr] at hr'
  | next hr _ ih =>
    cases h' with
    | stop hr' => simp [hr] at hr'
    | next hr' h' =>
      obtain ⟨rfl, rfl⟩ := Prod.mk.inj (Option.some.inj (hr.symm.trans hr'))
      obtain ⟨rfl, rfl⟩ := ih h'
      exact ⟨rfl, rfl⟩

theorem Loop.iff_of_loop {pos stop stop' : Nat} {out out' : List α} (h : Loop round? pos out stop) :
    Loop round? pos out' stop' ↔ out' = out ∧ stop' = stop := by
  constructor
  · exact h.unique
  · rintro ⟨rfl, rfl⟩
    exact h

theorem Advances.ends (h : Advances text round?) : Ends text round? := by
  intro pos
  -- Each round uses up at least one of the characters left, so the induction is on their number.
  induction hn : text.length - pos using Nat.strongRecOn generalizing pos with
  | ind n ih =>
    cases hr : round? pos with
    | none => exact ⟨[], pos, .stop hr, Nat.zero_le _⟩
    | some p =>
      obtain ⟨a, middle⟩ := p
      obtain ⟨hlt, hle⟩ := h hr
      obtain ⟨out, stop, hloop, hout⟩ := ih (text.length - middle) (by omega) middle rfl
      refine ⟨a :: out, stop, .next hr hloop, ?_⟩
      rw [List.length_cons]
      omega

end Loops

/-! ## The rounds -/

/-- One round of taking in scripts: blanks are skipped, and the script behind them is read. -/
def absorbRound? (text : Text) (pos : Nat) : Option (Script × Nat) :=
  scriptAt? text (skipAt isBlank text pos)

def gatherRound? (text : Text) (pos : Nat) : Option (Segment × Nat) :=
  match text[pos]? with
  | none => none
  | some c =>
    if c = '\\' then
      let name := (controlAt? text pos).getD [c]
      some (.copied name, pos + name.length)
    else match leadingScriptsAt? text pos with
      | none => some (.copied [c], pos + 1)
      | some (l, middle) => match atomAt? text middle with
        | none => some (.copied (text.extract pos middle), middle)
        | some (a, stop) =>
          some (if a.nucleus.isSizing then .copied (text.extract pos stop) else .prescript l a, stop)

def oversetRound? (text : Text) (pos : Nat) : Option (Stretch × Nat) :=
  match text[pos]? with
  | none => none
  | some c =>
    if c ≠ '\\' then some (.copied [c], pos + 1)
    else match accentAt? text pos with
      | none =>
        let name := (controlAt? text pos).getD [c]
        some (.copied name, pos + name.length)
      | some (accent, middle) => match atomAt? text middle with
        | none => some (.copied (text.extract pos middle), middle)
        | some (a, stop) => some (.overset accent a, stop)

section Rounds

variable {text source rest : Text} {pos : Nat}

theorem leadingScriptsAt?_of_leadingScripts? {l : ScriptPair} {middle : Text}
    (h : leadingScripts? (text.take pos).reverse (text.drop pos) = some (l, middle)) :
    leadingScriptsAt? text pos = some (l, text.length - middle.length) ∧
      text.drop (text.length - middle.length) = middle ∧ ∃ c, text[pos]? = some c ∧ c ≠ '\\' := by
  obtain ⟨c, r, ht, hb⟩ := exists_cons_of_leadingScripts? h
  exact ⟨by rw [leadingScriptsAt?_eq, readAt_of_some h], (consumes_leadingScripts? _).drop_stop h, c,
    getElem?_of_drop ht, hb⟩

theorem ReadsSegment.gatherRound?_eq {s : Segment}
    (h : ReadsSegment (text.take pos).reverse (text.drop pos) s source rest) :
    gatherRound? text pos = some (s, pos + source.length) := by
  have heq := h.eq_append
  have hstop := stop_of_drop heq h.source_ne_nil
  have hextract := extract_of_append heq
  generalize ht : text.drop pos = t at h
  cases h with
  | control hc =>
    obtain ⟨r, rfl⟩ := exists_cons_of_control? hc
    have hname := (controlAt?_of_control? (ht ▸ hc)).1
    simp [gatherRound?, getElem?_of_drop ht, hname]
  | backslash =>
    have hname : controlAt? text pos = none := by
      rw [controlAt?_eq, ht]
      rfl
    simp [gatherRound?, getElem?_of_drop ht, hname]
  | char hb hl =>
    have hnone : leadingScriptsAt? text pos = none := by
      rw [leadingScriptsAt?_eq, readAt_of_none (ht ▸ hl)]
    simp [gatherRound?, getElem?_of_drop ht, hb, hnone]
  | lone hl ha =>
    obtain ⟨hleading, hmiddle, c, hc, hb⟩ := leadingScriptsAt?_of_leadingScripts? (ht ▸ hl)
    have hatom : atomAt? text (text.length - rest.length) = none := by
      rw [atomAt?_eq, readAt_of_none (hmiddle.symm ▸ ha)]
    rw [hstop] at hleading hatom
    simp [gatherRound?, hc, hb, hleading, hatom, hextract]
  | @sizing _ middle _ l a hl ha hz =>
    obtain ⟨hleading, hmiddle, c, hc, hb⟩ := leadingScriptsAt?_of_leadingScripts? (ht ▸ hl)
    have hatom : atomAt? text (text.length - middle.length) = some (a, text.length - rest.length) := by
      rw [atomAt?_eq, readAt_of_some (hmiddle.symm ▸ ha)]
    simp [gatherRound?, hc, hb, hleading, hatom, hz, hstop, hextract]
  | @prescript _ middle _ l a hl ha hz =>
    obtain ⟨hleading, hmiddle, c, hc, hb⟩ := leadingScriptsAt?_of_leadingScripts? (ht ▸ hl)
    have hatom : atomAt? text (text.length - middle.length) = some (a, text.length - rest.length) := by
      rw [atomAt?_eq, readAt_of_some (hmiddle.symm ▸ ha)]
    simp [gatherRound?, hc, hb, hleading, hatom, hz, hstop]

theorem ReadsStretch.oversetRound?_eq {s : Stretch}
    (h : ReadsStretch (text.drop pos) s source rest) :
    oversetRound? text pos = some (s, pos + source.length) := by
  have heq := h.eq_append
  have hstop := stop_of_drop heq h.source_ne_nil
  have hextract := extract_of_append heq
  generalize ht : text.drop pos = t at h
  cases h with
  | @char c _ hc =>
    have hname : controlAt? text pos = none := by
      rw [controlAt?_eq, ht, hc]
      rfl
    have hnone : accentAt? text pos = none := by
      rw [accentAt?_eq, readAt_of_none]
      simp [ht, accent?, hc]
    by_cases hb : c = '\\' <;> simp [oversetRound?, getElem?_of_drop ht, hb, hnone, hname]
  | control hc hno =>
    obtain ⟨r, rfl⟩ := exists_cons_of_control? hc
    obtain ⟨hname, hrest, -⟩ := controlAt?_of_control? (ht ▸ hc)
    cases ha : accent? ('\\' :: r) with
    | none =>
      have hnone : accentAt? text pos = none := by rw [accentAt?_eq, readAt_of_none (ht ▸ ha)]
      simp [oversetRound?, getElem?_of_drop ht, hnone, hname]
    | some p =>
      obtain ⟨accent, middle⟩ := p
      obtain ⟨rfl, rfl⟩ := Prod.mk.inj (Option.some.inj (hc.symm.trans (accent?_eq_some_iff.mp ha)))
      have hno : atom? rest = none := by simpa [ha] using hno
      have haccent := accentAt?_of_control? (ht ▸ hc)
      have hatom : atomAt? text (pos + accent.control.length) = none := by
        rw [atomAt?_eq, readAt_of_none (hrest.symm ▸ hno)]
      simp [oversetRound?, getElem?_of_drop ht, haccent, hatom, hextract]
  | @overset _ source rest accent a hc ha =>
    obtain ⟨r, rfl⟩ := exists_cons_of_control? hc
    obtain ⟨-, hrest, -⟩ := controlAt?_of_control? (ht ▸ hc)
    have haccent := accentAt?_of_control? (ht ▸ hc)
    have hatom : atomAt? text (pos + accent.control.length) = some (a, text.length - rest.length) := by
      rw [atomAt?_eq, readAt_of_some (hrest.symm ▸ ha)]
    simp [oversetRound?, getElem?_of_drop ht, haccent, hatom, hstop]

theorem advances_of_parts {α : Type} {round? : Nat → Option (α × Nat)}
    (hnil : ∀ pos, text.drop pos = [] → round? pos = none)
    (hpart : ∀ pos, text.drop pos ≠ [] → ∃ a source rest, source ≠ [] ∧ text.drop pos = source ++ rest ∧
      round? pos = some (a, pos + source.length)) : Advances text round? := by
  intro pos a stop h
  by_cases ht : text.drop pos = []
  · simp [hnil pos ht] at h
  obtain ⟨b, source, rest, hne, e, hr⟩ := hpart pos ht
  obtain ⟨-, rfl⟩ := Prod.mk.inj (Option.some.inj (hr.symm.trans h))
  exact advances_of_drop e hne

theorem advances_absorbRound? (text : Text) : Advances text (absorbRound? text) := by
  intro pos s stop h
  have hskip := skipAt_eq isBlank text pos
  have hstop := advances_scriptAt? text h
  omega

theorem advances_gatherRound? (text : Text) : Advances text (gatherRound? text) := by
  apply advances_of_parts
  · intro pos ht
    simp [gatherRound?, getElem?_eq_none_of_drop ht]
  · intro pos ht
    obtain ⟨s, source, rest, h⟩ := exists_readsSegment (text.take pos).reverse ht
    exact ⟨s, source, rest, h.source_ne_nil, h.eq_append, h.gatherRound?_eq⟩

theorem advances_oversetRound? (text : Text) : Advances text (oversetRound? text) := by
  apply advances_of_parts
  · intro pos ht
    simp [oversetRound?, getElem?_eq_none_of_drop ht]
  · intro pos ht
    obtain ⟨s, source, rest, h⟩ := exists_readsStretch ht
    exact ⟨s, source, rest, h.source_ne_nil, h.eq_append, h.oversetRound?_eq⟩

end Rounds

/-! ## What the loops put out -/

section Output

variable {text : Text} {pos : Nat}

theorem loop_absorbRound? (text : Text) (pos : Nat) :
    Loop (absorbRound? text) pos (scriptsAt text pos).1 (scriptsAt text pos).2 := by
  fun_induction scriptsAt text pos with
  | case1 pos h => exact .stop h
  | case2 pos s stop h more ih => exact .next h ih

theorem loop_gatherRound? (hpos : pos ≤ text.length) :
    Loop (gatherRound? text) pos (segmentsBehind (text.take pos).reverse (text.drop pos)) text.length := by
  generalize hb : (text.take pos).reverse = before
  generalize ht : text.drop pos = t
  induction before, t using segmentsBehind_induction generalizing pos with
  | nil before =>
    have hend : pos = text.length := by
      have := List.drop_eq_nil_iff.mp ht
      omega
    rw [segmentsBehind, hend]
    exact .stop (by simp [gatherRound?])
  | cons before t s source rest hr hsplit ih =>
    subst hb ht
    have hdrop := drop_of_drop hr.eq_append
    have hlen := length_of_drop hr.eq_append hpos
    have htake : (text.take (pos + source.length)).reverse = source.reverse ++ (text.take pos).reverse := by
      rw [List.take_add, hr.eq_append, List.take_left' rfl, List.reverse_append]
    rw [hsplit]
    exact .next hr.gatherRound?_eq (ih (by omega) htake hdrop)

theorem loop_oversetRound? (hpos : pos ≤ text.length) :
    Loop (oversetRound? text) pos (stretches (text.drop pos)) text.length := by
  generalize ht : text.drop pos = t
  induction t using stretches_induction generalizing pos with
  | nil =>
    have hend : pos = text.length := by
      have := List.drop_eq_nil_iff.mp ht
      omega
    rw [stretches, hend]
    exact .stop (by simp [oversetRound?])
  | cons t s source rest hr hsplit ih =>
    subst ht
    have hlen := length_of_drop hr.eq_append hpos
    rw [hsplit]
    exact .next hr.oversetRound?_eq (ih (by omega) (drop_of_drop hr.eq_append))

end Output

/-- The readers stop behind the position where they have begun and within the text, wherever that position is:
a control sequence stands at its position, and groups, scripts, atoms (as bases and as targets of accents
alike), left scripts and accents advance. So do the rounds of the three loops, each of which comes to a stop
and puts out what the splitting of the text gives. -/
theorem readers_advance_and_loops_end (text : Text) :
    ((∀ pos name, controlAt? text pos = some name → name ≠ [] ∧ PartAt text pos (pos + name.length) name) ∧
      Advances text (groupAt? text) ∧ Advances text (scriptAt? text) ∧ Advances text (atomAt? text) ∧
      Advances text (leadingScriptsAt? text) ∧ Advances text (accentAt? text)) ∧
    ((Advances text (absorbRound? text) ∧ Ends text (absorbRound? text)) ∧
      (Advances text (gatherRound? text) ∧ Ends text (gatherRound? text)) ∧
      Advances text (oversetRound? text) ∧ Ends text (oversetRound? text)) ∧
    ((∀ pos ≤ text.length, ∀ out stop, Loop (absorbRound? text) pos out stop ↔
        out = (scripts (text.drop pos)).1 ∧ stop = text.length - (scripts (text.drop pos)).2.length) ∧
      (∀ out stop, Loop (gatherRound? text) 0 out stop ↔ out = segments text ∧ stop = text.length) ∧
      ∀ out stop, Loop (oversetRound? text) 0 out stop ↔ out = stretches text ∧ stop = text.length) ∧
    ∀ pos, controlAt? text pos = (control? (text.drop pos)).map Prod.fst ∧
      groupAt? text pos = readAt group? text pos ∧ scriptAt? text pos = readAt script? text pos ∧
      atomAt? text pos = readAt atom? text pos ∧
      leadingScriptsAt? text pos = readAt (leadingScripts? (text.take pos).reverse) text pos ∧
      accentAt? text pos = readAt accent? text pos := by
  have hgroup : Advances text (groupAt? text) :=
    advances_of_readAt (fun _ => consumes_group?) (groupAt?_eq text)
  have hatom : Advances text (atomAt? text) :=
    advances_of_readAt (fun _ => consumes_atom?) (atomAt?_eq text)
  have hleading : Advances text (leadingScriptsAt? text) :=
    advances_of_readAt (fun _ => consumes_leadingScripts? _) (leadingScriptsAt?_eq text)
  have haccent : Advances text (accentAt? text) :=
    advances_of_readAt (fun _ => consumes_accent?) (accentAt?_eq text)
  have habsorb := advances_absorbRound? text
  have hgather := advances_gatherRound? text
  have hoverset := advances_oversetRound? text
  refine ⟨⟨fun pos name h => partAt_of_controlAt? h, hgroup, advances_scriptAt? text, hatom, hleading, haccent⟩,
    ⟨⟨habsorb, habsorb.ends⟩, ⟨hgather, hgather.ends⟩, hoverset, hoverset.ends⟩, ⟨?_, ?_, ?_⟩, fun pos =>
    ⟨controlAt?_eq text pos, groupAt?_eq text pos, scriptAt?_eq text pos, atomAt?_eq text pos,
      leadingScriptsAt?_eq text pos, accentAt?_eq text pos⟩⟩
  · intro pos hpos out stop
    have hloop := loop_absorbRound? text pos
    rw [scriptsAt_eq hpos] at hloop
    exact hloop.iff_of_loop
  · intro out stop
    exact (loop_gatherRound? (Nat.zero_le _)).iff_of_loop
  · intro out stop
    exact (loop_oversetRound? (Nat.zero_le _)).iff_of_loop

/-- Behind the accent stands its target, and the marker at the end of the text has no value. -/
theorem readers_advance_on_truncated_script :
    let text := "a\\ddot x^\x7b2\x7d_".toList
    controlAt? text 1 = some "\\ddot".toList ∧ PartAt text 1 6 "\\ddot".toList ∧
      accentAt? text 1 = some (.ddot, 6) ∧ (1 < 6 ∧ 6 ≤ text.length) ∧
      atomAt? text 6 = some (⟨[' '], .char 'x', [⟨.sup, ['2']⟩]⟩, 12) ∧ (6 < 12 ∧ 12 ≤ text.length) ∧
      scriptAt? text 12 = none ∧
      Loop (oversetRound? text) 0
        [.copied ['a'], .overset .ddot ⟨[' '], .char 'x', [⟨.sup, ['2']⟩]⟩, .copied ['_']] text.length := by
  intro text
  obtain ⟨⟨hcontrol, -, -, hatom, -, haccent⟩, -, ⟨-, -, hloop⟩, -⟩ := readers_advance_and_loops_end text
  have hname : controlAt? text 1 = some "\\ddot".toList := by decide +kernel
  have hddot : accentAt? text 1 = some (.ddot, 6) := by decide +kernel
  have hx : atomAt? text 6 = some (⟨[' '], .char 'x', [⟨.sup, ['2']⟩]⟩, 12) := by decide +kernel
  exact ⟨hname, (hcontrol 1 _ hname).2, hddot, haccent hddot, hx, hatom hx, by decide +kernel,
    (hloop _ _).mpr ⟨by decide +kernel, rfl⟩⟩

end Formula.Tex
