import Formula.Proofs.Tex.Searching
import Formula.Proofs.Tex.TextBlock

/-! # Cleaning by searches

Each step of cleaning looks for a command and writes something for it. Bold takes three searches, one for
each kind of argument. All of them are in step with the tokens, and come to what the passes over tokens
come to.
-/

namespace Formula.Tex

open Text

/-! ## What stands behind the commands -/

theorem endsEscaping_of_forall {u : Text} (hu : ∀ c ∈ u, c ≠ '\\') : endsEscaping u = false := by
  rw [endsEscaping, beq_eq_false_iff_ne]
  intro h
  exact hu _ (List.mem_of_getLast? h) rfl

theorem exists_taken {t u rest : Text} (h : skipBlanks t = u ++ rest) (hu : endsEscaping u = false) :
    ∃ v, t = v ++ rest ∧ endsEscaping v = false := by
  refine ⟨t.takeWhile isBlank ++ u, ?_, ?_⟩
  · rw [List.append_assoc, ← h, takeWhile_isBlank_append_skipBlanks]
  · rw [endsEscaping_append]
    split
    · exact endsEscaping_of_forall fun _ hc => (ne_of_isBlank (List.mem_takeWhile_imp hc)).1
    · exact hu

theorem skipBlanks_of_opensLetter {t : Text} (h : opensLetter t = true) :
    ∃ c r, t = c :: r ∧ c.isAlpha = true ∧ skipBlanks t = t := by
  cases t with
  | nil => cases h
  | cons c r =>
    have hc : c.isAlpha = true := by simpa [opensLetter] using h
    have hb : isBlank c = false := by
      by_contra hb
      rw [isAlpha_of_isBlank (by simpa using hb)] at hc
      cases hc
    exact ⟨c, r, rfl, hc, List.dropWhile_cons_of_neg (by simp [hb])⟩

def beforeGroup? (t : Text) : Option (Text × Text) :=
  if (skipBlanks t).head? = some '{' then some ([], skipBlanks t) else none

def boldControl? (t : Text) : Option (Text × Text) :=
  match control? (skipBlanks t) with
  | some (name, rest) => if isWordControl name then some (name, rest) else none
  | none => none

/-- At least one blank, and a letter or digit. -/
def boldChar? (t : Text) : Option (Text × Text) :=
  if t.head?.any isBlank then match skipBlanks t with
    | c :: rest => if c.isAlphanum then some ([c], rest) else none
    | [] => none
  else none

theorem taken_of_beforeGroup? {t argument rest : Text} (h : beforeGroup? t = some (argument, rest)) :
    opensLetter t = false ∧ (skipBlanks t).head? = some '{' ∧ argument = [] ∧ rest = skipBlanks t := by
  unfold beforeGroup? at h
  split at h
  · next hh =>
    obtain ⟨rfl, rfl⟩ := Prod.mk.inj (Option.some.inj h)
    refine ⟨?_, hh, rfl, rfl⟩
    by_contra ho
    obtain ⟨c, r, rfl, hc, hs⟩ := skipBlanks_of_opensLetter (by simpa using ho)
    rw [hs] at hh
    obtain rfl : c = '{' := by simpa using hh
    exact absurd hc (by decide)
  · cases h

theorem taken_of_boldControl? {t argument rest : Text} (h : boldControl? t = some (argument, rest)) :
    opensLetter t = false ∧ control? (skipBlanks t) = some (argument, rest) ∧
      isWordControl argument = true := by
  unfold boldControl? at h
  split at h
  · next name r hc =>
    split at h
    · next hw =>
      obtain ⟨rfl, rfl⟩ := Prod.mk.inj (Option.some.inj h)
      refine ⟨?_, hc, hw⟩
      by_contra ho
      obtain ⟨c, r, rfl, halpha, hs⟩ := skipBlanks_of_opensLetter (by simpa using ho)
      rw [hs, control?_of_ne] at hc
      · cases hc
      · rintro rfl
        exact absurd halpha (by decide)
    · cases h
  · cases h

theorem taken_of_boldChar? {t argument rest : Text} (h : boldChar? t = some (argument, rest)) :
    opensLetter t = false ∧ t.head?.any isBlank = true ∧
      ∃ c, argument = [c] ∧ c.isAlphanum = true ∧ skipBlanks t = c :: rest := by
  unfold boldChar? at h
  split at h
  · next hb =>
    split at h
    · next c r hs =>
      split at h
      · next hc =>
        obtain ⟨rfl, rfl⟩ := Prod.mk.inj (Option.some.inj h)
        refine ⟨?_, hb, c, rfl, hc, hs⟩
        cases t with
        | nil => rfl
        | cons d t => exact opensLetter_cons (isAlpha_of_isBlank (by simpa using hb)) t
      · cases h
    · cases h
  · cases h

/-! ## The searches -/

/-- `\limits` in front of no letter is dropped. -/
def limitsSearch : Rewriting where
  names := [limits]
  behind? t := if opensLetter t then none else some ([], t)
  isWordControl := by decide
  ends h := by
    split at h
    · cases h
    · next ho => simpa using ho
  taken {t _ _} h := by
    split at h
    · cases h
    · obtain ⟨-, rfl⟩ := Prod.mk.inj (Option.some.inj h)
      exact ⟨[], rfl, rfl⟩
  act? h := some ([], h.rest)

def boldGroupSearch : Rewriting where
  names := [bm]
  behind? := beforeGroup?
  isWordControl := by decide
  ends h := (taken_of_beforeGroup? h).1
  taken h := by
    obtain ⟨-, -, -, rfl⟩ := taken_of_beforeGroup? h
    exact exists_taken (u := []) rfl rfl
  act? h := some (mathbf, h.rest)

def boldControlSearch : Rewriting where
  names := [bm]
  behind? := boldControl?
  isWordControl := by decide
  ends h := (taken_of_boldControl? h).1
  taken h := by
    obtain ⟨-, hc, hw⟩ := taken_of_boldControl? h
    obtain ⟨c, w, rfl, hletters⟩ := exists_letters_of_isWordControl hw
    exact exists_taken (eq_append_of_control? hc).1 (endsEscaping_of_letters hletters)
  act? h := some (mathbf ++ braced h.argument, h.rest)

def boldCharSearch : Rewriting where
  names := [bm]
  behind? := boldChar?
  isWordControl := by decide
  ends h := (taken_of_boldChar? h).1
  taken h := by
    obtain ⟨-, -, c, -, hc, hs⟩ := taken_of_boldChar? h
    refine exists_taken (u := [c]) hs (endsEscaping_of_forall ?_)
    rintro d hd rfl
    obtain rfl := List.mem_singleton.mp hd
    exact absurd hc (by decide)
  act? h := some (mathbf ++ braced h.argument, h.rest)

/-- The command of a text block is kept, with the blanks behind it. -/
def textBlockSearch : Rewriting where
  names := textCommands
  behind? := beforeGroup?
  isWordControl := by decide
  ends h := (taken_of_beforeGroup? h).1
  taken h := by
    obtain ⟨-, -, -, rfl⟩ := taken_of_beforeGroup? h
    exact exists_taken (u := []) rfl rfl
  act? h := (group? h.rest).map fun (body, rest) => (h.taken ++ braced (tidyBlanks body), rest)

def unifyBoldBySearch (t : Text) : Text :=
  boldCharSearch.run (boldControlSearch.run (boldGroupSearch.run t))

def cleanBySearch (t : Text) : Text :=
  textBlockSearch.run (unifyBoldBySearch (limitsSearch.run t))

/-! ## What stands behind a token -/

namespace Tokenized

variable {ts : List Text}

theorem exists_cons {u r : Text} (h : Tokenized ts) (hr : ReadsToken ts.flatten u r) :
    ∃ us, ts = u :: us ∧ us.flatten = r :=
  ⟨tokens r, h.symm.trans hr.tokens_eq, flatten_tokens r⟩

theorem exists_cons_char {c : Char} {r : Text} (h : Tokenized ts) (hc : c ≠ '\\')
    (e : ts.flatten = c :: r) : ∃ us, ts = [c] :: us ∧ us.flatten = r := by
  have hr : ReadsToken ts.flatten [c] r := e ▸ .char hc
  exact h.exists_cons hr

theorem head?_flatten (h : Tokenized ts) :
    ts.flatten.head?.any isBlank = ts.head?.any isBlankToken := by
  cases ts with
  | nil => rfl
  | cons u ts =>
    obtain ⟨hu, -⟩ := cons_iff.mp h
    rw [List.flatten_cons, List.head?_cons, Option.any_some]
    generalize ts.flatten = r at hu ⊢
    generalize e : u ++ r = t at hu ⊢
    cases hu with
    | control hc =>
      obtain ⟨hw, -⟩ | ⟨c, rfl, -⟩ := control?_cases hc
      · obtain ⟨c, w, rfl, -⟩ := exists_letters_of_isWordControl hw
        rw [← e]
        rfl
      · rw [← e]
        rfl
    | char _ | backslash => rfl

theorem skipBlanks_flatten (h : Tokenized ts) :
    skipBlanks ts.flatten = (skipBlankTokens ts).flatten := by
  induction ts with
  | nil => rfl
  | cons u ts ih =>
    have hh := h.head?_flatten
    rw [List.head?_cons, Option.any_some] at hh
    obtain ⟨hu, hts⟩ := cons_iff.mp h
    cases hb : isBlankToken u with
    | true =>
      obtain ⟨c, rfl, hc⟩ : ∃ c, u = [c] ∧ isBlank c = true := by
        unfold isBlankToken at hb
        split at hb
        · exact ⟨_, rfl, hb⟩
        · cases hb
      rw [skipBlankTokens, List.dropWhile_cons_of_pos hb, ← skipBlankTokens, ← ih hts, skipBlanks,
        skipBlanks, List.flatten_cons, List.singleton_append, List.dropWhile_cons_of_pos hc]
    | false =>
      rw [hb] at hh
      rw [skipBlankTokens, List.dropWhile_cons_of_neg (by simp [hb]), skipBlanks]
      cases hf : (u :: ts).flatten with
      | nil => rfl
      | cons c r =>
        rw [hf] at hh
        exact List.dropWhile_cons_of_neg (by simpa using hh)

theorem skipped (h : Tokenized ts) : Tokenized (skipBlankTokens ts) :=
  h.dropWhile isBlankToken

theorem beforeGroup?_eq_some_iff (h : Tokenized ts) {argument rest : Text} :
    beforeGroup? ts.flatten = some (argument, rest) ↔
      (skipBlankTokens ts).head? = some ['{'] ∧ argument = [] ∧ rest = (skipBlankTokens ts).flatten := by
  constructor
  · intro hb
    obtain ⟨-, hh, rfl, rfl⟩ := taken_of_beforeGroup? hb
    rw [h.skipBlanks_flatten] at hh ⊢
    obtain ⟨r, hr⟩ := List.head?_eq_some_iff.mp hh
    obtain ⟨us, hus, -⟩ := h.skipped.exists_cons_char (by decide) hr
    exact ⟨by rw [hus]; rfl, rfl, rfl⟩
  · rintro ⟨hh, rfl, rfl⟩
    obtain ⟨us, hus⟩ := List.head?_eq_some_iff.mp hh
    rw [beforeGroup?, h.skipBlanks_flatten, if_pos (by rw [hus]; rfl)]

theorem boldControl?_eq_some_iff (h : Tokenized ts) {argument rest : Text} :
    boldControl? ts.flatten = some (argument, rest) ↔
      ∃ us, skipBlankTokens ts = argument :: us ∧ isWordControl argument = true ∧ us.flatten = rest := by
  constructor
  · intro hb
    obtain ⟨-, hc, hw⟩ := taken_of_boldControl? hb
    rw [h.skipBlanks_flatten] at hc
    obtain ⟨us, hus, hr⟩ := h.skipped.exists_cons (.control hc)
    exact ⟨us, hus, hw, hr⟩
  · rintro ⟨us, hus, hw, rfl⟩
    have hu := (cons_iff.mp (hus ▸ h.skipped)).1
    have hc := control?_of_isWordControl hw (hu.opensLetter_eq_false hw)
    rw [boldControl?, h.skipBlanks_flatten, hus, List.flatten_cons, hc]
    exact if_pos hw

theorem boldChar?_eq_some_iff (h : Tokenized ts) {argument rest : Text} :
    boldChar? ts.flatten = some (argument, rest) ↔
      ts.head?.any isBlankToken = true ∧
        ∃ us, skipBlankTokens ts = argument :: us ∧ isAlphanumToken argument = true ∧ us.flatten = rest := by
  rw [← h.head?_flatten]
  constructor
  · intro hb
    obtain ⟨-, hh, c, rfl, hc, hs⟩ := taken_of_boldChar? hb
    rw [h.skipBlanks_flatten] at hs
    have hne : c ≠ '\\' := by
      rintro rfl
      exact absurd hc (by decide)
    obtain ⟨us, hus, hr⟩ := h.skipped.exists_cons_char hne hs
    exact ⟨hh, us, hus, hc, hr⟩
  · rintro ⟨hh, us, hus, hw, rfl⟩
    unfold isAlphanumToken at hw
    split at hw
    · rw [boldChar?, if_pos hh, h.skipBlanks_flatten, hus]
      exact if_pos hw
    · cases hw

end Tokenized

/-! ## The searches and the passes -/

theorem upTo_skipBlanks (t : Text) : upTo (skipBlanks t) t = t.takeWhile isBlank := by
  have h := upTo_append (t.takeWhile isBlank) (skipBlanks t)
  rwa [takeWhile_isBlank_append_skipBlanks] at h

theorem Rewriting.inStep_of_forall {p : Rewriting}
    (hp : ∀ h, ∃ new, p.act? h = some (new, h.rest)) : p.InStep where
  resumes {h _ _} e := by
    obtain ⟨new, hn⟩ := hp h
    obtain ⟨-, rfl⟩ := Prod.mk.inj (Option.some.inj (hn.symm.trans e))
    rfl
  leaves {_ taken argument rest} _ e := by
    obtain ⟨new, hn⟩ := hp ⟨taken, argument, rest⟩
    rw [hn] at e
    cases e

theorem inStep_limitsSearch : limitsSearch.InStep :=
  Rewriting.inStep_of_forall fun _ => ⟨_, rfl⟩

theorem inStep_boldGroupSearch : boldGroupSearch.InStep :=
  Rewriting.inStep_of_forall fun _ => ⟨_, rfl⟩

theorem inStep_boldControlSearch : boldControlSearch.InStep :=
  Rewriting.inStep_of_forall fun _ => ⟨_, rfl⟩

theorem inStep_boldCharSearch : boldCharSearch.InStep :=
  Rewriting.inStep_of_forall fun _ => ⟨_, rfl⟩

/-- Behind a block the search is at the closing brace, which no find takes. -/
theorem inStep_textBlockSearch : textBlockSearch.InStep where
  resumes {h new rest} e := by
    obtain ⟨⟨body, behind⟩, hg, e⟩ := Option.map_eq_some_iff.mp e
    obtain ⟨-, rfl⟩ := Prod.mk.inj e
    have hshut : ∀ {t : Text} {h : Hit}, textBlockSearch.hit? t = some h → '}' ∉ h.taken := by
      intro t h hh hm
      obtain ⟨name, hn, r, hr, hb, ht⟩ := Search.exists_readsToken_of_hit? hh
      obtain ⟨-, -, -, hrest⟩ := taken_of_beforeGroup? hb
      have hname : ∀ name ∈ textCommands, '}' ∉ name := by decide
      have htaken : h.taken = name ++ r.takeWhile isBlank := by
        have hup := upTo_append (name ++ r.takeWhile isBlank) (skipBlanks r)
        rwa [List.append_assoc, takeWhile_isBlank_append_skipBlanks, ← hr.eq_append, ← hrest, ← ht] at hup
      rw [htaken, List.mem_append] at hm
      rcases hm with hm | hm
      · exact hname name hn hm
      · exact absurd (List.mem_takeWhile_imp hm) (by decide)
    obtain ⟨fs, hfs, hstart⟩ := Search.exists_finds_append (by decide) hshut behind false ('{' :: body)
    rw [eq_append_of_group? hg, braced, List.append_assoc, List.singleton_append, hfs,
      Rewriting.writeFrom_append hstart, Rewriting.run]
  leaves {t _ _ _} hb _ := by
    obtain ⟨-, -, -, rfl⟩ := taken_of_beforeGroup? hb
    rw [upTo_skipBlanks]
    exact fun c hc => (ne_of_isBlank (List.mem_takeWhile_imp hc)).1

namespace Rewriting.InStep

variable {p : Rewriting} (hp : p.InStep) {u : Text} {ts : List Text} (h : Tokenized (u :: ts))

include hp h

theorem run_flatten_of_none {us : List Text} (hb : u ∈ p.names → ∀ a, p.behind? ts.flatten ≠ some a)
    (hts : Tokenized ts → p.run ts.flatten = us.flatten) : p.run (u :: ts).flatten = (u :: us).flatten := by
  obtain ⟨hu, ht⟩ := Tokenized.cons_iff.mp h
  have ha : p.answer? u ts.flatten = none := answer?_eq_none fun hm _ _ h => absurd h (hb hm _)
  rw [List.flatten_cons, List.flatten_cons, ← hts ht]
  exact hp.run_of_none hu ha

theorem run_flatten_of_some (hu : u ∈ p.names) {argument rest new rest' : Text}
    (hb : p.behind? ts.flatten = some (argument, rest))
    (ha : p.act? ⟨u ++ upTo rest ts.flatten, argument, rest⟩ = some (new, rest')) :
    p.run (u :: ts).flatten = new ++ p.run rest' :=
  hp.run_of_some (Tokenized.cons_iff.mp h).1 ((answer?_of_mem hu hb).trans ha)

end Rewriting.InStep

theorem run_limitsSearch_flatten {ts : List Text} (h : Tokenized ts) :
    limitsSearch.run ts.flatten = (ts.filter (· ≠ limits)).flatten := by
  induction ts with
  | nil => exact Rewriting.run_nil
  | cons u ts ih =>
    obtain ⟨hu, hts⟩ := Tokenized.cons_iff.mp h
    by_cases hl : u = limits
    · subst hl
      have ho : opensLetter ts.flatten = false := hu.opensLetter_eq_false (by decide)
      have hb : limitsSearch.behind? ts.flatten = some ([], ts.flatten) := by simp [limitsSearch, ho]
      rw [inStep_limitsSearch.run_flatten_of_some h List.mem_cons_self hb rfl, ih hts,
        List.filter_cons_of_neg (by simp), List.nil_append]
    · rw [List.filter_cons_of_pos (by simpa using hl)]
      exact inStep_limitsSearch.run_flatten_of_none h (fun hm => absurd (List.mem_singleton.mp hm) hl) ih

theorem run_boldGroupSearch_flatten {ts : List Text} (h : Tokenized ts) :
    boldGroupSearch.run ts.flatten = (boldGroups ts).flatten := by
  fun_induction boldGroups ts with
  | case1 => exact Rewriting.run_nil
  | case2 t ts ht ih =>
    obtain ⟨rfl, hh⟩ := ht
    have hts := (Tokenized.cons_iff.mp h).2
    have hb := hts.beforeGroup?_eq_some_iff.mpr ⟨hh, rfl, rfl⟩
    rw [inStep_boldGroupSearch.run_flatten_of_some h List.mem_cons_self hb rfl, ih hts.skipped,
      List.flatten_cons]
  | case3 t ts ht ih =>
    have hts := (Tokenized.cons_iff.mp h).2
    refine inStep_boldGroupSearch.run_flatten_of_none h (fun hm a hb => ht ?_) ih
    exact ⟨List.mem_singleton.mp hm, (hts.beforeGroup?_eq_some_iff.mp hb).1⟩

theorem run_boldControlSearch_flatten {ts : List Text} (h : Tokenized ts) :
    boldControlSearch.run ts.flatten = (boldControls ts).flatten := by
  fun_induction boldControls ts with
  | case1 => exact Rewriting.run_nil
  | case2 ts u us hs hw ih =>
    have hts := (Tokenized.cons_iff.mp h).2
    have hus : Tokenized us := (Tokenized.cons_iff.mp (hs ▸ hts.skipped)).2
    have hb := hts.boldControl?_eq_some_iff.mpr ⟨us, hs, hw, rfl⟩
    rw [inStep_boldControlSearch.run_flatten_of_some h List.mem_cons_self hb rfl, ih hus]
    simp [braced]
  | case3 ts u us hs hw ih =>
    have hts := (Tokenized.cons_iff.mp h).2
    refine inStep_boldControlSearch.run_flatten_of_none h (fun _ a hb => ?_) ih
    obtain ⟨vs, hvs, hv, -⟩ := hts.boldControl?_eq_some_iff.mp hb
    obtain ⟨rfl, -⟩ := List.cons.inj (hs.symm.trans hvs)
    exact hw hv
  | case4 ts hs ih =>
    have hts := (Tokenized.cons_iff.mp h).2
    refine inStep_boldControlSearch.run_flatten_of_none h (fun _ a hb => ?_) ih
    obtain ⟨vs, hvs, -⟩ := hts.boldControl?_eq_some_iff.mp hb
    exact List.cons_ne_nil _ _ (hvs.symm.trans hs)
  | case5 t ts ht ih =>
    exact inStep_boldControlSearch.run_flatten_of_none h (fun hm => absurd (List.mem_singleton.mp hm) ht) ih

theorem run_boldCharSearch_flatten {ts : List Text} (h : Tokenized ts) :
    boldCharSearch.run ts.flatten = (boldChars ts).flatten := by
  fun_induction boldChars ts with
  | case1 => exact Rewriting.run_nil
  | case2 t ts ht u us hs hw ih =>
    obtain ⟨rfl, hh⟩ := ht
    have hts := (Tokenized.cons_iff.mp h).2
    have hus : Tokenized us := (Tokenized.cons_iff.mp (hs ▸ hts.skipped)).2
    have hb := hts.boldChar?_eq_some_iff.mpr ⟨hh, us, hs, hw, rfl⟩
    rw [inStep_boldCharSearch.run_flatten_of_some h List.mem_cons_self hb rfl, ih hus]
    simp [braced]
  | case3 t ts ht u us hs hw ih =>
    have hts := (Tokenized.cons_iff.mp h).2
    refine inStep_boldCharSearch.run_flatten_of_none h (fun _ a hb => ?_) ih
    obtain ⟨-, vs, hvs, hv, -⟩ := hts.boldChar?_eq_some_iff.mp hb
    obtain ⟨rfl, -⟩ := List.cons.inj (hs.symm.trans hvs)
    exact hw hv
  | case4 t ts ht hs ih =>
    have hts := (Tokenized.cons_iff.mp h).2
    refine inStep_boldCharSearch.run_flatten_of_none h (fun _ a hb => ?_) ih
    obtain ⟨-, vs, hvs, -⟩ := hts.boldChar?_eq_some_iff.mp hb
    exact List.cons_ne_nil _ _ (hvs.symm.trans hs)
  | case5 t ts ht ih =>
    have hts := (Tokenized.cons_iff.mp h).2
    refine inStep_boldCharSearch.run_flatten_of_none h (fun hm a hb => ht ?_) ih
    exact ⟨List.mem_singleton.mp hm, (hts.boldChar?_eq_some_iff.mp hb).1⟩

theorem run_limitsSearch (t : Text) : limitsSearch.run t = dropLimits t := by
  have h := run_limitsSearch_flatten (tokenized_tokens t)
  rwa [flatten_tokens] at h

theorem unifyBoldBySearch_eq (t : Text) : unifyBoldBySearch t = unifyBold t := by
  have h₁ := tokenized_tokens t
  have h₂ := (Retokens.boldGroups _ h₁).1
  have h₃ := (Retokens.boldControls _ h₂).1
  have hg := run_boldGroupSearch_flatten h₁
  rw [flatten_tokens] at hg
  rw [unifyBoldBySearch, hg, run_boldControlSearch_flatten h₂, run_boldCharSearch_flatten h₃, unifyBold]

theorem readsToken_of_control?_eq_none {c : Char} {r : Text} (h : control? (c :: r) = none) :
    ReadsToken (c :: r) [c] r := by
  by_cases hc : c = '\\'
  · subst hc
    obtain rfl := eq_nil_of_control?_eq_none h
    exact .backslash
  · exact .char hc

theorem textBlockSearch_act? (h : Hit) : textBlockSearch.act? h =
    (group? h.rest).map fun (body, rest) => (h.taken ++ braced (tidyBlanks body), rest) := rfl

theorem ReadsPart.run_textBlockSearch {t rest : Text} {p : Part} (h : ReadsPart t p rest) :
    textBlockSearch.run t = p.tidied ++ textBlockSearch.run rest := by
  cases h with
  | @char c _ h =>
    have hnames : ∀ name ∈ textCommands, name.length ≠ 1 := by decide
    have ha : textBlockSearch.answer? [c] rest = none :=
      Rewriting.answer?_eq_none fun hm => absurd rfl (hnames _ hm)
    exact inStep_textBlockSearch.run_of_none (readsToken_of_control?_eq_none h) ha
  | @control _ name _ h hn =>
    have ha : textBlockSearch.answer? name rest = none := by
      refine Rewriting.answer?_eq_none fun hm {argument s} hb => ?_
      obtain ⟨-, -, -, rfl⟩ := taken_of_beforeGroup? hb
      rw [textBlockSearch_act?, hn (List.contains_iff_mem.mpr hm), Option.map_none]
    exact inStep_textBlockSearch.run_of_none (.control h) ha
  | @block _ name gap body _ h hn hg hb =>
    have hs : skipBlanks (gap ++ (braced body ++ rest)) = braced body ++ rest := by
      rw [skipBlanks_append hg]
      exact List.dropWhile_cons_of_neg (by decide)
    have hbehind : beforeGroup? (gap ++ (braced body ++ rest)) = some ([], braced body ++ rest) := by
      simp only [beforeGroup?, hs]
      rfl
    have hgroup : group? (braced body ++ rest) = some (body, rest) := group?_iff.mpr ⟨hb, rfl⟩
    have ha := textBlockSearch.answer?_of_mem (List.contains_iff_mem.mp hn) hbehind
    rw [upTo_append, textBlockSearch_act?, hgroup, Option.map_some] at ha
    exact inStep_textBlockSearch.run_of_some (.control h) ha

theorem run_textBlockSearch (t : Text) : textBlockSearch.run t = tidyRunningText t := by
  induction t using parts_induction with
  | nil => rw [Rewriting.run_nil, tidyRunningText]
  | cons t p rest hr hs _ ih => rw [hr.run_textBlockSearch, ih, hs]

theorem cleanBySearch_eq (t : Text) : cleanBySearch t = clean t := by
  rw [cleanBySearch, run_limitsSearch, unifyBoldBySearch_eq, run_textBlockSearch, clean]

/-! ## Limits as tokens -/

/-- A pass that filters the tokens, and writes a text with just these tokens, is done after one run. -/
theorem dropLimits_dropLimits (t : Text) : dropLimits (dropLimits t) = dropLimits t := by
  rw [dropLimits, tokens_dropLimits, List.filter_filter]
  simp only [Bool.and_self]
  rfl

/-- The search for `\limits` filters the tokens, and those that are left stay the tokens. -/
theorem run_limitsSearch_tokens (t : Text) :
    limitsSearch.run t = ((tokens t).filter (· ≠ limits)).flatten ∧
      tokens (limitsSearch.run t) = (tokens t).filter (· ≠ limits) ∧
      limitsSearch.run (limitsSearch.run t) = limitsSearch.run t ∧
      limitsSearch.run t = dropLimits t := by
  have h := run_limitsSearch t
  refine ⟨h, ?_, ?_, h⟩
  · rw [h, tokens_dropLimits]
  · rw [h, run_limitsSearch, dropLimits_dropLimits]

end Formula.Tex
