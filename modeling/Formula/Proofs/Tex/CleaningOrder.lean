import Formula.Proofs.Tex.Blocks

/-! # The order of cleaning

Each pass leaves alone what the other two look for, as long as no command of one stands where another one
looks for something: right behind a `\bm` or a text command, or as a word of its own in a text block. Then
the three passes give the same text in any order.
-/

namespace Formula.Tex

open Text

theorem readsToken_append (u x : Text) (h : tokens (u ++ x) = u :: tokens x) : ReadsToken (u ++ x) u x := by
  have ht := tokenized_tokens (u ++ x)
  rw [h, Tokenized.cons_iff, flatten_tokens] at ht
  exact ht.1

/-! ## Limits and running text -/

section Limits

variable {t u rest : Text}

/-- What stands in front is the same before and after, unless it is dropped. -/
theorem head?_dropLimits (h : (tokens t).head? ≠ some limits) : (dropLimits t).head? = t.head? := by
  by_cases ht : t = []
  · rw [ht, dropLimits_nil]
  obtain ⟨u, rest, hu⟩ := exists_readsToken ht
  have hl : u ≠ limits := by
    rintro rfl
    rw [hu.tokens_eq] at h
    exact h rfl
  obtain ⟨c, w, rfl⟩ := List.exists_cons_of_ne_nil hu.ne_nil
  rw [dropLimits_token hu hl, hu.eq_append]
  rfl

theorem skipBlanks_dropLimits (h : (tokens (skipBlanks t)).head? ≠ some limits) :
    skipBlanks (dropLimits t) = dropLimits (skipBlanks t) :=
  skipBlanks_pass dropLimits_blanks_append (head?_dropLimits h)

theorem OpensNoBlock.dropLimits (h : OpensNoBlock u rest)
    (hl : u ∈ textCommands → (skipBlankTokens (tokens rest)).head? ≠ some limits) :
    OpensNoBlock u (dropLimits rest) := by
  intro hm
  have hs := hl hm
  rw [skipBlankTokens_tokens] at hs
  rw [skipBlanks_dropLimits hs]
  exact piecewise_dropLimits.group?_eq_none (head?_dropLimits hs) (h hm)

/-- In a block it is the words that count, and in front of it what stands behind the command. -/
theorem dropLimits_tidyRunningText (ha : ∀ name ∈ textCommands, Apart name limits (tokens t))
    (hw : ∀ body ∈ blockBodies t, ∀ w ∈ words body, dropLimits w = [] → words body = [w]) :
    dropLimits (tidyRunningText t) = tidyRunningText (dropLimits t) := by
  induction t using blocks_induction with
  | nil => rw [tidyRunningText_nil, dropLimits_nil, tidyRunningText_nil]
  | token t u rest h hu ih =>
    obtain ⟨ht, hbodies⟩ := tidyRunningText_token h hu
    rw [hbodies] at hw
    rw [h.tokens_eq] at ha
    have ih := ih (fun name hm => (Apart.cons_iff.mp (ha name hm)).2) hw
    have h' : ReadsToken (u ++ tidyRunningText rest) u (tidyRunningText rest) :=
      h.follows (follows_tidyRunningText rest)
    rw [ht]
    by_cases hl : u = limits
    · subst hl
      rw [dropLimits_limits h', dropLimits_limits h, ih]
    · have hd : tokens (u ++ dropLimits rest) = u :: tokens (dropLimits rest) := by
        rw [← dropLimits_token h hl, tokens_dropLimits, h.tokens_eq, filter_cons_of_ne hl, tokens_dropLimits]
      have hno := hu.dropLimits fun hm => (Apart.cons_iff.mp (ha u hm)).1 rfl
      rw [dropLimits_token h' hl, dropLimits_token h hl,
        (tidyRunningText_token (readsToken_append _ _ hd) hno).1, ih]
  | block t name gap body rest h ih =>
    have hl : name ≠ limits := by
      have hall : ∀ name ∈ textCommands, name ≠ limits := by decide
      exact hall name h.mem
    have hh := piecewise_dropLimits.readsBlock h (dropLimits_blanks_append h.blanks _)
      (dropLimits_token h.token hl)
    rw [h.tidyRunningText_eq.2] at hw
    obtain ⟨hbody, hw⟩ := List.forall_mem_cons.mp hw
    have ha : ∀ name ∈ textCommands, Apart name limits (tokens rest) := fun name hm =>
      ((h.apart_iff (isWordControl_of_mem_textCommands hm) (by decide) _ _).mp (h.eq_append ▸ ha name hm)).2
    rw [hh.tidyRunningText_eq.1, h.tidyRunningText_eq.1, dropLimits_token (h.readsToken _ _) hl,
      dropLimits_blanks_append h.blanks, piecewise_dropLimits.braced_append,
      dropLimits_tidyBlanks_iff.mpr hbody, ih ha hw]

end Limits

/-! ## Bold and running text -/

theorem tidyRunningText_flatten_append {ts : List Text} {x : Text} (h : Tokenized (ts ++ tokens x))
    (hts : ∀ u ∈ ts, u ∉ textCommands) :
    tidyRunningText (ts.flatten ++ x) = ts.flatten ++ tidyRunningText x := by
  induction ts with
  | nil => rfl
  | cons u ts ih =>
    obtain ⟨hu, hts⟩ := List.forall_mem_cons.mp hts
    rw [List.cons_append] at h
    obtain ⟨hr, ht⟩ := Tokenized.cons_iff.mp h
    rw [List.flatten_append, flatten_tokens] at hr
    rw [List.flatten_cons, List.append_assoc, (tidyRunningText_token hr (opensNoBlock_of_not_mem hu _)).1,
      ih ht hts, List.append_assoc]

namespace BoldArgument

variable {k : BoldArgument} {t gap u rest : Text}

theorem opens_tidyRunningText_iff : k.Opens (tokens (tidyRunningText t)) ↔ k.Opens (tokens t) := by
  rw [opens_tokens_iff, opens_tokens_iff, skipBlanks_tidyRunningText, head?_tokens_tidyRunningText,
    head?_tidyRunningText]

theorem opensNoBlock_unify (k : BoldArgument) (h : OpensNoBlock u rest) :
    OpensNoBlock u (k.unify rest) := by
  intro hm
  rw [skipBlanks_unify]
  exact (piecewise_unify k).group?_eq_none (k.head?_unify _) (h hm)

theorem Begins.tidyRunningText (h : k.Begins t gap u rest) (hu : u ∉ textCommands) :
    k.Begins (tidyRunningText t) gap u (tidyRunningText rest) where
  eq_append := by
    rw [h.eq_append, tidyRunningText_blanks_append h.blanks,
      (tidyRunningText_token h.token (opensNoBlock_of_not_mem hu _)).1]
  blanks := h.blanks
  token := h.token.follow (follows_tidyRunningText rest)
  begins := h.begins
  apart := h.apart

theorem tidyRunningText_rest (k : BoldArgument) (ht : ReadsToken (u ++ t) u t) (hu : u ∉ textCommands) :
    tidyRunningText (k.rest u t) = k.rest u (tidyRunningText t) := by
  cases k with
  | group => exact (tidyRunningText_token ht (opensNoBlock_of_not_mem hu t)).1
  | control | char => rfl

theorem not_mem_textCommands_of_written (hu : u ∉ textCommands) :
    ∀ v ∈ k.written u, v ∉ textCommands := by
  have hwritten : mathbf ∉ textCommands ∧ ['{'] ∉ textCommands ∧ ['}'] ∉ textCommands := by decide
  cases k <;> simp [written, hu, hwritten]

theorem Begins.suffix (h : k.Begins t gap u rest) : tokens (k.rest u rest) <:+ tokens t := by
  have hs : u :: tokens rest <:+ tokens t := by
    rw [← h.token.tokens_eq, ← h.skipBlanks_eq, ← skipBlankTokens_tokens]
    exact List.dropWhile_suffix _
  cases k with
  | group => exact h.token.tokens_eq ▸ hs
  | control | char => exact (List.suffix_cons _ _).trans hs

theorem Begins.not_mem_textCommands (h : k.Begins t gap u rest)
    (hk : k = control → ∀ name ∈ textCommands, Apart bm name (bm :: tokens t)) : u ∉ textCommands := by
  intro hm
  rcases begins_cases h.begins with ⟨-, rfl⟩ | ⟨hc, -⟩ | ⟨-, ha⟩
  · exact absurd hm (by decide)
  · refine (Apart.cons_iff.mp (hk hc u hm)).1 rfl ?_
    rw [skipBlankTokens_tokens, h.skipBlanks_eq, h.token.tokens_eq]
    rfl
  · have hall : ∀ name ∈ textCommands, isAlphanumToken name = false := by decide
    rw [hall u hm] at ha
    cases ha

/-- Induction over the blocks of a text, and what a sweep takes up of it. -/
theorem unify_blocks_induction (k : BoldArgument) {motive : Text → Prop} (nil : motive [])
    (token : ∀ t u rest, ReadsToken t u rest → OpensNoBlock u rest → (u = bm → ¬ k.Opens (tokens rest)) →
      motive rest → motive t)
    (block : ∀ t name gap body rest, ReadsBlock t name gap body rest → motive rest → motive t)
    (argument : ∀ t r gap u rest, ReadsToken t bm r → k.Begins r gap u rest → motive (k.rest u rest) →
      motive t) (t : Text) : motive t := by
  induction hn : t.length using Nat.strongRecOn generalizing t with
  | ind n ih =>
    by_cases ht : t = []
    · rw [ht]
      exact nil
    obtain ⟨u, r, hu⟩ := exists_readsToken ht
    have hlt : r.length < n := by
      have hpos := List.length_pos_iff.mpr hu.ne_nil
      rw [← hn, hu.eq_append, List.length_append]
      omega
    by_cases hblock : OpensNoBlock u r
    · by_cases hb : u = bm ∧ k.Opens (tokens r)
      · obtain ⟨rfl, ho⟩ := hb
        obtain ⟨gap, w, rest, h⟩ := exists_begins ho
        exact argument t r gap w rest hu h (ih _ (h.length_rest_le.trans_lt hlt) _ rfl)
      · exact token t u r hu hblock (fun e ho => hb ⟨e, ho⟩) (ih _ hlt _ rfl)
    · obtain ⟨gap, body, behind, hb⟩ := exists_readsBlock hu hblock
      exact block t u gap body behind hb (ih _ (hn ▸ hb.length_lt) _ rfl)

/-- Only the sweep for control sequences can take a text command from its block. -/
theorem unify_tidyRunningText (hk : k = control → ∀ name ∈ textCommands, Apart bm name (tokens t)) :
    k.unify (tidyRunningText t) = tidyRunningText (k.unify t) := by
  have hbm : bm ∉ textCommands := by decide
  induction t using unify_blocks_induction k with
  | nil => rw [tidyRunningText_nil, unify_nil, tidyRunningText_nil]
  | token t u rest h hblock hu ih =>
    have ih := ih fun hc name hm => (hk hc name hm).of_suffix (h.tokens_eq ▸ List.suffix_cons u _)
    have h' : ReadsToken (u ++ tidyRunningText rest) u (tidyRunningText rest) :=
      h.follows (follows_tidyRunningText rest)
    have hd : tokens (u ++ k.unify rest) = u :: tokens (k.unify rest) := by
      rw [← unify_token h hu, tokens_unify, tokens_unify, h.tokens_eq, sweep_cons hu]
    rw [(tidyRunningText_token h hblock).1, unify_token h' fun e => mt opens_tidyRunningText_iff.mp (hu e),
      unify_token h hu,
      (tidyRunningText_token (readsToken_append _ _ hd) (k.opensNoBlock_unify hblock)).1, ih]
  | block t name gap body rest h ih =>
    have hne : name ≠ bm := fun e => hbm (e ▸ h.mem)
    have ih := ih fun hc name hm => ((h.apart_iff (by decide) (isWordControl_of_mem_textCommands hm) _ _).mp
      (h.eq_append ▸ hk hc name hm)).2
    have hunify (s x : Text) : k.unify (name ++ (gap ++ (braced s ++ x))) =
        name ++ (gap ++ (braced (k.unify s) ++ k.unify x)) := by
      rw [unify_token (h.readsToken s x) fun e => absurd e hne, k.unify_blanks_append h.blanks,
        (piecewise_unify k).braced_append]
    have hb := (piecewise_unify k).readsBlock h (k.unify_blanks_append h.blanks _)
      (unify_token h.token fun e => absurd e hne)
    rw [h.tidyRunningText_eq.1, hunify, hb.tidyRunningText_eq.1, unify_tidyBlanks, ih]
  | argument t r gap u rest h hr ih =>
    have hu : u ∉ textCommands := hr.not_mem_textCommands (h.tokens_eq ▸ hk)
    have hsuffix : tokens (k.rest u rest) <:+ tokens t :=
      hr.suffix.trans (h.tokens_eq ▸ List.suffix_cons bm _)
    have ih := ih fun hc name hm => (hk hc name hm).of_suffix hsuffix
    have h' : ReadsToken (bm ++ tidyRunningText r) bm (tidyRunningText r) :=
      h.follows (follows_tidyRunningText r)
    have hwritten : Tokenized (k.written u ++ tokens (k.unify (k.rest u rest))) := by
      rw [tokens_unify, ← sweep_tokens h hr, ← tokens_unify]
      exact tokenized_tokens _
    rw [(tidyRunningText_token h (opensNoBlock_of_not_mem hbm r)).1,
      unify_argument h' (hr.tidyRunningText hu), unify_argument h hr,
      tidyRunningText_flatten_append hwritten (not_mem_textCommands_of_written hu), ← ih,
      tidyRunningText_rest k hr.token hu]

end BoldArgument

theorem unifyBold_tidyRunningText {t : Text} (h : ∀ name ∈ textCommands, Apart bm name (tokens t)) :
    unifyBold (tidyRunningText t) = tidyRunningText (unifyBold t) := by
  have hgroup : ∀ name ∈ textCommands, Apart bm name (tokens (BoldArgument.group.unify t)) := by
    intro name hm
    have hne : ∀ name ∈ textCommands, name ≠ bm ∧ name ≠ mathbf := by decide
    rw [BoldArgument.tokens_unify]
    exact (h name hm).of_sweep (by decide) ⟨hne name hm, isWordControl_of_mem_textCommands hm⟩
      (BoldArgument.group.sweep_sweep _)
  have hg := BoldArgument.unify_tidyRunningText (k := .group) (t := t) (fun h => absurd h (by decide))
  have hc := BoldArgument.unify_tidyRunningText (k := .control) fun _ => hgroup
  rw [BoldArgument.unifyBold_eq, BoldArgument.unifyBold_eq, hg, hc]
  exact BoldArgument.unify_tidyRunningText fun h => absurd h (by decide)

/-! ## Any order -/

/-- No command of one pass stands where another pass looks for something. -/
structure Unentangled (t : Text) : Prop where
  bold_limits : Apart bm limits (tokens t)
  bold_text : ∀ name ∈ textCommands, Apart bm name (tokens t)
  text_limits : ∀ name ∈ textCommands, Apart name limits (tokens t)
  words : ∀ body ∈ blockBodies t, ∀ w ∈ words body, dropLimits w = [] → words body = [w]

theorem unentangled_iff {t : Text} : Unentangled t ↔
    (Apart bm limits (tokens t) ∧
      ∀ name ∈ textCommands, Apart bm name (tokens t) ∧ Apart name limits (tokens t)) ∧
    ∀ body ∈ blockBodies t, ∀ w ∈ words body, dropLimits w = [] → words body = [w] := by
  constructor
  · intro h
    exact ⟨⟨h.bold_limits, fun name hm => ⟨h.bold_text name hm, h.text_limits name hm⟩⟩, h.words⟩
  · rintro ⟨⟨hl, ht⟩, hw⟩
    exact ⟨hl, fun name hm => (ht name hm).1, fun name hm => (ht name hm).2, hw⟩

instance (t : Text) : Decidable (Unentangled t) :=
  decidable_of_iff _ unentangled_iff.symm

inductive CleaningPass
  | limits
  | bold
  | runningText
  deriving DecidableEq, Repr

namespace CleaningPass

def run : CleaningPass → Text → Text
  | limits => dropLimits
  | bold => unifyBold
  | runningText => tidyRunningText

def runAll (passes : List CleaningPass) (t : Text) : Text :=
  passes.foldl (fun t p => p.run t) t

/-- The six orders. -/
theorem mem_orders_of_perm {passes : List CleaningPass} (hp : passes.Perm [limits, bold, runningText]) :
    passes ∈ [[limits, bold, runningText], [limits, runningText, bold], [bold, limits, runningText],
      [bold, runningText, limits], [runningText, limits, bold], [runningText, bold, limits]] := by
  match passes, hp.length_eq with
  | [p, q, r], _ =>
    cases p <;> cases q <;> cases r <;> revert hp <;> decide

/-- Of the passes any two may change places, at the text or behind the third one. -/
theorem runAll_eq_clean {t : Text} (h : Unentangled t) {passes : List CleaningPass}
    (hp : passes.Perm [limits, bold, runningText]) : runAll passes t = clean t := by
  have hlb : unifyBold (dropLimits t) = dropLimits (unifyBold t) := unifyBold_dropLimits h.bold_limits
  have hlt : dropLimits (tidyRunningText t) = tidyRunningText (dropLimits t) :=
    dropLimits_tidyRunningText h.text_limits h.words
  have hbt : unifyBold (tidyRunningText t) = tidyRunningText (unifyBold t) :=
    unifyBold_tidyRunningText h.bold_text
  have hlb' : unifyBold (dropLimits (tidyRunningText t)) = dropLimits (unifyBold (tidyRunningText t)) :=
    unifyBold_dropLimits (h.bold_limits.tidyRunningText (by decide) (by decide))
  have hbt' : unifyBold (tidyRunningText (dropLimits t)) = tidyRunningText (unifyBold (dropLimits t)) :=
    unifyBold_tidyRunningText fun name hm => by
      rw [tokens_dropLimits]
      exact h.bold_limits.filter_limits (h.bold_text name hm)
  have ho := mem_orders_of_perm hp
  simp only [List.mem_cons, List.not_mem_nil, or_false] at ho
  unfold clean
  -- Each of the other orders comes from the first one by swapping neighbours, at most three times.
  rcases ho with rfl | rfl | rfl | rfl | rfl | rfl
  · rfl
  · exact hbt'
  · exact congrArg tidyRunningText hlb.symm
  · change dropLimits (tidyRunningText (unifyBold t)) = _
    rw [← hbt, ← hlb', hlt, hbt']
  · change unifyBold (dropLimits (tidyRunningText t)) = _
    rw [hlt, hbt']
  · change dropLimits (unifyBold (tidyRunningText t)) = _
    rw [← hlb', hlt, hbt']

/-- Bold last, on a text with commands of all three kinds. -/
theorem runAll_eq_clean_of_sum :
    let t := "\\sum\\limits_\x7bi\x7d \\bm x \\text\x7b for  all \x7d i".toList
    Unentangled t ∧ [runningText, limits, bold].Perm [limits, bold, runningText] ∧
      runAll [runningText, limits, bold] t = clean t := by
  have h : Unentangled "\\sum\\limits_\x7bi\x7d \\bm x \\text\x7b for  all \x7d i".toList := by
    decide +kernel
  have hp : [runningText, limits, bold].Perm [limits, bold, runningText] := by decide
  exact ⟨h, hp, runAll_eq_clean h hp⟩

/-- Where `\limits` stands between `\bm` and its argument, bold run first takes the command for it. -/
theorem runAll_ne_clean_of_limits_behind_bold :
    let t := "\\bm\\limits x".toList
    clean t = "\\mathbf\x7bx\x7d".toList ∧
      runAll [bold, limits, runningText] t = "\\mathbf\x7b\x7d x".toList := by
  decide +kernel

/-- None of the four conditions can be left out: each of these texts fails just one of them. -/
theorem runAll_ne_clean_of_entangled :
    ∀ p ∈ [([bold, limits, runningText], "\\bm\\limits x"),
        ([limits, runningText, bold], "\\bm\\text\x7ba  b\x7d"),
        ([bold, runningText, limits], "\\text\\limits\x7ba  b\x7d"),
        ([bold, runningText, limits], "\\text\x7ba \\limits b\x7d")],
      runAll p.1 p.2.toList ≠ clean p.2.toList := by
  decide +kernel

end CleaningPass

end Formula.Tex
