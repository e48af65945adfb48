import Formula.Proofs.Tex.Respacing

/-! # Text blocks among tokens

A text is copied token by token up to a command with a block, and there the command, the blanks behind it
and the group are read together. Tidying leaves the first token of a text as it is, and brings nothing about
right behind a command. A pass that works piece by piece leaves a block where it is.
-/

namespace Formula.Tex

open Text

/-! ## Running text by tokens -/

section RunningText

variable {t u rest : Text}

theorem tidyRunningText_nil : tidyRunningText [] = [] := by
  rw [tidyRunningText]

/-- The token begins no text block in front of the text. -/
def OpensNoBlock (u rest : Text) : Prop :=
  u ∈ textCommands → group? (skipBlanks rest) = none

theorem tidyRunningText_token (h : ReadsToken t u rest) (hu : OpensNoBlock u rest) :
    tidyRunningText t = u ++ tidyRunningText rest ∧ blockBodies t = blockBodies rest := by
  have hcontains : textCommands.contains u = true → group? (skipBlanks rest) = none :=
    fun hc => hu (List.contains_iff_mem.mp hc)
  cases h with
  | control h =>
    obtain ⟨r, rfl⟩ := exists_cons_of_control? h
    exact tidyRunningText_control h hcontains
  | char hc => exact tidyRunningText_char (control?_of_ne hc)
  | backslash => exact tidyRunningText_char rfl

theorem isWordControl_of_mem_textCommands (h : u ∈ textCommands) : isWordControl u = true := by
  have hall : ∀ name ∈ textCommands, isWordControl name = true := by decide
  exact hall u h

theorem readsToken_of_isWordControl (h : isWordControl u = true) (hr : opensLetter rest = false) :
    ReadsToken (u ++ rest) u rest :=
  .control (control?_of_isWordControl h hr)

/-- A command with a block in front of another text. -/
structure ReadsBlock (t name gap body rest : Text) : Prop where
  token : ReadsToken t name (gap ++ (braced body ++ rest))
  mem : name ∈ textCommands
  blanks : allBlank gap = true
  balanced : Balanced body

theorem exists_readsBlock (h : ReadsToken t u rest) (hu : ¬ OpensNoBlock u rest) :
    ∃ gap body behind, ReadsBlock t u gap body behind := by
  obtain ⟨hm, hg⟩ := Classical.not_imp.mp hu
  obtain ⟨⟨body, behind⟩, hg⟩ := Option.ne_none_iff_exists'.mp hg
  obtain ⟨hb, e⟩ := group?_iff.mp hg
  refine ⟨rest.takeWhile isBlank, body, behind, ?_, hm, List.all_takeWhile, hb⟩
  rwa [← e, takeWhile_isBlank_append_skipBlanks]

namespace ReadsBlock

variable {name gap body : Text}

theorem eq_append (h : ReadsBlock t name gap body rest) : t = name ++ (gap ++ (braced body ++ rest)) :=
  h.token.eq_append

theorem length_lt (h : ReadsBlock t name gap body rest) : rest.length < t.length := by
  rw [h.eq_append]
  simp only [braced, List.length_append, List.length_cons]
  omega

theorem readsToken (h : ReadsBlock t name gap body rest) (s x : Text) :
    ReadsToken (name ++ (gap ++ (braced s ++ x))) name (gap ++ (braced s ++ x)) := by
  exact readsToken_of_isWordControl (isWordControl_of_mem_textCommands h.mem)
    (opensLetter_blanks_append h.blanks rfl)

theorem tidyRunningText_eq (h : ReadsBlock t name gap body rest) :
    tidyRunningText t = name ++ (gap ++ (braced (tidyBlanks body) ++ tidyRunningText rest)) ∧
      blockBodies t = body :: blockBodies rest := by
  have hs : skipBlanks (gap ++ (braced body ++ rest)) = braced body ++ rest := by
    rw [skipBlanks_append h.blanks]
    rfl
  have ht : (gap ++ (braced body ++ rest)).takeWhile isBlank = gap := by
    rw [List.takeWhile_append_of_pos (isBlank_of_allBlank h.blanks)]
    exact List.append_nil gap
  have hg : group? (skipBlanks (gap ++ (braced body ++ rest))) = some (body, rest) := by
    rw [hs]
    exact group?_iff.mpr ⟨h.balanced, rfl⟩
  have hc : textCommands.contains name = true := List.contains_iff_mem.mpr h.mem
  have hcontrol : control? t = some (name, gap ++ (braced body ++ rest)) := by
    have hw := isWordControl_of_mem_textCommands h.mem
    rw [h.eq_append]
    exact control?_of_isWordControl hw (h.token.opensLetter_eq_false hw)
  obtain ⟨r, rfl⟩ := exists_cons_of_control? hcontrol
  obtain ⟨h₁, h₂⟩ := tidyRunningText_block hcontrol hc hg
  refine ⟨?_, h₂⟩
  rw [h₁, ht]
  simp only [List.append_assoc]

end ReadsBlock

/-- Induction over the tokens of a text and its blocks. -/
theorem blocks_induction {motive : Text → Prop} (nil : motive [])
    (token : ∀ t u rest, ReadsToken t u rest → OpensNoBlock u rest → motive rest → motive t)
    (block : ∀ t name gap body rest, ReadsBlock t name gap body rest → motive rest → motive t) (t : Text) :
    motive t := by
  induction hn : t.length using Nat.strongRecOn generalizing t with
  | ind n ih =>
    by_cases ht : t = []
    · rw [ht]
      exact nil
    obtain ⟨u, rest, hu⟩ := exists_readsToken ht
    by_cases hblock : OpensNoBlock u rest
    · refine token t u rest hu hblock (ih _ ?_ _ rfl)
      have hpos := List.length_pos_iff.mpr hu.ne_nil
      rw [← hn, hu.eq_append, List.length_append]
      omega
    · obtain ⟨gap, body, behind, hb⟩ := exists_readsBlock hu hblock
      exact block t u gap body behind hb (ih _ (hn ▸ hb.length_lt) _ rfl)

theorem opensNoBlock_of_not_mem (h : u ∉ textCommands) (rest : Text) : OpensNoBlock u rest :=
  fun hm => absurd hm h

theorem tidyRunningText_blanks_append {gap : Text} (hg : allBlank gap = true) (t : Text) :
    tidyRunningText (gap ++ t) = gap ++ tidyRunningText t := by
  have hm : ∀ b : Char, [b] ∉ textCommands := fun b hm =>
    singleton_ne_of_isWordControl (isWordControl_of_mem_textCommands hm) b rfl
  exact pass_blanks_append (fun hb t => (tidyRunningText_token (.char (ne_of_isBlank hb).1)
    (opensNoBlock_of_not_mem (hm _) t)).1) hg t

theorem head?_tokens_tidyRunningText (t : Text) :
    (tokens (tidyRunningText t)).head? = (tokens t).head? := by
  induction t using blocks_induction with
  | nil => rw [tidyRunningText_nil]
  | token t u rest h hu _ =>
    rw [(tidyRunningText_token h hu).1, h.head?_tokens, (h.follows (follows_tidyRunningText rest)).head?_tokens]
  | block t name gap body rest h _ =>
    rw [h.tidyRunningText_eq.1, h.token.head?_tokens, (h.readsToken _ _).head?_tokens]

theorem head?_tidyRunningText (t : Text) : (tidyRunningText t).head? = t.head? := by
  have hfirst : ∀ x : Text, x.head? = ((tokens x).head?).bind List.head? := by
    intro x
    induction x using tokens_induction with
    | nil => rw [tokens]; rfl
    | cons x u rest h _ =>
      obtain ⟨c, w, rfl⟩ := List.exists_cons_of_ne_nil h.ne_nil
      rw [h.tokens_eq, h.eq_append]
      rfl
  rw [hfirst, hfirst t, head?_tokens_tidyRunningText]

theorem skipBlanks_tidyRunningText (t : Text) :
    skipBlanks (tidyRunningText t) = tidyRunningText (skipBlanks t) :=
  skipBlanks_pass tidyRunningText_blanks_append (head?_tidyRunningText _)

end RunningText

/-! ## Blocks and what stands apart -/

namespace Apart

variable {u v : Text}

/-- Nothing stands right behind a command across a brace. -/
theorem append_shut_iff (hu : isWordControl u = true) (hv : isWordControl v = true) (s t : Text) :
    Apart u v (tokens (s ++ '}' :: t)) ↔ Apart u v (tokens s) ∧ Apart u v (tokens t) := by
  have hne {x : Text} (hx : isWordControl x = true) (c : Char) : [c] ≠ x :=
    singleton_ne_of_isWordControl hx c
  have hescape {x : Text} (hx : isWordControl x = true) : ['\\', '}'] ≠ x := by
    rintro rfl
    cases hx
  induction s using tokens_induction with
  | nil =>
    have hr : ReadsToken ('}' :: t) ['}'] t := .char (by decide)
    rw [List.nil_append, hr.tokens_eq, cons_iff, tokens]
    simp [hne hu, nil]
  | cons s w rest h ih =>
    by_cases hw : w = ['\\']
    · obtain ⟨rfl, rfl⟩ := (hw ▸ h).backslash_cases
      have hr : ReadsToken ('\\' :: '}' :: t) ['\\', '}'] t := .control rfl
      rw [List.singleton_append, hr.tokens_eq, ReadsToken.backslash.tokens_eq, tokens, cons_iff, cons_iff]
      simp [hne hu, hescape hu, nil]
    · have hp : ([('}' : Char)] == v) = false ∧ (['\\'] == v) = false ∧ (['\\', '}'] == v) = false := by
        simp [hne hv, hescape hv]
      have hany : ∀ o : Option Text, o.any (· == v) = true ↔ o = some v := fun o => by
        cases o <;> simp
      have hh : (tokens (skipBlanks rest ++ '}' :: t)).head? = some v ↔
          (tokens (skipBlanks rest)).head? = some v := by
        rw [← hany, ← hany, head?_tokens_append_shut hp]
      rw [(h.append_cons hw (by decide) t).tokens_eq, h.tokens_eq, cons_iff, cons_iff,
        skipBlankTokens_tokens, skipBlankTokens_tokens, skipBlanks_append_shut, and_assoc]
      exact and_congr (imp_congr_right fun _ => not_congr hh) ih

theorem blanks_append_iff (hu : isWordControl u = true) {gap : Text} (hg : allBlank gap = true) (t : Text) :
    Apart u v (tokens (gap ++ t)) ↔ Apart u v (tokens t) := by
  induction gap with
  | nil => rfl
  | cons b gap ih =>
    simp only [allBlank, List.all_cons, Bool.and_eq_true] at hg
    have hb : ReadsToken (b :: (gap ++ t)) [b] (gap ++ t) := .char (ne_of_isBlank hg.1).1
    rw [List.cons_append, hb.tokens_eq, cons_iff, ih hg.2]
    exact and_iff_right fun e => absurd e (singleton_ne_of_isWordControl hu b)

theorem braced_append_iff (hu : isWordControl u = true) (hv : isWordControl v = true) (s t : Text) :
    Apart u v (tokens (braced s ++ t)) ↔ Apart u v (tokens s) ∧ Apart u v (tokens t) := by
  have e : braced s ++ t = '{' :: (s ++ '}' :: t) := by simp [braced]
  rw [e, (ReadsToken.char (by decide)).tokens_eq, cons_iff, append_shut_iff hu hv]
  exact and_iff_right fun e => absurd e (singleton_ne_of_isWordControl hu _)

end Apart

theorem ReadsBlock.apart_iff {u v t name gap body rest : Text} (h : ReadsBlock t name gap body rest)
    (hu : isWordControl u = true) (hv : isWordControl v = true) (s x : Text) :
    Apart u v (tokens (name ++ (gap ++ (braced s ++ x)))) ↔
      Apart u v (tokens s) ∧ Apart u v (tokens x) := by
  rw [(h.readsToken s x).tokens_eq, Apart.cons_iff, Apart.blanks_append_iff hu h.blanks,
    Apart.braced_append_iff hu hv]
  refine and_iff_right fun _ => ?_
  have hs : skipBlanks (gap ++ (braced s ++ x)) = '{' :: (s ++ '}' :: x) := by
    rw [skipBlanks_append h.blanks]
    simp [braced, skipBlanks]
    decide
  have hr : ReadsToken ('{' :: (s ++ '}' :: x)) ['{'] (s ++ '}' :: x) := .char (by decide)
  rw [skipBlankTokens_tokens, hs, hr.tokens_eq]
  exact fun e => singleton_ne_of_isWordControl hv _ (Option.some.inj e)

section Apart

variable {u v t : Text}

theorem Apart.tidyBlanks (hu : isWordControl u = true) (hv : isWordControl v = true)
    (h : Apart u v (tokens t)) : Apart u v (tokens (tidyBlanks t)) := by
  have hescape {c : Char} (hc : c.isAlpha = false) : ['\\', c] ≠ u := by
    rintro rfl
    simp [isWordControl, hc] at hu
  have hspace : ∀ s, Apart u v (tokens (' ' :: s)) ↔ Apart u v (tokens s) :=
    Apart.blanks_append_iff hu (show allBlank [' '] = true by decide)
  have hbehind : ∀ s, Apart u v (tokens (Tex.tidyBlanks s)) → Apart u v (tokens (tidyBehind s)) := by
    intro s hs
    unfold tidyBehind
    split
    · rw [tokens]
      exact .nil u v
    · split
      · exact (hspace _).mpr hs
      · exact hs
  induction t using tokens_induction with
  | nil => rwa [tidyBlanks_nil]
  | cons t w rest ht ih =>
    rw [ht.tokens_eq, Apart.cons_iff] at h
    have ih := ih h.2
    rw [ht.eq_append]
    rcases ht.blank_cases with hblank | ⟨b, hb, rfl | rfl⟩
    · have h' : ReadsToken (w ++ tidyBehind rest) w (tidyBehind rest) :=
        ht.follows (follows_tidyBehind rest)
      rw [tidyBlanks_append ht.ne_nil hblank, h'.tokens_eq, Apart.cons_iff, skipBlankTokens_tokens,
        skipBlanks_tidyBehind]
      refine ⟨fun e hh => h.1 e ?_, hbehind rest ih⟩
      rw [skipBlankTokens_tokens]
      have hv' := BoldArgument.not_blank_of_begins (k := .control) hv
      exact head?_tokens_of_tidyBlanks (singleton_ne_of_isWordControl hv _).symm hv'.2 hh
    · rwa [tidyBlanks_append_of_blank (by simpa [allBlank] using hb)]
    · rw [List.cons_append, List.singleton_append, tidyBlanks_escape hb]
      split
      · rw [ReadsToken.backslash.tokens_eq, tokens]
        exact (Apart.nil u v).cons_of_ne (singleton_ne_of_isWordControl hu _)
      · have hr {s : Text} : ReadsToken ('\\' :: ' ' :: s) ['\\', ' '] s := .control rfl
        rw [hr.tokens_eq]
        exact ih.cons_of_ne (hescape (by decide))

theorem Apart.tidyRunningText (hu : isWordControl u = true) (hv : isWordControl v = true)
    (h : Apart u v (tokens t)) : Apart u v (tokens (tidyRunningText t)) := by
  induction t using blocks_induction with
  | nil => rwa [tidyRunningText_nil]
  | token t w rest ht hno ih =>
    have h' : ReadsToken (w ++ Tex.tidyRunningText rest) w (Tex.tidyRunningText rest) :=
      ht.follows (follows_tidyRunningText rest)
    rw [ht.tokens_eq, Apart.cons_iff, skipBlankTokens_tokens] at h
    rw [(tidyRunningText_token ht hno).1, h'.tokens_eq, Apart.cons_iff, skipBlankTokens_tokens,
      skipBlanks_tidyRunningText, head?_tokens_tidyRunningText]
    exact ⟨h.1, ih h.2⟩
  | block t name gap body rest hb ih =>
    rw [hb.eq_append, hb.apart_iff hu hv] at h
    rw [hb.tidyRunningText_eq.1, hb.apart_iff hu hv]
    exact ⟨h.1.tidyBlanks hu hv, ih h.2⟩

end Apart

/-! ## Blocks and passes -/

theorem Piecewise.readsBlock {f : Text → Text} (hf : Piecewise f) {t name gap body rest : Text}
    (h : ReadsBlock t name gap body rest)
    (hgap : f (gap ++ (braced body ++ rest)) = gap ++ f (braced body ++ rest))
    (ht : f t = name ++ f (gap ++ (braced body ++ rest))) :
    ReadsBlock (f t) name gap (f body) (f rest) where
  token := by
    rw [ht, hgap, hf.braced_append]
    exact h.readsToken _ _
  mem := h.mem
  blanks := h.blanks
  balanced := hf.balanced h.balanced

end Formula.Tex
