import Formula.Proofs.Tex.Piecewise
import Formula.Proofs.Tex.TextBlock

/-! # Passes over tidied blanks

Tidying leaves the words of a text, and a space behind a word where there were blanks. So a sweep for bold
finds the same arguments before and after it, and the two may change places. Dropping limits may not, where
it takes a word from among others: then the blanks around that word meet.
-/

namespace Formula.Tex

open Text

/-! ## Behind a word -/

/-- What tidying makes of the text behind a word. -/
def tidyBehind (t : Text) : Text :=
  if allBlank t = true then [] else if t.head?.any isBlank = true then ' ' :: tidyBlanks t else tidyBlanks t

theorem words_char {c : Char} (hc : isBlank c = false) (t : Text) :
    words (c :: t) = (c :: t.takeWhile (!isBlank ·)) :: words (t.dropWhile (!isBlank ·)) := by
  have hs : skipBlanks (c :: t) = c :: t := List.dropWhile_cons_of_neg (by simp [hc])
  rw [words]
  split
  · next h => cases h.symm.trans hs
  · next d r h =>
    obtain ⟨rfl, rfl⟩ := List.cons.inj (hs.symm.trans h)
    rfl

theorem tidyBlanks_char {c : Char} (hc : isBlank c = false) (t : Text) :
    tidyBlanks (c :: t) = c :: tidyBehind t := by
  rw [tidyBlanks, words_char hc]
  cases t with
  | nil => rw [List.takeWhile_nil, List.dropWhile_nil, words_eq_nil_iff.mpr rfl]; rfl
  | cons d t =>
    cases hd : isBlank d with
    | true =>
      rw [List.takeWhile_cons_of_neg (by simp [hd]), List.dropWhile_cons_of_neg (by simp [hd]), tidyBehind]
      split
      · next h => rw [words_eq_nil_iff.mpr h]; rfl
      · next h =>
        obtain ⟨w, ws, e⟩ := List.exists_cons_of_ne_nil (mt words_eq_nil_iff.mp h)
        rw [if_pos (by simp [hd]), tidyBlanks, e]
        rfl
    | false =>
      have hb : allBlank (d :: t) = false := by simp [allBlank, hd]
      rw [tidyBehind, hb, if_neg (by simp), if_neg (by simp [hd]), tidyBlanks, words_char hd,
        List.takeWhile_cons_of_pos (by simp [hd]), List.dropWhile_cons_of_pos (by simp [hd])]
      generalize words (t.dropWhile (!isBlank ·)) = ws
      cases ws <;> simp [List.intercalate]

theorem tidyBlanks_append_of_blank {gap : Text} (hg : allBlank gap = true) (t : Text) :
    tidyBlanks (gap ++ t) = tidyBlanks t := by
  rw [tidyBlanks, words_append hg, tidyBlanks]

theorem tidyBehind_char {c : Char} (hc : isBlank c = false) (t : Text) :
    tidyBehind (c :: t) = c :: tidyBehind t := by
  have hb : allBlank (c :: t) = false := by simp [allBlank, hc]
  rw [tidyBehind, hb, if_neg (by simp), if_neg (by simp [hc]), tidyBlanks_char hc]

theorem tidyBehind_blank {b : Char} (hb : isBlank b = true) (t : Text) :
    tidyBehind (b :: t) = if allBlank t = true then [] else ' ' :: tidyBlanks t := by
  have ha : allBlank (b :: t) = allBlank t := by simp [allBlank, hb]
  have ht : tidyBlanks (b :: t) = tidyBlanks t :=
    tidyBlanks_append_of_blank (show allBlank [b] = true by simp [allBlank, hb]) t
  rw [tidyBehind, ha, ht]
  split
  · rfl
  · exact if_pos (by simp [hb])

theorem tidyBehind_append {u : Text} (hu : ∀ c ∈ u, isBlank c = false) (t : Text) :
    tidyBehind (u ++ t) = u ++ tidyBehind t := by
  induction u with
  | nil => rfl
  | cons c u ih =>
    obtain ⟨hc, hu⟩ := List.forall_mem_cons.mp hu
    rw [List.cons_append, tidyBehind_char hc, ih hu, List.cons_append]

theorem tidyBlanks_append {u : Text} (hne : u ≠ []) (hu : ∀ c ∈ u, isBlank c = false) (t : Text) :
    tidyBlanks (u ++ t) = u ++ tidyBehind t := by
  obtain ⟨c, u, rfl⟩ := List.exists_cons_of_ne_nil hne
  obtain ⟨hc, hu⟩ := List.forall_mem_cons.mp hu
  rw [List.cons_append, tidyBlanks_char hc, tidyBehind_append hu, List.cons_append]

theorem tidyBlanks_escape {b : Char} (hb : isBlank b = true) (t : Text) :
    tidyBlanks ('\\' :: b :: t) = '\\' :: if allBlank t = true then [] else ' ' :: tidyBlanks t := by
  rw [tidyBlanks_char (by decide), tidyBehind_blank hb]

theorem follows_tidyBehind (t : Text) : Follows (tidyBehind t) t := by
  cases t with
  | nil => exact .refl []
  | cons c t =>
    refine ⟨?_, fun h => absurd h (List.cons_ne_nil _ _)⟩
    cases hc : isBlank c with
    | true =>
      rw [tidyBehind_blank hc]
      split
      · exact nofun
      · exact nofun
    | false =>
      rw [tidyBehind_char hc]
      exact id

theorem ReadsToken.blank_cases {t u rest : Text} (h : ReadsToken t u rest) :
    (∀ c ∈ u, isBlank c = false) ∨ ∃ b, isBlank b = true ∧ (u = [b] ∨ u = ['\\', b]) := by
  have hone : ∀ {c : Char}, isBlank c = false → ∀ d ∈ [c], isBlank d = false := by
    intro c hc d hd
    rwa [List.mem_singleton.mp hd]
  cases h with
  | control h =>
    rcases control?_cases h with ⟨hw, -⟩ | ⟨c, rfl, -⟩
    · exact .inl (BoldArgument.not_blank_of_begins (k := .control) hw).2
    · cases hc : isBlank c with
      | true => exact .inr ⟨c, hc, .inr rfl⟩
      | false => exact .inl (List.forall_mem_cons.mpr ⟨by decide, hone hc⟩)
  | @char c _ _ =>
    cases hc : isBlank c with
    | true => exact .inr ⟨c, hc, .inl rfl⟩
    | false => exact .inl (hone hc)
  | backslash => exact .inl (hone (by decide))

theorem tidyBlanks_nil : tidyBlanks [] = [] :=
  tidyBlanks_blank rfl

theorem tidyBlanks_skipBlanks (t : Text) : tidyBlanks (skipBlanks t) = tidyBlanks t := by
  have hg : allBlank (t.takeWhile isBlank) = true := List.all_takeWhile
  have h := tidyBlanks_append_of_blank hg (skipBlanks t)
  rwa [takeWhile_isBlank_append_skipBlanks, eq_comm] at h

theorem pass_blanks_append {f : Text → Text}
    (hf : ∀ {b : Char}, isBlank b = true → ∀ t, f (b :: t) = b :: f t) {gap : Text} (hg : allBlank gap = true)
    (t : Text) : f (gap ++ t) = gap ++ f t := by
  induction gap with
  | nil => rfl
  | cons b gap ih =>
    simp only [allBlank, List.all_cons, Bool.and_eq_true] at hg
    rw [List.cons_append, hf hg.1, ih hg.2, List.cons_append]

/-- A pass that copies blanks at the front, and the first character behind them, may go on behind them. -/
theorem skipBlanks_pass {f : Text → Text} {t : Text}
    (hblanks : ∀ {gap : Text}, allBlank gap = true → ∀ t, f (gap ++ t) = gap ++ f t)
    (hh : (f (skipBlanks t)).head? = (skipBlanks t).head?) : skipBlanks (f t) = f (skipBlanks t) := by
  have hs : skipBlanks (f (skipBlanks t)) = f (skipBlanks t) := by
    cases hu : f (skipBlanks t) with
    | nil => rfl
    | cons c r =>
      rw [hu] at hh
      obtain ⟨r', hr⟩ := List.head?_eq_some_iff.mp hh.symm
      exact List.dropWhile_cons_of_neg (by simp [isBlank_of_skipBlanks hr])
  have hg : allBlank (t.takeWhile isBlank) = true := List.all_takeWhile
  have h := hblanks hg (skipBlanks t)
  rw [takeWhile_isBlank_append_skipBlanks] at h
  rw [h, skipBlanks_append List.all_takeWhile, hs]

theorem skipBlanks_tidyBlanks (t : Text) : skipBlanks (tidyBlanks t) = tidyBlanks t := by
  rw [← tidyBlanks_skipBlanks]
  cases hs : skipBlanks t with
  | nil =>
    rw [tidyBlanks_nil]
    rfl
  | cons c r =>
    have hc := isBlank_of_skipBlanks hs
    rw [tidyBlanks_char hc]
    exact List.dropWhile_cons_of_neg (by simp [hc])

theorem skipBlanks_tidyBehind (t : Text) : skipBlanks (tidyBehind t) = tidyBlanks t := by
  unfold tidyBehind
  split
  · next h => exact (tidyBlanks_blank h).symm
  · split
    · exact skipBlanks_tidyBlanks t
    · exact skipBlanks_tidyBlanks t

/-- Tidying brings no token to the front, other than a backslash or an escaped blank. -/
theorem head?_tokens_of_tidyBlanks {t v : Text} (hb : v ≠ ['\\']) (hv : ∀ c ∈ v, isBlank c = false)
    (h : (tokens (tidyBlanks t)).head? = some v) : (tokens (skipBlanks t)).head? = some v := by
  rw [← tidyBlanks_skipBlanks] at h
  cases hs : skipBlanks t with
  | nil =>
    rw [hs, tidyBlanks_nil] at h
    exact h
  | cons c r =>
    obtain ⟨u, rest, hu⟩ := exists_readsToken (List.cons_ne_nil c r)
    have e := hu.eq_append
    rw [hs] at h
    rw [hu.head?_tokens]
    rcases hu.blank_cases with hblank | ⟨b, hblank, rfl | rfl⟩
    · have ht := hu.follows (follows_tidyBehind rest)
      rwa [e, tidyBlanks_append hu.ne_nil hblank, ht.head?_tokens] at h
    · obtain rfl := (List.cons.inj e).1
      rw [isBlank_of_skipBlanks hs] at hblank
      cases hblank
    · rw [e, List.cons_append, List.singleton_append, tidyBlanks_escape hblank] at h
      split at h
      · rw [ReadsToken.backslash.head?_tokens] at h
        exact absurd (Option.some.inj h).symm hb
      · have hescape {s : Text} : ReadsToken ('\\' :: ' ' :: s) ['\\', ' '] s := .control rfl
        rw [hescape.head?_tokens] at h
        obtain rfl := Option.some.inj h
        exact absurd (hv ' ' (by simp)) (by decide)

/-! ## Bold -/

namespace BoldArgument

variable {k : BoldArgument} {t gap u rest : Text}

theorem head?_unify (k : BoldArgument) (t : Text) : (k.unify t).head? = t.head? := by
  induction t using unify_induction k with
  | nil => rw [unify_nil]
  | token t u rest h hu _ =>
    obtain ⟨c, w, rfl⟩ := List.exists_cons_of_ne_nil h.ne_nil
    rw [unify_token h hu, h.eq_append]
    rfl
  | argument t r gap u rest h hr _ =>
    rw [unify_argument h hr, h.eq_append]
    cases k <;> rfl

theorem unify_blanks_append (k : BoldArgument) {gap : Text} (hg : allBlank gap = true) (t : Text) :
    k.unify (gap ++ t) = gap ++ k.unify t := by
  have hbm := singleton_ne_of_isWordControl (show isWordControl bm = true by decide)
  exact pass_blanks_append (fun hb _ => unify_token (.char (ne_of_isBlank hb).1) fun h => absurd h (hbm _)) hg t

theorem skipBlanks_unify (k : BoldArgument) (t : Text) : skipBlanks (k.unify t) = k.unify (skipBlanks t) :=
  skipBlanks_pass k.unify_blanks_append (k.head?_unify _)

theorem allBlank_unify (k : BoldArgument) (t : Text) : allBlank (k.unify t) = allBlank t := by
  rw [Bool.eq_iff_iff, ← skipBlanks_eq_nil_iff, ← skipBlanks_eq_nil_iff, skipBlanks_unify]
  constructor
  · intro h
    have hh := k.head?_unify (skipBlanks t)
    rw [h] at hh
    exact List.head?_eq_none_iff.mp hh.symm
  · intro h
    rw [h, unify_nil]

theorem Begins.tidyBehind (h : k.Begins t gap u rest) :
    ∃ gap', k.Begins (tidyBehind t) gap' u (Tex.tidyBehind rest) := by
  obtain ⟨hne, hu⟩ := not_blank_of_begins h.begins
  have htoken : ReadsToken (u ++ Tex.tidyBehind rest) u (Tex.tidyBehind rest) :=
    h.token.follow (follows_tidyBehind rest)
  have e := h.eq_append
  cases gap with
  | nil =>
    refine ⟨[], ⟨?_, rfl, htoken, h.begins, h.apart⟩⟩
    rw [e, List.nil_append, tidyBehind_append hu, List.nil_append]
  | cons b gap =>
    have hg := h.blanks
    simp only [allBlank, List.all_cons, Bool.and_eq_true] at hg
    have hb : allBlank (gap ++ (u ++ rest)) = false := by
      obtain ⟨c, w, rfl⟩ := List.exists_cons_of_ne_nil hne
      simp [allBlank, hu c List.mem_cons_self]
    refine ⟨[' '], ⟨?_, by decide, htoken, h.begins, fun _ => List.cons_ne_nil _ _⟩⟩
    rw [e, List.cons_append, tidyBehind_blank hg.1, hb, if_neg (by simp),
      tidyBlanks_append_of_blank hg.2, tidyBlanks_append hne hu]
    rfl

theorem not_blank_of_written (h : k.begins u = true) :
    (k.written u).flatten ≠ [] ∧ ∀ c ∈ (k.written u).flatten, isBlank c = false := by
  have hu := (not_blank_of_begins h).2
  have hmathbf := (not_blank_of_begins (show control.begins mathbf = true by decide)).2
  have hmem : ∀ v ∈ k.written u, v = mathbf ∨ v = ['{'] ∨ v = u ∨ v = ['}'] := by
    cases k <;> simp [written]
  refine ⟨by cases k <;> exact List.cons_ne_nil _ _, fun c hc => ?_⟩
  obtain ⟨v, hv, hcv⟩ := List.mem_flatten.mp hc
  rcases hmem v hv with rfl | rfl | rfl | rfl
  · exact hmathbf c hcv
  · rw [List.mem_singleton.mp hcv]
    decide
  · exact hu c hcv
  · rw [List.mem_singleton.mp hcv]
    decide

theorem tidyBehind_rest (k : BoldArgument) (h : k.begins u = true) (t : Text) :
    Tex.tidyBehind (k.rest u t) = k.rest u (Tex.tidyBehind t) := by
  cases k with
  | group => exact tidyBehind_append (not_blank_of_begins h).2 t
  | control | char => rfl

theorem opens_of_tidyBehind (h : k.Opens (tokens (Tex.tidyBehind t))) : k.Opens (tokens t) := by
  obtain ⟨hh, hk⟩ := opens_tokens_iff.mp h
  rw [skipBlanks_tidyBehind] at hh
  cases hv : (tokens (tidyBlanks t)).head? with
  | none =>
    rw [hv] at hh
    cases hh
  | some v =>
    rw [hv] at hh
    have hs := head?_tokens_of_tidyBlanks (ne_of_begins hh).2 (not_blank_of_begins hh).2 hv
    refine opens_tokens_iff.mpr ⟨by rw [hs]; exact hh, fun e => ?_⟩
    have hb := hk e
    cases t with
    | nil => exact hb
    | cons c t =>
      cases hc : isBlank c with
      | true => exact hc
      | false =>
        rw [tidyBehind_char hc] at hb
        exact hb

/-- Bold in a tidied text is bold as in the text itself. -/
theorem unify_tidyBlanks (k : BoldArgument) (t : Text) :
    k.unify (tidyBlanks t) = tidyBlanks (k.unify t) := by
  have hbehind : ∀ {t : Text}, k.unify (tidyBlanks t) = tidyBlanks (k.unify t) →
      k.unify (Tex.tidyBehind t) = Tex.tidyBehind (k.unify t) := by
    intro t h
    have hspace := k.unify_blanks_append (show allBlank [' '] = true by decide) (tidyBlanks t)
    rw [Tex.tidyBehind, Tex.tidyBehind, allBlank_unify, head?_unify]
    split
    · exact unify_nil k
    · split
      · exact hspace.trans (by rw [h]; rfl)
      · exact h
  have hbm := (not_blank_of_begins (show control.begins bm = true by decide)).2
  induction t using unify_induction k with
  | nil => rw [tidyBlanks_nil, unify_nil, tidyBlanks_nil]
  | token t u r h hu ih =>
    rw [unify_token h hu, h.eq_append]
    rcases h.blank_cases with hblank | ⟨b, hb, rfl | rfl⟩
    · have h' : ReadsToken (u ++ Tex.tidyBehind r) u (Tex.tidyBehind r) :=
        h.follows (follows_tidyBehind r)
      rw [tidyBlanks_append h.ne_nil hblank, tidyBlanks_append h.ne_nil hblank,
        unify_token h' fun e => mt opens_of_tidyBehind (hu e), hbehind ih]
    · have hb' : allBlank [b] = true := by simpa [allBlank] using hb
      rw [tidyBlanks_append_of_blank hb', tidyBlanks_append_of_blank hb', ih]
    · have e := tidyBlanks_escape hb
      simp only [List.cons_append, List.nil_append]
      rw [e, e, allBlank_unify]
      split
      · exact (piecewise_unify k).backslash
      · have hescape : ReadsToken ('\\' :: ' ' :: tidyBlanks r) ['\\', ' '] (tidyBlanks r) := .control rfl
        rw [unify_token hescape fun h => absurd h (by decide), ih]
        rfl
  | argument t r gap u rest h hr ih =>
    obtain ⟨gap', hr'⟩ := hr.tidyBehind
    have h' : ReadsToken (bm ++ Tex.tidyBehind r) bm (Tex.tidyBehind r) :=
      h.follows (follows_tidyBehind r)
    have hw := not_blank_of_written hr.begins
    rw [unify_argument h hr, h.eq_append, tidyBlanks_append h.ne_nil hbm, unify_argument h' hr',
      tidyBlanks_append hw.1 hw.2, ← hbehind ih, tidyBehind_rest k hr.begins]

end BoldArgument

/-! ## Limits -/

section Limits

variable {t : Text}

theorem dropLimits_blanks_append {gap : Text} (hg : allBlank gap = true) (t : Text) :
    dropLimits (gap ++ t) = gap ++ dropLimits t :=
  pass_blanks_append (fun hb _ => dropLimits_token (.char (ne_of_isBlank hb).1) (ne_limits (by simp))) hg t

theorem dropLimits_of_blank (ht : allBlank t = true) : dropLimits t = t := by
  have h := dropLimits_blanks_append ht []
  rwa [List.append_nil, dropLimits_nil, List.append_nil] at h

theorem dropLimits_append_blanks {trail : Text} (ht : allBlank trail = true) (s : Text) :
    dropLimits (s ++ trail) = dropLimits s ++ trail := by
  cases trail with
  | nil => rw [List.append_nil, List.append_nil]
  | cons b trail =>
    simp only [allBlank, List.all_cons, Bool.and_eq_true] at ht
    rw [dropLimits_append_cons (isAlpha_of_isBlank ht.1) (ne_of_isBlank ht.1).1, dropLimits_of_blank ht.2]

theorem mem_of_mem_dropLimits {c : Char} (h : c ∈ dropLimits t) : c ∈ t := by
  obtain ⟨u, hu, hc⟩ := List.mem_flatten.mp h
  rw [← flatten_tokens t]
  exact List.mem_flatten.mpr ⟨u, (List.mem_filter.mp hu).1, hc⟩

theorem words_last {lead word trail : Text} (hl : allBlank lead = true) (hne : word ≠ [])
    (hw : ∀ c ∈ word, isBlank c = false) (ht : allBlank trail = true) :
    words (lead ++ word ++ trail) = [word] := by
  have hh : ∀ c ∈ trail.head?, isBlank c = true := fun c hc =>
    isBlank_of_allBlank ht c (List.mem_of_mem_head? hc)
  rw [List.append_assoc, words_append hl, words_word_append hne hw hh, words_eq_nil_iff.mpr ht]

theorem words_cons {lead word t : Text} {b : Char} (hl : allBlank lead = true) (hne : word ≠ [])
    (hw : ∀ c ∈ word, isBlank c = false) (hb : isBlank b = true) :
    words (lead ++ word ++ b :: t) = word :: words t := by
  have hone : words (b :: t) = words t := words_append (s := [b]) (by simpa [allBlank] using hb) t
  rw [List.append_assoc, words_append hl, words_word_append hne hw (by simpa using hb), hone]

theorem intercalate_cons_cons (w v : Text) (ws : List Text) :
    List.intercalate [' '] (w :: v :: ws) = w ++ ' ' :: List.intercalate [' '] (v :: ws) := by
  simp [List.intercalate]

theorem dropLimits_tidyBlanks (t : Text) :
    dropLimits (tidyBlanks t) = List.intercalate [' '] ((words t).map dropLimits) := by
  rw [tidyBlanks]
  induction words t with
  | nil => exact dropLimits_nil
  | cons w ws ih =>
    cases ws with
    | nil => simp [List.intercalate]
    | cons v ws =>
      rw [intercalate_cons_cons, dropLimits_append_cons (by decide) (by decide), ih]
      exact (intercalate_cons_cons _ _ _).symm

/-- The words that are left, but those of which nothing is. -/
theorem words_dropLimits (t : Text) :
    words (dropLimits t) = ((words t).map dropLimits).filter (· ≠ []) := by
  have hword {word : Text} (hw : ∀ c ∈ word, isBlank c = false) : ∀ c ∈ dropLimits word, isBlank c = false :=
    fun c hc => hw c (mem_of_mem_dropLimits hc)
  induction worded t with
  | blank ht => rw [dropLimits_of_blank ht, words_eq_nil_iff.mpr ht]; rfl
  | @last lead word trail hl hne hw ht =>
    rw [dropLimits_append_blanks ht, dropLimits_blanks_append hl, words_last hl hne hw ht]
    by_cases hnil : dropLimits word = []
    · rw [hnil, List.append_nil, words_append hl, words_eq_nil_iff.mpr ht]
      simp [hnil]
    · rw [words_last hl hnil (hword hw) ht]
      simp [hnil]
  | @cons lead word t b hl hne hw hb ht _ ih =>
    have hone : words (b :: dropLimits t) = words (dropLimits t) :=
      words_append (s := [b]) (by simpa [allBlank] using hb) _
    rw [dropLimits_append_cons (isAlpha_of_isBlank hb) (ne_of_isBlank hb).1, dropLimits_blanks_append hl,
      words_cons hl hne hw hb]
    by_cases hnil : dropLimits word = []
    · rw [hnil, List.append_nil, words_append hl, hone, ih]
      simp [hnil]
    · rw [words_cons hl hnil (hword hw) hb, ih]
      simp [hnil]

theorem length_intercalate (ws : List Text) :
    (List.intercalate [' '] ws).length = (ws.map List.length).sum + (ws.length - 1) := by
  induction ws with
  | nil => rfl
  | cons w ws ih =>
    cases ws with
    | nil => simp [List.intercalate]
    | cons v ws =>
      rw [intercalate_cons_cons, List.length_append, List.length_cons, ih]
      simp only [List.map_cons, List.sum_cons, List.length_cons]
      omega

/-- Joined without its empty words, a list is as before if it has none, or only one word. -/
theorem intercalate_filter_eq_iff (ws : List Text) :
    List.intercalate [' '] (ws.filter (· ≠ [])) = List.intercalate [' '] ws ↔ ([] ∈ ws → ws = [[]]) := by
  constructor
  · intro h hmem
    have hsum : ((ws.filter (· ≠ [])).map List.length).sum = (ws.map List.length).sum := by
      clear h hmem
      induction ws with
      | nil => rfl
      | cons w ws ih => by_cases hw : w = [] <;> simp_all
    have hlt : (ws.filter (· ≠ [])).length < ws.length :=
      List.length_filter_lt_length_iff_exists.mpr ⟨[], hmem, by simp⟩
    have hlen := congrArg List.length h
    rw [length_intercalate, length_intercalate, hsum] at hlen
    have hone : ws.length = 1 := by omega
    obtain ⟨w, rfl⟩ := List.length_eq_one_iff.mp hone
    rw [List.mem_singleton.mp hmem]
  · intro h
    by_cases hmem : [] ∈ ws
    · rw [h hmem]
      rfl
    · rw [List.filter_eq_self.mpr]
      intro w hw
      exact decide_eq_true fun e => hmem (e ▸ hw)

/-- Blanks may be tidied before or after, exactly if no word among others is dropped. -/
theorem dropLimits_tidyBlanks_iff :
    dropLimits (tidyBlanks t) = tidyBlanks (dropLimits t) ↔
      ∀ w ∈ words t, dropLimits w = [] → words t = [w] := by
  rw [dropLimits_tidyBlanks, tidyBlanks, words_dropLimits, eq_comm, intercalate_filter_eq_iff]
  constructor
  · intro h w hw hnil
    have hone := congrArg List.length (h (List.mem_map.mpr ⟨w, hw, hnil⟩))
    rw [List.length_map] at hone
    obtain ⟨v, e⟩ := List.length_eq_one_iff.mp hone
    rw [e] at hw ⊢
    rw [List.mem_singleton.mp hw]
  · intro h hmem
    obtain ⟨w, hw, hnil⟩ := List.mem_map.mp hmem
    rw [h w hw hnil, List.map_singleton, hnil]

end Limits

end Formula.Tex
