import Formula.Proofs.Tex.Apart
import Formula.Proofs.Tex.Inside

/-! # Passes that work piece by piece

Dropping limits, and each of the sweeps for bold, copies braces and replaces balanced pieces by balanced
pieces. No piece reaches over a closing brace. So such a pass does to the content of a group what it does to
the content alone, and a group is there before the pass exactly if it is there behind it.
-/

namespace Formula.Tex

open Text

/-- The pass goes on behind a brace, and behind each of the other pieces, as if the text began there. -/
structure Piecewise (f : Text → Text) : Prop where
  nil : f [] = []
  backslash : f ['\\'] = ['\\']
  brace : ∀ {c : Char}, c = '{' ∨ c = '}' → ∀ t, f (c :: t) = c :: f t
  shut : ∀ s t, f (s ++ '}' :: t) = f s ++ '}' :: f t
  piece : ∀ {c : Char} {t : Text}, c ≠ '{' → c ≠ '}' → c :: t ≠ ['\\'] → ∃ source new rest,
    c :: t = source ++ rest ∧ f (c :: t) = new ++ f rest ∧ source ≠ [] ∧ Balanced source ∧ Balanced new

namespace Piecewise

variable {f : Text → Text} (hf : Piecewise f)

include hf

theorem append_of_shut {source new s t : Text}
    (h : f (source ++ (s ++ '}' :: t)) = new ++ f (s ++ '}' :: t)) : f (source ++ s) = new ++ f s := by
  rw [← List.append_assoc, hf.shut, hf.shut, ← List.append_assoc] at h
  exact List.append_cancel_right h

theorem close?_eq (depth : Nat) (t : Text) :
    close? depth (f t) = (close? depth t).map fun (content, rest) => (f content, f rest) := by
  induction hn : t.length using Nat.strongRecOn generalizing depth t with
  | ind n ih =>
    cases t with
    | nil => rw [hf.nil, close?_nil, Option.map_none]
    | cons c t =>
      have hlt : t.length < n := by simp [← hn]
      have hopen := hf.brace (.inl rfl)
      have hshut := hf.brace (.inr rfl)
      by_cases ho : c = '{'
      · rw [ho, hopen, close?_open, close?_open, ih _ hlt _ _ rfl]
        cases close? (depth + 1) t <;> simp [hopen]
      by_cases hs : c = '}'
      · rw [hs, hshut]
        cases depth with
        | zero => simp [hf.nil]
        | succ depth =>
          rw [close?_shut_succ, close?_shut_succ, ih _ hlt _ _ rfl]
          cases close? depth t <;> simp [hshut]
      by_cases hb : c :: t = ['\\']
      · rw [hb, hf.backslash]
        simp [close?]
      obtain ⟨source, new, rest, e, hnew, hne, hsource, hbalanced⟩ := hf.piece ho hs hb
      have hlt : rest.length < n := by
        have hpos := List.length_pos_iff.mpr hne
        rw [← hn, e, List.length_append]
        omega
      rw [hnew, e, close?_append hbalanced, close?_append hsource, ih _ hlt _ _ rfl]
      cases hc : close? depth rest with
      | none => rfl
      | some p =>
        obtain ⟨content, behind⟩ := p
        rw [e, eq_append_of_close? hc] at hnew
        simp [hf.append_of_shut hnew]

theorem group?_eq (t : Text) :
    group? (f ('{' :: t)) = (group? ('{' :: t)).map fun (content, rest) => (f content, f rest) := by
  rw [hf.brace (.inl rfl)]
  exact hf.close?_eq 0 t

theorem group?_eq_none {t : Text} (hhead : (f t).head? = t.head?) (h : group? t = none) :
    group? (f t) = none := by
  cases t with
  | nil =>
    rw [List.head?_eq_none_iff.mp hhead]
    rfl
  | cons c r =>
    by_cases hc : c = '{'
    · subst hc
      rw [hf.group?_eq, h, Option.map_none]
    · obtain ⟨r', hr⟩ := List.head?_eq_some_iff.mp hhead
      rw [hr]
      simp [group?, hc]

theorem braced_append (s t : Text) : f (braced s ++ t) = braced (f s) ++ f t := by
  have e : ∀ s t : Text, braced s ++ t = '{' :: (s ++ '}' :: t) := fun s t => by simp [braced]
  rw [e, e, hf.brace (.inl rfl), hf.shut]

theorem balanced {s : Text} (hs : Balanced s) : Balanced (f s) := by
  have hg : group? ('{' :: (s ++ ['}'])) = some (s, []) := group?_iff.mpr ⟨hs, by simp [braced]⟩
  have h := hf.group?_eq (s ++ ['}'])
  rw [hg, Option.map_some] at h
  exact (group?_iff.mp h).1

end Piecewise

/-! ## Tokens in front of a closing brace -/

theorem singleton_ne_of_isWordControl {u : Text} (hu : isWordControl u = true) (c : Char) : [c] ≠ u := by
  rintro rfl
  simp [isWordControl] at hu

theorem tokens_induction {motive : Text → Prop} (nil : motive [])
    (cons : ∀ t u rest, ReadsToken t u rest → motive rest → motive t) (t : Text) : motive t := by
  fun_induction tokens t with
  | case1 => exact nil
  | case2 c r name rest h ih => exact cons _ _ _ (.control h) ih
  | case3 c r h ih => exact cons _ _ _ (readsToken_of_control?_eq_none h) ih

namespace ReadsToken

variable {t u rest : Text}

theorem head?_tokens (h : ReadsToken t u rest) : (tokens t).head? = some u := by
  rw [h.tokens_eq, List.head?_cons]

theorem follows (h : ReadsToken t u rest) {s : Text} (hs : Follows s rest) : ReadsToken (u ++ s) u s :=
  (h.eq_append ▸ h).follow hs

theorem append_cons (h : ReadsToken t u rest) (hu : u ≠ ['\\']) {c : Char} (hc : c.isAlpha = false)
    (s : Text) : ReadsToken (t ++ c :: s) u (rest ++ c :: s) := by
  cases h with
  | control h =>
    have e := (eq_append_of_control? h).1
    rw [e] at h ⊢
    rw [List.append_assoc]
    refine .control (control?_append_of_opensLetter h ?_)
    cases rest with
    | nil => exact fun ho => absurd ho (by simp [opensLetter, hc])
    | cons d rest => exact id
  | char hne => exact .char hne
  | backslash => exact absurd rfl hu

/-- The first token is balanced, unless it is a brace or a backslash that nothing follows. -/
theorem exists_balanced {c : Char} (ho : c ≠ '{') (hs : c ≠ '}') (hb : c :: t ≠ ['\\']) :
    ∃ u rest, ReadsToken (c :: t) u rest ∧ Balanced u := by
  obtain ⟨u, rest, h⟩ := exists_readsToken (List.cons_ne_nil c t)
  refine ⟨u, rest, h, ?_⟩
  cases h with
  | control h => exact balanced_of_control? h
  | char hc => exact .singleton hc ho hs
  | backslash => exact absurd rfl hb

theorem ne_nil (h : ReadsToken t u rest) : u ≠ [] := by
  cases h with
  | control h =>
    rintro rfl
    exact absurd (eq_append_of_control? h).2 (by decide)
  | char _ | backslash => exact List.cons_ne_nil _ _

theorem backslash_cases (h : ReadsToken t ['\\'] rest) : t = ['\\'] ∧ rest = [] := by
  cases h with
  | control h => exact absurd (eq_append_of_control? h).2 (by decide)
  | char h => exact absurd rfl h
  | backslash => exact ⟨rfl, rfl⟩

end ReadsToken

theorem head?_tokens_append_shut {p : Text → Bool}
    (hp : p ['}'] = false ∧ p ['\\'] = false ∧ p ['\\', '}'] = false) (s t : Text) :
    (tokens (s ++ '}' :: t)).head?.any p = (tokens s).head?.any p := by
  by_cases hs : s = []
  · have hr : ReadsToken ('}' :: t) ['}'] t := .char (by decide)
    rw [hs, List.nil_append, hr.tokens_eq, tokens]
    exact hp.1
  obtain ⟨u, rest, hu⟩ := exists_readsToken hs
  by_cases hb : u = ['\\']
  · obtain ⟨e, rfl⟩ := (hb ▸ hu).backslash_cases
    have hr : ReadsToken ('\\' :: '}' :: t) ['\\', '}'] t := .control rfl
    rw [e, List.singleton_append, hr.tokens_eq, ReadsToken.backslash.tokens_eq]
    exact hp.2.2.trans hp.2.1.symm
  · rw [(hu.append_cons hb (by decide) t).tokens_eq, hu.tokens_eq]
    rfl

/-! ## Limits -/

section Limits

variable {t u rest : Text}

theorem dropLimits_nil : dropLimits [] = [] := by
  rw [dropLimits, tokens]
  rfl

theorem dropLimits_token (h : ReadsToken t u rest) (hu : u ≠ limits) :
    dropLimits t = u ++ dropLimits rest := by
  rw [dropLimits, h.tokens_eq, filter_cons_of_ne hu, List.flatten_cons, dropLimits]

theorem dropLimits_limits (h : ReadsToken t limits rest) : dropLimits t = dropLimits rest := by
  rw [dropLimits, h.tokens_eq, List.filter_cons_of_neg (by simp), dropLimits]

theorem ne_limits {u : Text} (h : u.length ≤ 2) : u ≠ limits := by
  rintro rfl
  exact absurd h (by decide)

theorem dropLimits_append_cons {c : Char} (hc : c.isAlpha = false) (hne : c ≠ '\\') (s t : Text) :
    dropLimits (s ++ c :: t) = dropLimits s ++ c :: dropLimits t := by
  induction s using tokens_induction with
  | nil =>
    rw [List.nil_append, dropLimits_nil, dropLimits_token (.char hne) (ne_limits (by simp))]
    rfl
  | cons s u rest h ih =>
    by_cases hu : u = ['\\']
    · obtain ⟨rfl, rfl⟩ := (hu ▸ h).backslash_cases
      have hescape : ReadsToken ('\\' :: c :: t) ['\\', c] t := .control (by simp [control?, hc])
      rw [dropLimits_token .backslash (ne_limits (by simp)), dropLimits_nil]
      exact dropLimits_token hescape (ne_limits (by simp))
    · have h' := h.append_cons hu hc t
      by_cases hl : u = limits
      · subst hl
        rw [dropLimits_limits h', dropLimits_limits h, ih]
      · rw [dropLimits_token h' hl, dropLimits_token h hl, ih, List.append_assoc]

theorem piecewise_dropLimits : Piecewise dropLimits where
  nil := dropLimits_nil
  backslash := by rw [dropLimits_token .backslash (ne_limits (by simp)), dropLimits_nil]; rfl
  brace hc t := by
    have hne : ∀ {c : Char}, c = '{' ∨ c = '}' → c ≠ '\\' := by
      rintro c (rfl | rfl) <;> decide
    exact dropLimits_token (.char (hne hc)) (ne_limits (by simp))
  shut := dropLimits_append_cons (by decide) (by decide)
  piece {c t} ho hs hb := by
    obtain ⟨u, rest, h, hu⟩ := ReadsToken.exists_balanced ho hs hb
    by_cases hl : u = limits
    · subst hl
      exact ⟨limits, [], rest, h.eq_append, dropLimits_limits h, h.ne_nil, hu, .nil⟩
    · exact ⟨u, u, rest, h.eq_append, dropLimits_token h hl, h.ne_nil, hu, hu⟩

end Limits

/-! ## Bold -/

theorem skipBlankTokens_tokens (t : Text) : skipBlankTokens (tokens t) = tokens (skipBlanks t) := by
  have h := (tokenized_tokens t).skipBlanks_flatten
  rw [flatten_tokens] at h
  rw [h]
  exact (tokenized_tokens t).skipped.symm

theorem head?_tokens (t : Text) : (tokens t).head?.any isBlankToken = t.head?.any isBlank := by
  have h := (tokenized_tokens t).head?_flatten
  rw [flatten_tokens] at h
  exact h.symm

namespace BoldArgument

def unify (k : BoldArgument) (t : Text) : Text :=
  (k.sweep (tokens t)).flatten

def rest : BoldArgument → Text → Text → Text
  | group, u, t => u ++ t
  | control, _, t | char, _, t => t

/-- The text begins with an argument of the kind, blanks in front of it: its first token, and what follows
that. -/
structure Begins (k : BoldArgument) (t gap u rest : Text) : Prop where
  eq_append : t = gap ++ (u ++ rest)
  blanks : allBlank gap = true
  token : ReadsToken (u ++ rest) u rest
  begins : k.begins u = true
  apart : k = char → gap ≠ []

def taken : BoldArgument → Text → Text
  | group, _ => []
  | control, u | char, u => u

variable {k : BoldArgument} {t gap u rest : Text}

theorem taken_append_rest (k : BoldArgument) (u t : Text) : k.taken u ++ k.rest u t = u ++ t := by
  cases k <;> rfl

theorem tokens_unify (k : BoldArgument) (t : Text) : tokens (k.unify t) = k.sweep (tokens t) := by
  cases k with
  | group => exact (Retokens.boldGroups _ (tokenized_tokens t)).1
  | control => exact (Retokens.boldControls _ (tokenized_tokens t)).1
  | char => exact (Retokens.boldChars _ (tokenized_tokens t)).1

theorem unifyBold_eq (t : Text) : unifyBold t = char.unify (control.unify (group.unify t)) := by
  rw [unify, tokens_unify, tokens_unify]
  rfl

theorem opens_tokens_iff : k.Opens (tokens t) ↔
    (tokens (skipBlanks t)).head?.any k.begins = true ∧ (k = char → t.head?.any isBlank = true) := by
  rw [Opens, skipBlankTokens_tokens, head?_tokens]

theorem begins_cases (h : k.begins u = true) : (k = group ∧ u = ['{']) ∨
    (k = control ∧ isWordControl u = true) ∨ (k = char ∧ isAlphanumToken u = true) := by
  cases k with
  | group => exact .inl ⟨rfl, beq_iff_eq.mp h⟩
  | control => exact .inr (.inl ⟨rfl, h⟩)
  | char => exact .inr (.inr ⟨rfl, h⟩)

theorem not_blank_of_begins (h : k.begins u = true) : u ≠ [] ∧ ∀ c ∈ u, isBlank c = false := by
  rcases begins_cases h with ⟨-, rfl⟩ | ⟨-, hw⟩ | ⟨-, ha⟩
  · exact ⟨List.cons_ne_nil _ _, List.forall_mem_singleton.mpr (by decide)⟩
  · obtain ⟨c, w, rfl, hletters⟩ := exists_letters_of_isWordControl hw
    refine ⟨List.cons_ne_nil _ _, List.forall_mem_cons.mpr ⟨by decide, fun d hd => ?_⟩⟩
    exact isBlank_of_isAlphanum (by simp [Char.isAlphanum, hletters d hd])
  · unfold isAlphanumToken at ha
    split at ha
    · exact ⟨List.cons_ne_nil _ _, by simpa using isBlank_of_isAlphanum ha⟩
    · cases ha

theorem ne_of_begins (h : k.begins u = true) : u ≠ ['}'] ∧ u ≠ ['\\'] := by
  constructor <;>
  · rintro rfl
    cases k <;> cases h

theorem exists_begins (h : k.Opens (tokens t)) : ∃ gap u rest, k.Begins t gap u rest := by
  obtain ⟨hh, hk⟩ := opens_tokens_iff.mp h
  have hne : skipBlanks t ≠ [] := by
    intro e
    rw [e, tokens] at hh
    cases hh
  obtain ⟨u, rest, hu⟩ := exists_readsToken hne
  have e := hu.eq_append
  rw [hu.tokens_eq] at hh
  refine ⟨t.takeWhile isBlank, u, rest, ⟨?_, List.all_takeWhile, e ▸ hu, hh, ?_⟩⟩
  · rw [← e, takeWhile_isBlank_append_skipBlanks]
  · intro hc hg
    have hb := hk hc
    cases t with
    | nil => cases hb
    | cons c t =>
      rw [List.takeWhile_cons_of_pos (by simpa using hb)] at hg
      cases hg

namespace Begins

theorem skipBlanks_eq (h : k.Begins t gap u rest) : skipBlanks t = u ++ rest := by
  obtain ⟨hne, hu⟩ := not_blank_of_begins h.begins
  obtain ⟨c, w, rfl⟩ := List.exists_cons_of_ne_nil hne
  rw [h.eq_append, skipBlanks_append h.blanks]
  exact List.dropWhile_cons_of_neg (by simp [hu c List.mem_cons_self])

theorem opens (h : k.Begins t gap u rest) : k.Opens (tokens t) := by
  refine opens_tokens_iff.mpr ⟨?_, fun hk => ?_⟩
  · rw [h.skipBlanks_eq, h.token.tokens_eq]
    exact h.begins
  · obtain ⟨c, gap', e⟩ := List.exists_cons_of_ne_nil (h.apart hk)
    rw [h.eq_append, e]
    exact isBlank_of_allBlank h.blanks c (by rw [e]; exact List.mem_cons_self)

theorem length_rest_le (h : k.Begins t gap u rest) : (k.rest u rest).length ≤ t.length := by
  have hle : (k.rest u rest).length ≤ (u ++ rest).length := by
    cases k <;> simp [BoldArgument.rest]
  rw [h.eq_append, List.length_append]
  omega

end Begins

theorem unify_nil (k : BoldArgument) : k.unify [] = [] := by
  rw [unify, tokens, sweep_nil]
  rfl

theorem unify_token (h : ReadsToken t u rest) (hu : u = bm → ¬ k.Opens (tokens rest)) :
    k.unify t = u ++ k.unify rest := by
  rw [unify, h.tokens_eq, sweep_cons hu, List.flatten_cons, unify]

theorem sweep_tokens {r : Text} (ht : ReadsToken t bm r) (h : k.Begins r gap u rest) :
    k.sweep (tokens t) = k.written u ++ k.sweep (tokens (k.rest u rest)) := by
  have hs : skipBlankTokens (tokens r) = u :: tokens rest := by
    rw [skipBlankTokens_tokens, h.skipBlanks_eq, h.token.tokens_eq]
  have honward : k.onward u (tokens rest) = tokens (k.rest u rest) := by
    cases k with
    | group => exact h.token.tokens_eq.symm
    | control | char => rfl
  rw [ht.tokens_eq, sweep_argument h.opens hs, honward]

theorem unify_argument {r : Text} (ht : ReadsToken t bm r) (h : k.Begins r gap u rest) :
    k.unify t = (k.written u).flatten ++ k.unify (k.rest u rest) := by
  rw [unify, sweep_tokens ht h, List.flatten_append, unify]

theorem unify_induction (k : BoldArgument) {motive : Text → Prop} (nil : motive [])
    (token : ∀ t u rest, ReadsToken t u rest → (u = bm → ¬ k.Opens (tokens rest)) → motive rest → motive t)
    (argument : ∀ t r gap u rest, ReadsToken t bm r → k.Begins r gap u rest → motive (k.rest u rest) →
      motive t) (t : Text) : motive t := by
  induction hn : t.length using Nat.strongRecOn generalizing t with
  | ind n ih =>
    by_cases ht : t = []
    · rw [ht]
      exact nil
    obtain ⟨u, r, hu⟩ := exists_readsToken ht
    have hlt : r.length < n := by
      have hpos := List.length_pos_iff.mpr hu.ne_nil
      rw [← hn, hu.eq_append, List.length_append]
      omega
    by_cases hb : u = bm ∧ k.Opens (tokens r)
    · obtain ⟨rfl, ho⟩ := hb
      obtain ⟨gap, w, rest, h⟩ := exists_begins ho
      exact argument t r gap w rest hu h (ih _ (h.length_rest_le.trans_lt hlt) _ rfl)
    · exact token t u r hu (fun e ho => hb ⟨e, ho⟩) (ih _ hlt _ rfl)

/-! ### Pieces -/

theorem Begins.balanced_taken (h : k.Begins t gap u rest) : Balanced (gap ++ k.taken u) := by
  have hgap : Balanced gap := .of_forall fun c hc => ne_of_isBlank (isBlank_of_allBlank h.blanks c hc)
  refine hgap.append ?_
  rcases begins_cases h.begins with ⟨rfl, -⟩ | ⟨rfl, hw⟩ | ⟨rfl, ha⟩
  · exact .nil
  · exact balanced_of_isWordControl hw
  · exact balanced_of_isAlphanumToken ha

theorem Begins.balanced_written (h : k.Begins t gap u rest) : Balanced (k.written u).flatten := by
  have hmathbf : Balanced mathbf := balanced_of_isWordControl (by decide)
  have hb : Balanced u → Balanced ([mathbf, ['{'], u, ['}']] : List Text).flatten := fun hu => by
    simpa [braced] using hmathbf.append hu.braced
  rcases begins_cases h.begins with ⟨rfl, -⟩ | ⟨rfl, hw⟩ | ⟨rfl, ha⟩
  · simpa [written] using hmathbf
  · exact hb (balanced_of_isWordControl hw)
  · exact hb (balanced_of_isAlphanumToken ha)

theorem opens_append_shut_iff (t s : Text) : k.Opens (tokens (t ++ '}' :: s)) ↔ k.Opens (tokens t) := by
  rw [opens_tokens_iff, opens_tokens_iff, skipBlanks_append_shut,
    head?_tokens_append_shut (by cases k <;> decide) (skipBlanks t)]
  refine and_congr_right fun hb => ?_
  cases t with
  | nil =>
    have hnil : (tokens (skipBlanks [])).head?.any k.begins = false := by
      rw [skipBlanks, List.dropWhile_nil, tokens]
      rfl
    rw [hnil] at hb
    cases hb
  | cons c t => rfl

theorem Begins.append_shut (h : k.Begins t gap u rest) (s : Text) :
    k.Begins (t ++ '}' :: s) gap u (rest ++ '}' :: s) where
  eq_append := by rw [h.eq_append, List.append_assoc, List.append_assoc]
  blanks := h.blanks
  token := by
    have ht := h.token.append_cons (ne_of_begins h.begins).2 (c := '}') (by decide) s
    rwa [List.append_assoc] at ht
  begins := h.begins
  apart := h.apart

theorem rest_append (k : BoldArgument) (u rest s : Text) : k.rest u (rest ++ s) = k.rest u rest ++ s := by
  cases k with
  | group => exact (List.append_assoc u rest s).symm
  | control | char => rfl

theorem unify_append_shut (k : BoldArgument) (s t : Text) :
    k.unify (s ++ '}' :: t) = k.unify s ++ '}' :: k.unify t := by
  induction s using unify_induction k with
  | nil =>
    rw [unify_nil]
    exact unify_token (.char (by decide)) (fun h => absurd h (by decide))
  | token s u rest h hu ih =>
    by_cases hb : u = ['\\']
    · obtain ⟨rfl, rfl⟩ := (hb ▸ h).backslash_cases
      have hescape : ReadsToken ('\\' :: '}' :: t) ['\\', '}'] t := .control rfl
      rw [unify_token .backslash (fun h => absurd h (by decide)), unify_nil]
      exact unify_token hescape (fun h => absurd h (by decide))
    · have hu' : u = bm → ¬ k.Opens (tokens (rest ++ '}' :: t)) :=
        fun e => mt (opens_append_shut_iff rest t).mp (hu e)
      rw [unify_token (h.append_cons hb (by decide) t) hu', unify_token h hu, ih, List.append_assoc]
  | argument s r gap u rest h hr ih =>
    have h' := h.append_cons (c := '}') (by decide) (by decide) t
    rw [unify_argument h' (hr.append_shut t), unify_argument h hr, rest_append, ih, List.append_assoc]

theorem piecewise_unify (k : BoldArgument) : Piecewise k.unify where
  nil := unify_nil k
  backslash := by
    rw [unify_token .backslash (fun h => absurd h (by decide)), unify_nil]
    rfl
  brace hc t := by
    have hne : ∀ {c : Char}, c = '{' ∨ c = '}' → c ≠ '\\' ∧ [c] ≠ bm := by
      rintro c (rfl | rfl) <;> decide
    exact unify_token (.char (hne hc).1) (fun h => absurd h (hne hc).2)
  shut := unify_append_shut k
  piece {c t} ho hs hb := by
    obtain ⟨u, r, h, hu⟩ := ReadsToken.exists_balanced ho hs hb
    by_cases hbm : u = bm ∧ k.Opens (tokens r)
    · obtain ⟨rfl, hr⟩ := hbm
      obtain ⟨gap, w, rest, hr⟩ := exists_begins hr
      refine ⟨_, _, _, ?_, unify_argument h hr, ?_, hu.append (hr.balanced_taken), hr.balanced_written⟩
      · rw [h.eq_append, hr.eq_append, List.append_assoc, List.append_assoc, taken_append_rest]
      · exact List.append_ne_nil_of_left_ne_nil h.ne_nil _
    · exact ⟨u, u, r, h.eq_append, unify_token h fun e ho => hbm ⟨e, ho⟩, h.ne_nil, hu, hu⟩

end BoldArgument

end Formula.Tex
