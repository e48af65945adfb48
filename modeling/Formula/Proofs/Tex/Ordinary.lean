import Formula.Tex.Canonical
import Formula.Proofs.Tex.Commands

/-! # Ordinary texts

A text is ordinary if none of its tokens is a command that gets rewritten. Cleaning leaves it alone, and so
does setting accents, also where they go by searches and by spelling. The letters of such a command may
still be there: behind a line break, or at the beginning of a longer command.
-/

namespace Formula.Tex

open Text

/-! ## Accents by their spelling -/

/-- An accent that the text begins with and that no letter follows. The longer one is tried first. -/
def accentBySpelling? (t : Text) : Option (Accent × Text) :=
  ([Accent.ddot, .dot].findSome? fun a => (after? a.control t).map (a, ·)).filter
    fun (_, rest) => !opensLetter rest

theorem Accent.isWordControl_control (a : Accent) : isWordControl a.control = true := by
  cases a <;> decide

theorem eq_append_of_accentBySpelling? {t rest : Text} {a : Accent}
    (h : accentBySpelling? t = some (a, rest)) : t = a.control ++ rest ∧ opensLetter rest = false := by
  obtain ⟨h, ho⟩ := Option.filter_eq_some_iff.mp h
  obtain ⟨b, -, hb⟩ := List.exists_of_findSome?_eq_some h
  obtain ⟨r, hr, e⟩ := Option.map_eq_some_iff.mp hb
  obtain ⟨rfl, rfl⟩ := Prod.mk.inj e
  exact ⟨after?_eq_some_iff.mp hr, by simpa using ho⟩

theorem accentBySpelling?_length {t rest : Text} {a : Accent}
    (h : accentBySpelling? t = some (a, rest)) : rest.length < t.length := by
  have hpos : 0 < a.control.length := by cases a <;> decide
  rw [(eq_append_of_accentBySpelling? h).1, List.length_append]
  omega

def stretchBySpelling? : Text → Option (Stretch × Text)
  | [] => none
  | c :: r =>
    if c = '\\' then match accentBySpelling? (c :: r) with
      | some (a, rest) => match atom? rest with
        | some (target, rest) => some (.overset a target, rest)
        | none => some (.copied a.control, rest)
      | none => match control? (c :: r) with
        | some (name, rest) => some (.copied name, rest)
        | none => some (.copied [c], r)
    else some (.copied [c], r)

theorem stretchBySpelling?_length {t rest : Text} {s : Stretch}
    (h : stretchBySpelling? t = some (s, rest)) : rest.length < t.length := by
  unfold stretchBySpelling? at h
  split at h
  · cases h
  · split at h
    · split at h
      · next ha =>
        split at h <;> obtain ⟨-, rfl⟩ := Prod.mk.inj (Option.some.inj h)
        · next ht => exact (atom?_length ht).trans (accentBySpelling?_length ha)
        · exact accentBySpelling?_length ha
      · split at h <;> obtain ⟨-, rfl⟩ := Prod.mk.inj (Option.some.inj h)
        · next hc =>
          have := control?_length hc
          omega
        · simp
    · obtain ⟨-, rfl⟩ := Prod.mk.inj (Option.some.inj h)
      simp

def oversetBySpelling (t : Text) : Text :=
  match _h : stretchBySpelling? t with
  | some (s, rest) => s.written ++ oversetBySpelling rest
  | none => []
termination_by t.length
decreasing_by exact stretchBySpelling?_length _h

theorem accentBySpelling?_eq_some_iff {t rest : Text} {a : Accent} :
    accentBySpelling? t = some (a, rest) ↔ control? t = some (a.control, rest) := by
  constructor
  · intro h
    obtain ⟨rfl, ho⟩ := eq_append_of_accentBySpelling? h
    exact control?_of_isWordControl a.isWordControl_control ho
  · intro h
    have ho := opensLetter_of_control? h a.isWordControl_control
    rw [(eq_append_of_control? h).1]
    refine Option.filter_eq_some_iff.mpr ⟨?_, by simp [ho]⟩
    cases a <;> rfl

theorem accent?_eq_some_iff {t rest : Text} {a : Accent} :
    accent? t = some (a, rest) ↔ control? t = some (a.control, rest) := by
  simp only [accent?, Option.bind_eq_bind, Option.bind_eq_some_iff, Prod.exists, Option.pure_def,
    Option.some.injEq, Prod.mk.injEq, Accent.ofControl?_eq_some_iff]
  constructor
  · rintro ⟨name, r, h, b, rfl, rfl, rfl⟩
    exact h
  · intro h
    exact ⟨_, _, h, _, rfl, rfl, rfl⟩

theorem accentBySpelling?_eq (t : Text) : accentBySpelling? t = accent? t := by
  apply Option.ext
  rintro ⟨a, rest⟩
  exact accentBySpelling?_eq_some_iff.trans accent?_eq_some_iff.symm

theorem ReadsStretch.stretchBySpelling?_eq {t source rest : Text} {s : Stretch}
    (h : ReadsStretch t s source rest) : stretchBySpelling? t = some (s, rest) := by
  cases h with
  | @char c _ hc =>
    have ha : accentBySpelling? (c :: rest) = none := by
      rw [accentBySpelling?_eq]
      simp [accent?, hc]
    simp only [stretchBySpelling?, ha, hc, ite_self]
  | control hc hno =>
    obtain ⟨r, rfl⟩ := exists_cons_of_control? hc
    rw [← accentBySpelling?_eq] at hno
    simp only [stretchBySpelling?, if_true, hc]
    split
    · next a rest' ha =>
      have hc' := accentBySpelling?_eq_some_iff.mp ha
      obtain ⟨rfl, rfl⟩ := Prod.mk.inj (Option.some.inj (hc.symm.trans hc'))
      rw [ha] at hno
      rw [show atom? rest = none from hno]
    · rfl
  | @overset _ source rest a target hc ht =>
    obtain ⟨r, rfl⟩ := exists_cons_of_control? hc
    have ha := accentBySpelling?_eq_some_iff.mpr hc
    simp only [stretchBySpelling?, if_true, ha, ht]

theorem oversetBySpelling_eq (t : Text) : oversetBySpelling t = oversetAccents t := by
  induction t using stretches_induction with
  | nil => simp [oversetBySpelling, stretchBySpelling?, oversetAccents, stretches]
  | cons t s source rest hr _ ih =>
    have h := hr.stretchBySpelling?_eq
    rw [oversetBySpelling, hr.oversetAccents_eq, ← ih]
    split
    · next h' =>
      obtain ⟨rfl, rfl⟩ := Prod.mk.inj (Option.some.inj (h.symm.trans h'))
      rfl
    · next h' =>
      rw [h] at h'
      cases h'

/-! ## Tokens that are left alone -/

/-- The commands that cleaning and setting accents are about. -/
def rewrittenCommands : List Text :=
  limits :: bm :: Accent.dot.control :: Accent.ddot.control :: textCommands

/-- No token of the text is a command that gets rewritten. -/
def Ordinary (t : Text) : Prop :=
  ∀ u ∈ tokens t, u ∉ rewrittenCommands

theorem tokens_append {u v : Text} (hu : endsEscaping u = false) (hv : opensLetter v = false) :
    tokens (u ++ v) = tokens u ++ tokens v := by
  fun_induction tokens u with
  | case1 => rfl
  | case2 c r name rest h ih =>
    obtain ⟨e, -⟩ := eq_append_of_control? h
    rw [e] at h hu ⊢
    have hrest : endsEscaping rest = false := by
      rw [endsEscaping_append] at hu
      split at hu
      · next hr =>
        rw [hr]
        rfl
      · exact hu
    have ho : opensLetter (rest ++ v) = true → opensLetter rest = true := by
      cases rest with
      | nil => exact fun h => absurd (hv.symm.trans h) (by decide)
      | cons _ _ => exact id
    have hr : ReadsToken (name ++ (rest ++ v)) name (rest ++ v) :=
      .control (control?_append_of_opensLetter h ho)
    rw [List.append_assoc, hr.tokens_eq, ih hrest, List.cons_append]
  | case3 c r h ih =>
    have hc : c ≠ '\\' := by
      rintro rfl
      obtain rfl := eq_nil_of_control?_eq_none h
      cases hu
    have hr : ReadsToken (c :: (r ++ v)) [c] (r ++ v) := .char hc
    have hrest : endsEscaping r = false := by
      cases r with
      | nil => rfl
      | cons d r => rwa [endsEscaping, List.getLast?_cons_cons] at hu
    rw [List.cons_append, hr.tokens_eq, ih hrest, List.cons_append]

theorem Rewriting.InStep.run_eq_self {p : Rewriting} (hp : p.InStep) {t : Text}
    (h : ∀ u ∈ tokens t, u ∉ p.names) : p.run t = t := by
  have hrun : ∀ ts, Tokenized ts → (∀ u ∈ ts, u ∉ p.names) → p.run ts.flatten = ts.flatten := by
    intro ts ht hts
    induction ts with
    | nil => exact run_nil
    | cons u ts ih =>
      obtain ⟨hu, hts⟩ := List.forall_mem_cons.mp hts
      exact hp.run_flatten_of_none ht (fun hm => absurd hm hu) fun ht => ih ht hts
  have ht := hrun (tokens t) (tokenized_tokens t) h
  rwa [flatten_tokens] at ht

theorem oversetAccents_eq_self {t : Text} (h : ∀ u ∈ tokens t, ∀ a : Accent, u ≠ a.control) :
    oversetAccents t = t := by
  induction t using stretches_induction with
  | nil => simp [oversetAccents, stretches]
  | cons t s source rest hr _ ih =>
    rw [hr.oversetAccents_eq]
    cases hr with
    | char hc =>
      rw [(readsToken_of_control?_eq_none hc).tokens_eq] at h
      rw [ih (List.forall_mem_cons.mp h).2]
      rfl
    | control hc _ =>
      rw [(ReadsToken.control hc).tokens_eq] at h
      rw [ih (List.forall_mem_cons.mp h).2, (eq_append_of_control? hc).1]
      rfl
    | overset hc _ =>
      rw [(ReadsToken.control hc).tokens_eq] at h
      exact absurd rfl ((List.forall_mem_cons.mp h).1 _)

namespace Ordinary

variable {u v t : Text}

theorem nil : Ordinary [] := by
  simp [Ordinary, tokens]

theorem cons_iff_of_readsToken {rest : Text} (h : ReadsToken t u rest) :
    Ordinary t ↔ u ∉ rewrittenCommands ∧ Ordinary rest := by
  rw [Ordinary, h.tokens_eq, List.forall_mem_cons, ← Ordinary]

theorem char {c : Char} (hc : c ≠ '\\') (h : Ordinary t) : Ordinary (c :: t) := by
  refine (cons_iff_of_readsToken (.char hc)).mpr ⟨fun hm => ?_, h⟩
  have hlong : ∀ name ∈ rewrittenCommands, name.length ≠ 1 := by decide
  exact hlong _ hm rfl

theorem chars {word : Text} (hword : ∀ c ∈ word, c ≠ '\\') (h : Ordinary t) : Ordinary (word ++ t) := by
  induction word with
  | nil => exact h
  | cons c word ih =>
    obtain ⟨hc, hword⟩ := List.forall_mem_cons.mp hword
    exact char hc (ih hword)

theorem lineBreak (h : Ordinary t) : Ordinary ('\\' :: '\\' :: t) :=
  (cons_iff_of_readsToken (.control rfl)).mpr ⟨by decide, h⟩

theorem lineBreaks (n : Nat) (h : Ordinary t) : Ordinary (List.replicate (2 * n) '\\' ++ t) := by
  induction n with
  | zero => exact h
  | succ n ih => exact ih.lineBreak

theorem append (hu : endsEscaping u = false) (hv : opensLetter v = false) (h : Ordinary u)
    (h' : Ordinary v) : Ordinary (u ++ v) := by
  rw [Ordinary, tokens_append hu hv]
  exact List.forall_mem_append.mpr ⟨h, h'⟩

end Ordinary

/-- An ordinary text comes out of cleaning and of setting accents as it was. A text stays ordinary where the
letters of a command follow line breaks, or begin a longer command. -/
theorem ordinary_unchanged :
    (∀ t, Ordinary t → clean t = t ∧ cleanBySearch t = t ∧ oversetAccents t = t ∧ oversetBySpelling t = t) ∧
    (∀ before n word rest, Ordinary before → endsEscaping before = false → (∀ c ∈ word, c ≠ '\\') →
      Ordinary rest → Ordinary (before ++ (List.replicate (2 * (n + 1)) '\\' ++ (word ++ rest)))) ∧
    (∀ before, ∀ name ∈ rewrittenCommands, ∀ more rest, Ordinary before → endsEscaping before = false →
      (∀ c ∈ more, c.isAlpha = true) → opensLetter rest = false → name ++ more ∉ rewrittenCommands →
      Ordinary rest → Ordinary (before ++ (name ++ more ++ rest))) := by
  refine ⟨?_, ?_, ?_⟩
  · intro t ht
    have hset : oversetAccents t = t := by
      apply oversetAccents_eq_self
      rintro u hu a rfl
      have ha : a.control ∈ rewrittenCommands := by cases a <;> decide
      exact ht _ hu ha
    have hclean : cleanBySearch t = t := by
      have hsub : ∀ names ⊆ rewrittenCommands, ∀ u ∈ tokens t, u ∉ names :=
        fun _ hn u hu hm => ht u hu (hn hm)
      have hl : limitsSearch.run t = t := inStep_limitsSearch.run_eq_self (hsub _ (by decide))
      have hg : boldGroupSearch.run t = t := inStep_boldGroupSearch.run_eq_self (hsub _ (by decide))
      have hc : boldControlSearch.run t = t := inStep_boldControlSearch.run_eq_self (hsub _ (by decide))
      have ha : boldCharSearch.run t = t := inStep_boldCharSearch.run_eq_self (hsub _ (by decide))
      have hb : textBlockSearch.run t = t := inStep_textBlockSearch.run_eq_self (hsub _ (by decide))
      rw [cleanBySearch, hl, unifyBoldBySearch, hg, hc, ha, hb]
    exact ⟨(cleanBySearch_eq t).symm.trans hclean, hclean, hset, (oversetBySpelling_eq t).trans hset⟩
  · intro before n word rest hb he hw hr
    exact hb.append he rfl ((hr.chars hw).lineBreaks (n + 1))
  · intro before name hn more rest hb he hm ho hnew hr
    have hword : ∀ name ∈ rewrittenCommands, isWordControl name = true := by decide
    obtain ⟨c, w, rfl, hletters⟩ := exists_letters_of_isWordControl (hword name hn)
    have hlong : isWordControl ('\\' :: c :: w ++ more) = true :=
      List.all_eq_true.mpr (List.forall_mem_append.mpr ⟨hletters, hm⟩)
    have hc := control?_of_isWordControl hlong ho
    exact hb.append he rfl ((Ordinary.cons_iff_of_readsToken (.control hc)).mpr ⟨hnew, hr⟩)

theorem ordinary_unchanged_double_line_break :
    clean "\\\\\\\\text \\dots".toList = "\\\\\\\\text \\dots".toList ∧
      oversetAccents "\\\\\\\\text \\dots".toList = "\\\\\\\\text \\dots".toList := by
  obtain ⟨hall, hbreak, hlong⟩ := ordinary_unchanged
  have hs : ∀ c ∈ ['s'], c.isAlpha = true := List.all_eq_true.mp rfl
  have hdots := hlong [] Accent.dot.control (by decide) ['s'] [] .nil rfl hs rfl (by decide) .nil
  obtain ⟨hc, -, ho, -⟩ := hall _ (hbreak [] 1 "text ".toList _ .nil rfl (by simp) hdots)
  exact ⟨hc, ho⟩

end Formula.Tex
