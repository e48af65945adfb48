import Formula.Tex.Canonical
import Formula.Proofs.Tex.Blanks
import Formula.Proofs.Tex.Sweep

/-! # Text blocks and braces

Tidying a text block trims its body, and a backslash that escapes the blank at the end of the body then
escapes the closing brace. Such a block stays open. A balanced source is cleaned to a balanced one
exactly if it has no block of this kind.
-/

namespace Formula.Tex

open Text

/-- The bodies of the text blocks that are tidied. -/
def blockBodies : Text → List Text
  | [] => []
  | c :: r => match _h : control? (c :: r) with
    | none => blockBodies r
    | some (name, rest) =>
      if textCommands.contains name then match _h' : group? (skipBlanks rest) with
        | some (body, behind) => body :: blockBodies behind
        | none => blockBodies rest
      else blockBodies rest
termination_by t => t.length
decreasing_by
  · simp
  all_goals have h₁ := control?_length _h
  · have h₂ := group?_length _h'
    have h₃ := skipBlanks_length_le rest
    omega
  all_goals omega

/-- A part of a text: copied, or a block with the blanks before its body. -/
inductive Part
  | copied (t : Text)
  | block (name gap body : Text)

namespace Part

def source : Part → Text
  | copied t => t
  | block name gap body => name ++ gap ++ braced body

def tidied : Part → Text
  | copied t => t
  | block name gap body => name ++ gap ++ braced (tidyBlanks body)

def bodies : Part → List Text
  | copied _ => []
  | block _ _ body => [body]

end Part

/-- The part at the front of a text, and what follows it. -/
inductive ReadsPart : Text → Part → Text → Prop
  | char {c : Char} {r : Text} : control? (c :: r) = none → ReadsPart (c :: r) (.copied [c]) r
  | control {t name rest : Text} : control? t = some (name, rest) →
      (textCommands.contains name = true → group? (skipBlanks rest) = none) →
      ReadsPart t (.copied name) rest
  | block {t name gap body rest : Text} :
      control? t = some (name, gap ++ (braced body ++ rest)) →
      textCommands.contains name = true → allBlank gap = true → Balanced body →
      ReadsPart t (.block name gap body) rest

theorem ReadsPart.eq_append {t rest : Text} {p : Part} (h : ReadsPart t p rest) :
    t = p.source ++ rest := by
  cases h with
  | char _ => rfl
  | control h _ => exact (eq_append_of_control? h).1
  | block h _ _ _ => simpa [Part.source] using (eq_append_of_control? h).1

section Equations

variable {c : Char} {r name rest : Text}

theorem tidyRunningText_char (h : control? (c :: r) = none) :
    tidyRunningText (c :: r) = c :: tidyRunningText r ∧ blockBodies (c :: r) = blockBodies r := by
  rw [tidyRunningText.eq_def, blockBodies.eq_def]
  simp only
  constructor <;> split <;> simp_all

theorem tidyRunningText_control (h : control? (c :: r) = some (name, rest))
    (hn : textCommands.contains name = true → group? (skipBlanks rest) = none) :
    tidyRunningText (c :: r) = name ++ tidyRunningText rest ∧
      blockBodies (c :: r) = blockBodies rest := by
  rw [tidyRunningText.eq_def, blockBodies.eq_def]
  simp only
  constructor <;>
  · split
    · simp_all
    · next name' rest' h' =>
      obtain ⟨rfl, rfl⟩ : name = name' ∧ rest = rest' := by simpa using h.symm.trans h'
      split
      · next hc => split <;> simp_all
      · rfl

theorem tidyRunningText_block {body behind : Text} (h : control? (c :: r) = some (name, rest))
    (hn : textCommands.contains name = true) (hg : group? (skipBlanks rest) = some (body, behind)) :
    tidyRunningText (c :: r) =
        name ++ rest.takeWhile isBlank ++ braced (tidyBlanks body) ++ tidyRunningText behind ∧
      blockBodies (c :: r) = body :: blockBodies behind := by
  rw [tidyRunningText.eq_def, blockBodies.eq_def]
  simp only
  constructor <;> split <;> simp_all <;> split <;> simp_all

end Equations

theorem exists_readsPart {t : Text} (ht : t ≠ []) :
    ∃ p rest, ReadsPart t p rest ∧ rest.length < t.length ∧
      tidyRunningText t = p.tidied ++ tidyRunningText rest ∧
      blockBodies t = p.bodies ++ blockBodies rest := by
  obtain ⟨c, r, rfl⟩ := List.exists_cons_of_ne_nil ht
  cases hc : control? (c :: r) with
  | none =>
    obtain ⟨hs, hb⟩ := tidyRunningText_char hc
    exact ⟨_, _, .char hc, by simp, hs, hb⟩
  | some q =>
    obtain ⟨name, rest⟩ := q
    have hl := control?_length hc
    by_cases hn : textCommands.contains name = true → group? (skipBlanks rest) = none
    · obtain ⟨hs, hb⟩ := tidyRunningText_control hc hn
      exact ⟨_, _, .control hc hn, by omega, hs, hb⟩
    · obtain ⟨hn, hg⟩ := Classical.not_imp.mp hn
      obtain ⟨⟨body, behind⟩, hg⟩ := Option.ne_none_iff_exists'.mp hg
      obtain ⟨hbody, e⟩ := group?_iff.mp hg
      have e' : rest = rest.takeWhile isBlank ++ (braced body ++ behind) := by
        rw [← e, takeWhile_isBlank_append_skipBlanks]
      obtain ⟨hs, hb⟩ := tidyRunningText_block hc hn hg
      refine ⟨.block name (rest.takeWhile isBlank) body, behind,
        .block (by rw [← e', hc]) hn List.all_takeWhile hbody, ?_, hs, hb⟩
      have h₁ := skipBlanks_length_le rest
      have h₂ := group?_length hg
      omega

/-- Induction over the parts of a text. -/
theorem parts_induction {motive : Text → Prop} (nil : motive [])
    (cons : ∀ t p rest, ReadsPart t p rest →
      tidyRunningText t = p.tidied ++ tidyRunningText rest →
      blockBodies t = p.bodies ++ blockBodies rest → motive rest → motive t) (t : Text) :
    motive t := by
  induction h : t.length using Nat.strongRecOn generalizing t with
  | ind n ih =>
    by_cases ht : t = []
    · rw [ht]
      exact nil
    · obtain ⟨p, rest, hr, hl, hs, hb⟩ := exists_readsPart ht
      exact cons t p rest hr hs hb (ih rest.length (h ▸ hl) _ rfl)

theorem follows_tidyRunningText (t : Text) : Follows (tidyRunningText t) t := by
  by_cases ht : t = []
  · subst ht
    simpa [tidyRunningText] using Follows.refl []
  obtain ⟨p, rest, hr, -, hs, -⟩ := exists_readsPart ht
  refine ⟨?_, fun h => absurd h ht⟩
  rw [hs, hr.eq_append]
  cases hr with
  | char _ => exact id
  | control h _ =>
    simp [Part.tidied, opensLetter_of_control?_append h]
  | block h _ _ _ =>
    simp [Part.tidied, opensLetter_of_control?_append h]

/-! ## The walk through a block -/

namespace BraceWalk

def unescaped (w : BraceWalk) : BraceWalk :=
  { w with escaped := false }

theorem unescaped_eq {w : BraceWalk} (hw : w.escaped = false) : w.unescaped = w := by
  cases w
  simp_all [unescaped]

/-- A blank does nothing else than to take the backslash before it. -/
theorem step_blank {b : Char} (hb : isBlank b = true) (w : BraceWalk) :
    w.step b = w.unescaped := by
  obtain ⟨h₁, h₂, h₃⟩ := ne_of_isBlank hb
  cases he : w.escaped with
  | true => simp [step, he, unescaped]
  | false => rw [unescaped_eq he, step, he, if_neg (by simp), if_neg h₁, if_neg h₂, if_neg h₃]

theorem run_allBlank {w : BraceWalk} (hw : w.escaped = false) {t : Text}
    (ht : allBlank t = true) : w.run t = w :=
  run_of_balanced hw (.of_forall fun c hc => ne_of_isBlank (isBlank_of_allBlank ht c hc))

theorem run_tidyBlanks {w : BraceWalk} (hw : w.escaped = false) (t : Text) :
    w.run (tidyBlanks t) = w.run (trimEnd t) := by
  induction worded t generalizing w with
  | blank ht => rw [tidyBlanks_blank ht, trimEnd_of_blank ht]
  | @last lead word trail hl hne hword ht =>
    rw [tidyBlanks_last hl hne hword ht, trimEnd_append ht,
      trimEnd_append_of_not_blank lead (allBlank_eq_false_of_word hne hword),
      trimEnd_word hne hword, run_append, run_allBlank hw hl]
  | @cons lead word t b hl hne hword hb ht _ ih =>
    have e : lead ++ word ++ b :: t = (lead ++ word ++ [b]) ++ t := by simp
    have hu : (w.run word).unescaped.escaped = false := rfl
    rw [tidyBlanks_cons hl hne hword hb ht, e, trimEnd_append_of_not_blank _ ht]
    simp only [run_append, run_cons, run_nil, run_allBlank hw hl, step_blank hb,
      step_blank (show isBlank ' ' = true by decide)]
    exact ih hu

variable {w : BraceWalk} {body : Text}

/-- Trimming a balanced body can only leave a backslash waiting. -/
theorem run_trimEnd (hw : w.escaped = false) (hb : Balanced body) :
    (w.run (trimEnd body)).unescaped = w := by
  obtain ⟨trail, ht, e⟩ := exists_trail body
  have hr : (w.run (trimEnd body)).run trail = w := by
    rw [← run_append, ← e, run_of_balanced hw hb]
  cases trail with
  | nil =>
    rw [run_nil] at hr
    rw [hr, unescaped_eq hw]
  | cons b trail =>
    have hb : isBlank b = true := isBlank_of_allBlank ht b List.mem_cons_self
    have ht' : allBlank trail = true := by
      simp only [allBlank, List.all_cons, Bool.and_eq_true] at ht
      exact ht.2
    have hu : (w.run (trimEnd body)).unescaped.escaped = false := rfl
    rwa [run_cons, step_blank hb, run_allBlank hu ht'] at hr

theorem run_trimEnd_of_paired (hw : w.escaped = false) (hb : Balanced body)
    (hp : Paired (trimEnd body)) : w.run (trimEnd body) = w := by
  rw [← unescaped_eq (hp.run hw), run_trimEnd hw hb]

/-- Where trimming leaves a backslash waiting, the closing brace closes nothing. -/
theorem run_braced_tidyBlanks (hw : w.escaped = false) (hb : Balanced body) :
    w.run (braced (tidyBlanks body)) = if Paired (trimEnd body) then w else w.step '{' := by
  have ho : (w.step '{').escaped = false := step_escaped hw (by decide)
  have e : w.run (braced (tidyBlanks body)) = ((w.step '{').run (trimEnd body)).step '}' := by
    rw [← run_tidyBlanks ho, ← run_cons, braced, List.cons_append, run_cons, run_append, run_cons,
      run_nil, run_cons]
  rw [e]
  split
  · next hp =>
    rw [run_trimEnd_of_paired ho hb hp]
    exact run_of_balanced hw (Balanced.nil.braced)
  · next hp =>
    have he : ((w.step '{').run (trimEnd body)).escaped = true := by
      rw [(run_congr (v := start) ho _).1]
      simpa [Paired] using hp
    rw [step, if_pos he]
    exact run_trimEnd ho hb

end BraceWalk

/-- How many of the bodies leave a backslash waiting when their end is trimmed. -/
def openBodies (bodies : List Text) : Nat :=
  bodies.countP fun body => ¬ Paired (trimEnd body)

theorem openBodies_append (s t : List Text) : openBodies (s ++ t) = openBodies s + openBodies t :=
  List.countP_append

theorem openBodies_eq_zero_iff {bodies : List Text} :
    openBodies bodies = 0 ↔ ∀ body ∈ bodies, Paired (trimEnd body) := by
  simp [openBodies, List.countP_eq_zero]

theorem ReadsPart.run {t rest : Text} {p : Part} {w : BraceWalk} (h : ReadsPart t p rest)
    (hw : w.escaped = false) (ht : (w.run t).escaped = false) :
    (w.run p.source).escaped = false ∧ (w.run p.tidied).escaped = false ∧
      (w.run p.tidied).depth = (w.run p.source).depth + openBodies p.bodies ∧
      (openBodies p.bodies = 0 → w.run p.tidied = w.run p.source) := by
  cases h with
  | @char c r h =>
    have hs : (w.run [c]).escaped = false :=
      BraceWalk.step_escaped hw (BraceWalk.ne_backslash_of_control? h hw ht)
    exact ⟨hs, hs, by simp [Part.tidied, Part.source, Part.bodies, openBodies], fun _ => rfl⟩
  | control h _ =>
    have hs := BraceWalk.run_of_balanced hw (balanced_of_control? h)
    simp [Part.tidied, Part.source, Part.bodies, openBodies, hs, hw]
  | @block _ name gap body rest h _ hg hb =>
    have hn := BraceWalk.run_of_balanced hw (balanced_of_control? h)
    have hgap := BraceWalk.run_allBlank hw hg
    have hd : (w.step '{').depth = w.depth + 1 := by simp [BraceWalk.step, hw]
    have ho : (w.step '{').escaped = false := BraceWalk.step_escaped hw (by decide)
    simp only [Part.source, Part.tidied, Part.bodies, BraceWalk.run_append, hn, hgap,
      BraceWalk.run_of_balanced hw hb.braced, BraceWalk.run_braced_tidyBlanks hw hb]
    by_cases hp : Paired (trimEnd body) <;> simp [openBodies, hp, hw, ho, hd]

theorem run_tidyRunningText {t : Text} {w : BraceWalk} (hw : w.escaped = false)
    (ht : (w.run t).escaped = false) :
    (w.run (tidyRunningText t)).depth = (w.run t).depth + openBodies (blockBodies t) ∧
      (openBodies (blockBodies t) = 0 → w.run (tidyRunningText t) = w.run t) := by
  induction t using parts_induction generalizing w with
  | nil => simp [tidyRunningText, blockBodies, openBodies]
  | cons t p rest hr hs hb ih =>
    obtain ⟨he, he', hd, hz⟩ := hr.run hw ht
    have e : w.run t = (w.run p.source).run rest := by
      rw [hr.eq_append, BraceWalk.run_append]
    rw [e] at ht
    rw [hs, hb, BraceWalk.run_append, openBodies_append, e]
    obtain ⟨hc, hc'⟩ := BraceWalk.run_congr (he'.trans he.symm) rest
    obtain ⟨hi, hz'⟩ := ih he' (hc.trans ht)
    constructor
    · omega
    · intro h
      rw [Nat.add_eq_zero_iff] at h
      rw [hz' h.2, hz h.1]

/-- The cleaned text of a balanced source is balanced, unless a text block ends with an escaped blank. -/
theorem wellNested_clean_iff {t : Text} (hp : Paired t) (hn : WellNested t) :
    (Paired (clean t) ∧ WellNested (clean t)) ↔
      ∀ body ∈ blockBodies (unifyBold (dropLimits t)), Paired (trimEnd body) := by
  have hl := run_dropLimits hp
  have hlp : Paired (dropLimits t) := by rw [Paired, hl]; exact hp
  have hb := (run_unifyBold hlp).trans hl
  have hbp : Paired (unifyBold (dropLimits t)) := by rw [Paired, hb]; exact hp
  obtain ⟨hd, hz⟩ := run_tidyRunningText rfl hbp
  rw [hb] at hd hz
  rw [← openBodies_eq_zero_iff]
  constructor
  · rintro ⟨-, -, hc⟩
    have hn' := hn.2
    unfold netDepth at hn' hc
    unfold clean at hc
    omega
  · intro h
    unfold WellNested netDepth Paired clean
    rw [hz h]
    exact ⟨hp, hn⟩

theorem not_wellNested_clean_of_escaped_blank :
    let t := "\\text\x7ba\\ \x7d".toList
    Paired t ∧ WellNested t ∧ ¬ (Paired (clean t) ∧ WellNested (clean t)) := by
  have hp : Paired "\\text\x7ba\\ \x7d".toList := by decide
  have hn : WellNested "\\text\x7ba\\ \x7d".toList := by decide
  refine ⟨hp, hn, ?_⟩
  intro h
  have hb := (wellNested_clean_iff hp hn).mp h
  revert hb
  decide +kernel

end Formula.Tex
