import Formula.Proofs.Tex.Commands
import Formula.Proofs.Tex.Unchanged

/-! # The arguments of bold

Each sweep takes up one kind of argument, and none brings a new argument about: what it writes begins with
another command word, and a `\bm` that it takes as an argument is in braces then. So in the end no `\bm`
has an argument of any kind, and there is nothing left for a second run.
-/

namespace Formula.Tex

open Text

/-- The kinds of arguments, in the order in which they are taken up. -/
inductive BoldArgument
  | group
  | control
  | char
  deriving DecidableEq, Repr

namespace BoldArgument

def begins : BoldArgument → Text → Bool
  | group, u => u == ['{']
  | control, u => isWordControl u
  | char, u => isAlphanumToken u

/-- The tokens begin with an argument of the kind, blanks in front of it included. A single letter or digit
has to have some. -/
def Opens (k : BoldArgument) (ts : List Text) : Prop :=
  (skipBlankTokens ts).head?.any k.begins = true ∧ (k = char → ts.head?.any isBlankToken = true)

def TakenUp (k : BoldArgument) (ts : List Text) : Prop :=
  ∀ s, bm :: s <:+ ts → ¬ k.Opens s

variable {k : BoldArgument} {u : Text} {ts us : List Text}

theorem not_opens_brace (k : BoldArgument) (ts : List Text) : ¬ k.Opens (['}'] :: ts) := by
  rintro ⟨h, -⟩
  have hs : skipBlankTokens (['}'] :: ts) = ['}'] :: ts := List.dropWhile_cons_of_neg (by decide)
  rw [hs] at h
  cases k <;> cases h

theorem opens_group_iff : group.Opens ts ↔ (skipBlankTokens ts).head? = some ['{'] := by
  constructor
  · rintro ⟨h, -⟩
    cases hh : (skipBlankTokens ts).head? with
    | none =>
      rw [hh] at h
      cases h
    | some u =>
      rw [hh] at h
      have hu : u = ['{'] := beq_iff_eq.mp h
      rw [hu]
  · intro h
    exact ⟨by rw [h]; rfl, nofun⟩

namespace TakenUp

theorem nil (k : BoldArgument) : k.TakenUp [] := by
  intro s hs
  exact absurd (List.suffix_nil.mp hs) (List.cons_ne_nil _ _)

theorem cons_iff : k.TakenUp (u :: ts) ↔ (u = bm → ¬ k.Opens ts) ∧ k.TakenUp ts := by
  constructor
  · intro h
    refine ⟨?_, fun s hs => h s (hs.trans (List.suffix_cons u ts))⟩
    rintro rfl
    exact h ts List.suffix_rfl
  · rintro ⟨hu, ht⟩ s hs
    rcases List.suffix_cons_iff.mp hs with e | hs
    · obtain ⟨rfl, rfl⟩ := List.cons.inj e
      exact hu rfl
    · exact ht s hs

theorem cons_of_ne (hu : u ≠ bm) (h : k.TakenUp ts) : k.TakenUp (u :: ts) :=
  cons_iff.mpr ⟨fun e => absurd e hu, h⟩

theorem of_append (h : k.TakenUp (us ++ ts)) : k.TakenUp ts :=
  fun s hs => h s (hs.trans (List.suffix_append us ts))

/-- What a sweep writes for a `\bm` and its argument. A `\bm` among it is in front of a brace. -/
theorem bold_argument (u : Text) (h : k.TakenUp ts) :
    k.TakenUp (mathbf :: ['{'] :: u :: ['}'] :: ts) := by
  have hu : k.TakenUp (u :: ['}'] :: ts) :=
    cons_iff.mpr ⟨fun _ => k.not_opens_brace ts, h.cons_of_ne (by decide)⟩
  exact (hu.cons_of_ne (by decide)).cons_of_ne (by decide)

end TakenUp

end BoldArgument

/-! ## Sweeps -/

theorem BoldStep.exists_cons {a b : List Text} (h : BoldStep a b) :
    (∃ as, a = bm :: as) ∧ ∃ bs, b = mathbf :: bs := by
  cases h with
  | group _ => exact ⟨⟨_, rfl⟩, _, rfl⟩
  | argument _ _ => exact ⟨⟨_, rfl⟩, _, rfl⟩

namespace Sweep

variable {ts us : List Text}

theorem head?_any_eq {p : Text → Bool} (hp : p mathbf = p bm) (h : Sweep BoldStep ts us) :
    us.head?.any p = ts.head?.any p := by
  cases h with
  | nil => rfl
  | keep _ => rfl
  | replace hab _ =>
    obtain ⟨⟨as, rfl⟩, bs, rfl⟩ := hab.exists_cons
    exact hp

theorem skipBlankTokens (h : Sweep BoldStep ts us) :
    Sweep BoldStep (Tex.skipBlankTokens ts) (Tex.skipBlankTokens us) := by
  induction h with
  | nil => exact .nil
  | @keep u ts us h ih =>
    simp only [Tex.skipBlankTokens, List.dropWhile_cons]
    split
    · exact ih
    · exact .keep h
  | replace hab h _ =>
    obtain ⟨⟨as, rfl⟩, bs, rfl⟩ := hab.exists_cons
    exact .replace hab h

theorem opens_iff (h : Sweep BoldStep ts us) (k : BoldArgument) : k.Opens us ↔ k.Opens ts := by
  have hk : k.begins mathbf = k.begins bm := by cases k <;> decide
  rw [BoldArgument.Opens, BoldArgument.Opens, h.skipBlankTokens.head?_any_eq hk, h.head?_any_eq (by decide)]

/-- A kind of argument that is taken up stays so. -/
theorem takenUp {k : BoldArgument} (h : Sweep BoldStep ts us) (ht : k.TakenUp ts) : k.TakenUp us := by
  induction h with
  | nil => exact ht
  | keep h ih =>
    obtain ⟨hu, ht⟩ := BoldArgument.TakenUp.cons_iff.mp ht
    exact BoldArgument.TakenUp.cons_iff.mpr ⟨fun e => mt (h.opens_iff k).mp (hu e), ih ht⟩
  | replace hab _ ih =>
    cases hab with
    | group _ => exact (ih ht.of_append).cons_of_ne (by decide)
    | @argument gap u _ _ => exact (ih ht.of_append).bold_argument u

end Sweep

namespace BoldArgument

theorem takenUp_boldGroups (ts : List Text) : group.TakenUp (boldGroups ts) := by
  fun_induction boldGroups ts with
  | case1 => exact .nil group
  | case2 t ts _ ih => exact ih.cons_of_ne (by decide)
  | case3 t ts h ih =>
    refine TakenUp.cons_iff.mpr ⟨?_, ih⟩
    intro ht hg
    exact h ⟨ht, opens_group_iff.mp (((sweep_boldGroups ts).opens_iff group).mp hg)⟩

theorem takenUp_boldControls (ts : List Text) : control.TakenUp (boldControls ts) := by
  fun_induction boldControls ts with
  | case1 => exact .nil control
  | case2 ts u us _ _ ih => exact ih.bold_argument u
  | case3 ts u us hs hu ih =>
    refine TakenUp.cons_iff.mpr ⟨?_, ih⟩
    rintro - hc
    obtain ⟨hh, -⟩ := ((sweep_boldControls ts).opens_iff control).mp hc
    rw [hs] at hh
    exact hu hh
  | case4 ts hs ih =>
    refine TakenUp.cons_iff.mpr ⟨?_, ih⟩
    rintro - hc
    obtain ⟨hh, -⟩ := ((sweep_boldControls ts).opens_iff control).mp hc
    rw [hs] at hh
    cases hh
  | case5 t ts ht ih => exact ih.cons_of_ne ht

theorem takenUp_boldChars (ts : List Text) : char.TakenUp (boldChars ts) := by
  fun_induction boldChars ts with
  | case1 => exact .nil char
  | case2 t ts _ u us _ _ ih => exact ih.bold_argument u
  | case3 t ts _ u us hs hu ih =>
    refine TakenUp.cons_iff.mpr ⟨?_, ih⟩
    rintro - hc
    obtain ⟨hh, -⟩ := ((sweep_boldChars ts).opens_iff char).mp hc
    rw [hs] at hh
    exact hu hh
  | case4 t ts _ hs ih =>
    refine TakenUp.cons_iff.mpr ⟨?_, ih⟩
    rintro - hc
    obtain ⟨hh, -⟩ := ((sweep_boldChars ts).opens_iff char).mp hc
    rw [hs] at hh
    cases hh
  | case5 t ts h ih =>
    refine TakenUp.cons_iff.mpr ⟨?_, ih⟩
    intro ht hc
    obtain ⟨-, hb⟩ := ((sweep_boldChars ts).opens_iff char).mp hc
    exact h ⟨ht, hb rfl⟩

theorem takenUp_tokens_unifyBold (k : BoldArgument) (t : Text) : k.TakenUp (tokens (unifyBold t)) := by
  rw [tokens_unifyBold]
  cases k with
  | group => exact (sweep_boldChars _).takenUp ((sweep_boldControls _).takenUp (takenUp_boldGroups _))
  | control => exact (sweep_boldChars _).takenUp (takenUp_boldControls _)
  | char => exact takenUp_boldChars _

end BoldArgument

theorem noBold_of_takenUp {ts : List Text} (h : ∀ k : BoldArgument, k.TakenUp ts) : NoBold ts := by
  rintro s hs ⟨gap, u, rest, rfl, hgap, hu⟩
  rcases hu with rfl | hu | ⟨hne, hu⟩
  · have hk := skipBlankTokens_append hgap (u := ['{']) rfl rest
    exact h .group _ hs (BoldArgument.opens_group_iff.mpr (by rw [hk]; rfl))
  · have hk := skipBlankTokens_append hgap (isBlankToken_eq_false (.inl hu)) rest
    exact h .control _ hs ⟨by rw [hk]; exact hu, nofun⟩
  · have hk := skipBlankTokens_append hgap (isBlankToken_eq_false (.inr hu)) rest
    obtain ⟨v, gap, rfl⟩ := List.exists_cons_of_ne_nil hne
    exact h .char _ hs ⟨by rw [hk]; exact hu, fun _ => hgap v List.mem_cons_self⟩

/-- Unifying bold leaves no `\bm` with an argument, so that it does all of its work in one run. -/
theorem unifyBold_complete (t : Text) :
    unifyBoldBySearch t = unifyBold t ∧ NoBold (tokens (unifyBold t)) ∧
      unifyBold (unifyBold t) = unifyBold t := by
  have hn : NoBold (tokens (unifyBold t)) :=
    noBold_of_takenUp fun k => k.takenUp_tokens_unifyBold t
  exact ⟨unifyBoldBySearch_eq t, hn, unifyBold_of_noBold hn⟩

end Formula.Tex
