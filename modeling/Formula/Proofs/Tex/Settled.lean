import Formula.Proofs.Tex.Unchanged

/-! # Settled texts

A text is settled if none of the five passes finds anything to do in it. These are the texts that equal
their canonical source. What scripts, bases and accents take is not looked into, so a canonical source
need not be settled, and then a second run goes on where the first one ended.
-/

namespace Formula.Tex

open Text

structure Settled (t : Text) : Prop where
  limits : limits ∉ tokens t
  bold : NoBold (tokens t)
  blocks : ∀ body ∈ blockBodies t, Tidy body
  prescripts : prescriptCount t = 0
  accents : oversetCount t = 0

namespace Settled

variable {t : Text}

theorem clean_eq (h : Settled t) : clean t = t := by
  rw [clean, dropLimits_of_not_mem h.limits, unifyBold_of_noBold h.bold]
  exact tidyRunningText_eq_self_iff.mpr h.blocks

theorem canonical_eq (h : Settled t) : canonical t = t := by
  rw [canonical, h.clean_eq, gatherPrescripts_of_prescriptCount h.prescripts,
    oversetAccents_of_oversetCount h.accents]

end Settled

theorem countP_clean {p : Char → Bool} (hp : Foreign p) (t : Text) : (clean t).countP p = t.countP p := by
  have hl : limits.countP p = 0 := hp.countP_isWordControl (by decide)
  rw [clean, hp.tally.tidyRunningText, countP_unifyBold hp, countP_dropLimits hl]

/-- Where cleaning changes nothing in the end, none of its three steps changes anything. -/
theorem steps_of_clean_eq {t : Text} (h : clean t = t) :
    limits ∉ tokens t ∧ NoBold (tokens t) ∧ ∀ body ∈ blockBodies t, Tidy body := by
  have hf : Solid (· == 'f') := solid_beq (by decide) (by decide) (by decide)
  have hl : Solid (· == 'l') := solid_beq (by decide) (by decide) (by decide)
  unfold clean at h
  have h₁ := congrArg (List.countP (· == 'f')) h
  rw [hf.tally.tidyRunningText, ← countP_dropLimits (p := (· == 'f')) (by decide) t] at h₁
  have hb := noBold_of_countP_unifyBold h₁
  rw [unifyBold_of_noBold hb] at h
  have h₂ := congrArg (List.countP (· == 'l')) h
  rw [hl.tally.tidyRunningText] at h₂
  have hm := not_mem_of_countP_dropLimits h₂
  rw [dropLimits_of_not_mem hm] at h hb
  exact ⟨hm, hb, tidyRunningText_eq_self_iff.mp h⟩

theorem canonical_eq_self_iff {t : Text} : canonical t = t ↔ Settled t := by
  constructor
  · intro h
    unfold canonical at h
    have hp : prescriptCount (clean t) = 0 := by
      apply prescriptCount_of_countP
      rw [← (countP_markers solid_isMarker (fun _ => id) _).2, h, countP_clean foreign_isMarker]
    rw [gatherPrescripts_of_prescriptCount hp] at h
    have ho : oversetCount (clean t) = 0 := by
      apply oversetCount_of_countP
      rw [h, countP_clean foreign_isGlyph]
    rw [oversetAccents_of_oversetCount ho] at h
    obtain ⟨hl, hb, ht⟩ := steps_of_clean_eq h
    rw [h] at hp ho
    exact ⟨hl, hb, ht, hp, ho⟩
  · exact Settled.canonical_eq

/-- A second run changes nothing exactly if the first one leaves nothing to do. -/
theorem canonical_canonical_eq_iff (t : Text) :
    canonical (canonical t) = canonical t ↔ Settled (canonical t) :=
  canonical_eq_self_iff

theorem canonical_canonical_ne_of_nested_accents :
    canonical (canonical "\\dot\x7b\\dot\x7bx\x7d\x7d".toList) ≠
      canonical "\\dot\x7b\\dot\x7bx\x7d\x7d".toList := by
  have ho : oversetCount (canonical "\\dot\x7b\\dot\x7bx\x7d\x7d".toList) = 1 := by
    decide +kernel
  intro h
  have hs := (canonical_canonical_eq_iff _).mp h
  rw [hs.accents] at ho
  exact absurd ho (by decide)

end Formula.Tex
