import Formula.Proofs.Recognition.Wrapping

/-! # Fences that stay

A closing fence with prose behind it stays in the answer. It gets into the formula unless the delimiters that
are found first stand on the same side of it, which keeps it out.
-/

namespace Formula.Recognition

open Text

namespace Delimiters

/-- The first opening delimiter of a text in two parts has a closing one behind it in the same part. -/
def OnOneSide (d : Delimiters) (front behind : Text) : Prop :=
  d.Enclose front ∨ ¬ d.opening <:+: front ∧ d.Enclose behind

/-- The first opening delimiter stands in one part, and the first closing one behind it in the other. -/
def Astride (d : Delimiters) (front behind : Text) : Prop :=
  d.opening <:+: front ∧ ¬ d.Enclose front ∧ d.closing <:+: behind

theorem backtick_not_mem (d : Delimiters) : backtick ∉ d.opening ∧ backtick ∉ d.closing := by
  cases d <;> decide

theorem ne_nil (d : Delimiters) : d.opening ≠ [] ∧ d.closing ≠ [] := by
  cases d <;> decide

end Delimiters

/-- A pattern without backticks is found on one side of a fence. -/
theorem cut?_fence {p : Text} (hp : backtick ∉ p) (hne : p ≠ []) (u v : Text) :
    cut? p (u ++ (fence ++ v)) =
      ((cut? p u).map fun (a, b) => (a, b ++ (fence ++ v))).or
        ((cut? p v).map fun (a, b) => (u ++ (fence ++ a), b)) := by
  have hnil : cut? p [] = none := by
    obtain ⟨q, p, rfl⟩ := List.exists_cons_of_ne_nil hne
    rfl
  have htick : ∀ w, cut? p (backtick :: w) = (cut? p w).map fun (a, b) => (backtick :: a, b) := by
    intro w
    have h := cut?_append_cons hp hne [] w
    rwa [hnil] at h
  change cut? p (u ++ backtick :: (backtick :: backtick :: v)) = _
  rw [cut?_append_cons hp hne, htick, htick]
  cases cut? p v <;> rfl

section Fence

variable {d : Delimiters} {u v : Text} (hu : backtick ∉ u) (hv : backtick ∉ v)

include hu hv in
theorem exists_between?_of_onOneSide (h : d.OnOneSide u v) :
    ∃ body, between? d.opening d.closing (u ++ (fence ++ v)) = some body ∧ backtick ∉ body := by
  rcases h with h | ⟨hn, h⟩
  · obtain ⟨body, hbody⟩ := exists_between?_iff.mpr h
    obtain ⟨a, b, behind, hab, hb⟩ := between?_eq_some_iff.mp hbody
    refine ⟨body, between?_eq_some_iff.mpr ⟨a, b ++ (fence ++ v), behind ++ (fence ++ v), ?_, ?_⟩,
      fun hm => hu (between?_subset hbody hm)⟩
    · rw [cut?_fence d.backtick_not_mem.1 d.ne_nil.1, hab]
      rfl
    · rw [cut?_fence d.backtick_not_mem.2 d.ne_nil.2, hb]
      rfl
  · obtain ⟨body, hbody⟩ := exists_between?_iff.mpr h
    obtain ⟨a, b, behind, hab, hb⟩ := between?_eq_some_iff.mp hbody
    refine ⟨body, between?_eq_some_iff.mpr ⟨u ++ (fence ++ a), b, behind, ?_, hb⟩,
      fun hm => hv (between?_subset hbody hm)⟩
    rw [cut?_fence d.backtick_not_mem.1 d.ne_nil.1, cut?_eq_none_iff.mpr hn, hab]
    rfl

theorem exists_between?_of_astride (h : d.Astride u v) :
    ∃ body, between? d.opening d.closing (u ++ (fence ++ v)) = some body ∧ backtick ∈ body := by
  obtain ⟨ho, hn, hc⟩ := h
  obtain ⟨a, b, hab⟩ := exists_cut?_of_infix ho
  obtain ⟨x, y, hxy⟩ := exists_cut?_of_infix hc
  have hb := cut?_closing_eq_none hab hn
  refine ⟨b ++ (fence ++ x), between?_eq_some_iff.mpr ⟨a, b ++ (fence ++ v), y, ?_, ?_⟩, ?_⟩
  · rw [cut?_fence d.backtick_not_mem.1 d.ne_nil.1, hab]
    rfl
  · rw [cut?_fence d.backtick_not_mem.2 d.ne_nil.2, hb, hxy]
    rfl
  · simp [fence, backtick]

theorem between?_of_neither (hs : ¬ d.OnOneSide u v) (ha : ¬ d.Astride u v) :
    between? d.opening d.closing (u ++ (fence ++ v)) = none := by
  rw [Option.eq_none_iff_forall_ne_some]
  intro body hbody
  obtain ⟨a, b, behind, hab, hb⟩ := between?_eq_some_iff.mp hbody
  rw [cut?_fence d.backtick_not_mem.1 d.ne_nil.1] at hab
  by_cases ho : d.opening <:+: u
  · have hn : ¬ d.Enclose u := fun h => hs (.inl h)
    have hc : ¬ d.closing <:+: v := fun h => ha ⟨ho, hn, h⟩
    obtain ⟨x, y, hxy⟩ := exists_cut?_of_infix ho
    rw [hxy] at hab
    obtain ⟨rfl, rfl⟩ : x = a ∧ y ++ (fence ++ v) = b := by simpa using hab
    rw [cut?_fence d.backtick_not_mem.2 d.ne_nil.2, cut?_closing_eq_none hxy hn,
      cut?_eq_none_iff.mpr hc] at hb
    cases hb
  · rw [cut?_eq_none_iff.mpr ho, Option.map_none, Option.none_or, Option.map_eq_some_iff] at hab
    obtain ⟨⟨x, y⟩, hxy, e⟩ := hab
    obtain ⟨rfl, rfl⟩ : u ++ (fence ++ x) = a ∧ y = b := by simpa using e
    exact hs (.inr ⟨ho, exists_between?_iff.mp ⟨body, between?_eq_some_iff.mpr ⟨x, y, behind, hxy, hb⟩⟩⟩)

/-- A fence with text on both sides is kept out of what is taken exactly if the dollars that are found first
stand on one side of it, or no dollars are found and the brackets do. -/
theorem backtick_not_mem_delimited_iff (hu : backtick ∉ u) (hv : backtick ∉ v) :
    backtick ∉ delimited (u ++ (fence ++ v)) ↔
      Delimiters.dollars.OnOneSide u v ∨
        ¬ Delimiters.dollars.Astride u v ∧ Delimiters.brackets.OnOneSide u v := by
  by_cases hs : Delimiters.dollars.OnOneSide u v
  · obtain ⟨body, hbody, hn⟩ := exists_between?_of_onOneSide hu hv hs
    rw [delimited_of_dollars hbody]
    exact iff_of_true hn (.inl hs)
  by_cases ha : Delimiters.dollars.Astride u v
  · obtain ⟨body, hbody, hm⟩ := exists_between?_of_astride ha
    rw [delimited_of_dollars hbody]
    exact iff_of_false (not_not_intro hm) fun h => h.elim hs fun h => h.1 ha
  rw [delimited_of_no_dollars (between?_of_neither hs ha)]
  by_cases hs' : Delimiters.brackets.OnOneSide u v
  · obtain ⟨body, hbody, hn⟩ := exists_between?_of_onOneSide hu hv hs'
    rw [hbody]
    exact iff_of_true hn (.inr ⟨ha, hs'⟩)
  refine iff_of_false (not_not_intro ?_) fun h => h.elim hs fun h => hs' h.2
  by_cases ha' : Delimiters.brackets.Astride u v
  · obtain ⟨body, hbody, hm⟩ := exists_between?_of_astride ha'
    rw [hbody]
    exact hm
  · rw [between?_of_neither hs' ha']
    simp [fence, backtick]

end Fence

/-- The formula of an answer with a fenced block is free of backticks exactly if the closing fence has only
blanks behind it, or the word that makes it an opening, or else if the delimiters that are found first keep
it out. -/
theorem backtick_not_mem_formula_iff {p f s : Text} (hp : backtick ∉ p) (hf : backtick ∉ f)
    (hs : backtick ∉ s) :
    let front := p ++ skipBlanks (f ++ ['\n'])
    backtick ∉ formula (p ++ fenced f ++ s) ↔
      allBlank s = true ∨ "latex".toList <+: s ∨ Delimiters.dollars.OnOneSide front s ∨
        ¬ Delimiters.dollars.Astride front s ∧ Delimiters.brackets.OnOneSide front s := by
  intro front
  have hfront : backtick ∉ front := not_mem_front hp hf
  rw [formula_eq, mem_trim_iff (show isBlank backtick = false by decide)]
  by_cases hb : allBlank s = true
  · rw [plain_fenced_of_allBlank hp hf hb]
    exact iff_of_true (fun h => hfront (delimited_subset _ h)) (.inl hb)
  by_cases hl : "latex".toList <+: s
  · obtain ⟨r, rfl⟩ := hl
    have hr : backtick ∉ r := fun h => hs (List.mem_append_right _ h)
    have hrest : backtick ∉ front ++ skipBlanks r :=
      List.not_mem_append hfront fun h => hr ((skipBlanks_suffix r).subset h)
    rw [plain_fenced_of_opening hp hf hr]
    exact iff_of_true (fun h => hrest (delimited_subset _ h)) (.inr (.inl ⟨r, rfl⟩))
  · rw [plain_fenced_of_not_allBlank hp hf hs hl (by simpa using hb), backtick_not_mem_delimited_iff hfront hs]
    exact ⟨fun h => .inr (.inr h), fun h => (h.resolve_left hb).resolve_left hl⟩

/-- A sentence behind the block is enough. -/
theorem backtick_mem_formula_of_sentence :
    let s := "\nThat is all.".toList
    backtick ∉ s ∧ formula (fenced ['x'] ++ s) = "x\n```\nThat is all.".toList ∧
      ¬ (allBlank s = true ∨ "latex".toList <+: s ∨ Delimiters.dollars.OnOneSide "x\n".toList s ∨
        ¬ Delimiters.dollars.Astride "x\n".toList s ∧ Delimiters.brackets.OnOneSide "x\n".toList s) := by
  intro s
  have hs : backtick ∉ s := by decide
  have hformula : formula (fenced ['x'] ++ s) = "x\n```\nThat is all.".toList := by decide +kernel
  have hiff : backtick ∉ formula (fenced ['x'] ++ s) ↔ _ :=
    backtick_not_mem_formula_iff (p := []) (f := ['x']) List.not_mem_nil (by decide) hs
  refine ⟨hs, hformula, fun h => hiff.mpr h ?_⟩
  rw [hformula]
  decide

end Formula.Recognition
