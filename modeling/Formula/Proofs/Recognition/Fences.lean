import Formula.Proofs.Tex.Blanks
import Formula.Recognition

/-! # Fences and ticks in an answer

Only backticks are looked for when fences and ticks are taken out of an answer, and the blanks around them.
A text without backticks stays as it is, also in front of a fence or of a tick.
-/

namespace Formula.Recognition

open Text

def plain (answer : Text) : Text :=
  unquote (dropFinalFence (dropFenceOpenings answer))

def fenced (t : Text) : Text :=
  fenceOpening ++ ('\n' :: (t ++ '\n' :: fence))

section Fences

variable {r t u v : Text}

theorem after?_backtick_eq_none (h : backtick ∉ t) (p : Text) : after? (backtick :: p) t = none := by
  cases t with
  | nil => rfl
  | cons c t => exact if_neg (List.ne_of_not_mem_cons h)

/-! ## Openings -/

theorem dropFenceOpenings_cons {c : Char} (h : after? fenceOpening (c :: r) = none) :
    dropFenceOpenings (c :: r) = c :: dropFenceOpenings r := by
  rw [dropFenceOpenings.eq_def]
  simp only
  split
  · next h' => simp [h] at h'
  · rfl

theorem dropFenceOpenings_opening (r : Text) :
    dropFenceOpenings (fenceOpening ++ r) = dropFenceOpenings (skipBlanks r) := by
  obtain ⟨q, hq⟩ : ∃ q, fenceOpening ++ r = backtick :: q := ⟨_, rfl⟩
  have h : after? fenceOpening (backtick :: q) = some r := hq ▸ after?_append _ r
  rw [hq, dropFenceOpenings.eq_def]
  simp only
  split
  · next rest hrest => rw [Option.some.inj (h.symm.trans hrest)]
  · next hnone => simp [h] at hnone

theorem dropFenceOpenings_append (h : backtick ∉ u) (v : Text) :
    dropFenceOpenings (u ++ v) = u ++ dropFenceOpenings v := by
  induction u with
  | nil => rfl
  | cons c u ih =>
    have hc : after? fenceOpening (c :: (u ++ v)) = none := if_neg (List.ne_of_not_mem_cons h)
    rw [List.cons_append, dropFenceOpenings_cons hc, ih (List.not_mem_of_not_mem_cons h)]
    rfl

theorem dropFenceOpenings_eq_self (h : backtick ∉ t) : dropFenceOpenings t = t := by
  have hn : dropFenceOpenings [] = [] := by simp [dropFenceOpenings]
  simpa [hn] using dropFenceOpenings_append h []

theorem dropFenceOpenings_tick (h : backtick ∉ u) (hne : u ≠ []) :
    dropFenceOpenings (backtick :: (u ++ [backtick])) = backtick :: (u ++ [backtick]) := by
  obtain ⟨c, u, rfl⟩ := List.exists_cons_of_ne_nil hne
  have ht : after? fenceOpening (backtick :: (c :: u ++ [backtick])) = none :=
    if_neg (List.ne_of_not_mem_cons h)
  have hlast : dropFenceOpenings [backtick] = [backtick] := by
    rw [dropFenceOpenings_cons rfl, dropFenceOpenings_eq_self List.not_mem_nil]
  rw [dropFenceOpenings_cons ht, dropFenceOpenings_append h, hlast]

theorem dropFenceOpenings_fence (h : backtick ∉ t) (ho : ¬ "latex".toList <+: t) :
    dropFenceOpenings (fence ++ t) = fence ++ t := by
  have h₁ : after? fenceOpening (backtick :: backtick :: backtick :: t) = none := by
    rw [Option.eq_none_iff_forall_ne_some]
    intro r hr
    exact ho ⟨r, (after?_eq_some_iff.mp (show after? "latex".toList t = some r from hr)).symm⟩
  have h₂ : after? fenceOpening (backtick :: backtick :: t) = none := after?_backtick_eq_none h _
  have h₃ : after? fenceOpening (backtick :: t) = none := after?_backtick_eq_none h _
  change dropFenceOpenings (backtick :: backtick :: backtick :: t) = _
  rw [dropFenceOpenings_cons h₁, dropFenceOpenings_cons h₂, dropFenceOpenings_cons h₃,
    dropFenceOpenings_eq_self h]
  rfl

/-! ## The final fence -/

theorem dropFinalFence_append (u : Text) (hv : allBlank v = true) :
    dropFinalFence (u ++ fence ++ v) = u := by
  have ht : trimEnd (u ++ fence ++ v) = u ++ fence := by
    rw [trimEnd_append hv, trimEnd_append_of_not_blank u (by decide)]
    rfl
  rw [dropFinalFence, ht]
  simp [before?, after?_append]

theorem dropFinalFence_eq_self (h : ¬ fence <:+ trimEnd t) : dropFinalFence t = t := by
  have hb : before? fence (trimEnd t) = none := by
    rw [before?, Option.map_eq_none_iff, Option.eq_none_iff_forall_ne_some]
    intro r hr
    refine h ⟨r.reverse, ?_⟩
    simpa using (congrArg List.reverse (after?_eq_some_iff.mp hr)).symm
  rw [dropFinalFence, hb]
  rfl

theorem prefix_of_trimEnd (t : Text) : trimEnd t <+: t := by
  obtain ⟨trail, -, e⟩ := exists_trail t
  exact ⟨trail, e.symm⟩

theorem mem_trim_iff {c : Char} (hc : isBlank c = false) {t : Text} : c ∈ trim t ↔ c ∈ t := by
  have hend : ∀ {t : Text}, c ∈ trimEnd t ↔ c ∈ t := by
    intro t
    obtain ⟨trail, hb, e⟩ := exists_trail t
    refine ⟨fun h => (prefix_of_trimEnd t).subset h, fun h => ?_⟩
    rw [e] at h
    refine (List.mem_append.mp h).resolve_right fun ht => ?_
    simp [isBlank_of_allBlank hb c ht] at hc
  rw [trim, hend]
  refine ⟨fun h => (skipBlanks_suffix t).subset h, fun h => ?_⟩
  rw [← List.takeWhile_append_dropWhile (p := isBlank) (l := t)] at h
  refine (List.mem_append.mp h).resolve_left fun ht => ?_
  simp [List.mem_takeWhile_imp ht] at hc

theorem dropFinalFence_of_not_mem (h : backtick ∉ t) : dropFinalFence t = t := by
  refine dropFinalFence_eq_self fun hs => h ?_
  exact (prefix_of_trimEnd t).subset (hs.subset List.mem_cons_self)

theorem dropFinalFence_append_eq_self (u : Text) (h : backtick ∉ v) (hv : allBlank v = false) :
    dropFinalFence (u ++ v) = u ++ v := by
  refine dropFinalFence_eq_self ?_
  rw [trimEnd_append_of_not_blank u hv]
  rintro ⟨r, e⟩
  have hne : trimEnd v ≠ [] := by
    intro hn
    obtain ⟨trail, hb, ht⟩ := exists_trail v
    rw [hn, List.nil_append] at ht
    simp [ht, hb] at hv
  have hlast : backtick = (trimEnd v).getLast hne := by
    have hl := congrArg List.getLast? e
    simpa [fence, backtick, List.getLast?_append, List.getLast?_eq_some_getLast hne] using hl
  exact h ((prefix_of_trimEnd v).subset (hlast ▸ List.getLast_mem hne))

theorem dropFinalFence_tick (h : backtick ∉ u) (hne : u ≠ []) :
    dropFinalFence (backtick :: (u ++ [backtick])) = backtick :: (u ++ [backtick]) := by
  refine dropFinalFence_eq_self ?_
  have ht : trimEnd (backtick :: u ++ [backtick]) = backtick :: u ++ [backtick] :=
    trimEnd_append_of_not_blank (backtick :: u) (by decide)
  rw [← List.cons_append, ht]
  rintro ⟨r, e⟩
  have hinit : r ++ [backtick, backtick] = backtick :: u := by
    have e' : (r ++ [backtick, backtick]) ++ [backtick] = backtick :: u ++ [backtick] := by
      simpa [fence, backtick] using e
    exact List.append_cancel_right e'
  have hlast : backtick = u.getLast hne := by
    have hl := congrArg List.getLast? hinit
    simpa [List.getLast?_append, List.getLast?_cons, List.getLast?_eq_some_getLast hne] using hl
  exact h (hlast ▸ List.getLast_mem hne)

/-! ## Ticks -/

theorem unquote_append (h : backtick ∉ u) (v : Text) : unquote (u ++ v) = u ++ unquote v := by
  induction u with
  | nil => rfl
  | cons c u ih =>
    rw [List.cons_append, unquote.eq_def]
    simp only [if_neg (List.ne_of_not_mem_cons h).symm, ih (List.not_mem_of_not_mem_cons h)]
    rfl

theorem unquote_eq_self (h : backtick ∉ t) : unquote t = t := by
  have hn : unquote [] = [] := by simp [unquote]
  simpa [hn] using unquote_append h []

theorem unquote_tick (h : backtick ∉ u) (hne : u ≠ []) :
    unquote (backtick :: (u ++ [backtick])) = u := by
  have hu : ∀ c ∈ u, decide (c ≠ backtick) = true := fun c hc =>
    decide_eq_true (ne_of_mem_of_not_mem hc h)
  have hdrop : (u ++ [backtick]).dropWhile (· ≠ backtick) = [backtick] := by
    rw [List.dropWhile_append_of_pos hu]
    rfl
  have htake : (u ++ [backtick]).takeWhile (· ≠ backtick) = u := by
    rw [List.takeWhile_append_of_pos hu]
    exact List.append_nil u
  have hhead : (u ++ [backtick]).head? ≠ some backtick := by
    obtain ⟨c, u, rfl⟩ := List.exists_cons_of_ne_nil hne
    exact fun hm => List.ne_of_not_mem_cons h (Option.some.inj hm).symm
  rw [unquote.eq_def]
  simp only [if_true, hhead, if_false, htake]
  split
  · next rest hrest =>
    obtain ⟨-, rfl⟩ := List.cons.inj (hdrop.symm.trans hrest)
    simp [unquote]
  · next hnil => exact absurd (hdrop.symm.trans hnil) (List.cons_ne_nil _ _)

theorem unquote_double (r : Text) :
    unquote (backtick :: backtick :: r) = backtick :: unquote (backtick :: r) := by
  rw [unquote.eq_def]
  simp only [if_true]
  split
  · rfl
  · rfl

theorem unquote_lone (h : backtick ∉ t) : unquote (backtick :: t) = backtick :: t := by
  have hdrop : t.dropWhile (· ≠ backtick) = [] := by
    rw [List.dropWhile_eq_nil_iff]
    exact fun c hc => decide_eq_true (ne_of_mem_of_not_mem hc h)
  rw [unquote.eq_def]
  simp only [if_true]
  split
  · next rest hrest => exact absurd (hrest.symm.trans hdrop) (List.cons_ne_nil _ _)
  · rw [unquote_eq_self h]

theorem unquote_fence (h : backtick ∉ t) : unquote (fence ++ t) = fence ++ t := by
  change unquote (backtick :: backtick :: backtick :: t) = _
  rw [unquote_double, unquote_double, unquote_lone h]
  rfl

/-! ## Blocks -/

theorem plain_of_not_mem (h : backtick ∉ t) : plain t = t := by
  rw [plain, dropFenceOpenings_eq_self h, dropFinalFence_of_not_mem h, unquote_eq_self h]

theorem plain_tick (h : backtick ∉ t) (hne : t ≠ []) : plain (backtick :: (t ++ [backtick])) = t := by
  rw [plain, dropFenceOpenings_tick h hne, dropFinalFence_tick h hne, unquote_tick h hne]

theorem not_mem_skipBlanks_newline (h : backtick ∉ t) : backtick ∉ skipBlanks (t ++ ['\n']) := by
  intro hm
  have hm := (skipBlanks_suffix _).subset hm
  simp only [List.mem_append, h, false_or] at hm
  exact absurd hm (by decide)

theorem dropFenceOpenings_fenced (hu : backtick ∉ u) (ht : backtick ∉ t) (v : Text) :
    dropFenceOpenings (u ++ fenced t ++ v) =
      u ++ skipBlanks (t ++ ['\n']) ++ dropFenceOpenings (fence ++ v) := by
  have hskip : skipBlanks ('\n' :: (t ++ '\n' :: fence) ++ v) =
      skipBlanks (t ++ ['\n']) ++ (fence ++ v) := by
    have hfence : ∀ c ∈ (fence ++ v).head?, isBlank c = false := by
      rintro c ⟨⟩
      decide
    have e : '\n' :: (t ++ '\n' :: fence) ++ v = ['\n'] ++ (t ++ ['\n'] ++ (fence ++ v)) := by simp
    rw [e, skipBlanks_append (by decide), skipBlanks_append_right hfence]
  rw [List.append_assoc, dropFenceOpenings_append hu, fenced, List.append_assoc,
    dropFenceOpenings_opening, hskip, dropFenceOpenings_append (not_mem_skipBlanks_newline ht),
    List.append_assoc]

section Closing

variable (hu : backtick ∉ u) (ht : backtick ∉ t)
include hu ht

theorem not_mem_front : backtick ∉ u ++ skipBlanks (t ++ ['\n']) :=
  List.not_mem_append hu (not_mem_skipBlanks_newline ht)

/-- A block at the end of an answer leaves no fence behind. -/
theorem plain_fenced_of_allBlank (hv : allBlank v = true) :
    plain (u ++ fenced t ++ v) = u ++ skipBlanks (t ++ ['\n']) := by
  have hb : ∀ c ∈ v, isBlank c = true := isBlank_of_allBlank hv
  have hback : backtick ∉ v := fun h => absurd (hb _ h) (by decide)
  have hlatex : ¬ "latex".toList <+: v := fun h => absurd (hb 'l' (h.subset List.mem_cons_self)) (by decide)
  have hfront := not_mem_front hu ht
  rw [plain, dropFenceOpenings_fenced hu ht, dropFenceOpenings_fence hback hlatex,
    ← List.append_assoc, dropFinalFence_append _ hv, unquote_eq_self hfront]

/-- With the word behind it that makes it an opening, the closing fence goes as well. -/
theorem plain_fenced_of_opening (hv : backtick ∉ v) :
    plain (u ++ fenced t ++ ("latex".toList ++ v)) = u ++ skipBlanks (t ++ ['\n']) ++ skipBlanks v := by
  have hs : backtick ∉ skipBlanks v := fun h => hv ((skipBlanks_suffix v).subset h)
  have hfront := List.not_mem_append (not_mem_front hu ht) hs
  have ho : dropFenceOpenings (fence ++ ("latex".toList ++ v)) = skipBlanks v := by
    rw [← dropFenceOpenings_eq_self hs]
    exact dropFenceOpenings_opening v
  rw [plain, dropFenceOpenings_fenced hu ht, ho, dropFinalFence_of_not_mem hfront, unquote_eq_self hfront]

/-- In front of other text the closing fence stays. -/
theorem plain_fenced_of_not_allBlank (hv : backtick ∉ v) (hlatex : ¬ "latex".toList <+: v)
    (hblank : allBlank v = false) :
    plain (u ++ fenced t ++ v) = u ++ skipBlanks (t ++ ['\n']) ++ (fence ++ v) := by
  rw [plain, dropFenceOpenings_fenced hu ht, dropFenceOpenings_fence hv hlatex, ← List.append_assoc,
    dropFinalFence_append_eq_self _ hv hblank, List.append_assoc, unquote_append (not_mem_front hu ht),
    unquote_fence hv]

end Closing

end Fences

end Formula.Recognition
