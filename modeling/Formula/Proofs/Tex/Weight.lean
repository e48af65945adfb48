import Formula.Proofs.Tex.Counting
import Formula.Proofs.Tex.Nesting

/-! # Weights

A weight is a number given to each text that never grows when the text is cut in two, and that adds up
where the second part begins with no letter. The number of places where a control word stands is a
weight, and so is the number of characters of some kind. What is read from a text weighs no more than
the part of the source it comes from.
-/

namespace Formula.Tex

open Text

def occurrences (p : Text) : Text → Nat
  | [] => 0
  | c :: r => (if startsWith p (c :: r) then 1 else 0) + occurrences p r

structure Weight (f : Text → Nat) : Prop where
  le_append : ∀ s t, f s + f t ≤ f (s ++ t)
  append : ∀ s {t}, opensLetter t = false → f (s ++ t) = f s + f t
  char : ∀ {c}, c ≠ '\\' → ∀ t, f (c :: t) = f [c] + f t
  opening : f ['{'] = 0
  closing : f ['}'] = 0

namespace Weight

theorem add {f g : Text → Nat} (hf : Weight f) (hg : Weight g) : Weight fun t => f t + g t where
  le_append s t := by
    have h₁ := hf.le_append s t
    have h₂ := hg.le_append s t
    omega
  append s t ht := by
    rw [hf.append s ht, hg.append s ht]
    omega
  char hc t := by
    rw [hf.char hc t, hg.char hc t]
    omega
  opening := by rw [hf.opening, hg.opening]
  closing := by rw [hf.closing, hg.closing]

theorem countP {p : Char → Bool} (ho : p '{' = false) (hc : p '}' = false) :
    Weight (List.countP p) where
  le_append s t := by rw [List.countP_append]
  append s t _ := List.countP_append
  char _ t := by rw [← List.singleton_append, List.countP_append]
  opening := by simp [ho]
  closing := by simp [hc]

end Weight

/-! ## Places of a control word -/

section Occurrences

variable {p : Text} (hp : isWordControl p = true)

include hp

theorem startsWith_of_ne {c : Char} (hc : c ≠ '\\') (t : Text) : startsWith p (c :: t) = false := by
  obtain ⟨d, w, rfl, -⟩ := exists_letters_of_isWordControl hp
  simp [startsWith, after?, hc.symm]

theorem startsWith_cons_append (c : Char) (s : Text) {t : Text} (ht : opensLetter t = false) :
    startsWith p (c :: s ++ t) = startsWith p (c :: s) := by
  rw [Bool.eq_iff_iff, startsWith_iff, startsWith_iff]
  refine ⟨?_, fun h => h.trans (List.prefix_append _ _)⟩
  rintro ⟨r, h⟩
  obtain ⟨d, w, rfl, hw⟩ := exists_letters_of_isWordControl hp
  rcases List.append_eq_append_iff.mp h with ⟨v, e, -⟩ | ⟨v, e, rfl⟩
  · exact ⟨v, e.symm⟩
  · cases v with
    | nil => exact ⟨[], by simpa using e⟩
    | cons b v =>
      obtain ⟨-, e⟩ := List.cons.inj e
      have hb : b.isAlpha = true := hw b (e ▸ List.mem_append_right s List.mem_cons_self)
      simp [opensLetter, hb] at ht

theorem weight_occurrences : Weight (occurrences p) where
  le_append s t := by
    induction s with
    | nil => simp [occurrences]
    | cons c s ih =>
      have hs : startsWith p (c :: s) = true → startsWith p (c :: s ++ t) = true := by
        rw [startsWith_iff, startsWith_iff]
        exact fun h => h.trans (List.prefix_append _ _)
      simp only [List.cons_append, occurrences] at hs ⊢
      split_ifs <;> simp_all <;> omega
  append s t ht := by
    induction s with
    | nil => simp [occurrences]
    | cons c s ih =>
      have hs := startsWith_cons_append hp c s ht
      rw [List.cons_append] at hs
      rw [List.cons_append, occurrences, occurrences, ih, hs]
      omega
  char hc t := by
    simp [occurrences, startsWith_of_ne hp hc]
  opening := by
    simp [occurrences, startsWith_of_ne hp (show '{' ≠ '\\' by decide)]
  closing := by
    simp [occurrences, startsWith_of_ne hp (show '}' ≠ '\\' by decide)]

end Occurrences

/-! ## What is read -/

section Readers

variable {f : Text → Nat} (hf : Weight f) {t rest : Text}

include hf

theorem Weight.nil : f [] = 0 := by
  have h := hf.append [] (t := []) rfl
  simp only [List.append_nil] at h
  omega

theorem Weight.braced_append (s t : Text) : f (braced s ++ t) = f s + f t := by
  have e : braced s ++ t = '{' :: (s ++ '}' :: t) := by simp [braced]
  rw [e, hf.char (by decide), hf.append s (opensLetter_cons (by decide) t), hf.char (by decide) t,
    hf.opening, hf.closing]
  omega

theorem Weight.braced (t : Text) : f (braced t) = f t := by
  have h := hf.braced_append t []
  rwa [List.append_nil, hf.nil] at h

theorem Weight.append_braced (s t u : Text) : f (s ++ (Tex.braced t ++ u)) = f s + (f t + f u) := by
  have ho : opensLetter (Tex.braced t ++ u) = false := by simp [Tex.braced, opensLetter]
  rw [hf.append s ho, hf.braced_append]

theorem Weight.skipBlanks_le (t : Text) : f (skipBlanks t) ≤ f t := by
  have h := hf.le_append (t.takeWhile isBlank) (skipBlanks t)
  rw [takeWhile_isBlank_append_skipBlanks] at h
  omega

theorem Weight.canonical (s : Script) : f s.canonical = f [s.marker.char] + f s.value := by
  rw [Script.canonical, hf.char s.marker.char_ne.1, hf.braced]

theorem ReadsValue.weight_le {value : Text} (h : ReadsValue t value rest) :
    f value + f rest ≤ f t := by
  cases h with
  | group _ => rw [hf.braced_append]
  | control h =>
    rw [(eq_append_of_control? h).1]
    exact hf.le_append _ _
  | char _ _ _ _ => exact hf.le_append [_] _

theorem weight_script?_le {s : Script} (h : script? t = some (s, rest)) :
    f s.canonical + f rest ≤ f t := by
  obtain ⟨r, rfl, hr⟩ := script?_eq_some_iff.mp h
  have hv := (readsValue_of_scriptValue? hr).weight_le hf
  have hb := hf.skipBlanks_le r
  rw [hf.char s.marker.char_ne.1, hf.canonical]
  omega

theorem weight_script?_skipBlanks_le {s : Script} (h : script? (skipBlanks t) = some (s, rest)) :
    f s.canonical + f rest ≤ f t :=
  (weight_script?_le hf h).trans (hf.skipBlanks_le t)

theorem weight_scripts_le (t : Text) :
    f ((scripts t).1.flatMap Script.canonical) + f (scripts t).2 ≤ f t := by
  fun_induction scripts t with
  | case1 t _ => simp [hf.nil]
  | case2 t s rest h more ih =>
    have hs := weight_script?_skipBlanks_le hf h
    change f ((s :: (scripts rest).1).flatMap Script.canonical) + f (scripts rest).2 ≤ f t
    rw [List.flatMap_cons, hf.append _ (opensLetter_canonical _)]
    omega

theorem Atom.weight_base (a : Atom) :
    f a.base = f a.nucleus.written + f (a.scripts.flatMap Script.canonical) :=
  hf.append _ (opensLetter_canonical _)

theorem Atom.weight_target (a : Atom) : f a.target = f a.base := by
  have hn : f a.nucleus.unwrapped = f a.nucleus.written := by
    cases a.nucleus with
    | group content => exact (hf.braced content).symm
    | _ => rfl
  rw [a.weight_base hf, ← hn]
  exact hf.append _ (opensLetter_canonical _)

theorem weight_atom?_le {a : Atom} (h : atom? t = some (a, rest)) : f a.base + f rest ≤ f t := by
  obtain ⟨-, r, hn, hs⟩ := atom?_eq_some_iff.mp h
  have hr := weight_scripts_le hf r
  have hb := hf.skipBlanks_le t
  have hw := hf.le_append a.nucleus.written r
  rw [← (eq_append_of_nucleus? hn).1] at hw
  simp only [hs] at hr
  rw [a.weight_base hf]
  omega

theorem weight_leadIn?_le {before start : Text} (h : leadIn? before t = some start) :
    f start ≤ f t := by
  rcases leadIn?_source h with rfl | ⟨r, rfl, rfl⟩
  · exact Nat.le_refl _
  · have hb := hf.skipBlanks_le r
    have hl := hf.braced_append [] r
    simp only [Tex.braced, List.nil_append, List.cons_append] at hl
    omega

theorem weight_leadingScripts?_le {before : Text} {l : ScriptPair}
    (h : leadingScripts? before t = some (l, rest)) :
    f (l.toList.flatMap Script.canonical) + f rest ≤ f t := by
  obtain ⟨start, hs, h⟩ := leadingScripts?_cases h
  have hl := weight_leadIn?_le hf hs
  rcases h with ⟨hn, h⟩ | ⟨s, r, hs, -, h, hr⟩
  · have h₁ := weight_script?_le hf h
    simp only [ScriptPair.toList, hn, Option.toList_none, List.flatMap_cons, List.flatMap_nil,
      List.append_nil]
    omega
  · have h₁ := weight_script?_le hf h
    have h₂ := weight_script?_skipBlanks_le hf hr
    have ho : opensLetter s.canonical = false := by simpa using opensLetter_canonical [s]
    simp only [ScriptPair.toList, hs, Option.toList_some, List.flatMap_cons, List.flatMap_nil,
      List.append_nil]
    rw [hf.append _ ho]
    omega

theorem ScriptPair.weight_values {l : ScriptPair}
    (hd : ∀ s ∈ l.second, s.marker ≠ l.first.marker) :
    f (l.value .sup) + f (l.value .sub) + f l.markers =
      f (l.toList.flatMap Script.canonical) := by
  have hm : ∀ m : Marker, m.char ≠ '\\' := fun m => m.char_ne.1
  obtain ⟨⟨m, v⟩, second⟩ := l
  cases second with
  | none =>
    have hc := hf.canonical ⟨m, v⟩
    cases m <;> simp_all [value, toList, markers, hf.nil] <;> omega
  | some s =>
    obtain ⟨m', v'⟩ := s
    have hne : m' ≠ m := hd ⟨m', v'⟩ rfl
    have ho : opensLetter (Script.canonical ⟨m', v'⟩) = false := by
      simpa using opensLetter_canonical [⟨m', v'⟩]
    have hc := hf.canonical ⟨m, v⟩
    have hc' := hf.canonical ⟨m', v'⟩
    have ha := hf.append (Script.canonical ⟨m, v⟩) ho
    have hs := hf.char (hm m) [m'.char]
    cases m <;> cases m' <;> simp_all [value, toList, markers] <;> omega

/-- A prescript weighs as much as the values of its scripts and its base. -/
theorem weight_written_prescript (hw : f (spacing ++ prescript) = 0) (hs : f strut = 0)
    (l : ScriptPair) (a : Atom) (s t : Text) :
    f (s ++ ((Segment.prescript l a).written ++ t)) =
      f s + (f (l.value .sup) + f (l.value .sub) + f a.base + f t) := by
  have hside : ∀ value, f (side value) = f value := by
    intro value
    unfold side
    split_ifs with h
    · rw [h, hs, hf.nil]
    · rfl
  have e : (Segment.prescript l a).written ++ t = (spacing ++ prescript) ++
      (Tex.braced (side (l.value .sup)) ++ (Tex.braced (side (l.value .sub)) ++
        (Tex.braced a.base ++ t))) := by
    simp [Segment.written]
  have ho : opensLetter ((Segment.prescript l a).written ++ t) = false := rfl
  rw [hf.append s ho, e, hf.append_braced, hf.braced_append, hf.braced_append, hside, hside, hw]
  omega

theorem weight_written_overset (hw : f overset = 0) {accent : Accent} (hg : f [accent.glyph] = 0)
    (a : Atom) (s t : Text) :
    f (s ++ ((Stretch.overset accent a).written ++ t)) = f s + (f a.base + f t) := by
  have e : (Stretch.overset accent a).written ++ t =
      overset ++ (Tex.braced [accent.glyph] ++ (Tex.braced a.target ++ t)) := by
    change (overset ++ Tex.braced [accent.glyph] ++ Tex.braced a.target) ++ t = _
    rw [List.append_assoc, List.append_assoc]
  have ho : opensLetter ((Stretch.overset accent a).written ++ t) = false := rfl
  rw [hf.append s ho, e, hf.append_braced, hf.braced_append, a.weight_target hf, hw, hg]
  omega

end Readers

end Formula.Tex
