import Mathlib.Algebra.GroupWithZero.Nat
import Formula.Proofs.Tex.TextBlock

/-! # Tallies

A tally adds up over the tokens of a text, and blanks and braces count for nothing in it. The number of
characters with some property is one, if blanks and braces do not have it. What is read from a text has
the tally of its source. So gathering prescripts and setting accents change a tally by what each of the
constructs they rewrite loses and gains, and by nothing else.
-/

namespace Formula.Tex

open Text

structure Tally (f : Text → Nat) : Prop where
  control : ∀ {t name rest}, control? t = some (name, rest) → f t = f name + f rest
  char : ∀ {c}, c ≠ '\\' → ∀ t, f (c :: t) = f [c] + f t
  parted : ∀ s {c}, c.isAlpha = false → c ≠ '\\' → ∀ t, f (s ++ c :: t) = f s + f (c :: t)
  blank : ∀ {b}, isBlank b = true → f [b] = 0
  opening : f ['{'] = 0
  closing : f ['}'] = 0

/-- The tally of `s` is added to the tally of `t`, and of all that follows as `t` does. -/
def Parts (f : Text → Nat) (s t : Text) : Prop :=
  ∀ u, Follows u t → f (s ++ u) = f s + f u

/-- The source in front of `rest` has this tally. -/
def Takes (f : Text → Nat) (t rest : Text) (n : Nat) : Prop :=
  ∃ source, t = source ++ rest ∧ f source = n ∧ Parts f source rest

section Readers

variable {f : Text → Nat} (hf : Tally f) {s t u rest : Text}

include hf

theorem Tally.nil : f [] = 0 := by
  have h := hf.char (show '{' ≠ '\\' by decide) []
  omega

theorem Tally.braced_append (s t : Text) : f (braced s ++ t) = f s + f t := by
  have e : braced s ++ t = '{' :: (s ++ '}' :: t) := by simp [braced]
  rw [e, hf.char (by decide), hf.parted s (by decide) (by decide), hf.char (by decide) t, hf.opening,
    hf.closing]
  omega

theorem Tally.braced (t : Text) : f (braced t) = f t := by
  have h := hf.braced_append t []
  rwa [List.append_nil, hf.nil] at h

theorem Tally.append_braced (s t u : Text) : f (s ++ (Tex.braced t ++ u)) = f s + (f t + f u) := by
  have e : Tex.braced t ++ u = '{' :: (t ++ '}' :: u) := by simp [Tex.braced]
  rw [← hf.braced_append, e, hf.parted s (by decide) (by decide)]

theorem Tally.canonical (s : Script) : f s.canonical = f [s.marker.char] + f s.value := by
  rw [Script.canonical, hf.char s.marker.char_ne.1, hf.braced]

theorem Tally.append_canonical (s : Text) (l : List Script) :
    f (s ++ l.flatMap Script.canonical) = f s + f (l.flatMap Script.canonical) := by
  cases l with
  | nil => simp [hf.nil]
  | cons x l =>
    have hx : x.marker.char.isAlpha = false := by cases x.marker <;> rfl
    simp only [List.flatMap_cons, Script.canonical, List.cons_append]
    exact hf.parted s hx x.marker.char_ne.1 _

theorem Tally.canonical_append (s : Script) (t : Text) :
    f (s.canonical ++ t) = f s.canonical + f t := by
  rw [hf.canonical, Script.canonical, List.cons_append, hf.char s.marker.char_ne.1, hf.braced_append]
  omega

theorem Parts.nil : Parts f [] t := by
  intro u _
  rw [hf.nil, List.nil_append, Nat.zero_add]

theorem Parts.char {c : Char} (hc : c ≠ '\\') : Parts f [c] t :=
  fun u _ => hf.char hc u

/-- A lone backslash ends the text. -/
theorem Parts.backslash : Parts f ['\\'] [] := by
  rintro u ⟨-, hu⟩
  rw [hu rfl, hf.nil, List.append_nil, Nat.add_zero]

theorem Parts.control {name : Text} (h : control? (name ++ rest) = some (name, rest)) :
    Parts f name rest :=
  fun _ hu => hf.control (control?_append_of_opensLetter h hu.1)

omit hf in
theorem Parts.append (hs : Parts f s (t ++ rest)) (ht : Parts f t rest) :
    Parts f (s ++ t) rest := by
  intro u hu
  have hb : Follows (t ++ u) (t ++ rest) := by
    cases t with
    | nil => exact hu
    | cons c t => exact ⟨id, by simp⟩
  have ht' : Follows t (t ++ rest) := by
    cases t with
    | nil => exact ⟨by simp [opensLetter], fun _ => rfl⟩
    | cons c t => exact ⟨id, by simp⟩
  rw [List.append_assoc, hs _ hb, ht u hu, hs t ht', Nat.add_assoc]

theorem Takes.refl : Takes f t t 0 :=
  ⟨[], rfl, hf.nil, .nil hf⟩

omit hf in
theorem Takes.eq {n : Nat} (h : Takes f t rest n) : f t = n + f rest := by
  obtain ⟨s, rfl, rfl, hp⟩ := h
  exact hp rest (.refl rest)

omit hf in
theorem Takes.trans {m n : Nat} (h : Takes f t u m) (h' : Takes f u rest n) :
    Takes f t rest (m + n) := by
  obtain ⟨s, rfl, rfl, hs⟩ := h
  obtain ⟨s', rfl, rfl, hs'⟩ := h'
  refine ⟨s ++ s', (List.append_assoc _ _ _).symm, ?_, hs.append hs'⟩
  have hc := hs.append hs' rest (.refl rest)
  rw [List.append_assoc, hs _ (.refl _), hs' rest (.refl rest)] at hc
  omega

omit hf in
theorem Takes.of_append {n : Nat} (h : Takes f (s ++ rest) rest n) : f s = n ∧ Parts f s rest := by
  obtain ⟨s', e, hs⟩ := h
  rwa [List.append_cancel_right e]

theorem takes_char {c : Char} (hc : c ≠ '\\') (t : Text) : Takes f (c :: t) t (f [c]) :=
  ⟨[c], rfl, rfl, .char hf hc⟩

theorem takes_char_of_control?_eq_none {c : Char} (h : control? (c :: t) = none) :
    Takes f (c :: t) t (f [c]) := by
  by_cases hc : c = '\\'
  · subst hc
    obtain rfl := eq_nil_of_control?_eq_none h
    exact ⟨['\\'], rfl, rfl, .backslash hf⟩
  · exact takes_char hf hc t

theorem takes_control {name : Text} (h : control? t = some (name, rest)) :
    Takes f t rest (f name) := by
  obtain ⟨rfl, -⟩ := eq_append_of_control? h
  exact ⟨name, rfl, rfl, .control hf h⟩

theorem takes_braced (s t : Text) : Takes f (braced s ++ t) t (f s) := by
  refine ⟨braced s, rfl, hf.braced s, ?_⟩
  intro u _
  rw [hf.braced_append, hf.braced]

theorem takes_skipBlanks (t : Text) : Takes f t (skipBlanks t) 0 := by
  induction t with
  | nil => exact .refl hf
  | cons c t ih =>
    cases hc : isBlank c with
    | true =>
      have h := (takes_char hf (ne_of_isBlank hc).1 t).trans ih
      rw [hf.blank hc] at h
      simpa [skipBlanks, hc] using h
    | false =>
      rw [show skipBlanks (c :: t) = c :: t by simp [skipBlanks, hc]]
      exact .refl hf

theorem Tally.skipBlanks (t : Text) : f (skipBlanks t) = f t := by
  have h := (takes_skipBlanks hf t).eq
  omega

theorem ReadsValue.takes_tally {value : Text} (h : ReadsValue t value rest) :
    Takes f t rest (f value) := by
  cases h with
  | group _ => exact takes_braced hf value rest
  | control h => exact takes_control hf h
  | char hb _ _ _ => exact takes_char hf hb rest

theorem takes_script? {s : Script} (h : script? t = some (s, rest)) :
    Takes f t rest (f s.canonical) := by
  obtain ⟨r, rfl, hr⟩ := script?_eq_some_iff.mp h
  have hm := takes_char hf s.marker.char_ne.1 r
  have hv := (readsValue_of_scriptValue? hr).takes_tally hf
  rw [hf.canonical]
  simpa using (hm.trans (takes_skipBlanks hf r)).trans hv

theorem takes_script?_skipBlanks {s : Script} (h : script? (skipBlanks t) = some (s, rest)) :
    Takes f t rest (f s.canonical) := by
  simpa using (takes_skipBlanks hf t).trans (takes_script? hf h)

theorem takes_scripts (t : Text) :
    Takes f t (scripts t).2 (f ((scripts t).1.flatMap Script.canonical)) := by
  fun_induction scripts t with
  | case1 t _ => simpa [hf.nil] using Takes.refl hf (t := t)
  | case2 t s rest h more ih =>
    have hs := (takes_script?_skipBlanks hf h).trans ih
    rwa [← hf.canonical_append] at hs

theorem ReadsNucleus.takes_tally {n : Nucleus} (h : ReadsNucleus t n rest) :
    Takes f t rest (f n.written) := by
  cases h with
  | char hb _ _ _ => exact takes_char hf hb rest
  | backslash => exact ⟨['\\'], rfl, rfl, .backslash hf⟩
  | control h _ _ | symbol h _ => exact takes_control hf h
  | @argument _ name argument rest h _ _ =>
    have e := hf.append_braced name argument []
    rw [List.append_nil, hf.nil, Nat.add_zero] at e
    have ht := (takes_control hf h).trans (takes_braced hf argument rest)
    rwa [← e] at ht
  | @group content rest _ =>
    have ht := takes_braced hf content rest
    rwa [← hf.braced content] at ht

theorem takes_atom? {a : Atom} (h : atom? t = some (a, rest)) : Takes f t rest (f a.base) := by
  obtain ⟨-, r, hn, hs⟩ := atom?_eq_some_iff.mp h
  have hr := takes_scripts hf r
  rw [hs] at hr
  have hn' := (readsNucleus_of_nucleus? hn).takes_tally hf
  rw [Atom.base, hf.append_canonical]
  simpa using ((takes_skipBlanks hf t).trans hn').trans hr

theorem Atom.tally_target (a : Atom) : f a.target = f a.base := by
  have hn : f a.nucleus.unwrapped = f a.nucleus.written := by
    cases a.nucleus with
    | group content => exact (hf.braced content).symm
    | _ => rfl
  rw [target, base, hf.append_canonical, hf.append_canonical, hn]

theorem takes_leadIn? {before start : Text} (h : leadIn? before t = some start) :
    Takes f t start 0 := by
  rcases leadIn?_source h with rfl | ⟨r, rfl, rfl⟩
  · exact .refl hf
  · have hb := takes_braced hf [] r
    rw [hf.nil] at hb
    exact hb.trans (takes_skipBlanks hf r)

theorem takes_leadingScripts? {before : Text} {l : ScriptPair}
    (h : leadingScripts? before t = some (l, rest)) :
    Takes f t rest (f (l.toList.flatMap Script.canonical)) := by
  obtain ⟨start, hs, h⟩ := leadingScripts?_cases h
  have hl := takes_leadIn? hf hs
  rcases h with ⟨hn, h⟩ | ⟨s, r, hs, -, h, hr⟩
  · simpa [ScriptPair.toList, hn] using hl.trans (takes_script? hf h)
  · have ht := (hl.trans (takes_script? hf h)).trans (takes_script?_skipBlanks hf hr)
    rw [Nat.zero_add, ← hf.canonical_append] at ht
    simpa [ScriptPair.toList, hs] using ht

end Readers

/-! ## Prescripts -/

namespace ScriptPair

def markers (l : ScriptPair) : Text :=
  l.toList.map (·.marker.char)

def missing (l : ScriptPair) : Nat :=
  [Marker.sup, Marker.sub].countP (l.value · = [])

end ScriptPair

namespace Segment

def leftScripts : Segment → List Script
  | copied _ => []
  | prescript l _ => l.toList

def missingSides : Segment → Nat
  | copied _ => 0
  | prescript l _ => l.missing

/-- The tally of what is dropped: the markers. -/
def loss (f : Text → Nat) : Segment → Nat
  | copied _ => 0
  | prescript l _ => f l.markers

/-- The tally of what is put in. -/
def gain (f : Text → Nat) : Segment → Nat
  | copied _ => 0
  | prescript l _ => f (spacing ++ Tex.prescript) + l.missing * f strut

end Segment

section Prescripts

variable {f : Text → Nat} (hf : Tally f)

include hf

theorem Tally.side (value : Text) :
    f (side value) = f value + (if value = [] then 1 else 0) * f strut := by
  unfold Tex.side
  split
  · next h => simp [h, hf.nil]
  · simp

theorem ScriptPair.tally_sides (l : ScriptPair) :
    f (side (l.value .sup)) + f (side (l.value .sub)) =
      f (l.value .sup) + f (l.value .sub) + l.missing * f strut := by
  have hm : l.missing =
      (if l.value .sup = [] then 1 else 0) + if l.value .sub = [] then 1 else 0 := by
    simp [missing, List.countP_cons, Nat.add_comm]
  rw [hf.side, hf.side, hm, Nat.add_mul]
  omega

theorem ScriptPair.tally_values {l : ScriptPair}
    (hd : ∀ s ∈ l.second, s.marker ≠ l.first.marker) :
    f (l.value .sup) + f (l.value .sub) + f l.markers =
      f (l.toList.flatMap Script.canonical) := by
  obtain ⟨⟨m, v⟩, second⟩ := l
  cases second with
  | none =>
    have hc := hf.canonical ⟨m, v⟩
    cases m <;> simp_all [value, toList, markers, hf.nil] <;> omega
  | some s =>
    obtain ⟨m', v'⟩ := s
    have hm : m' ≠ m := hd ⟨m', v'⟩ rfl
    have hc := hf.canonical ⟨m, v⟩
    have hc' := hf.canonical ⟨m', v'⟩
    have ha := hf.canonical_append ⟨m, v⟩ (Script.canonical ⟨m', v'⟩)
    have hs := hf.char m.char_ne.1 [m'.char]
    cases m <;> cases m' <;> simp_all [value, toList, markers] <;> omega

theorem tally_written_prescript (l : ScriptPair) (a : Atom) (u : Text) :
    f ((Segment.prescript l a).written ++ u) = f (spacing ++ prescript) +
      (f (side (l.value .sup)) + f (side (l.value .sub)) + f a.base + f u) := by
  have e : (Segment.prescript l a).written ++ u = (spacing ++ prescript) ++
      (braced (side (l.value .sup)) ++ (braced (side (l.value .sub)) ++ (braced a.base ++ u))) := by
    simp [Segment.written]
  rw [e, hf.append_braced, hf.braced_append, hf.braced_append]
  omega

theorem ReadsSegment.tally {before t source rest : Text} {s : Segment}
    (h : ReadsSegment before t s source rest) :
    Parts f s.written rest ∧ f s.written + f rest + s.loss f = f t + s.gain f := by
  cases h with
  | control h =>
    have ht := takes_control hf h
    rw [(eq_append_of_control? h).1] at ht
    obtain ⟨-, hp⟩ := ht.of_append
    exact ⟨hp, congrArg (· + 0) (hf.control h).symm⟩
  | backslash => exact ⟨.backslash hf, congrArg (f ['\\'] + · + 0) hf.nil⟩
  | char hb _ => exact ⟨.char hf hb, congrArg (· + 0) (hf.char hb _).symm⟩
  | lone hl _ =>
    have ht := takes_leadingScripts? hf hl
    obtain ⟨hs, hp⟩ := ht.of_append
    exact ⟨hp, congrArg (· + 0) (hs ▸ ht.eq).symm⟩
  | sizing hl ha _ =>
    have ht := (takes_leadingScripts? hf hl).trans (takes_atom? hf ha)
    obtain ⟨hs, hp⟩ := ht.of_append
    exact ⟨hp, congrArg (· + 0) (hs ▸ ht.eq).symm⟩
  | @prescript source middle rest l a hl ha _ =>
    have ht := ((takes_leadingScripts? hf hl).trans (takes_atom? hf ha)).eq
    have hw := tally_written_prescript hf l a []
    have hv := ScriptPair.tally_values hf (distinct_of_leadingScripts? hl)
    have hs := l.tally_sides hf
    rw [List.append_nil, hf.nil] at hw
    constructor
    · intro u _
      rw [tally_written_prescript hf, hw]
      omega
    · simp only [Segment.loss, Segment.gain]
      omega

/-- Gathering the prescripts loses the markers of the left scripts, and gains what each prescript has of
its own. -/
theorem tally_gatherBehind (before t : Text) :
    f (gatherBehind before t) + ((segmentsBehind before t).map (Segment.loss f)).sum =
      f t + ((segmentsBehind before t).map (Segment.gain f)).sum := by
  induction before, t using segmentsBehind_induction with
  | nil before => simp [segmentsBehind]
  | cons before t s source rest hr e ih =>
    obtain ⟨hp, hs⟩ := hr.tally hf
    have hfollows : Follows (gatherBehind (source.reverse ++ before) rest) rest := by
      refine ⟨opensLetter_of_gatherBehind, ?_⟩
      rintro rfl
      exact gatherBehind_nil _
    rw [hr.gatherBehind_eq, e, hp _ hfollows, List.map_cons, List.map_cons, List.sum_cons,
      List.sum_cons]
    omega

end Prescripts

/-! ## Accents -/

def overset : Text := "\\overset".toList

namespace Stretch

def accents : Stretch → List Accent
  | copied _ => []
  | overset accent _ => [accent]

def loss (f : Text → Nat) : Stretch → Nat
  | copied _ => 0
  | overset accent _ => f accent.control

def gain (f : Text → Nat) : Stretch → Nat
  | copied _ => 0
  | overset accent _ => f (Tex.overset ++ [accent.glyph])

end Stretch

section Accents

variable {f : Text → Nat} (hf : Tally f)

include hf

theorem tally_overset_glyph (accent : Accent) :
    f (overset ++ [accent.glyph]) = f overset + f [accent.glyph] := by
  cases accent <;> exact hf.parted overset (by decide) (by decide) []

theorem tally_written_overset (accent : Accent) (a : Atom) (u : Text) :
    f ((Stretch.overset accent a).written ++ u) =
      f (overset ++ [accent.glyph]) + (f a.base + f u) := by
  have e : (Stretch.overset accent a).written ++ u =
      overset ++ (braced [accent.glyph] ++ (braced a.target ++ u)) := by
    change (overset ++ braced [accent.glyph] ++ braced a.target) ++ u = _
    rw [List.append_assoc, List.append_assoc]
  rw [e, hf.append_braced, hf.braced_append, a.tally_target hf, tally_overset_glyph hf]
  omega

theorem ReadsStretch.tally {t source rest : Text} {s : Stretch}
    (h : ReadsStretch t s source rest) :
    Parts f s.written rest ∧ f s.written + f rest + s.loss f = f t + s.gain f := by
  cases h with
  | char h =>
    have ht := takes_char_of_control?_eq_none hf h
    exact ⟨(ht.of_append (s := [_])).2, congrArg (· + 0) ht.eq.symm⟩
  | control h _ =>
    have ht := takes_control hf h
    rw [(eq_append_of_control? h).1] at ht
    obtain ⟨-, hp⟩ := ht.of_append
    exact ⟨hp, congrArg (· + 0) (hf.control h).symm⟩
  | @overset _ source rest accent a h ha =>
    have ht := ((takes_control hf h).trans (takes_atom? hf ha)).eq
    have hw := tally_written_overset hf accent a []
    rw [List.append_nil, hf.nil] at hw
    constructor
    · intro u _
      rw [tally_written_overset hf, hw]
      omega
    · simp only [Stretch.loss, Stretch.gain]
      omega

/-- Setting the accents trades their names for what is set over the target. -/
theorem tally_oversetAccents (t : Text) :
    f (oversetAccents t) + ((stretches t).map (Stretch.loss f)).sum =
      f t + ((stretches t).map (Stretch.gain f)).sum := by
  induction t using stretches_induction with
  | nil => simp [oversetAccents, stretches]
  | cons t s source rest hr e ih =>
    obtain ⟨hp, hs⟩ := hr.tally hf
    have hfollows : Follows (oversetAccents rest) rest := by
      refine ⟨opensLetter_of_oversetAccents, ?_⟩
      rintro rfl
      simp [oversetAccents, stretches]
    rw [hr.oversetAccents_eq, e, hp _ hfollows, List.map_cons, List.map_cons, List.sum_cons,
      List.sum_cons]
    omega

end Accents

/-! ## Text blocks -/

section TextBlocks

variable {f : Text → Nat} (hf : Tally f)

include hf

theorem Tally.lead_append {lead : Text} (hl : allBlank lead = true) (t : Text) :
    f (lead ++ t) = f t := by
  rw [← hf.skipBlanks (lead ++ t), skipBlanks_append hl, hf.skipBlanks]

theorem Tally.append_blank_cons (s : Text) {b : Char} (hb : isBlank b = true) (t : Text) :
    f (s ++ b :: t) = f s + f t := by
  have hn := (ne_of_isBlank hb).1
  rw [hf.parted s (isAlpha_of_isBlank hb) hn, hf.char hn, hf.blank hb, Nat.zero_add]

theorem Tally.allBlank {t : Text} (ht : Text.allBlank t = true) : f t = 0 := by
  have h := hf.lead_append ht []
  rwa [List.append_nil, hf.nil] at h

theorem Tally.append_trail (s : Text) {trail : Text} (ht : Text.allBlank trail = true) :
    f (s ++ trail) = f s := by
  cases trail with
  | nil => rw [List.append_nil]
  | cons b trail =>
    obtain ⟨hb, ht⟩ := List.forall_mem_cons.mp (isBlank_of_allBlank ht)
    rw [hf.append_blank_cons s hb, hf.allBlank (List.all_eq_true.mpr ht), Nat.add_zero]

theorem Tally.tidyBlanks (t : Text) : f (tidyBlanks t) = f t := by
  induction worded t with
  | blank ht => rw [tidyBlanks_blank ht, hf.allBlank ht, hf.nil]
  | last hl hne hw ht => rw [tidyBlanks_last hl hne hw ht, hf.append_trail _ ht, hf.lead_append hl]
  | cons hl hne hw hb ht _ ih =>
    rw [tidyBlanks_cons hl hne hw hb ht, hf.append_blank_cons _ (by decide), hf.append_blank_cons _ hb,
      hf.lead_append hl, ih]

theorem ReadsPart.tally {t rest : Text} {p : Part} (h : ReadsPart t p rest) :
    Parts f p.tidied rest ∧ f p.tidied + f rest = f t := by
  cases h with
  | char h =>
    have ht := takes_char_of_control?_eq_none hf h
    exact ⟨(ht.of_append (s := [_])).2, ht.eq.symm⟩
  | control h _ =>
    have ht := takes_control hf h
    rw [(eq_append_of_control? h).1] at ht
    exact ⟨ht.of_append.2, (hf.control h).symm⟩
  | @block _ name gap body rest h _ _ _ =>
    have e : ∀ b u, Part.tidied (.block name gap b) ++ u =
        (name ++ gap) ++ (braced (Tex.tidyBlanks b) ++ u) := by simp [Part.tidied]
    have ht : f t = f (name ++ gap) + (f body + f rest) := by
      rw [(eq_append_of_control? h).1, ← List.append_assoc, hf.append_braced]
    have hw := hf.append_braced (name ++ gap) (Tex.tidyBlanks body) []
    rw [← e, List.append_nil, hf.nil, Nat.add_zero, hf.tidyBlanks] at hw
    refine ⟨fun u _ => ?_, by omega⟩
    rw [e, hf.append_braced, hf.tidyBlanks, hw]
    omega

theorem Tally.tidyRunningText (t : Text) : f (tidyRunningText t) = f t := by
  induction t using parts_induction with
  | nil => simp [Tex.tidyRunningText]
  | cons t p rest hr hs _ ih =>
    obtain ⟨hp, ht⟩ := hr.tally hf
    rw [hs, hp _ (follows_tidyRunningText rest), ih, ht]

end TextBlocks

/-! ## Counting characters -/

/-- The test fails on blanks and braces. -/
structure Solid (p : Char → Bool) : Prop where
  blank : ∀ c, isBlank c = true → p c = false
  opening : p '{' = false
  closing : p '}' = false

theorem Solid.tally {p : Char → Bool} (hp : Solid p) : Tally (List.countP p) where
  control h := by rw [(eq_append_of_control? h).1, List.countP_append]
  char _ t := by rw [← List.singleton_append, List.countP_append]
  parted _ _ _ _ _ := List.countP_append
  blank h := by simp [hp.blank _ h]
  opening := by simp [hp.opening]
  closing := by simp [hp.closing]

def leftScripts (t : Text) : List Script :=
  (segments t).flatMap Segment.leftScripts

def missingSides (t : Text) : Nat :=
  ((segments t).map Segment.missingSides).sum

def accents (t : Text) : List Accent :=
  (stretches t).flatMap Stretch.accents

theorem sum_segment_gain (f : Text → Nat) (l : List Segment) :
    (l.map (Segment.gain f)).sum =
      l.countP Segment.isPrescript * f (spacing ++ prescript) +
        (l.map Segment.missingSides).sum * f strut := by
  induction l with
  | nil => simp
  | cons s l ih =>
    cases s with
    | copied t => simpa [Segment.gain, Segment.missingSides, Segment.isPrescript] using ih
    | prescript pair a =>
      simp only [List.map_cons, List.sum_cons, ih, Segment.gain, Segment.missingSides,
        List.countP_cons, Segment.isPrescript, if_true, Nat.add_mul, Nat.one_mul]
      omega

theorem sum_segment_loss (p : Char → Bool) (l : List Segment) :
    (l.map (Segment.loss (List.countP p))).sum =
      (l.flatMap Segment.leftScripts).countP (fun s => p s.marker.char) := by
  induction l with
  | nil => rfl
  | cons s l ih =>
    rw [List.map_cons, List.sum_cons, ih, List.flatMap_cons, List.countP_append]
    cases s with
    | copied t => rfl
    | prescript pair a =>
      simp only [Segment.loss, Segment.leftScripts, ScriptPair.markers, List.countP_map]
      rfl

theorem sum_stretch_loss (p : Char → Bool) (l : List Stretch) :
    (l.map (Stretch.loss (List.countP p))).sum =
      ((l.flatMap Stretch.accents).flatMap Accent.control).countP p := by
  induction l with
  | nil => rfl
  | cons s l ih =>
    rw [List.map_cons, List.sum_cons, ih, List.flatMap_cons, List.flatMap_append, List.countP_append]
    cases s <;> simp [Stretch.loss, Stretch.accents]

theorem sum_stretch_gain (p : Char → Bool) (l : List Stretch) :
    (l.map (Stretch.gain (List.countP p))).sum =
      ((l.flatMap Stretch.accents).flatMap fun a => overset ++ [a.glyph]).countP p := by
  induction l with
  | nil => rfl
  | cons s l ih =>
    rw [List.map_cons, List.sum_cons, ih, List.flatMap_cons, List.flatMap_append, List.countP_append]
    cases s with
    | copied t => rfl
    | overset accent a => simp [Stretch.gain, Stretch.accents]

section Counts

variable {p : Char → Bool} (hp : Solid p)

include hp

theorem countP_gatherPrescripts (t : Text) :
    (gatherPrescripts t).countP p + (leftScripts t).countP (fun s => p s.marker.char) =
      t.countP p + (prescriptCount t * (spacing ++ prescript).countP p +
        missingSides t * strut.countP p) := by
  have h := tally_gatherBehind hp.tally [] t
  rwa [sum_segment_gain, sum_segment_loss] at h

theorem countP_oversetAccents (t : Text) :
    (oversetAccents t).countP p + ((accents t).flatMap Accent.control).countP p =
      t.countP p + ((accents t).flatMap fun a => overset ++ [a.glyph]).countP p := by
  have h := tally_oversetAccents hp.tally t
  rwa [sum_stretch_loss, sum_stretch_gain] at h

end Counts

theorem solid_isMarker : Solid isMarker where
  blank _ := isMarker_of_isBlank
  opening := by decide
  closing := by decide

theorem solid_beq {c : Char} (hb : isBlank c = false) (ho : c ≠ '{') (hc : c ≠ '}') :
    Solid (· == c) where
  blank _ h := beq_eq_false_of_isBlank hb h
  opening := by simpa using ho.symm
  closing := by simpa using hc.symm

theorem solid_marker (m : Marker) : Solid (· == m.char) := by
  have hb : isBlank m.char = false := by cases m <;> decide
  exact solid_beq hb m.char_ne.2.1 m.char_ne.2.2

theorem isMarker_char (m : Marker) : isMarker m.char = true := by
  cases m <;> rfl

theorem countP_flatMap_eq_zero {p : Char → Bool} {f : Accent → Text}
    (h : ∀ a, (f a).countP p = 0) {l : List Accent} : (l.flatMap f).countP p = 0 := by
  rw [List.countP_eq_zero]
  intro c hc
  obtain ⟨a, -, hc⟩ := List.mem_flatMap.mp hc
  exact List.countP_eq_zero.mp (h a) c hc

section Markers

variable {p : Char → Bool} (hp : Solid p)

include hp

/-- What prescripts and accents are made of has no markers. -/
theorem countP_markers (hm : ∀ c, p c = true → isMarker c = true) (t : Text) :
    (gatherPrescripts t).countP p + (leftScripts t).countP (fun s => p s.marker.char) =
        t.countP p ∧
      (oversetAccents t).countP p = t.countP p := by
  have hz : ∀ s : Text, s.countP isMarker = 0 → s.countP p = 0 := by
    intro s hs
    have h := List.countP_mono_left (l := s) fun c _ => hm c
    omega
  have hc : ∀ a : Accent, a.control.countP p = 0 := by
    intro a
    apply hz
    cases a <;> decide
  have hg : ∀ a : Accent, (overset ++ [a.glyph]).countP p = 0 := by
    intro a
    apply hz
    cases a <;> decide
  have h₁ := countP_gatherPrescripts hp t
  have h₂ := countP_oversetAccents hp t
  rw [hz (spacing ++ prescript) (by decide), hz strut (by decide)] at h₁
  rw [countP_flatMap_eq_zero hc, countP_flatMap_eq_zero hg] at h₂
  exact ⟨by omega, by omega⟩

end Markers

theorem marker_char_beq (s : Script) (m : Marker) :
    (s.marker.char == m.char) = decide (s.marker = m) := by
  cases s.marker <;> cases m <;> rfl

/-- Each accent that is counted as rewritten is one of the accents. -/
theorem length_accents (t : Text) : (accents t).length = oversetCount t := by
  unfold accents oversetCount
  induction stretches t with
  | nil => rfl
  | cons s l ih =>
    rw [List.flatMap_cons, List.length_append, ih, List.countP_cons, Nat.add_comm]
    cases s <;> rfl

/-- Nothing is lost and nothing is there twice. A character other than blanks, braces and markers comes in
only with the words of a prescript, with a strut or with an overset accent, and goes only with the name
of such an accent. Of the markers, those of the left scripts are used up. -/
theorem count_of_rewriting (t : Text) :
    (∀ c, isBlank c = false → c ≠ '{' → c ≠ '}' → isMarker c = false →
      (gatherPrescripts t).count c =
          t.count c + (prescriptCount t * (spacing ++ prescript).count c +
            missingSides t * strut.count c) ∧
        (oversetAccents t).count c + ((accents t).flatMap Accent.control).count c =
          t.count c + ((accents t).flatMap fun a => overset ++ [a.glyph]).count c) ∧
      (accents t).length = oversetCount t ∧
      (gatherPrescripts t).countP isMarker + (leftScripts t).length = t.countP isMarker ∧
      (oversetAccents t).countP isMarker = t.countP isMarker ∧
      ∀ m : Marker,
        (gatherPrescripts t).count m.char + (leftScripts t).countP (·.marker = m) =
            t.count m.char ∧
          (oversetAccents t).count m.char = t.count m.char := by
  refine ⟨?_, length_accents t, ?_, ?_, ?_⟩
  · intro c hb ho hc hm
    have hp := solid_beq hb ho hc
    have hl : (leftScripts t).countP (fun s => s.marker.char == c) = 0 := by
      rw [List.countP_eq_zero]
      intro s _ h
      rw [← eq_of_beq h, isMarker_char] at hm
      exact absurd hm (by decide)
    have h := countP_gatherPrescripts hp t
    rw [hl, Nat.add_zero] at h
    exact ⟨h, countP_oversetAccents hp t⟩
  · have h := (countP_markers solid_isMarker (fun _ => id) t).1
    simpa only [isMarker_char, List.countP_true] using h
  · exact (countP_markers solid_isMarker (fun _ => id) t).2
  · intro m
    have hm : ∀ c, (c == m.char) = true → isMarker c = true := by
      intro c hc
      rw [eq_of_beq hc, isMarker_char]
    have h := countP_markers (solid_marker m) hm t
    simpa only [marker_char_beq, List.count] using h

/-- Two left scripts, of which one is empty, and an accent. -/
theorem count_of_rewriting_of_empty_side :
    let t := "\x7b\x7d_\x7b\x7d^2R+\\dot q".toList
    (prescriptCount t = 1 ∧ missingSides t = 1 ∧ (leftScripts t).length = 2 ∧ oversetCount t = 1) ∧
      (gatherPrescripts t).count 't' = 1 + (1 * 2 + 1 * 3) ∧
      (oversetAccents t).count 't' + 1 = 1 + 1 ∧
      (gatherPrescripts t).countP isMarker + 2 = 2 := by
  intro t
  have hp : prescriptCount t = 1 := by decide +kernel
  have hs : missingSides t = 1 := by decide +kernel
  have hl : (leftScripts t).length = 2 := by decide +kernel
  have ho : oversetCount t = 1 := by decide +kernel
  have ha : accents t = [.dot] := by decide +kernel
  obtain ⟨h, -, hm, -, -⟩ := count_of_rewriting t
  obtain ⟨hg, ho'⟩ := h 't' (by decide) (by decide) (by decide) (by decide)
  rw [hp, hs] at hg
  rw [ha] at ho'
  rw [hl] at hm
  exact ⟨⟨hp, hs, hl, ho⟩, hg, ho', hm⟩

end Formula.Tex
