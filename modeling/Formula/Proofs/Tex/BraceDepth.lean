import Formula.Proofs.Tex.Splitting

/-! # Brace depth

A walk through a text keeps whether a backslash waits for its character, how many groups are open, and
the least number that were open so far. Gathering prescripts and setting accents take balanced texts
out and put balanced texts in, so that the walk through the result ends as the walk through the source.
-/

namespace Formula.Tex

structure BraceWalk where
  escaped : Bool
  depth : Int
  lowest : Int
  lowest_le : lowest ≤ depth
  deriving DecidableEq

namespace BraceWalk

def start : BraceWalk where
  escaped := false
  depth := 0
  lowest := 0
  lowest_le := by decide

def step (w : BraceWalk) (c : Char) : BraceWalk :=
  if w.escaped then { w with escaped := false }
  else if c = '\\' then { w with escaped := true }
  else if c = '{' then
    { w with depth := w.depth + 1, lowest_le := by have := w.lowest_le; omega }
  else if c = '}' then
    { w with depth := w.depth - 1, lowest := min w.lowest (w.depth - 1), lowest_le := by omega }
  else w

def run (w : BraceWalk) (t : Text) : BraceWalk :=
  t.foldl step w

@[simp] theorem run_nil (w : BraceWalk) : w.run [] = w := rfl

@[simp] theorem run_cons (w : BraceWalk) (c : Char) (t : Text) :
    w.run (c :: t) = (w.step c).run t := rfl

theorem run_append (w : BraceWalk) (s t : Text) : w.run (s ++ t) = (w.run s).run t :=
  List.foldl_append

theorem escaped_step (w : BraceWalk) (c : Char) :
    (w.step c).escaped = (!w.escaped && decide (c = '\\')) := by
  unfold step
  split_ifs <;> simp_all

theorem depth_step (w : BraceWalk) (c : Char) :
    (w.step c).depth =
      w.depth + if w.escaped then 0 else if c = '{' then 1 else if c = '}' then -1 else 0 := by
  unfold step
  split_ifs <;> simp_all [Int.sub_eq_add_neg]

theorem step_escaped {w : BraceWalk} {c : Char} (hw : w.escaped = false) (hc : c ≠ '\\') :
    (w.step c).escaped = false := by
  simp [escaped_step, hw, hc]

theorem run_of_balanced {w : BraceWalk} (hw : w.escaped = false) {t : Text} (ht : Balanced t) :
    w.run t = w := by
  induction ht generalizing w with
  | nil => rfl
  | @char c t hb ho hc _ ih =>
    have hs : w.step c = w := by simp [step, hw, hb, ho, hc]
    rw [run_cons, hs, ih hw]
  | @escape c t _ ih =>
    have hs : (w.step '\\').step c = w := by
      cases w
      simp_all [step]
    rw [run_cons, run_cons, hs, ih hw]
  | @group s t _ _ ihs ih =>
    have ho : (w.step '{').escaped = false := step_escaped hw (by decide)
    have hs : (w.step '{').step '}' = w := by
      have hl : min w.lowest w.depth = w.lowest := Int.min_eq_left w.lowest_le
      cases w
      simp_all [step]
    have e : braced s ++ t = '{' :: (s ++ '}' :: t) := by simp [braced]
    rw [e, run_cons, run_append, ihs ho, run_cons, hs, ih hw]

theorem run_congr {w v : BraceWalk} (h : w.escaped = v.escaped) (t : Text) :
    (w.run t).escaped = (v.run t).escaped ∧
      (w.run t).depth - w.depth = (v.run t).depth - v.depth := by
  induction t generalizing w v with
  | nil => simp [h]
  | cons c t ih =>
    have hs : (w.step c).escaped = (v.step c).escaped := by
      rw [escaped_step, escaped_step, h]
    have hd : (w.step c).depth - w.depth = (v.step c).depth - v.depth := by
      rw [depth_step, depth_step, h]
      omega
    obtain ⟨he, hr⟩ := ih hs
    exact ⟨he, by rw [run_cons, run_cons]; omega⟩

theorem ne_backslash_of_control? {w : BraceWalk} {c : Char} {r : Text}
    (h : control? (c :: r) = none) (hw : w.escaped = false)
    (ht : (w.run (c :: r)).escaped = false) : c ≠ '\\' := by
  rintro rfl
  obtain rfl := eq_nil_of_control?_eq_none h
  simp [step, hw] at ht

end BraceWalk

/-- Every backslash has a character behind it. -/
def Paired (t : Text) : Prop :=
  (BraceWalk.start.run t).escaped = false

/-- How many groups the text opens more than it closes. -/
def netDepth (t : Text) : Int :=
  (BraceWalk.start.run t).depth

/-- No brace closes a group that the text has not opened, and no group stays open. -/
def WellNested (t : Text) : Prop :=
  0 ≤ (BraceWalk.start.run t).lowest ∧ netDepth t = 0

instance (t : Text) : Decidable (Paired t) :=
  inferInstanceAs (Decidable (_ = false))

instance (t : Text) : Decidable (WellNested t) :=
  inferInstanceAs (Decidable (_ ∧ _))

theorem Paired.run {t : Text} (ht : Paired t) {w : BraceWalk} (hw : w.escaped = false) :
    (w.run t).escaped = false :=
  (BraceWalk.run_congr hw t).1.trans ht

theorem Balanced.paired {t : Text} (ht : Balanced t) : Paired t := by
  rw [Paired, BraceWalk.run_of_balanced rfl ht]
  rfl

theorem BraceWalk.lowest_run_le (w : BraceWalk) (t : Text) : (w.run t).lowest ≤ w.lowest := by
  induction t generalizing w with
  | nil => exact Int.le_refl _
  | cons c t ih =>
    have hs : (w.step c).lowest ≤ w.lowest := by
      unfold step
      split_ifs <;> simp only [Int.le_refl]
      exact Int.min_le_left _ _
    exact Int.le_trans (ih (w.step c)) hs

theorem BraceWalk.closing_of_run {depth : Nat} {w : BraceWalk} {t : Text}
    (hw : w.escaped = false) (hd : w.depth = depth) (he : (w.run t).escaped = false)
    (hl : 0 ≤ (w.run t).lowest) (h₀ : (w.run t).depth = 0) : Closing depth t := by
  fun_induction close? depth t generalizing w with
  | case1 depth =>
    have h : depth = 0 := by simp_all
    rw [h]
    exact Balanced.nil
  | case2 => simp [step, hw] at he
  | case3 depth c r ih =>
    have hs : (w.step '\\').step c = w := by
      cases w
      simp_all [step]
    rw [run_cons, run_cons, hs] at he hl h₀
    exact (ih hw hd he hl h₀).append (s := ['\\', c]) (.escape .nil)
  | case4 depth r _ ih =>
    have ho : (w.step '{').depth = (depth + 1 : Nat) := by simp [step, hw, hd]
    exact closing_open_iff.mpr (ih (step_escaped hw (by decide)) ho he hl h₀)
  | case5 r _ _ =>
    have hs : (w.step '}').lowest ≤ -1 := by
      simp only [step, hw, hd]
      exact Int.min_le_right _ _
    have := lowest_run_le (w.step '}') r
    rw [run_cons] at hl
    omega
  | case6 r depth _ _ ih =>
    have hc : (w.step '}').depth = depth := by simp [step, hw, hd]
    exact closing_shut_iff.mpr ⟨depth, rfl, ih (step_escaped hw (by decide)) hc he hl h₀⟩
  | case7 depth c r hb ho hc ih =>
    have hs : w.step c = w := by simp [step, hw, hb, ho, hc]
    rw [run_cons, hs] at he hl h₀
    exact (ih hw hd he hl h₀).append (.singleton hb ho hc)

/-- The walk and the grammar agree on what is balanced. -/
theorem balanced_iff {t : Text} : Balanced t ↔ Paired t ∧ WellNested t := by
  constructor
  · intro h
    unfold WellNested netDepth Paired
    rw [BraceWalk.run_of_balanced rfl h]
    decide
  · rintro ⟨hp, hl, hd⟩
    have h : Closing 0 t := BraceWalk.closing_of_run (w := .start) rfl rfl hp hl hd
    exact h

/-! ## Prescripts -/

theorem balanced_spacing_prescript : Balanced (spacing ++ prescript) := by
  have hs : Balanced "\\hspace".toList := balanced_of_isWordControl (by decide)
  have hp : Balanced prescript := balanced_of_isWordControl (by decide)
  have ha : Balanced "0pt".toList := by decide
  exact (hs.append ha.braced).append hp

theorem balanced_side {value : Text} (h : Balanced value) : Balanced (side value) := by
  unfold side
  split
  · exact balanced_of_isWordControl (by decide)
  · exact h

theorem balanced_written_prescript {l : ScriptPair} {a : Atom} (hl : ∀ m, Balanced (l.value m))
    (ha : Balanced a.base) : Balanced (Segment.prescript l a).written :=
  ((balanced_spacing_prescript.append (balanced_side (hl .sup)).braced).append
    (balanced_side (hl .sub)).braced).append ha.braced

theorem balanced_source {before source middle rest : Text} {l : ScriptPair} {a : Atom}
    (hl : leadingScripts? before (source ++ rest) = some (l, middle))
    (ha : atom? middle = some (a, rest)) (hn : a.nucleus ≠ .char '\\') : Balanced source := by
  obtain ⟨-, lead, e, hb⟩ := balanced_of_leadingScripts? hl
  obtain ⟨-, -, tail, rfl, hb'⟩ := balanced_of_atom? ha hn
  rw [← List.append_assoc] at e
  rw [List.append_cancel_right e]
  exact hb.append hb'

theorem not_paired_of_backslash {before t middle rest : Text} {l : ScriptPair} {a : Atom}
    (hl : leadingScripts? before t = some (l, middle)) (ha : atom? middle = some (a, rest))
    (hn : a.nucleus = .char '\\') {w : BraceWalk} (hw : w.escaped = false) :
    (w.run t).escaped = true := by
  obtain ⟨-, lead, rfl, hb⟩ := balanced_of_leadingScripts? hl
  obtain ⟨e, -, -⟩ := eq_of_atom?_backslash ha hn
  rw [e, ← List.append_assoc, BraceWalk.run_append,
    BraceWalk.run_of_balanced hw (hb.append (balanced_takeWhile_isBlank _))]
  simp [BraceWalk.step, hw]

theorem ReadsSegment.run {before t source rest : Text} {s : Segment} {w : BraceWalk}
    (h : ReadsSegment before t s source rest) (hw : w.escaped = false)
    (ht : (w.run t).escaped = false) :
    (w.run source).escaped = false ∧ w.run s.written = w.run source := by
  cases h with
  | control h => exact ⟨by rwa [BraceWalk.run_of_balanced hw (balanced_of_control? h)], rfl⟩
  | backslash => simp [BraceWalk.step, hw] at ht
  | char hb _ => exact ⟨BraceWalk.step_escaped hw hb, rfl⟩
  | lone hl _ =>
    obtain ⟨-, lead, e, hb⟩ := balanced_of_leadingScripts? hl
    rw [List.append_cancel_right e]
    exact ⟨by rwa [BraceWalk.run_of_balanced hw hb], rfl⟩
  | @sizing _ _ _ l a hl ha hz =>
    have hn : a.nucleus ≠ .char '\\' := by
      intro hn
      simp [hn, Nucleus.isSizing] at hz
    exact ⟨by rwa [BraceWalk.run_of_balanced hw (balanced_source hl ha hn)], rfl⟩
  | @prescript _ _ _ l a hl ha _ =>
    have hn : a.nucleus ≠ .char '\\' := by
      intro hn
      simp [not_paired_of_backslash hl ha hn hw] at ht
    have hb := balanced_written_prescript (balanced_of_leadingScripts? hl).1
      (balanced_of_atom? ha hn).1
    rw [BraceWalk.run_of_balanced hw hb, BraceWalk.run_of_balanced hw (balanced_source hl ha hn)]
    exact ⟨hw, rfl⟩

theorem run_segmentsBehind {before t : Text} {w : BraceWalk} (hw : w.escaped = false)
    (ht : (w.run t).escaped = false) :
    w.run ((segmentsBehind before t).flatMap Segment.written) = w.run t := by
  induction before, t using segmentsBehind_induction generalizing w with
  | nil => simp [segmentsBehind]
  | cons before t s source rest hr e ih =>
    obtain ⟨hs, he⟩ := hr.run hw ht
    have ht' := hr.eq_append
    rw [ht', BraceWalk.run_append] at ht
    rw [e, List.flatMap_cons, BraceWalk.run_append, he, ih hs ht, ht', BraceWalk.run_append]

/-! ## Accents -/

theorem balanced_written_overset {accent : Accent} {a : Atom} (ha : Balanced a.target) :
    Balanced (Stretch.overset accent a).written := by
  have ho : Balanced "\\overset".toList := balanced_of_isWordControl (by decide)
  have hg : Balanced [accent.glyph] := by cases accent <;> decide
  exact (ho.append hg.braced).append ha.braced

theorem ReadsStretch.run {t source rest : Text} {s : Stretch} {w : BraceWalk}
    (h : ReadsStretch t s source rest) (hw : w.escaped = false)
    (ht : (w.run t).escaped = false) :
    (w.run source).escaped = false ∧ w.run s.written = w.run source := by
  cases h with
  | char h =>
    exact ⟨BraceWalk.step_escaped hw (BraceWalk.ne_backslash_of_control? h hw ht), rfl⟩
  | control h _ => exact ⟨by rwa [BraceWalk.run_of_balanced hw (balanced_of_control? h)], rfl⟩
  | @overset _ source _ accent a h ha =>
    have hc := balanced_of_control? h
    have hn : a.nucleus ≠ .char '\\' := by
      intro hn
      rw [(eq_append_of_control? h).1, (eq_of_atom?_backslash ha hn).1, ← List.append_assoc,
        BraceWalk.run_append,
        BraceWalk.run_of_balanced hw (hc.append (balanced_takeWhile_isBlank _))] at ht
      simp [BraceWalk.step, hw] at ht
    obtain ⟨-, hb, source', e, hs⟩ := balanced_of_atom? ha hn
    rw [List.append_cancel_right e, BraceWalk.run_of_balanced hw (balanced_written_overset hb),
      BraceWalk.run_of_balanced hw (hc.append hs)]
    exact ⟨hw, rfl⟩

theorem run_oversetAccents {t : Text} {w : BraceWalk} (hw : w.escaped = false)
    (ht : (w.run t).escaped = false) : w.run (oversetAccents t) = w.run t := by
  unfold oversetAccents
  induction t using stretches_induction generalizing w with
  | nil => simp [stretches]
  | cons t s source rest hr e ih =>
    obtain ⟨hs, he⟩ := hr.run hw ht
    have ht' := hr.eq_append
    rw [ht', BraceWalk.run_append] at ht
    rw [e, List.flatMap_cons, BraceWalk.run_append, he, ih hs ht, ht', BraceWalk.run_append]

/-- Neither gathering prescripts nor setting accents changes how the braces of a text nest. -/
theorem braces_of_rewriting {t : Text} (ht : Paired t) :
    (netDepth (gatherPrescripts t) = netDepth t ∧ Paired (gatherPrescripts t) ∧
      (WellNested t → WellNested (gatherPrescripts t))) ∧
    (netDepth (oversetAccents t) = netDepth t ∧ Paired (oversetAccents t) ∧
      (WellNested t → WellNested (oversetAccents t))) := by
  have hg : BraceWalk.start.run (gatherPrescripts t) = BraceWalk.start.run t :=
    run_segmentsBehind rfl ht
  have ho : BraceWalk.start.run (oversetAccents t) = BraceWalk.start.run t :=
    run_oversetAccents rfl ht
  unfold WellNested netDepth Paired
  rw [hg, ho]
  exact ⟨⟨rfl, ht, id⟩, rfl, ht, id⟩

theorem wellNested_of_escaped_brace :
    let t := "\\ddot\x7b \x7b\x7d_\x7ba\\\x7d\x7dR^2\x7d".toList
    Paired t ∧ WellNested t ∧ WellNested (gatherPrescripts t) ∧ WellNested (oversetAccents t) := by
  have hp : Paired "\\ddot\x7b \x7b\x7d_\x7ba\\\x7d\x7dR^2\x7d".toList := by decide
  have hn : WellNested "\\ddot\x7b \x7b\x7d_\x7ba\\\x7d\x7dR^2\x7d".toList := by decide
  obtain ⟨⟨-, -, hg⟩, -, -, ho⟩ := braces_of_rewriting hp
  exact ⟨hp, hn, hg hn, ho hn⟩

end Formula.Tex
