import Formula.Proofs.Markup.Pruning

/-! # What the pruning takes away

Whatever markup is pruned, tags that never end, stray ones and crossed ones included, nothing is lost but
blanks and the tags of rows and table rows, and nothing is put in but fillers. All else is written once, in
the order in which it was read.
-/

namespace Formula.Markup

open Text

/-- Elements of this name are dropped if they are empty, whatever is around them. -/
def vanishes (name : Text) : Bool :=
  let name := String.ofList (localName name)
  name = "mrow" || name = "mtr"

/-- Blanks can be taken away, and so can the tags of elements that vanish. All else is there to stay. -/
def Piece.lasts : Piece → Bool
  | char c => !isBlank c
  | tag t => !vanishes t.name

/-- Elements of this name get a filler if they are empty. -/
def fillable (name : Text) : Bool :=
  let name := String.ofList (localName name)
  name = "mtd" || name = "mtext"

def fillers : List Text :=
  [filler, zeroWidthSpace]

namespace Tag

/-- The start tag of an element that was closed by its own tag. -/
def startPart (t : Tag) : Tag :=
  ⟨false, t.name, trimEnd t.attributes, false⟩

def endPart (t : Tag) : Tag :=
  ⟨true, t.name, [], false⟩

end Tag

/-- The text has the pieces in their order, but for some that do not last, and with fillers among them. A
cell or a text element that was closed by its own tag may be written with two, around a filler. -/
inductive Thinned : List Piece → Text → Prop
  | nil : Thinned [] []
  | keep {ps : List Piece} {w : Text} (p : Piece) : Thinned ps w → Thinned (p :: ps) (p.written ++ w)
  | drop {p : Piece} {ps : List Piece} {w : Text} : p.lasts = false → Thinned ps w → Thinned (p :: ps) w
  | fill {g : Text} {ps : List Piece} {w : Text} : g ∈ fillers → Thinned ps w → Thinned ps (g ++ w)
  | split {t : Tag} {g : Text} {ps : List Piece} {w : Text} : t.selfClosing = true →
      fillable t.name = true → g ∈ fillers → Thinned ps w →
      Thinned (.tag t :: ps) (t.startPart.written ++ (g ++ (t.endPart.written ++ w)))

theorem Tag.allBlank_written (t : Tag) : allBlank t.written = false := by
  have hb : isBlank '<' = false := by decide
  simp [allBlank, Tag.written, hb]

theorem allBlank_of_mem_fillers {g : Text} (hg : g ∈ fillers) : allBlank g = false := by
  revert g
  decide

theorem allBlank_append (u v : Text) : allBlank (u ++ v) = (allBlank u && allBlank v) :=
  List.all_append

namespace Thinned

variable {ps qs : List Piece} {v w : Text}

theorem append (h : Thinned ps v) (hw : Thinned qs w) : Thinned (ps ++ qs) (v ++ w) := by
  induction h with
  | nil => exact hw
  | keep p _ ih =>
    rw [List.append_assoc]
    exact ih.keep p
  | drop hp _ ih => exact ih.drop hp
  | fill hg _ ih =>
    rw [List.append_assoc]
    exact ih.fill hg
  | split hs hf hg _ ih =>
    rw [List.append_assoc, List.append_assoc, List.append_assoc]
    exact ih.split hs hf hg

theorem lasts_eq_false (h : Thinned ps w) (hw : allBlank w = true) : ∀ p ∈ ps, p.lasts = false := by
  induction h with
  | nil => simp
  | keep p _ ih =>
    rw [allBlank_append, Bool.and_eq_true] at hw
    refine List.forall_mem_cons.mpr ⟨?_, ih hw.2⟩
    cases p with
    | char c => simpa [Piece.lasts, Piece.written, allBlank] using hw.1
    | tag t =>
      rw [Piece.written, t.allBlank_written] at hw
      cases hw.1
  | drop hp _ ih => exact List.forall_mem_cons.mpr ⟨hp, ih hw⟩
  | fill hg _ _ =>
    rw [allBlank_append, allBlank_of_mem_fillers hg] at hw
    cases hw
  | split _ _ _ _ _ =>
    rw [allBlank_append, Tag.allBlank_written] at hw
    cases hw

theorem of_allBlank (h : Thinned ps w) (hw : allBlank w = true) : Thinned ps [] := by
  have hps := h.lasts_eq_false hw
  clear h
  induction ps with
  | nil => exact .nil
  | cons p ps ih =>
    rw [List.forall_mem_cons] at hps
    exact (ih hps.2).drop hps.1

theorem char (c : Char) : Thinned [.char c] [c] :=
  .keep (.char c) .nil

theorem tag (t : Tag) : Thinned [.tag t] t.written := by
  simpa [Piece.written] using Thinned.keep (.tag t) .nil

theorem filler {g : Text} (hg : g ∈ fillers) : Thinned [] g := by
  simpa using Thinned.nil.fill hg

end Thinned

/-! ## What becomes of an empty element -/

theorem pruned?_cases {name opening closing w : Text} {parent : Option Text}
    (h : pruned? name opening closing parent = some w) :
    vanishes name = true ∧ (w = [] ∨ w ∈ fillers) ∨
      fillable name = true ∧ ∃ g ∈ fillers, w = opening ++ (g ++ closing) := by
  have hf : filler ∈ fillers ∧ zeroWidthSpace ∈ fillers := by decide
  simp only [pruned?] at h
  split_ifs at h with hrow hpos htr htd htext
  all_goals obtain rfl := Option.some.inj h
  · exact .inl ⟨by simp [vanishes, hrow], .inr hf.1⟩
  · exact .inl ⟨by simp [vanishes, hrow], .inl rfl⟩
  · exact .inl ⟨by simp [vanishes, htr], .inl rfl⟩
  · exact .inr ⟨by simp [fillable, htd], _, hf.1, List.append_assoc ..⟩
  · exact .inr ⟨by simp [fillable, htext], _, hf.2, List.append_assoc ..⟩

theorem thinned_pruned? {s t : Tag} {qs : List Piece} {w : Text} {parent : Option Text}
    (hn : s.name = t.name) (hq : Thinned qs []) (h : pruned? t.name s.written t.written parent = some w) :
    Thinned (.tag s :: (qs ++ [.tag t])) w := by
  rcases pruned?_cases h with ⟨hv, hw⟩ | ⟨-, g, hg, rfl⟩
  · have hrows : Thinned (.tag s :: (qs ++ [.tag t])) [] := by
      apply Thinned.drop (by simp [Piece.lasts, hn, hv])
      simpa using hq.append (.drop (by simp [Piece.lasts, hv]) .nil)
    rcases hw with rfl | hg
    · exact hrows
    · simpa using hrows.fill hg
  · exact (hq.append ((Thinned.tag t).fill hg)).keep (.tag s)

theorem thinned_selfClosing {t : Tag} (hs : t.selfClosing = true) (parent : Option Text) :
    Thinned [.tag t]
      ((pruned? t.name t.startPart.written t.endPart.written parent).getD t.written) := by
  cases h : pruned? t.name t.startPart.written t.endPart.written parent with
  | none => exact .tag t
  | some w =>
    rw [Option.getD_some]
    rcases pruned?_cases h with ⟨hv, rfl | hg⟩ | ⟨hf, g, hg, rfl⟩
    · exact .drop (by simp [Piece.lasts, hv]) .nil
    · exact .drop (by simp [Piece.lasts, hv]) (.filler hg)
    · simpa using Thinned.split hs hf hg .nil

/-! ## What is built of the pieces -/

/-- The assembly is built of the pieces: some of them outside of all open elements, and the others with
the start tags of these and inside them. -/
inductive Built : List Piece → Assembly → Prop
  | outside {ps : List Piece} {outside : Text} : Thinned ps outside.reverse → Built ps ⟨outside, []⟩
  | inside {ps qs : List Piece} {outside inside : Text} {frames : List Frame} (t : Tag) :
      Built ps ⟨outside, frames⟩ → Thinned qs inside.reverse →
      Built (ps ++ .tag t :: qs) ⟨outside, ⟨t.name, t.written, inside⟩ :: frames⟩

namespace Built

variable {ps qs : List Piece} {a : Assembly}

theorem written (h : Built ps a) : Thinned ps a.written := by
  induction h with
  | outside h => simpa [Assembly.written] using h
  | inside t _ hq ih => simpa [Assembly.written, Frame.written, Piece.written] using ih.append (hq.keep (.tag t))

theorem write (h : Built ps a) {w : Text} (hw : Thinned qs w) : Built (ps ++ qs) (a.write w) := by
  cases h with
  | outside h =>
    apply Built.outside
    simpa using h.append hw
  | inside t h hq =>
    rw [List.append_assoc, List.cons_append]
    apply h.inside t
    simpa using hq.append hw

/-- The pieces of the elements that were never closed belong to the one that is found. -/
theorem find? {name acc all outside : Text} {frames fs : List Frame} {f : Frame}
    (h : Built ps ⟨outside, frames⟩) (hacc : Thinned qs acc.reverse)
    (hf : Assembly.find? name acc frames = some (f, all, fs)) :
    ∃ ps' t qs', ps ++ qs = ps' ++ .tag t :: qs' ∧ t.name = name ∧ f.opening = t.written ∧
      Built ps' ⟨outside, fs⟩ ∧ Thinned qs' all.reverse := by
  induction frames generalizing ps qs acc with
  | nil => cases hf
  | cons g gs ih =>
    cases h with
    | @inside ps qs₀ _ inside _ t h hq =>
      simp only [Assembly.find?] at hf
      split_ifs at hf with hn
      · simp only [Option.some.injEq, Prod.mk.injEq] at hf
        obtain ⟨rfl, rfl, rfl⟩ := hf
        exact ⟨ps, t, qs₀ ++ qs, by simp, hn, rfl, h, by simpa using hq.append hacc⟩
      · have hall : Thinned (.tag t :: (qs₀ ++ qs)) (acc ++ inside ++ t.written.reverse).reverse := by
          simpa [Piece.written] using (hq.append hacc).keep (.tag t)
        obtain ⟨ps', s, qs', e, hs⟩ := ih h hall hf
        exact ⟨ps', s, qs', by simpa using e, hs⟩

theorem close (h : Built ps a) (t : Tag) : Built (ps ++ [.tag t]) (a.close t) := by
  obtain ⟨outside, frames⟩ := a
  unfold Assembly.close
  split
  · exact h.write (.tag t)
  · next f all fs hf =>
    have hnone : Thinned [] ([] : Text).reverse := .nil
    obtain ⟨ps', s, qs, e, hn, ho, hb, hq⟩ := h.find? hnone hf
    rw [List.append_nil] at e
    have hkept : Thinned (.tag s :: (qs ++ [.tag t])) (f.opening ++ all.reverse ++ t.written) := by
      rw [ho, List.append_assoc]
      exact (hq.append (.tag t)).keep (.tag s)
    rw [e, List.append_assoc, List.cons_append]
    dsimp only
    split_ifs with hc
    · exact hb.write hkept
    · simp only [Bool.or_eq_true, not_or, Bool.not_eq_true, Bool.not_eq_false'] at hc
      have hnil : Thinned qs [] := hq.of_allBlank (by simpa [allBlank] using hc.1)
      cases hp : pruned? t.name f.opening t.written (Assembly.parent ⟨outside, fs⟩) with
      | none => exact hb.write hkept
      | some w => exact hb.write (thinned_pruned? hn hnil (ho ▸ hp))

theorem add (h : Built ps a) (p : Piece) : Built (ps ++ [p]) (a.add p) := by
  cases p with
  | char c => exact h.write (.char c)
  | tag t =>
    simp only [Assembly.add]
    split_ifs with hs
    · have e : '<' :: t.name ++ trimEnd t.attributes ++ ['>'] = t.startPart.written ∧
          '<' :: '/' :: t.name ++ ['>'] = t.endPart.written := by
        simp [Tag.startPart, Tag.endPart, Tag.written]
      rw [e.1, e.2]
      exact h.write (thinned_selfClosing hs a.parent)
    · exact h.close t
    · exact h.inside t .nil

theorem foldl_add (h : Built ps a) (qs : List Piece) : Built (ps ++ qs) (qs.foldl Assembly.add a) := by
  induction qs generalizing ps a with
  | nil => simpa using h
  | cons q qs ih => simpa using ih (h.add q)

end Built

/-- The pieces of any text are all there in the pruned text, but for blanks and rows. -/
theorem thinned_prune (t : Text) : Thinned (pieces t) (prune t) := by
  have h : Built [] .empty := .outside .nil
  exact (h.foldl_add (pieces t)).written

end Formula.Markup
