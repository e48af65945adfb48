import Formula.Proofs.Markup.Apart

/-! # What depends on the prefix

A tree is cleaned up with a prefix as it is without one, but for three things: the accents that are
marked, the missing arguments that are filled, and the fillers that the pruning puts in. None of them
has the prefix, and the first two are not even found with it. So the two results are the same exactly if
there is none of these.
-/

namespace Formula.Markup

open Text

/-! ## The declaration -/

theorem isLayout_binding (p : Text) : (binding p).isLayout = false := by
  have hx : ∀ name ∈ layoutNames, name.head? ≠ some 'x' := by decide
  refine Bool.eq_false_iff.mpr fun h => ?_
  rw [Attribute.isLayout, List.contains_iff_mem] at h
  exact hx _ h rfl

namespace Label

def bound (p : Text) (l : Label) : Label :=
  if l.declares then l else l.front (binding p)

variable {l : Label} {p : Text}

theorem name_bound (l : Label) (p : Text) : (l.bound p).name = l.name := by
  unfold bound
  split_ifs <;> rfl

variable (hp : ∀ c ∈ p, isPrefixChar c = true)

include hp

theorem attributes_stripped_bound (l : Label) :
    (l.bound p).stripped.attributes =
      (if l.declares then [] else (binding p).written) ++ l.stripped.attributes := by
  unfold bound
  split_ifs
  · rfl
  · rw [stripped_front (regular_binding hp) (isLayout_binding p)]
    rfl

theorem WellFormed.bound (h : l.WellFormed) : (l.bound p).WellFormed := by
  unfold Label.bound
  split_ifs
  · exact h
  · exact h.front (regular_binding hp)

omit hp in
theorem getLast?_bound (h : l.attributes.getLast? ≠ some '/') :
    (l.bound p).attributes.getLast? ≠ some '/' := by
  unfold bound
  split_ifs
  · exact h
  · exact l.getLast?_front (binding p) h

/-- The root gets a declaration for its prefix in front of its attributes. -/
theorem WellFormed.declareNamespace_eq (h : l.WellFormed) (hn : l.name = (Root.mk p []).name)
    {body : Text} (hb : l.Body body) (rest : Text) :
    declareNamespace ('<' :: (l.name ++ (body ++ '>' :: rest))) =
      '<' :: (l.name ++ ((if l.declares then body else (binding p).written ++ body) ++ '>' :: rest)) := by
  have hroot : '<' :: (l.name ++ (body ++ '>' :: rest)) = (Root.mk p body).written ++ rest := by
    rw [Root.written_append, hn]
    rfl
  have hd : (Root.mk p body).isDeclared = l.declares := hb.isDeclared_eq
  rw [hroot, Root.declareNamespace_written hp (h.isAngle_body hb) (h.isNameChar_body hb rest), hd,
    Root.written_append, hn]
  split_ifs
  · rfl
  · rw [Root.declare, Root.declaration_eq]
    rfl

end Label

/-! ## Trees of one root -/

namespace Element

def map (g : Label → Label) (k : Fragment → Fragment) (e : Element) : Element :=
  ⟨g e.label, e.inside.map k⟩

variable {e : Element} (g : Label → Label) (k : Fragment → Fragment)

theorem prefixed_before (p : Text) :
    (e.before .nil).prefixed p = (e.map (·.prefixed p) (·.prefixed p)).before .nil := by
  obtain ⟨l, _ | inside⟩ := e <;> rfl

theorem accented_before (h : (g e.label).name ≠ mover) :
    ((e.map g k).before .nil).accented = (e.map g fun i => (k i).accented).before .nil := by
  obtain ⟨l, _ | inside⟩ := e
  · rfl
  · have ha : (g l).awaitsMark (k inside) = false := (g l).awaitsMark_of_ne h (k inside)
    exact congrArg (Fragment.element · _ _) (if_neg (Bool.eq_false_iff.mp ha))

theorem supplied_before (h : (g e.label).name ≠ noneName) :
    ((e.map g k).before .nil).supplied = (e.map g fun i => (k i).supplied).before .nil := by
  have hm : ¬ (g e.label).isMissing = true := Bool.eq_false_iff.mp (Label.isMissing_of_ne h)
  obtain ⟨l, _ | inside⟩ := e
  · exact if_neg hm
  · exact if_neg fun hb => hm (Bool.and_eq_true_iff.mp hb).1

theorem pruned_before {parent : Option Text} (h : fate parent (g e.label).name = .kept) :
    ((e.map g k).before .nil).pruned parent =
      (e.map g fun i => (k i).pruned (some (g e.label).name)).before .nil := by
  obtain ⟨l, _ | inside⟩ := e
  · exact congrArg (Fate.apply (g l).trimmed (.empty (g l)) .nil) h
  · exact Fragment.pruned_element_of_kept (fun _ => h) .nil

theorem stripped_before :
    ((e.map g k).before .nil).stripped =
      (e.map (fun l => (g l).stripped) fun i => (k i).stripped).before .nil := by
  obtain ⟨l, _ | inside⟩ := e <;> rfl

theorem map_map (g' : Label → Label) (k' : Fragment → Fragment) :
    (e.map g k).map g' k' = e.map (fun l => g' (g l)) fun i => k' (k i) := by
  obtain ⟨l, _ | inside⟩ := e <;> rfl

theorem exists_written_before (name : Text) (inside : Option Fragment) :
    ∃ tail : Text, (∀ c ∈ tail.head?, c = '/' ∨ c = '>') ∧
      ∀ attributes, (before .nil ⟨⟨name, attributes⟩, inside⟩).written =
        '<' :: (name ++ (attributes ++ tail)) := by
  cases inside with
  | none =>
    refine ⟨['/', '>'], by simp, fun attributes => ?_⟩
    simp [before, Fragment.written, Label.emptyTag, Tag.written]
  | some inside =>
    refine ⟨'>' :: (inside.written ++ (Label.mk name []).endTag.written), by simp, fun attributes => ?_⟩
    simp [before, Fragment.written, Label.startTag, Label.endTag, Tag.written]

theorem written_map_eq_iff (k' : Fragment → Fragment) :
    ((e.map g k).before .nil).written = ((e.map g k').before .nil).written ↔
      ∀ inside ∈ e.inside, (k inside).written = (k' inside).written := by
  obtain ⟨l, _ | inside⟩ := e
  · simp [map]
  · simp [map, before, Fragment.written]

end Element

theorem localName_root (root : Root) : localName root.name = math := by
  unfold Root.name
  split_ifs
  · decide
  · exact localName_append _ (by decide)

/-- A tree whose root has the prefix `p`, or none if that is empty. -/
structure Element.IsRoot (p : Text) (e : Element) : Prop where
  wellFormed : (e.before .nil).WellFormed
  name : e.label.name = (Root.mk p []).name
  taken : ∀ k ∈ (e.before .nil).elements, takenFor mover k.label.name = true → k.label.name = mover

namespace Element.IsRoot

variable {e : Element} {p : Text} (h : e.IsRoot p) (hp : ∀ c ∈ p, isPrefixChar c = true)

include h

theorem localName_eq : localName e.label.name = math := by
  rw [h.name, localName_root]

theorem ne_of_localName {key : Text} (hk : localName key ≠ math) : e.label.name ≠ key := by
  rintro rfl
  exact hk h.localName_eq

theorem fate_eq : fate none e.label.name = .kept := by
  rw [fate_eq_kept_iff, isPrunable, h.localName_eq]
  decide

include hp

theorem declareNamespace_written :
    declareNamespace (e.before .nil).written = ((e.map (Label.bound p) id).before .nil).written := by
  obtain ⟨l, _ | inside⟩ := e
  · have hw := fun l => Fragment.written_empty_append l .nil []
    simp only [List.append_nil] at hw
    change declareNamespace (Fragment.empty l .nil).written = (Fragment.empty (l.bound p) .nil).written
    rw [hw, hw, h.wellFormed.1.declareNamespace_eq hp h.name .whole, Label.bound]
    split_ifs
    · rfl
    · simp only [Label.front, List.append_assoc]
  · have hw := fun l => Fragment.written_element_append l inside .nil []
    simp only [List.append_nil] at hw
    change declareNamespace (Fragment.element l inside .nil).written =
      (Fragment.element (l.bound p) inside .nil).written
    rw [hw, hw, h.wellFormed.1.declareNamespace_eq hp h.name .start, Label.bound]
    split_ifs <;> rfl

theorem cleanUp_written :
    cleanUp (e.before .nil).written =
      ((e.map (fun l => (l.bound p).stripped) fun inside =>
        (inside.accented.supplied.pruned (some e.label.name)).stripped).before .nil).written := by
  have hw : ((e.map (Label.bound p) id).before .nil).WellFormed := by
    have hw := h.wellFormed
    obtain ⟨l, _ | inside⟩ := e
    · exact ⟨hw.1.bound hp, trivial⟩
    · exact ⟨hw.1.bound hp, Label.getLast?_bound hw.2.1, hw.2.2⟩
  have hname : (e.label.bound p).name = e.label.name := e.label.name_bound p
  have ht : ∀ k ∈ ((e.map (Label.bound p) id).before .nil).elements,
      takenFor mover k.label.name = true → k.label.name = mover := by
    have ht := h.taken
    obtain ⟨l, _ | inside⟩ := e
    · exact List.forall_mem_singleton.mpr (hname ▸ List.forall_mem_singleton.mp ht)
    · obtain ⟨hl, ht⟩ := List.forall_mem_cons.mp ht
      exact List.forall_mem_cons.mpr ⟨hname ▸ hl, ht⟩
  have hmover : (e.label.bound p).name ≠ mover := hname ▸ h.ne_of_localName (by decide)
  have hnone : (e.label.bound p).name ≠ noneName := hname ▸ h.ne_of_localName (by decide)
  rw [hw.cleanUp_of_declareNamespace ht (h.declareNamespace_written hp),
    Element.accented_before _ _ hmover, Element.supplied_before _ _ hnone,
    Element.pruned_before _ _ (hname ▸ h.fate_eq), Element.stripped_before, hname]
  rfl

end Element.IsRoot

/-! ## With and without the prefix -/

theorem Fragment.stripped_prefixed (p : Text) (f : Fragment) :
    (f.prefixed p).stripped = f.stripped.prefixed p := by
  induction f with
  | nil => rfl
  | text t next ih => exact congrArg (text t) ih
  | empty l next ih => exact congrArg (empty (l.stripped.prefixed p)) ih
  | element l inside next ihi ihn => exact congrArg₂ (element (l.stripped.prefixed p)) ihi ihn

/-- A formula without prefixes. Its root does not declare the namespace. -/
structure Element.IsUnprefixed (e : Element) : Prop where
  wellFormed : (e.before .nil).WellFormed
  name : e.label.name = math
  -- A root that mentions the namespace gets no declaration, whether or not it declares anything.
  undeclared : e.label.declares = false ∨ ¬ (' ' :: (xmlns ++ ['='])) <+: e.label.stripped.attributes
  names : ∀ k ∈ (e.before .nil).elements, IsBareName k.label.name

/-- The text with the namespace declared for the prefix, if its root with that prefix declares it for
names without one. -/
def bindPrefix (p t : Text) : Text :=
  match after? ('<' :: (qualified p math ++ (binding []).written)) t with
  | some r => '<' :: (qualified p math ++ (binding p).written) ++ r
  | none => t

theorem bindPrefix_binding (p t : Text) :
    bindPrefix p ('<' :: (qualified p math ++ ((binding []).written ++ t))) =
      '<' :: (qualified p math ++ ((binding p).written ++ t)) := by
  have hafter : after? ('<' :: (qualified p math ++ (binding []).written))
      ('<' :: (qualified p math ++ ((binding []).written ++ t))) = some t :=
    after?_eq_some_iff.mpr (by simp)
  rw [bindPrefix, hafter]
  simp

theorem bindPrefix_of_not_prefix {t : Text} (ht : ¬ (' ' :: (xmlns ++ ['='])) <+: t) (p : Text) :
    bindPrefix p ('<' :: (qualified p math ++ t)) = '<' :: (qualified p math ++ t) := by
  have hnone : after? ('<' :: (qualified p math ++ (binding []).written))
      ('<' :: (qualified p math ++ t)) = none := by
    refine Option.eq_none_iff_forall_ne_some.mpr fun r hr => ht ?_
    have e : t = (binding []).written ++ r := by simpa using after?_eq_some_iff.mp hr
    exact ⟨'"' :: (mathNamespace ++ '"' :: r), by simp [e, binding, Attribute.written]⟩
  rw [bindPrefix, hnone]

theorem prefix_of_prefix_append {k a t : Text} (h : k <+: a ++ t) (ht : ∀ c ∈ t.head?, c ∉ k) :
    k <+: a := by
  obtain ⟨r, e⟩ := h
  rcases List.append_eq_append_iff.mp e with ⟨v, rfl, -⟩ | ⟨v, rfl, rfl⟩
  · exact List.prefix_append k v
  · cases v with
    | nil => simp
    | cons c v => exact absurd (List.mem_append_right a List.mem_cons_self) (ht c rfl)

theorem bindPrefix_written {e : Element} (h : e.label.name = math)
    (hu : e.label.declares = false ∨ ¬ (' ' :: (xmlns ++ ['='])) <+: e.label.stripped.attributes)
    {p : Text} (hp : ∀ c ∈ p, isPrefixChar c = true) (k : Fragment → Fragment) :
    bindPrefix p ((e.map (fun l => (l.bound []).stripped.prefixed p) k).before .nil).written =
      ((e.map (fun l => ((l.prefixed p).bound p).stripped) k).before .nil).written := by
  obtain ⟨tail, hhead, ht⟩ := Element.exists_written_before (qualified p math) (e.inside.map k)
  have hw : ∀ (g : Label → Label), (g e.label).name = qualified p math →
      ((e.map g k).before .nil).written =
        '<' :: (qualified p math ++ ((g e.label).attributes ++ tail)) := by
    intro g hg
    rw [← ht, ← hg]
    rfl
  have hname : qualified p (e.label.bound []).name = qualified p math := by rw [Label.name_bound, h]
  have hname' : ((e.label.prefixed p).bound p).name = qualified p math := by
    rw [Label.name_bound, Label.prefixed, h]
  have hleft : ((e.label.bound []).stripped.prefixed p).attributes =
      (if e.label.declares then [] else (binding []).written) ++ e.label.stripped.attributes :=
    Label.attributes_stripped_bound (by simp) e.label
  have hright : ((e.label.prefixed p).bound p).stripped.attributes =
      (if e.label.declares then [] else (binding p).written) ++ e.label.stripped.attributes :=
    Label.attributes_stripped_bound hp (e.label.prefixed p)
  rw [hw _ hname, hw _ hname', hleft, hright]
  split_ifs
  · refine bindPrefix_of_not_prefix (fun hx => ?_) p
    rw [List.nil_append] at hx
    have hmem : '/' ∉ ' ' :: (xmlns ++ ['=']) ∧ '>' ∉ ' ' :: (xmlns ++ ['=']) := by decide
    refine hu.resolve_left (by simp [*]) (prefix_of_prefix_append hx fun c hc => ?_)
    rcases hhead c hc with rfl | rfl
    · exact hmem.1
    · exact hmem.2
  · rw [List.append_assoc, List.append_assoc]
    exact bindPrefix_binding p _

namespace Element.IsUnprefixed

variable {e : Element} (h : e.IsUnprefixed) {p : Text} (hp : IsNamespacePrefix p)

include h

theorem isRoot : e.IsRoot [] :=
  ⟨h.wellFormed, h.name, fun k hk => (h.names k hk).mover⟩

theorem slips_eq_zero_iff :
    (e.before .nil).slips none = 0 ↔ ∀ inside ∈ e.inside, inside.slips (some math) = 0 := by
  have hname := h.name
  have hkept : (fate none math).fillers = 0 := by decide
  have hmissing : e.label.isMissing = false := Label.isMissing_of_ne (h.isRoot.ne_of_localName (by decide))
  have hmover : e.label.name ≠ mover := h.isRoot.ne_of_localName (by decide)
  obtain ⟨l, _ | inside⟩ := e
  · obtain hmissing : l.isMissing = false := hmissing
    rw [before, Fragment.slips_empty, hmissing, show l.name = math from hname, hkept]
    simp [Fragment.slips_nil]
  · have hm : ¬ (l.isMissing && inside.isBlank) = true := by simp [show l.isMissing = false from hmissing]
    rw [before, Fragment.slips_element_of_not_missing hm, l.awaitsMark_of_ne hmover,
      show l.name = math from hname, hkept]
    simp [Fragment.slips_nil]

include hp

theorem isRoot_prefixed : (e.map (·.prefixed p) (·.prefixed p)).IsRoot p where
  wellFormed := by
    rw [← Element.prefixed_before]
    exact h.wellFormed.prefixed hp
  name := by
    have hne : p ≠ [] := by
      rintro rfl
      exact absurd hp.letter (by decide)
    have hq : qualified p e.label.name = (Root.mk p []).name := by
      rw [h.name, Root.name, if_neg hne, qualified]
    exact hq
  taken := by
    intro k hk ht
    rw [← Element.prefixed_before] at hk
    obtain ⟨name, hn⟩ := Fragment.exists_qualified p _ k hk
    rw [hn, takenFor_qualified hp.mover] at ht
    cases ht

theorem cleanUp_addPrefix :
    cleanUp (addPrefix p (e.before .nil).written) =
      ((e.map (fun l => ((l.prefixed p).bound p).stripped) fun inside =>
        ((inside.prefixed p).pruned (some (qualified p math))).stripped).before .nil).written := by
  have hpass : ∀ f : Fragment, (f.prefixed p).accented.supplied = f.prefixed p := by
    intro f
    have hq := Fragment.exists_qualified p f
    rw [Fragment.accented_of_qualified hq, Fragment.supplied_of_qualified hq]
  have hname : (e.map (·.prefixed p) (·.prefixed p)).label.name = qualified p math :=
    congrArg (qualified p) h.name
  rw [h.wellFormed.legible.addPrefix_written, Element.prefixed_before,
    (h.isRoot_prefixed hp).cleanUp_written hp.chars, hname, Element.map_map]
  simp only [hpass]

theorem bindPrefix_addPrefix_cleanUp :
    bindPrefix p (addPrefix p (cleanUp (e.before .nil).written)) =
      ((e.map (fun l => ((l.prefixed p).bound p).stripped) fun inside =>
        ((inside.accented.supplied.pruned (some math)).stripped.prefixed p)).before .nil).written := by
  have hnil : ∀ c ∈ ([] : Text), isPrefixChar c = true := by simp
  have hlegible : ((e.map (fun l => (l.bound []).stripped) fun inside =>
      (inside.accented.supplied.pruned (some math)).stripped).before .nil).Legible := by
    have hw := h.wellFormed
    obtain ⟨l, _ | inside⟩ := e
    · exact ⟨(hw.1.bound hnil).legible.stripped, trivial⟩
    · obtain ⟨hl, -, hi, -⟩ := hw
      exact ⟨(hl.bound hnil).legible.stripped, (hi.accented.supplied.legible_pruned _).stripped, trivial⟩
  rw [h.isRoot.cleanUp_written hnil, h.name, hlegible.addPrefix_written, Element.prefixed_before,
    Element.map_map, bindPrefix_written h.name h.undeclared hp.chars]

end Element.IsUnprefixed

/-- A formula is cleaned up with a prefix as it is without one exactly if no accent in it awaits its
mark, no argument is missing, and the pruning puts no filler in. -/
theorem cleanUp_addPrefix_eq_iff {p : Text} (hp : IsNamespacePrefix p) {e : Element}
    (h : e.IsUnprefixed) :
    cleanUp (addPrefix p (e.before .nil).written) =
        bindPrefix p (addPrefix p (cleanUp (e.before .nil).written)) ↔
      (∀ k ∈ (e.before .nil).elements, k.awaitsMark = false ∧ k.isMissing = false) ∧
        (e.before .nil).fillers none = 0 := by
  have hcolon : ∀ inside ∈ e.inside, ∀ k ∈ inside.elements, ':' ∉ k.label.name := by
    intro inside hi k hk
    obtain ⟨l, _⟩ := e
    obtain rfl := hi
    exact (h.names k (List.mem_cons_of_mem _ (List.mem_append_left _ hk))).colon
  have hparent : ∀ q ∈ some math, ':' ∉ q := by
    rintro _ ⟨⟩
    decide
  rw [h.cleanUp_addPrefix hp, h.bindPrefix_addPrefix_cleanUp hp, Element.written_map_eq_iff,
    ← Fragment.slips_eq_zero_iff, h.slips_eq_zero_iff]
  refine forall₂_congr fun inside hi => ?_
  rw [← Fragment.stripped_prefixed]
  exact (Fragment.apart_pruned (hcolon inside hi) hparent).stripped.written_eq_iff

/-- A dot on an accent is not found with the prefix `m`. -/
theorem cleanUp_addPrefix_ne_of_dot :
    let accent : Fragment := .element ⟨mover, []⟩ (.element ⟨"mi".toList, []⟩ (.text ['x'] .nil)
      (.element ⟨"mo".toList, []⟩ (.text ['˙'] .nil) .nil)) .nil
    let e : Element := ⟨⟨math, []⟩, some accent⟩
    IsNamespacePrefix ['m'] ∧ e.IsUnprefixed ∧
      cleanUp (addPrefix ['m'] (e.before .nil).written) ≠
        bindPrefix ['m'] (addPrefix ['m'] (cleanUp (e.before .nil).written)) := by
  intro accent e
  have hp : IsNamespacePrefix ['m'] := by decide
  have h : e.IsUnprefixed := ⟨by decide, rfl, .inl (by decide), by decide⟩
  refine ⟨hp, h, ?_⟩
  rw [Ne, cleanUp_addPrefix_eq_iff hp h]
  decide

end Formula.Markup
