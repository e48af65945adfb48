import Formula.Markup.Root
import Formula.Proofs.Markup.Scanning

/-! # Declaring the namespace in a tree

The first root is looked for among the elements in the order of their start tags. When it declares its
namespace, nothing is left to do; so it is enough to do this once.
-/

namespace Formula.Markup

open Text

def namespaceAttribute : Attribute := ⟨xmlns, mathNamespace⟩

theorem regular_namespaceAttribute : namespaceAttribute.Regular := by
  decide

namespace Label

def declares (l : Label) : Bool :=
  occurs xmlns l.attributes

def declared (l : Label) : Label :=
  if l.declares then l else l.front namespaceAttribute

theorem declares_declared (l : Label) : l.declared.declares = true := by
  unfold declared
  split_ifs with h
  · exact h
  · rw [declares, occurs_iff]
    exact ⟨[' '], '=' :: '"' :: (mathNamespace ++ ['"']) ++ l.attributes, by
      simp [front, Attribute.written, namespaceAttribute]⟩

@[simp] theorem name_declared (l : Label) : l.declared.name = l.name := by
  unfold declared
  split_ifs <;> rfl

theorem Regular.declared {l : Label} (h : l.Regular) : l.declared.Regular := by
  unfold Label.declared
  split_ifs
  · exact h
  · exact h.front regular_namespaceAttribute

end Label

namespace Fragment

def declared : Fragment → Fragment
  | nil => nil
  | text t next => text t next.declared
  | empty l next => if l.name = math then empty l.declared next else empty l next.declared
  | element l inside next =>
    if l.name = math then element l.declared inside next
    else if inside.firstRoot?.isSome then element l inside.declared next
    else element l inside next.declared

end Fragment

/-! ## What is found at a tag -/

theorem root?_of_ne {c : Char} (hc : c ≠ '<') (r : Text) : root? (c :: r) = none := by
  simp [root?, hc]

theorem scans_declareNamespace : Scans declareNamespace where
  nil := rfl
  opens r := by
    rw [declareNamespace]
    split
    · split_ifs <;> rfl
    · rfl
  char hc r := by rw [declareNamespace, root?_of_ne hc]
  ends r := by
    have h : root? ('<' :: '/' :: r) = none := by
      have hs : isPrefixChar '/' = false := by decide
      simp [root?, rootName?, nsPrefix?, hs, afterMath?, after?, math]
    rw [declareNamespace, h]

theorem isNameChar_of_isPrefixChar {c : Char} (h : isPrefixChar c = true) : isNameChar c = true := by
  simp only [isPrefixChar, Bool.or_eq_true] at h
  simp only [isNameChar, Bool.or_eq_true]
  exact h.imp (Or.imp .inl id) id

def binding (p : Text) : Attribute :=
  ⟨xmlns ++ (if p = [] then [] else ':' :: p), mathNamespace⟩

theorem isPlain_of_isNameChar {c : Char} (h : isNameChar c = true) : isPlain c = true := by
  have hn : isNameChar '"' = false ∧ isNameChar '\'' = false ∧ isNameChar '=' = false := by decide
  simp only [isPlain, Bool.and_eq_true, Bool.not_eq_true', bne_iff_ne]
  refine ⟨⟨⟨isAngle_of_isNameChar h, ?_⟩, ?_⟩, ?_⟩ <;>
  · rintro rfl
    simp [hn] at h

theorem isNameChar_binding {p : Text} (hp : ∀ c ∈ p, isPrefixChar c = true) :
    ∀ c ∈ (binding p).name, isNameChar c = true := by
  have hx : (xmlns.all isNameChar) = true := by decide
  refine List.forall_mem_append.mpr ⟨List.all_eq_true.mp hx, ?_⟩
  split_ifs
  · simp
  · exact List.forall_mem_cons.mpr ⟨by decide, fun c hc => isNameChar_of_isPrefixChar (hp c hc)⟩

theorem regular_binding {p : Text} (hp : ∀ c ∈ p, isPrefixChar c = true) : (binding p).Regular where
  name_ne := List.append_ne_nil_of_left_ne_nil (by decide) _
  name c hc := ⟨isPlain_of_isNameChar (isNameChar_binding hp c hc),
    isBlank_of_isNameChar (isNameChar_binding hp c hc)⟩
  value := regular_namespaceAttribute.value
  undeclared := regular_namespaceAttribute.undeclared

theorem Root.declaration_eq (root : Root) : root.declaration = (binding root.nsPrefix).written := by
  simp [declaration, binding, Attribute.written]

theorem nsPrefix?_append {p : Text} (hp : ∀ c ∈ p, isPrefixChar c = true) (hne : p ≠ []) (t : Text) :
    nsPrefix? (p ++ ':' :: t) = some (p, t) := by
  have hcolon : isPrefixChar ':' = false := by decide
  obtain ⟨c, q, e⟩ := List.exists_cons_of_ne_nil hne
  rw [nsPrefix?, List.takeWhile_append_of_pos hp, List.dropWhile_append_of_pos hp, e]
  simp [hcolon]

theorem nsPrefix?_eq_none {u t : Text} (hu : ∀ c ∈ u, isPrefixChar c = true)
    (ht : ∀ c ∈ t.head?, isNameChar c = false) : nsPrefix? (u ++ t) = none := by
  rw [nsPrefix?, List.dropWhile_append_of_pos hu]
  cases t with
  | nil =>
    split
    · simp_all
    · rfl
  | cons c r =>
    have hc := ht c rfl
    simp only [isNameChar, Bool.or_eq_false_iff] at hc
    rw [List.dropWhile_cons_of_neg (by simp [isPrefixChar, hc])]
    split
    · simp_all
    · rfl

theorem eq_append_of_nsPrefix? {t p r : Text} (h : nsPrefix? t = some (p, r)) :
    p ≠ [] ∧ (∀ c ∈ p, isPrefixChar c = true) ∧ t = p ++ ':' :: r := by
  simp only [nsPrefix?] at h
  split at h
  · next c q r' hp hr =>
    obtain ⟨rfl, rfl⟩ := Prod.mk.inj (Option.some.inj h)
    refine ⟨by simp, fun d hd => List.mem_takeWhile_imp (hp ▸ hd), ?_⟩
    rw [← hp, ← hr, List.takeWhile_append_dropWhile]
  · cases h

theorem afterMath?_eq_some_iff {t r : Text} :
    afterMath? t = some r ↔ t = math ++ r ∧ endsWord r = true := by
  rw [afterMath?, Option.filter_eq_some_iff, after?_eq_some_iff]

theorem eq_append_of_rootName? {t p r : Text} (h : rootName? t = some (p, r)) (attributes : Text) :
    (∀ c ∈ p, isPrefixChar c = true) ∧ endsWord r = true ∧ t = (Root.mk p attributes).name ++ r := by
  simp only [rootName?, Option.bind_eq_bind, Option.orElse_eq_orElse, Option.orElse_eq_or,
    Option.or_eq_some_iff, Option.bind_eq_some_iff, Option.map_eq_some_iff, Prod.mk.injEq,
    Prod.exists] at h
  rcases h with ⟨q, r', hq, r'', hr, h⟩ | ⟨-, r'', hr, rfl, rfl⟩
  · obtain ⟨rfl, rfl⟩ := Prod.mk.inj (Option.some.inj h)
    obtain ⟨hne, hchar, rfl⟩ := eq_append_of_nsPrefix? hq
    obtain ⟨rfl, hends⟩ := afterMath?_eq_some_iff.mp hr
    refine ⟨hchar, hends, ?_⟩
    rw [Root.name, if_neg hne, List.append_assoc, List.cons_append]
  · obtain ⟨rfl, hends⟩ := afterMath?_eq_some_iff.mp hr
    exact ⟨by simp, hends, rfl⟩

theorem eq_append_of_root? {t rest : Text} {root : Root} (h : root? t = some (root, rest)) :
    (∀ c ∈ root.nsPrefix, isPrefixChar c = true) ∧ (∀ c ∈ root.attributes, isAngle c = false) ∧
      endsWord (root.attributes ++ '>' :: rest) = true ∧ t = root.written ++ rest := by
  match t with
  | [] => cases h
  | c :: r =>
    simp only [root?, Option.bind_eq_bind] at h
    split at h
    · next hc =>
      simp only [Option.bind_eq_some_iff, Prod.exists] at h
      obtain ⟨p, r', hn, attributes, rest', hb, h⟩ := h
      obtain ⟨rfl, rfl⟩ := Prod.mk.inj (Option.some.inj h)
      obtain ⟨hp, hends, rfl⟩ := eq_append_of_rootName? hn attributes
      rw [eq_append_of_tagBody? hb] at hends ⊢
      refine ⟨hp, isAngle_of_tagBody? hb, hends, ?_⟩
      rw [hc]
      simp [Root.written]
    · cases h

namespace Root

theorem written_append (root : Root) (rest : Text) :
    root.written ++ rest = '<' :: (root.name ++ (root.attributes ++ '>' :: rest)) := by
  simp [written]

variable {root : Root} (hp : ∀ c ∈ root.nsPrefix, isPrefixChar c = true)

include hp

theorem isNameChar_name : ∀ c ∈ root.name, isNameChar c = true := by
  have hm : math.all isNameChar = true := by decide
  rw [List.all_eq_true] at hm
  unfold name
  split_ifs
  · exact hm
  · exact List.forall_mem_append.mpr ⟨fun c hc => isNameChar_of_isPrefixChar (hp c hc),
      List.forall_mem_cons.mpr ⟨by decide, hm⟩⟩

theorem rootName?_name {t : Text} (ht : ∀ c ∈ t.head?, isNameChar c = false) :
    rootName? (root.name ++ t) = some (root.nsPrefix, t) := by
  have hm : afterMath? (math ++ t) = some t :=
    afterMath?_eq_some_iff.mpr ⟨rfl, endsWord_of_not_isNameChar ht⟩
  unfold name
  split_ifs with he
  · have hmath : math.all isPrefixChar = true := by decide
    rw [rootName?, nsPrefix?_eq_none (List.all_eq_true.mp hmath) ht, hm, he]
    rfl
  · rw [List.append_assoc, List.cons_append, rootName?, nsPrefix?_append hp he]
    simp [hm]

theorem root?_written (ha : ∀ c ∈ root.attributes, isAngle c = false)
    {rest : Text}
    (hh : ∀ c ∈ (root.attributes ++ '>' :: rest).head?, isNameChar c = false) :
    root? (root.written ++ rest) = some (root, rest) := by
  rw [written_append, root?, if_pos rfl, rootName?_name hp hh]
  simp [tagBody?_append ha]

theorem declareNamespace_written (ha : ∀ c ∈ root.attributes, isAngle c = false)
    {rest : Text}
    (hh : ∀ c ∈ (root.attributes ++ '>' :: rest).head?, isNameChar c = false) :
    declareNamespace (root.written ++ rest) =
      (if root.isDeclared then root else root.declare).written ++ rest := by
  have hr := root?_written hp ha hh
  obtain ⟨r, e⟩ : ∃ r, root.written ++ rest = '<' :: r := ⟨_, root.written_append rest⟩
  rw [e] at hr
  rw [e, declareNamespace, hr]
  dsimp only
  split_ifs
  · exact e.symm
  · rfl

end Root

/-- The slash of an element that is closed by its own tag declares nothing. -/
theorem Label.Body.isDeclared_eq {l : Label} {body : Text} (hb : l.Body body) :
    (Root.mk [] body).isDeclared = l.declares := by
  cases hb with
  | start => rfl
  | whole =>
    have hx : xmlns ≠ [] ∧ '/' ∉ xmlns := by decide
    rw [Root.isDeclared, Label.declares, Bool.eq_iff_iff, occurs_iff, occurs_iff,
      infix_append_cons_iff hx.2, List.infix_nil]
    simp [hx.1]

namespace Label.Regular

variable {l : Label} (h : l.Regular) {body : Text}

include h

theorem nsPrefix?_eq (hb : l.Body body) (rest : Text) :
    nsPrefix? (l.name ++ (body ++ '>' :: rest)) = none :=
  nsPrefix?_eq_none (fun c hc => by simp [isPrefixChar, isWord_of_isAlpha (h.name c hc)])
    (h.wellFormed.isNameChar_body hb rest)

theorem root?_eq (hb : l.Body body) (rest : Text) :
    root? ('<' :: (l.name ++ (body ++ '>' :: rest))) =
      if l.name = math then some (⟨[], body⟩, rest) else none := by
  have hm : afterMath? (l.name ++ (body ++ '>' :: rest)) =
      if l.name = math then some (body ++ '>' :: rest) else none :=
    after?_filter_endsWord (by decide) (eq_of_takenFor h.name) (h.wellFormed.endsWord_body hb rest)
  rw [root?, if_pos rfl, rootName?, h.nsPrefix?_eq hb, hm]
  split_ifs
  · simp [tagBody?_append (h.wellFormed.isAngle_body hb)]
  · rfl

theorem declareNamespace_of_ne (hb : l.Body body) (hne : l.name ≠ math) (rest : Text) :
    declareNamespace ('<' :: (l.name ++ (body ++ '>' :: rest))) =
      '<' :: (l.name ++ (body ++ '>' :: declareNamespace rest)) := by
  refine scans_declareNamespace.tag h.wellFormed hb ?_
  rw [declareNamespace, h.root?_eq hb, if_neg hne]

/-- A root gets a declaration in front of its attributes, and what follows it is not looked at. -/
theorem declareNamespace_of_eq (hb : l.Body body) (he : l.name = math) (rest : Text) :
    declareNamespace ('<' :: (l.name ++ (body ++ '>' :: rest))) =
      '<' :: (l.name ++ ((if l.declares then [] else namespaceAttribute.written) ++
        (body ++ '>' :: rest))) := by
  have hd : (Root.mk [] body).declare.written =
      '<' :: math ++ (namespaceAttribute.written ++ body) ++ ['>'] := by
    simp [Root.declare, Root.written, Root.name, Root.declaration, namespaceAttribute,
      Attribute.written]
  rw [declareNamespace, h.root?_eq hb, if_pos he]
  dsimp only
  rw [hb.isDeclared_eq, hd, he]
  split_ifs
  · rfl
  · simp only [List.append_assoc, List.cons_append, List.nil_append]

end Label.Regular

theorem Label.attributes_declared (l : Label) : l.declared.attributes =
    (if l.declares then [] else namespaceAttribute.written) ++ l.attributes := by
  unfold declared
  split_ifs <;> rfl

namespace Fragment

/-- Up to the first root the text is copied, and what follows that is kept. -/
theorem Regular.declareNamespace_append {f : Fragment} (hf : f.Regular) (rest : Text) :
    declareNamespace (f.written ++ rest) =
      if f.firstRoot?.isSome then f.declared.written ++ rest
      else f.written ++ declareNamespace rest := by
  induction f generalizing rest with
  | nil => rfl
  | text t next ih =>
    rw [written, List.append_assoc, scans_declareNamespace.append_plain hf.1, ih hf.2.2]
    simp only [firstRoot?, declared, written, List.append_assoc]
    split_ifs <;> rfl
  | empty l next ih =>
    obtain ⟨hl, hn⟩ := hf
    rw [written_empty_append, firstRoot?, declared]
    by_cases he : l.name = math
    · rw [hl.declareNamespace_of_eq .whole he, if_pos he, if_pos he, Option.isSome_some, if_pos rfl,
        written_empty_append, l.name_declared, l.attributes_declared]
      simp only [List.append_assoc]
    · rw [hl.declareNamespace_of_ne .whole he, ih hn, if_neg he, if_neg he]
      split_ifs <;> rw [written_empty_append]
  | element l inside next ihi ihn =>
    obtain ⟨hl, -, hi, hn⟩ := hf
    rw [written_element_append, firstRoot?, declared]
    by_cases he : l.name = math
    · rw [hl.declareNamespace_of_eq .start he, if_pos he, if_pos he, Option.isSome_some, if_pos rfl,
        written_element_append, l.name_declared, l.attributes_declared,
        Label.endTag_congr l.name_declared]
      simp only [List.append_assoc]
    · rw [hl.declareNamespace_of_ne .start he, ihi hi, if_neg he, if_neg he]
      cases hr : inside.firstRoot? with
      | some r =>
        rw [Option.isSome_some, if_pos rfl, if_pos rfl, Option.some_or, Option.isSome_some, if_pos rfl,
          written_element_append]
      | none =>
        rw [Option.isSome_none, Option.none_or, if_neg Bool.false_ne_true, if_neg Bool.false_ne_true,
          scans_declareNamespace.endTag hl.wellFormed.name, ihn hn]
        split_ifs <;> rw [written_element_append]

theorem declared_of_none {f : Fragment} (h : f.firstRoot? = none) : f.declared = f := by
  induction f with
  | nil => rfl
  | text t next ih => rw [declared, ih h]
  | empty l next ih =>
    rw [firstRoot?] at h
    split_ifs at h with he
    rw [declared, if_neg he, ih h]
  | element l inside next _ ihn =>
    rw [firstRoot?] at h
    split_ifs at h with he
    obtain ⟨hi, hn⟩ := Option.or_eq_none_iff.mp h
    rw [declared, if_neg he, hi, ihn hn]
    rfl

/-- On regular markup the namespace is declared in the tree. -/
theorem Regular.declareNamespace_written {f : Fragment} (hf : f.Regular) :
    declareNamespace f.written = f.declared.written := by
  have h := hf.declareNamespace_append []
  rw [List.append_nil] at h
  rw [h]
  split_ifs with hs
  · rw [List.append_nil]
  · rw [declared_of_none (by simpa using hs), declareNamespace, List.append_nil]

/-! ## The tree after the pass -/

theorem declared_of_declares {f : Fragment} (h : ∀ l ∈ f.firstRoot?, l.declares = true) :
    f.declared = f := by
  have hl : ∀ l : Label, l.declares = true → l.declared = l := fun l h => by
    rw [Label.declared, if_pos h]
  induction f with
  | nil => rfl
  | text t next ih => rw [declared, ih h]
  | empty l next ih =>
    rw [firstRoot?] at h
    rw [declared]
    split_ifs at h ⊢
    · rw [hl l (h l rfl)]
    · rw [ih h]
  | element l inside next ihi ihn =>
    rw [firstRoot?] at h
    rw [declared]
    split_ifs at h ⊢ with _ hi
    · rw [hl l (h l rfl)]
    · obtain ⟨r, hr⟩ := Option.isSome_iff_exists.mp hi
      rw [hr, Option.some_or] at h
      rw [ihi (hr ▸ h)]
    · rw [Option.not_isSome_iff_eq_none.mp hi, Option.none_or] at h
      rw [ihn h]

theorem firstRoot?_declared (f : Fragment) :
    f.declared.firstRoot? = f.firstRoot?.map Label.declared := by
  induction f with
  | nil => rfl
  | text t next ih => exact ih
  | empty l next ih =>
    rw [declared, firstRoot?]
    split_ifs with he
    · rw [firstRoot?, l.name_declared, if_pos he, Option.map_some]
    · rw [firstRoot?, if_neg he, ih]
  | element l inside next ihi ihn =>
    rw [declared, firstRoot?]
    split_ifs with he hi
    · rw [firstRoot?, l.name_declared, if_pos he, Option.map_some]
    · obtain ⟨r, hr⟩ := Option.isSome_iff_exists.mp hi
      rw [firstRoot?, if_neg he, ihi, hr, Option.map_some, Option.some_or, Option.some_or,
        Option.map_some]
    · rw [firstRoot?, if_neg he, ihn, Option.not_isSome_iff_eq_none.mp hi, Option.none_or,
        Option.none_or]

theorem isBlank_declared (f : Fragment) : f.declared.isBlank = f.isBlank := by
  induction f with
  | nil => rfl
  | text t next ih => rw [declared, isBlank, isBlank, ih]
  | empty l next _ => rw [declared]; split_ifs <;> rfl
  | element l inside next _ _ => rw [declared]; split_ifs <;> rfl

theorem nones_declared (f : Fragment) : f.declared.nones = f.nones := by
  have hne : math ≠ noneName := by decide
  induction f with
  | nil => rfl
  | text t next ih => exact ih
  | empty l next ih =>
    rw [declared]
    split_ifs with he
    · simp [nones, he, hne]
    · rw [nones, nones, ih]
  | element l inside next ihi ihn =>
    rw [declared]
    split_ifs with he hi
    · simp [nones, he, hne]
    · rw [nones, nones, ihi, isBlank_declared]
    · rw [nones, nones, ihn]

theorem isText_declared {f : Fragment} (h : f.IsText) : f.declared.IsText := by
  rwa [declared_of_none h.firstRoot?_eq]

theorem Regular.declared {f : Fragment} (hf : f.Regular) : f.declared.Regular := by
  induction f with
  | nil => trivial
  | text t next ih => exact ⟨hf.1, hf.2.1, ih hf.2.2⟩
  | empty l next ih =>
    rw [Fragment.declared]
    split_ifs
    · exact ⟨hf.1.declared, hf.2⟩
    · exact ⟨hf.1, ih hf.2⟩
  | element l inside next ihi ihn =>
    obtain ⟨hl, ht, hi, hn⟩ := hf
    rw [Fragment.declared]
    split_ifs
    · exact ⟨hl.declared, fun h => ht (l.name_declared ▸ h), hi, hn⟩
    · exact ⟨hl, fun h => isText_declared (ht h), ihi hi, hn⟩
    · exact ⟨hl, ht, hi, ihn hn⟩

theorem IsTree.declared {f : Fragment} (hf : f.IsTree) : f.declared.IsTree := by
  rcases hf with ⟨l, rfl⟩ | ⟨l, inside, rfl⟩
  · rw [Fragment.declared]
    split_ifs
    · exact .inl ⟨_, rfl⟩
    · exact .inl ⟨_, rfl⟩
  · rw [Fragment.declared]
    split_ifs
    · exact .inr ⟨_, _, rfl⟩
    · exact .inr ⟨_, _, rfl⟩
    · exact .inr ⟨_, _, rfl⟩

end Fragment

end Formula.Markup
