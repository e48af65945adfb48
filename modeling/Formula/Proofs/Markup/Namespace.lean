import Formula.Proofs.Markup.Declaring
import Formula.Proofs.Markup.Fronts

/-! # The namespace of the root

The root of any markup is its first start tag of the local name `math`, with whatever attributes and text
around it. It is given a declaration of its namespace, unless its attributes mention `xmlns`. That is not
the same as declaring the namespace: the mention may belong to another prefix or stand in a value. And a
tag in front of the root is taken for it if its name goes on behind the word `math`, as `math-x` does.
-/

namespace Formula.Markup

open Text

/-- An attribute behind some blanks, with its value in quotes of either kind. -/
structure QuotedAttribute where
  lead : Text
  name : Text
  before : Text
  behind : Text
  quote : Char
  value : Text
  deriving DecidableEq, Repr

namespace QuotedAttribute

def written (a : QuotedAttribute) : Text :=
  a.lead ++ (a.name ++ (a.before ++ '=' :: (a.behind ++ a.quote :: (a.value ++ [a.quote]))))

/-- A closing bracket may stand in the value. -/
structure WellFormed (a : QuotedAttribute) : Prop where
  lead_ne : a.lead ≠ []
  lead : ∀ c ∈ a.lead, isBlank c = true
  name_ne : a.name ≠ []
  name : ∀ c ∈ a.name, isPlain c = true ∧ c ≠ '/' ∧ isBlank c = false
  before : ∀ c ∈ a.before, isBlank c = true
  behind : ∀ c ∈ a.behind, isBlank c = true
  quote : a.quote = '"' ∨ a.quote = '\''
  value : a.quote ∉ a.value ∧ '<' ∉ a.value

instance : DecidablePred WellFormed := fun a =>
  decidable_of_iff
    (a.lead ≠ [] ∧ allBlank a.lead = true ∧ a.name ≠ [] ∧
      (a.name.all fun c => isPlain c && c != '/' && !isBlank c) = true ∧
      allBlank a.before = true ∧ allBlank a.behind = true ∧
      (a.quote = '"' ∨ a.quote = '\'') ∧ a.quote ∉ a.value ∧ '<' ∉ a.value)
    ⟨fun ⟨h₁, h₂, h₃, h₄, h₅, h₆, h₇, h₈⟩ =>
      ⟨h₁, List.all_eq_true.mp h₂, h₃, by simpa [and_assoc] using h₄, List.all_eq_true.mp h₅,
        List.all_eq_true.mp h₆, h₇, h₈⟩,
      fun h => ⟨h.lead_ne, List.all_eq_true.mpr h.lead, h.name_ne, by simpa [and_assoc] using h.name,
        List.all_eq_true.mpr h.before, List.all_eq_true.mpr h.behind, h.quote, h.value⟩⟩

end QuotedAttribute

/-- A start tag of the local name `math` with its attributes told apart. It may close its own element. -/
structure RootTag where
  nsPrefix : Text
  attributes : List QuotedAttribute
  trail : Text
  closed : Bool
  deriving DecidableEq, Repr

def rootName (p : Text) : Text :=
  (Root.mk p []).name

namespace RootTag

def body (r : RootTag) : Text :=
  r.attributes.flatMap QuotedAttribute.written ++ (r.trail ++ (if r.closed then ['/'] else []))

def written (r : RootTag) : Text :=
  '<' :: (rootName r.nsPrefix ++ (r.body ++ ['>']))

structure WellFormed (r : RootTag) : Prop where
  nsPrefix : ∀ c ∈ r.nsPrefix, isPrefixChar c = true
  attributes : ∀ a ∈ r.attributes, a.WellFormed
  trail : ∀ c ∈ r.trail, isBlank c = true

instance : DecidablePred WellFormed := fun r =>
  decidable_of_iff
    (r.nsPrefix.all isPrefixChar = true ∧ (∀ a ∈ r.attributes, a.WellFormed) ∧ allBlank r.trail = true)
    ⟨fun ⟨h₁, h₂, h₃⟩ => ⟨List.all_eq_true.mp h₁, h₂, List.all_eq_true.mp h₃⟩,
      fun h => ⟨List.all_eq_true.mpr h.nsPrefix, h.attributes, List.all_eq_true.mpr h.trail⟩⟩

/-- An attribute is named `xmlns`, or `xmlns:` with the prefix of the root. -/
def Declares (r : RootTag) : Prop :=
  ∃ a ∈ r.attributes, a.name = (binding r.nsPrefix).name

instance (r : RootTag) : Decidable r.Declares :=
  inferInstanceAs (Decidable (∃ a ∈ r.attributes, a.name = (binding r.nsPrefix).name))

/-- The text of the attributes has `xmlns` in it, up to the first closing bracket in a value. -/
def Mentions (r : RootTag) : Prop :=
  xmlns <:+: r.body.takeWhile (· ≠ '>')

def declaration (p : Text) : QuotedAttribute :=
  ⟨[' '], (binding p).name, [], [], '"', (binding p).value⟩

def declare (r : RootTag) : RootTag :=
  { r with attributes := declaration r.nsPrefix :: r.attributes }

end RootTag

/-- The text begins with a start tag of the local name `math`, whatever its attributes are. The name goes
on as long as there are characters of a name. -/
def OpensRoot (inName : Char → Bool) (t : Text) : Prop :=
  ∃ p body rest, t = '<' :: (rootName p ++ (body ++ '>' :: rest)) ∧ (∀ c ∈ p, isPrefixChar c = true) ∧
    (∀ c ∈ body, isAngle c = false) ∧ ∀ c ∈ body.head?, inName c = false

/-- The tag is the first start tag of the local name `math` in the text. -/
structure FirstRoot (t before : Text) (r : RootTag) (after : Text) : Prop where
  text : t = before ++ (r.written ++ after)
  wellFormed : r.WellFormed
  first : ∀ v, v <:+ before → ¬ OpensRoot isNameChar v

/-! ## The tag and what is read of it -/

theorem forall_mem_head?_append {p : Char → Prop} {u v : Text} (hu : ∀ c ∈ u.head?, p c)
    (hv : ∀ c ∈ v.head?, p c) : ∀ c ∈ (u ++ v).head?, p c := by
  cases u with
  | nil => exact hv
  | cons c u => exact hu

namespace QuotedAttribute.WellFormed

variable {a : QuotedAttribute} (h : a.WellFormed)

include h

theorem bracket_written : '<' ∉ a.written := by
  have hb : ∀ {t : Text}, (∀ c ∈ t, isBlank c = true) → '<' ∉ t := fun ht hm =>
    absurd (ht _ hm) (by decide)
  have hq : '<' ≠ a.quote := by rcases h.quote with e | e <;> rw [e] <;> decide
  have hn : '<' ∉ a.name := fun hm => absurd (h.name _ hm).1 (by decide)
  simp [written, hb h.lead, hb h.before, hb h.behind, hn, hq, h.value.2]

theorem isNameChar_head : ∀ c ∈ a.written.head?, isNameChar c = false := by
  obtain ⟨c, r, e⟩ := List.exists_cons_of_ne_nil h.lead_ne
  have hn := isNameChar_of_isBlank (h.lead c (by simp [e]))
  simpa [written, e] using hn

end QuotedAttribute.WellFormed

theorem exists_cut (t after : Text) :
    ∃ rest, t ++ '>' :: after = t.takeWhile (· ≠ '>') ++ '>' :: rest := by
  induction t with
  | nil => exact ⟨after, rfl⟩
  | cons c t ih =>
    by_cases hc : c = '>'
    · exact ⟨t ++ '>' :: after, by simp [hc]⟩
    · obtain ⟨rest, e⟩ := ih
      exact ⟨rest, by simp [hc, e]⟩

theorem isAngle_takeWhile {t : Text} (ht : '<' ∉ t) :
    ∀ c ∈ t.takeWhile (· ≠ '>'), isAngle c = false := by
  intro c hc
  have hlt : c ≠ '<' := fun e => ht (e ▸ (List.takeWhile_sublist _).subset hc)
  have hgt : c ≠ '>' := by simpa using List.mem_takeWhile_imp hc
  simp [isAngle, hlt, hgt]

namespace RootTag

def root (r : RootTag) : Root :=
  ⟨r.nsPrefix, r.body.takeWhile (· ≠ '>')⟩

theorem isDeclared_root_iff {r : RootTag} : r.root.isDeclared = true ↔ r.Mentions := by
  rw [Root.isDeclared, occurs_iff, Mentions, root]

theorem written_append (r : RootTag) (after : Text) :
    r.written ++ after = '<' :: (rootName r.nsPrefix ++ (r.body ++ '>' :: after)) := by
  simp [written]

theorem body_declare (r : RootTag) : r.declare.body = (declaration r.nsPrefix).written ++ r.body := by
  rw [body, declare, List.flatMap_cons, List.append_assoc]
  rfl

theorem declares_declare (r : RootTag) : r.declare.Declares :=
  ⟨declaration r.nsPrefix, List.mem_cons_self, rfl⟩

/-- The text goes on behind the root that is read, at the same place with and without the declaration. -/
theorem exists_written_root (r : RootTag) (after : Text) :
    ∃ rest, r.written ++ after = r.root.written ++ rest ∧
      r.declare.written ++ after = r.root.declare.written ++ rest := by
  obtain ⟨rest, e⟩ := exists_cut r.body after
  refine ⟨rest, ?_, ?_⟩
  · rw [r.written_append, e, Root.written_append]
    rfl
  · rw [r.declare.written_append, body_declare, List.append_assoc, e, Root.written_append, Root.declare,
      Root.declaration_eq, List.append_assoc]
    rfl

theorem wellFormed_declaration {p : Text} (hp : ∀ c ∈ p, isPrefixChar c = true) :
    (declaration p).WellFormed where
  lead_ne := by simp [declaration]
  lead := by simp [declaration, isBlank]
  name_ne := (regular_binding hp).name_ne
  name c hc := by
    obtain ⟨hplain, hblank⟩ := (regular_binding hp).name c hc
    refine ⟨hplain, ?_, hblank⟩
    rintro rfl
    exact absurd (isNameChar_binding hp _ hc) (by decide)
  before := by simp [declaration]
  behind := by simp [declaration]
  quote := .inl rfl
  value := show '"' ∉ mathNamespace ∧ '<' ∉ mathNamespace by decide

namespace WellFormed

variable {r : RootTag} (h : r.WellFormed)

include h

theorem declare : r.declare.WellFormed where
  nsPrefix := h.nsPrefix
  attributes := List.forall_mem_cons.mpr ⟨wellFormed_declaration h.nsPrefix, h.attributes⟩
  trail := h.trail

theorem bracket_body : '<' ∉ r.body := by
  have ha : '<' ∉ r.attributes.flatMap QuotedAttribute.written := by
    rw [List.mem_flatMap]
    rintro ⟨a, hm, hc⟩
    exact (h.attributes a hm).bracket_written hc
  have ht : '<' ∉ r.trail := fun hm => absurd (h.trail _ hm) (by decide)
  simp only [body, List.mem_append, not_or]
  refine ⟨ha, ht, ?_⟩
  split_ifs <;> simp

theorem isNameChar_body : ∀ c ∈ r.body.head?, isNameChar c = false := by
  have hslash : isNameChar '/' = false := by decide
  apply forall_mem_head?_append
  · have ha := h.attributes
    generalize r.attributes = as at ha ⊢
    induction as with
    | nil => simp
    | cons a as ih =>
      rw [List.forall_mem_cons] at ha
      exact forall_mem_head?_append ha.1.isNameChar_head (ih ha.2)
  · apply forall_mem_head?_append
    · exact fun c hc => isNameChar_of_isBlank (h.trail c (List.mem_of_mem_head? hc))
    · split_ifs <;> simp [hslash]

theorem isAngle_root : ∀ c ∈ r.root.attributes, isAngle c = false :=
  isAngle_takeWhile h.bracket_body

theorem isNameChar_root (rest : Text) :
    ∀ c ∈ (r.root.attributes ++ '>' :: rest).head?, isNameChar c = false := by
  have hgt : isNameChar '>' = false := by decide
  have hb := h.isNameChar_body
  unfold root
  cases e : r.body with
  | nil => simp [hgt]
  | cons c t =>
    rw [e] at hb
    by_cases hc : c = '>' <;> simp_all

/-- The tag is given a declaration, unless it mentions one. -/
theorem declareNamespace_written (after : Text) :
    (r.Mentions → declareNamespace (r.written ++ after) = r.written ++ after) ∧
      (¬ r.Mentions → declareNamespace (r.written ++ after) = r.declare.written ++ after) := by
  obtain ⟨rest, e, ed⟩ := r.exists_written_root after
  have hd := Root.declareNamespace_written h.nsPrefix h.isAngle_root (h.isNameChar_root rest)
  constructor
  · intro hm
    rw [e, hd, if_pos (isDeclared_root_iff.mpr hm)]
  · intro hm
    rw [e, hd, if_neg fun hr => hm (isDeclared_root_iff.mp hr), ed]

end WellFormed

end RootTag

/-! ## What is taken for a root -/

theorem isNameChar_rootName {p : Text} (hp : ∀ c ∈ p, isPrefixChar c = true) :
    ∀ c ∈ rootName p, isNameChar c = true :=
  Root.isNameChar_name hp

theorem exists_rootName? {p : Text} (hp : ∀ c ∈ p, isPrefixChar c = true) {x : Text}
    (hx : endsWord x = true) : ∃ q r, rootName? (rootName p ++ x) = some (q, r) := by
  have hm : afterMath? (math ++ x) = some x := afterMath?_eq_some_iff.mpr ⟨rfl, hx⟩
  by_cases he : p = []
  · subst he
    change ∃ q r, rootName? (math ++ x) = some (q, r)
    rw [rootName?, hm]
    cases nsPrefix? (math ++ x) with
    | none => exact ⟨_, _, rfl⟩
    | some q => cases h : afterMath? q.2 <;> simp [h]
  · refine ⟨p, x, ?_⟩
    rw [rootName, Root.name, if_neg he, List.append_assoc, List.cons_append, rootName?,
      nsPrefix?_append hp he]
    simp [hm]

theorem opensRoot_of_root? {t rest : Text} {root : Root} (h : root? t = some (root, rest)) :
    OpensRoot isWord t := by
  obtain ⟨hp, ha, hends, rfl⟩ := eq_append_of_root? h
  refine ⟨root.nsPrefix, root.attributes, rest, root.written_append rest, hp, ha, ?_⟩
  cases e : root.attributes with
  | nil => simp
  | cons c r =>
    rw [e] at hends
    simpa [endsWord] using hends

/-- Whatever the name is read to be, the next bracket is that of the tag. -/
theorem OpensRoot.exists_root? {t : Text} (h : OpensRoot isWord t) :
    ∃ root rest, root? t = some (root, rest) := by
  obtain ⟨p, body, rest, rfl, hp, ha, hw⟩ := h
  have hends : endsWord (body ++ '>' :: rest) = true := by
    have hgt : isWord '>' = false := by decide
    cases body with
    | nil => simp [endsWord, hgt]
    | cons c r => simpa [endsWord] using hw
  obtain ⟨q, r, hn⟩ := exists_rootName? hp hends
  obtain ⟨hq, -, e⟩ := eq_append_of_rootName? hn []
  have hname : ∀ {p}, (∀ c ∈ p, isPrefixChar c = true) → ∀ c ∈ rootName p, isAngle c = false :=
    fun hp c hc => isAngle_of_isNameChar (isNameChar_rootName hp c hc)
  obtain ⟨v, rfl, hv⟩ : ∃ v, r = v ++ '>' :: rest ∧ ∀ c ∈ v, isAngle c = false := by
    rw [← List.append_assoc] at e
    rcases List.append_eq_append_iff.mp e with ⟨v, hv, hr⟩ | ⟨v, hv, hr⟩
    · cases v with
      | nil => exact ⟨[], hr.symm, by simp⟩
      | cons c v =>
        obtain ⟨rfl, -⟩ := List.cons.inj hr
        exact absurd (hname hq '>' (by rw [rootName, hv]; simp)) (by decide)
    · refine ⟨v, hr, fun c hc => ?_⟩
      have hall := List.forall_mem_append.mpr ⟨hname hp, ha⟩
      exact hall c (by rw [hv]; simp [hc])
  refine ⟨⟨q, v⟩, rest, ?_⟩
  rw [root?, if_pos rfl, hn]
  simp [tagBody?_append hv]

/-- A root is read where a name of `math` is taken to end with the word. -/
theorem root?_eq_none_iff {t : Text} : root? t = none ↔ ¬ OpensRoot isWord t := by
  constructor
  · intro h ho
    obtain ⟨root, rest, hr⟩ := ho.exists_root?
    rw [h] at hr
    cases hr
  · intro h
    cases hr : root? t with
    | none => rfl
    | some p => exact absurd (opensRoot_of_root? hr) h

/-! ## The pass over a text -/

theorem declareNamespace_of_none {c : Char} {r : Text} (h : root? (c :: r) = none) :
    declareNamespace (c :: r) = c :: declareNamespace r := by
  rw [declareNamespace, h]

theorem root?_append_bracket (c : Char) (r x : Text) :
    root? (c :: (r ++ '<' :: x)) = (root? (c :: r)).map (Prod.map id (· ++ '<' :: x)) := by
  by_cases hc : c = '<'
  · rw [hc, ← (keepsFront_append x).root?_eq]
  · rw [root?_of_ne hc, root?_of_ne hc]
    rfl

theorem declareNamespace_append_of_none {before : Text} (h : ∀ v, v <:+ before → root? v = none)
    (x : Text) : declareNamespace (before ++ '<' :: x) = before ++ declareNamespace ('<' :: x) := by
  induction before with
  | nil => rfl
  | cons c r ih =>
    have hc : root? (c :: (r ++ '<' :: x)) = none := by
      rw [root?_append_bracket, h _ List.suffix_rfl]
      rfl
    rw [List.cons_append, declareNamespace_of_none hc,
      ih fun v hv => h v (hv.trans (List.suffix_cons c r)), List.cons_append]

theorem declareNamespace_append_of_some {before v : Text} (hv : v <:+ before) (h : root? v ≠ none)
    (x : Text) : declareNamespace (before ++ '<' :: x) = declareNamespace before ++ '<' :: x := by
  induction before with
  | nil => exact absurd (by rw [List.suffix_nil.mp hv]; rfl) h
  | cons c r ih =>
    have hr := root?_append_bracket c r x
    rw [List.cons_append, declareNamespace, declareNamespace, hr]
    cases e : root? (c :: r) with
    | some p =>
      simp only [Option.map_some, Prod.map, id_eq]
      split_ifs <;> simp
    | none =>
      rcases List.suffix_cons_iff.mp hv with rfl | hv
      · exact absurd e h
      · simp [ih hv]

theorem declareNamespace_of_none_suffix {t : Text} (h : ∀ v, v <:+ t → root? v = none) :
    declareNamespace t = t := by
  induction t with
  | nil => rfl
  | cons c r ih =>
    rw [declareNamespace_of_none (h _ List.suffix_rfl), ih fun v hv => h v (hv.trans (List.suffix_cons c r))]

namespace Root

variable {root : Root} (hp : ∀ c ∈ root.nsPrefix, isPrefixChar c = true)

include hp

theorem isAngle_declaration : ∀ c ∈ root.declaration, isAngle c = false := by
  rw [root.declaration_eq]
  exact (regular_binding hp).isAngle_written

omit hp in
theorem isDeclared_declare (root : Root) : root.declare.isDeclared = true := by
  rw [isDeclared, occurs_iff]
  exact ⟨[' '], _, by simp [declare, declaration]; rfl⟩

theorem declareNamespace_declare (ha : ∀ c ∈ root.attributes, isAngle c = false) (rest : Text) :
    declareNamespace (root.declare.written ++ rest) = root.declare.written ++ rest := by
  have hspace : isNameChar ' ' = false := by decide
  have hd : ∀ c ∈ root.declare.attributes, isAngle c = false :=
    List.forall_mem_append.mpr ⟨isAngle_declaration hp, ha⟩
  have hhead : ∀ c ∈ (root.declare.attributes ++ '>' :: rest).head?, isNameChar c = false := by
    simp [declare, declaration, hspace]
  rw [@declareNamespace_written root.declare hp hd rest hhead, if_pos root.isDeclared_declare]

end Root

/-- The declaration that is written is seen the next time. -/
theorem declareNamespace_declareNamespace (t : Text) :
    declareNamespace (declareNamespace t) = declareNamespace t := by
  fun_induction declareNamespace t with
  | case1 => rfl
  | case2 c r root rest h hd =>
    rw [declareNamespace, h]
    exact if_pos hd
  | case3 c r root rest h hd =>
    obtain ⟨hp, ha, -⟩ := eq_append_of_root? h
    exact root.declareNamespace_declare hp ha rest
  | case4 c r h ih =>
    by_cases hc : c = '<'
    · subst hc
      have h' : root? ('<' :: declareNamespace r) = none := by
        rw [scans_declareNamespace.keepsFront.root?_eq, h]
        rfl
      rw [declareNamespace_of_none h', ih]
    · rw [scans_declareNamespace.char hc, ih]

/-- Where a declaration is put in, nothing that is written behind it can make up for it. -/
theorem declareNamespace_eq_of_append_eq {t x y : Text} (h : declareNamespace t ++ x = t ++ y) :
    declareNamespace t = t := by
  fun_induction declareNamespace t with
  | case1 => rfl
  | case2 => rfl
  | case3 c r root rest hr hd =>
    obtain ⟨hp, ha, -, e⟩ := eq_append_of_root? hr
    have hd : ∀ c ∈ root.declaration ++ root.attributes, isAngle c = false :=
      List.forall_mem_append.mpr ⟨Root.isAngle_declaration hp, ha⟩
    rw [e, List.append_assoc, List.append_assoc, Root.written_append, Root.written_append] at h
    have hbody := congrArg tagBody? (List.append_cancel_left (List.cons.inj h).2)
    rw [Root.declare, tagBody?_append hd, tagBody?_append ha] at hbody
    have hnil := List.append_left_eq_self.mp (Prod.mk.inj (Option.some.inj hbody)).1
    cases hnil
  | case4 c r hr ih => rw [ih (List.cons.inj h).2]

theorem RootTag.written_declare_ne (r : RootTag) (after : Text) :
    r.written ++ after ≠ r.declare.written ++ after := by
  intro h
  have hbody := List.append_cancel_right h
  rw [written, written, body_declare, declare, List.append_assoc] at hbody
  have hnil := List.append_cancel_left (List.cons.inj hbody).2
  cases List.append_left_eq_self.mp hnil.symm

/-- The pass either gives the first root its declaration, or does not go as far. -/
theorem FirstRoot.declareNamespace_eq {t before after : Text} {r : RootTag} (h : FirstRoot t before r after) :
    declareNamespace t = before ++ (r.declare.written ++ after) ∧ ¬ r.Mentions ∧
        (∀ v, v <:+ before → ¬ OpensRoot isWord v) ∨
      declareNamespace t = declareNamespace before ++ (r.written ++ after) ∧
        ¬(¬ r.Mentions ∧ ∀ v, v <:+ before → ¬ OpensRoot isWord v) := by
  simp only [← root?_eq_none_iff]
  obtain ⟨rest, e⟩ : ∃ rest, r.written ++ after = '<' :: rest := ⟨_, r.written_append after⟩
  obtain ⟨hmentions, hsilent⟩ := h.wellFormed.declareNamespace_written after
  rw [h.text, e]
  by_cases hn : ∀ v, v <:+ before → root? v = none
  · rw [declareNamespace_append_of_none hn, ← e, declareNamespace_of_none_suffix hn]
    by_cases hm : r.Mentions
    · exact .inr ⟨by rw [hmentions hm], fun hc => hc.1 hm⟩
    · exact .inl ⟨by rw [hsilent hm], hm, hn⟩
  · obtain ⟨v, hv, hr⟩ : ∃ v, v <:+ before ∧ root? v ≠ none := by
      simpa using hn
    exact .inr ⟨declareNamespace_append_of_some hv hr rest, fun hc => hn hc.2⟩

/-- After the pass the first root declares its namespace and the rest of the markup is as it was, if and
only if the root did so before or mentions nothing of it, and no tag in front is taken for it. -/
theorem firstRoot_declareNamespace_iff {t before after : Text} {r : RootTag}
    (h : FirstRoot t before r after) :
    declareNamespace (declareNamespace t) = declareNamespace t ∧
      ((∃ r', (r' = r ∨ r' = r.declare) ∧ r'.Declares ∧ FirstRoot (declareNamespace t) before r' after) ↔
        declareNamespace before = before ∧
          (r.Declares ∨ ¬ r.Mentions ∧ ∀ v, v <:+ before → ¬ OpensRoot isWord v)) := by
  refine ⟨declareNamespace_declareNamespace t, ?_⟩
  rcases h.declareNamespace_eq with ⟨e, hm, hn⟩ | ⟨e, hc⟩
  · constructor
    · rintro -
      have hnone : ∀ v, v <:+ before → root? v = none := fun v hv => root?_eq_none_iff.mpr (hn v hv)
      exact ⟨declareNamespace_of_none_suffix hnone, .inr ⟨hm, hn⟩⟩
    · rintro -
      exact ⟨r.declare, .inr rfl, r.declares_declare, e, h.wellFormed.declare, h.first⟩
  · constructor
    · rintro ⟨r', hr', hd, htext, -, -⟩
      rw [e] at htext
      have hb := declareNamespace_eq_of_append_eq htext
      rw [hb] at htext
      rcases hr' with rfl | rfl
      · exact ⟨hb, .inl hd⟩
      · exact absurd (List.append_cancel_left htext) (r.written_declare_ne after)
    · rintro ⟨hb, hd | hs⟩
      · exact ⟨r, .inl rfl, hd, by rw [e, hb], h.wellFormed, h.first⟩
      · exact absurd hs hc

/-- The mention belongs to another prefix, and the root is left without its namespace. -/
theorem not_firstRoot_declareNamespace_of_xlink :
    let r : RootTag :=
      ⟨[], [⟨[' '], "xmlns:xlink".toList, [], [], '"', "http://www.w3.org/1999/xlink".toList⟩], [], false⟩
    let after := "<mi>x</mi></math>".toList
    let t := "<math xmlns:xlink=\"http://www.w3.org/1999/xlink\"><mi>x</mi></math>".toList
    FirstRoot t [] r after ∧ declareNamespace t = t ∧
      ¬ ∃ r', (r' = r ∨ r' = r.declare) ∧ r'.Declares ∧ FirstRoot (declareNamespace t) [] r' after := by
  intro r after t
  have h : FirstRoot t [] r after := by
    refine ⟨by decide, by decide, ?_⟩
    rintro v hv ⟨p, body, rest, e, -⟩
    rw [List.suffix_nil.mp hv] at e
    cases e
  refine ⟨h, by decide, fun hr => ?_⟩
  obtain ⟨-, hd | ⟨hm, -⟩⟩ := (firstRoot_declareNamespace_iff h).2.mp hr
  · exact absurd hd (by decide)
  · exact hm (RootTag.isDeclared_root_iff.mp (by decide))

end Formula.Markup
