import Formula.Proofs.Tex.Inside

/-! # Environments

Groups and environments are opened and closed in one order. A stack keeps what is open: a brace closes
the group on its top, and `\end` the environment on its top, by name. Both fail where something else is
on top.
-/

namespace Formula.Tex

open Text

inductive Scope
  | group
  | environment (name : Text)
  deriving DecidableEq, Repr

def beginMark : Text := "\\begin".toList

def endMark : Text := "\\end".toList

def isMark (name : Text) : Bool :=
  name = beginMark || name = endMark

theorem isMark_iff {name : Text} : isMark name = true ↔ name = beginMark ∨ name = endMark := by
  simp [isMark]

theorem isMark_singleton (c : Char) : isMark [c] = false := by
  have hb : [c] ≠ beginMark :=
    fun h => absurd (congrArg List.length h) (show (1 : Nat) ≠ 6 by decide)
  have he : [c] ≠ endMark :=
    fun h => absurd (congrArg List.length h) (show (1 : Nat) ≠ 4 by decide)
  simp [isMark, hb, he]

/-- The name behind a mark: the content of a group, blanks before it apart. No name is empty. -/
def environmentName? (t : Text) : Option Text :=
  match group? (skipBlanks t) with
  | some (name, _) => if name = [] then none else some name
  | none => none

namespace Scope

def afterChar (c : Char) (stack : List Scope) : Option (List Scope) :=
  if c = '{' then some (group :: stack)
  else if c = '}' then match stack with
    | group :: stack => some stack
    | _ => none
  else some stack

/-- The stack behind a control sequence that `rest` follows. -/
def afterControl (name rest : Text) (stack : List Scope) : Option (List Scope) :=
  if name = beginMark then (environmentName? rest).map (environment · :: stack)
  else if name = endMark then match environmentName? rest, stack with
    | some e, environment e' :: stack => if e = e' then some stack else none
    | _, _ => none
  else some stack

end Scope

/-- What is open behind a text, given what is open before it. -/
def scopes (stack : List Scope) : Text → Option (List Scope)
  | [] => some stack
  | c :: r => match _h : control? (c :: r) with
    | none => (Scope.afterChar c stack).bind fun stack => scopes stack r
    | some (name, rest) => (Scope.afterControl name rest stack).bind fun stack => scopes stack rest
termination_by t => t.length
decreasing_by
  · simp
  · have := control?_length _h
    omega

/-- All groups and environments that the text opens are closed in it, in reverse order. -/
def JointlyNested (t : Text) : Prop :=
  scopes [] t = some []

instance (t : Text) : Decidable (JointlyNested t) :=
  inferInstanceAs (Decidable (_ = _))

section Equations

variable {stack : List Scope}

@[simp] theorem scopes_nil : scopes stack [] = some stack := by
  rw [scopes.eq_def]

theorem scopes_char {c : Char} {r : Text} (h : control? (c :: r) = none) :
    scopes stack (c :: r) = (Scope.afterChar c stack).bind fun stack => scopes stack r := by
  rw [scopes.eq_def]
  simp only
  split <;> simp_all

theorem scopes_control {t name rest : Text} (h : control? t = some (name, rest)) :
    scopes stack t = (Scope.afterControl name rest stack).bind fun stack => scopes stack rest := by
  obtain ⟨r, rfl⟩ := exists_cons_of_control? h
  rw [scopes.eq_def]
  simp only
  split
  · simp_all
  · next name' rest' h' =>
    obtain ⟨rfl, rfl⟩ : name = name' ∧ rest = rest' := by simpa using h.symm.trans h'
    rfl

theorem scopes_of_ne {c : Char} (hb : c ≠ '\\') (ho : c ≠ '{') (hc : c ≠ '}') (r : Text) :
    scopes stack (c :: r) = scopes stack r := by
  have h : Scope.afterChar c stack = some stack := by simp [Scope.afterChar, ho, hc]
  rw [scopes_char (control?_of_ne hb), h, Option.bind_some]

@[simp] theorem scopes_backslash : scopes stack ['\\'] = some stack := by
  have h : Scope.afterChar '\\' stack = some stack := by simp [Scope.afterChar]
  rw [scopes_char rfl, h, Option.bind_some, scopes_nil]

theorem scopes_open (r : Text) : scopes stack ('{' :: r) = scopes (.group :: stack) r := by
  rw [scopes_char (control?_of_ne (by decide))]
  rfl

theorem Scope.afterControl_begin (rest : Text) :
    afterControl beginMark rest stack = (environmentName? rest).map (environment · :: stack) :=
  if_pos rfl

theorem Scope.afterControl_end (rest : Text) :
    afterControl endMark rest stack = match environmentName? rest, stack with
      | some e, environment e' :: stack => if e = e' then some stack else none
      | _, _ => none := by
  have hn : endMark ≠ beginMark := by decide
  unfold afterControl
  rw [if_neg hn, if_pos rfl]

theorem Scope.afterControl_of_not_isMark {name : Text} (h : isMark name = false) (rest : Text) :
    afterControl name rest stack = some stack := by
  simp only [isMark, Bool.or_eq_false_iff, decide_eq_false_iff_not] at h
  simp [afterControl, h]

end Equations

theorem environmentName?_eq_some_iff {t e : Text} :
    environmentName? t = some e ↔
      e ≠ [] ∧ Balanced e ∧ ∃ rest, skipBlanks t = braced e ++ rest := by
  unfold environmentName?
  constructor
  · intro h
    split at h
    · next name rest hg =>
      obtain ⟨hb, hs⟩ := group?_iff.mp hg
      split at h
      · simp at h
      · next hne =>
        obtain rfl := Option.some.inj h
        exact ⟨hne, hb, rest, hs⟩
    · simp at h
  · rintro ⟨hne, hb, rest, hs⟩
    rw [group?_iff.mpr ⟨hb, hs⟩]
    simp [hne]

theorem environmentName?_append_shut {t : Text} (h : Inner t) (r : Text) :
    environmentName? (t ++ '}' :: r) = environmentName? t := by
  rw [environmentName?, environmentName?, skipBlanks_append_shut,
    group?_append_shut r h.of_skipBlanks]
  cases group? (skipBlanks t) <;> rfl

/-! ## Groups on the stack -/

namespace Scope

theorem afterControl_congr {r r' : Text} (h : environmentName? r = environmentName? r')
    (name : Text) (stack : List Scope) :
    afterControl name r stack = afterControl name r' stack := by
  unfold afterControl
  rw [h]

theorem afterChar_append {c : Char} {u : Text} {top : List Scope} (hb : c ≠ '\\')
    (hv : Closing (top.count group) (c :: u)) (base : List Scope) :
    afterChar c (top ++ group :: base) = (afterChar c top).map (· ++ group :: base) ∧
      ∀ stack, afterChar c top = some stack → Closing (stack.count group) u := by
  by_cases ho : c = '{'
  · subst ho
    refine ⟨by simp [afterChar], ?_⟩
    intro stack h
    obtain rfl : group :: top = stack := by simpa [afterChar] using h
    simpa using closing_open_iff.mp hv
  by_cases hc : c = '}'
  · subst hc
    match top with
    | [] => simp [closing_shut_iff] at hv
    | environment e :: top => simp [afterChar]
    | group :: top =>
      refine ⟨by simp [afterChar], ?_⟩
      intro stack h
      obtain rfl : top = stack := by simpa [afterChar] using h
      simpa [closing_shut_iff] using hv
  · have hs : ∀ stack, afterChar c stack = some stack := by simp [afterChar, ho, hc]
    refine ⟨by rw [hs, hs, Option.map_some], ?_⟩
    intro stack h
    obtain rfl : top = stack := by simpa [hs] using h
    exact hv.of_append (s := [c]) (.singleton hb ho hc)

theorem afterControl_append (name rest : Text) (top base : List Scope) :
    afterControl name rest (top ++ group :: base) =
      (afterControl name rest top).map (· ++ group :: base) := by
  unfold afterControl
  split_ifs
  · cases environmentName? rest <;> rfl
  · cases environmentName? rest with
    | none => rfl
    | some e =>
      match top with
      | [] | group :: _ => rfl
      | environment e' :: top => by_cases h : e = e' <;> simp [h]
  · rfl

theorem count_of_afterControl {name rest : Text} {stack stack' : List Scope}
    (h : afterControl name rest stack = some stack') : stack'.count group = stack.count group := by
  unfold afterControl at h
  split_ifs at h
  · obtain ⟨e, -, rfl⟩ := Option.map_eq_some_iff.mp h
    simp
  · split at h
    · split_ifs at h
      obtain rfl := Option.some.inj h
      simp
    · simp at h
  · rw [Option.some.inj h]

end Scope

open Scope in
/-- The content of a group is walked through as if the scopes below it were not there. -/
theorem scopes_append_shut (top : List Scope) {v : Text} (hv : Closing (top.count group) v)
    (base : List Scope) (r : Text) :
    scopes (top ++ group :: base) (v ++ '}' :: r) =
      if scopes top v = some [] then scopes base r else none := by
  fun_induction scopes top v with
  | case1 top =>
    rw [List.nil_append, scopes_char (control?_of_ne (by decide))]
    cases top with
    | nil => simp [afterChar]
    | cons f top =>
      cases f with
      | group => simp [Closing] at hv
      | environment e => simp [afterChar]
  | case2 top c u h ih =>
    have hi : Inner (c :: u) := ⟨_, hv⟩
    have hb : c ≠ '\\' := by
      rintro rfl
      rw [eq_nil_of_control?_eq_none h] at hi
      exact hi.ne_backslash rfl
    obtain ⟨he, hs⟩ := afterChar_append hb hv base
    rw [List.cons_append, scopes_char (control?_of_ne hb), he]
    cases hf : afterChar c top with
    | none => simp
    | some stack => exact ih stack (hs stack hf)
  | case3 top c u name rest h ih =>
    have hi : Inner (c :: u) := ⟨_, hv⟩
    have hc := control?_append_shut r hi
    rw [h] at hc
    have hr : Closing (top.count group) rest := by
      rw [(eq_append_of_control? h).1] at hv
      exact hv.of_append (balanced_of_control? h)
    have hn : environmentName? (rest ++ '}' :: r) = environmentName? rest :=
      environmentName?_append_shut ⟨_, hr⟩ r
    rw [scopes_control hc]
    simp only [afterControl_congr hn, afterControl_append]
    cases hs : afterControl name rest top with
    | none => simp
    | some stack => exact ih stack (by rwa [count_of_afterControl hs])

theorem scopes_braced {v : Text} (hv : Balanced v) (stack : List Scope) (r : Text) :
    scopes stack (braced v ++ r) = if JointlyNested v then scopes stack r else none := by
  have e : braced v ++ r = '{' :: (v ++ '}' :: r) := by simp [braced]
  rw [e, scopes_open]
  exact scopes_append_shut [] hv stack r

theorem not_jointlyNested_of_isMark {name : Text} (h : isMark name = true) :
    ¬ JointlyNested name := by
  rcases isMark_iff.mp h with rfl | rfl <;> decide +kernel

/-! ## Neutral texts -/

/-- The text leaves every stack as it is, before `r` and before all that ends a control sequence as `r`
does. -/
def Neutral (s r : Text) : Prop :=
  ∀ x, (opensLetter x = true → opensLetter r = true) →
    ∀ stack, scopes stack (s ++ x) = scopes stack x

namespace Neutral

variable {s t r r' : Text}

theorem nil : Neutral [] r :=
  fun _ _ _ => rfl

theorem mono (h : Neutral s r) (hr : opensLetter r' = true → opensLetter r = true) :
    Neutral s r' :=
  fun x hx => h x fun ho => hr (hx ho)

theorem append (hs : Neutral s (t ++ r)) (ht : Neutral t r) : Neutral (s ++ t) r := by
  intro x hx stack
  have hx' : opensLetter (t ++ x) = true → opensLetter (t ++ r) = true := by
    cases t with
    | nil => exact hx
    | cons c t => exact id
  rw [List.append_assoc, hs _ hx', ht x hx]

theorem jointlyNested (h : Neutral s r) : JointlyNested s := by
  have hx := h [] (by simp [opensLetter]) []
  rwa [List.append_nil, scopes_nil] at hx

theorem char {c : Char} (hb : c ≠ '\\') (ho : c ≠ '{') (hc : c ≠ '}') : Neutral [c] r :=
  fun x _ _ => scopes_of_ne hb ho hc x

theorem of_forall (h : ∀ c ∈ s, c ≠ '\\' ∧ c ≠ '{' ∧ c ≠ '}') : Neutral s r := by
  induction s with
  | nil => exact .nil
  | cons c s ih =>
    obtain ⟨hb, ho, hc⟩ := h c List.mem_cons_self
    exact append (s := [c]) (.char hb ho hc) (ih fun d hd => h d (List.mem_cons_of_mem _ hd))

theorem blanks (t : Text) : Neutral (t.takeWhile isBlank) r :=
  .of_forall fun _ hc => ne_of_isBlank (List.mem_takeWhile_imp hc)

theorem control {name : Text} (h : control? (name ++ r) = some (name, r))
    (hm : isMark name = false) : Neutral name r := by
  intro x hx stack
  rw [scopes_control (control?_append_of_opensLetter h hx), Scope.afterControl_of_not_isMark hm]
  rfl

theorem braced (hb : Balanced s) (hs : JointlyNested s) : Neutral (braced s) r := by
  intro x _ stack
  rw [scopes_braced hb, if_pos hs]

end Neutral

end Formula.Tex
