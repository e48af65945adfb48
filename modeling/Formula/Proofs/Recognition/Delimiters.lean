import Formula.Proofs.Tex.Blanks
import Formula.Recognition

/-! # Delimiters

The first place where an opening delimiter stands is found, and the first closing one behind it. If some
opening delimiter has a closing one behind it, then so has the first.
-/

namespace Formula.Recognition

open Text

inductive Delimiters
  | dollars
  | brackets
  deriving DecidableEq, Repr

namespace Delimiters

def opening : Delimiters → Text
  | dollars => ['$', '$']
  | brackets => ['\\', '[']

def closing : Delimiters → Text
  | dollars => ['$', '$']
  | brackets => ['\\', ']']

/-- The text has an opening delimiter and a closing one behind it. -/
def Enclose (d : Delimiters) (t : Text) : Prop :=
  ∃ before body behind, t = before ++ (d.opening ++ (body ++ (d.closing ++ behind)))

end Delimiters

/-- What the first delimiters of a text enclose, or else all of the text. -/
def delimited (t : Text) : Text :=
  (between? Delimiters.dollars.opening Delimiters.dollars.closing t <|>
    between? Delimiters.brackets.opening Delimiters.brackets.closing t).getD t

section Cut

variable {p t u v : Text}

theorem cut?_pair {x y : Char} (h : ¬ [x, y] <:+: u) (hx : x ≠ y ∨ x ∉ u) (v : Text) :
    cut? [x, y] (u ++ x :: y :: v) = some (u, v) := by
  induction u with
  | nil => simp [cut?, after?]
  | cons c u ih =>
    have hn : after? [x, y] (c :: (u ++ x :: y :: v)) = none := by
      rw [Option.eq_none_iff_forall_ne_some]
      intro r hr
      obtain ⟨rfl, e⟩ := List.cons.inj (after?_eq_some_iff.mp hr)
      cases u with
      | nil =>
        obtain rfl : c = y := (List.cons.inj e).1
        exact hx.elim (· rfl) (· List.mem_cons_self)
      | cons d u =>
        obtain rfl : d = y := (List.cons.inj e).1
        exact h ⟨[], u, rfl⟩
    have ih := ih (fun hi => h (hi.trans (List.suffix_cons c u).isInfix))
      (hx.imp_right fun hu => List.not_mem_of_not_mem_cons hu)
    rw [List.cons_append, cut?, hn, ih]
    rfl

theorem exists_cut?_append (u p v : Text) :
    ∃ a b, cut? p (u ++ (p ++ v)) = some (a, b) ∧ v <:+ b := by
  induction u with
  | nil =>
    rw [List.nil_append]
    cases h : p ++ v with
    | nil =>
      obtain ⟨rfl, rfl⟩ := List.append_eq_nil_iff.mp h
      exact ⟨[], [], rfl, List.suffix_rfl⟩
    | cons c r =>
      have ha : after? p (c :: r) = some v := h ▸ after?_append p v
      exact ⟨[], v, by rw [cut?, ha], List.suffix_rfl⟩
  | cons c u ih =>
    rw [List.cons_append, cut?]
    cases h : after? p (c :: (u ++ (p ++ v))) with
    | some r =>
      have e := after?_eq_some_iff.mp h
      have hlen := congrArg List.length e
      simp only [List.length_cons, List.length_append] at hlen
      have hv : v <:+ p ++ r := e ▸ ⟨c :: (u ++ p), by simp⟩
      exact ⟨[], r, rfl, List.suffix_of_suffix_length_le hv (List.suffix_append p r) (by omega)⟩
    | none =>
      obtain ⟨a, b, hab, hv⟩ := ih
      exact ⟨c :: a, b, by rw [hab]; rfl, hv⟩

theorem cut?_eq_none_iff : cut? p t = none ↔ ¬ p <:+: t := by
  constructor
  · rintro h ⟨u, v, rfl⟩
    obtain ⟨a, b, hab, -⟩ := exists_cut?_append u p v
    rw [List.append_assoc, hab] at h
    cases h
  · intro h
    rw [Option.eq_none_iff_forall_ne_some]
    rintro ⟨a, b⟩ hab
    exact h ⟨a, b, (eq_of_cut? hab).symm⟩

theorem exists_cut?_of_infix (h : p <:+: t) : ∃ a b, cut? p t = some (a, b) := by
  obtain ⟨u, v, rfl⟩ := h
  obtain ⟨a, b, hab, -⟩ := exists_cut?_append u p v
  exact ⟨a, b, List.append_assoc u p v ▸ hab⟩

theorem after?_append_cons {x : Char} (hx : x ∉ p) (u v : Text) :
    after? p (u ++ x :: v) = (after? p u).map (· ++ x :: v) := by
  induction p generalizing u with
  | nil => rfl
  | cons q p ih =>
    cases u with
    | nil => exact if_neg (List.ne_of_not_mem_cons hx).symm
    | cons c u =>
      rw [List.cons_append, after?, after?, ih (List.not_mem_of_not_mem_cons hx)]
      split <;> rfl

theorem cut?_append_cons {x : Char} (hx : x ∉ p) (hp : p ≠ []) (u v : Text) :
    cut? p (u ++ x :: v) =
      ((cut? p u).map fun (a, b) => (a, b ++ x :: v)).or
        ((cut? p v).map fun (a, b) => (u ++ x :: a, b)) := by
  induction u with
  | nil =>
    obtain ⟨q, p, rfl⟩ := List.exists_cons_of_ne_nil hp
    have hn : after? (q :: p) (x :: v) = none := if_neg (List.ne_of_not_mem_cons hx).symm
    have hc : cut? (q :: p) (x :: v) = (cut? (q :: p) v).map fun (a, b) => (x :: a, b) := by
      rw [cut?, hn]
    rw [List.nil_append, hc]
    rfl
  | cons c u ih =>
    rw [List.cons_append, cut?, cut?, ← List.cons_append, after?_append_cons hx]
    cases after? p (c :: u) with
    | some r => rfl
    | none =>
      simp only [Option.map_none, ih]
      cases cut? p u <;> cases cut? p v <;> rfl

end Cut

section Between

variable {d : Delimiters} {t : Text}

theorem between?_eq_some_iff {opening closing body : Text} :
    between? opening closing t = some body ↔
      ∃ a b behind, cut? opening t = some (a, b) ∧ cut? closing b = some (body, behind) := by
  simp only [between?, Option.bind_eq_bind, Option.bind_eq_some_iff, Prod.exists, Option.pure_def,
    Option.some.injEq]
  constructor
  · rintro ⟨a, b, hab, body, behind, hbody, rfl⟩
    exact ⟨a, b, behind, hab, hbody⟩
  · rintro ⟨a, b, behind, hab, hbody⟩
    exact ⟨a, b, hab, body, behind, hbody, rfl⟩

theorem not_infix_of_dollar (h : '$' ∉ t) :
    ¬ Delimiters.dollars.opening <:+: t ∧ ¬ Delimiters.dollars.closing <:+: t :=
  ⟨fun hi => h (hi.subset List.mem_cons_self), fun hi => h (hi.subset List.mem_cons_self)⟩

theorem between?_eq_of_first {p f : Text} (hp : '$' ∉ p) (hf : '$' ∉ f) (ho : ¬ d.opening <:+: p)
    (hc : ¬ d.closing <:+: f) (s : Text) :
    between? d.opening d.closing (p ++ (d.opening ++ (f ++ (d.closing ++ s)))) = some f := by
  refine between?_eq_some_iff.mpr ⟨p, f ++ (d.closing ++ s), s, ?_, ?_⟩
  · cases d with
    | dollars => exact cut?_pair ho (.inr hp) _
    | brackets => exact cut?_pair ho (.inl (by decide)) _
  · cases d with
    | dollars => exact cut?_pair hc (.inr hf) _
    | brackets => exact cut?_pair hc (.inl (by decide)) _

theorem between?_of_infix_free {opening closing : Text} (h : ¬ opening <:+: t) :
    between? opening closing t = none := by
  rw [between?, cut?_eq_none_iff.mpr h]
  rfl

theorem between?_subset {opening closing body : Text} (h : between? opening closing t = some body) :
    body ⊆ t := by
  obtain ⟨a, b, behind, hab, hbody⟩ := between?_eq_some_iff.mp h
  intro c hc
  rw [eq_of_cut? hab, eq_of_cut? hbody]
  simp [hc]

theorem exists_between?_iff : (∃ body, between? d.opening d.closing t = some body) ↔ d.Enclose t := by
  constructor
  · rintro ⟨body, h⟩
    obtain ⟨a, b, behind, hab, hbody⟩ := between?_eq_some_iff.mp h
    exact ⟨a, body, behind, by rw [eq_of_cut? hab, eq_of_cut? hbody]; simp⟩
  · rintro ⟨before, body, behind, rfl⟩
    obtain ⟨a, b, hab, u, rfl⟩ :=
      exists_cut?_append before d.opening (body ++ (d.closing ++ behind))
    obtain ⟨body', behind', hbody, -⟩ := exists_cut?_append (u ++ body) d.closing behind
    rw [List.append_assoc] at hbody
    exact ⟨body', between?_eq_some_iff.mpr ⟨a, _, behind', hab, hbody⟩⟩

theorem cut?_closing_eq_none {a b : Text} (hab : cut? d.opening t = some (a, b)) (h : ¬ d.Enclose t) :
    cut? d.closing b = none := by
  rw [Option.eq_none_iff_forall_ne_some]
  rintro ⟨body, behind⟩ hb
  exact h (exists_between?_iff.mp ⟨body, between?_eq_some_iff.mpr ⟨a, b, behind, hab, hb⟩⟩)

theorem delimited_of_dollars {body : Text}
    (h : between? Delimiters.dollars.opening Delimiters.dollars.closing t = some body) :
    delimited t = body := by
  rw [delimited, h]
  rfl

theorem delimited_of_no_dollars
    (h : between? Delimiters.dollars.opening Delimiters.dollars.closing t = none) :
    delimited t =
      (between? Delimiters.brackets.opening Delimiters.brackets.closing t).getD t := by
  rw [delimited, h]
  rfl

theorem delimited_subset (t : Text) : delimited t ⊆ t := by
  cases hd : between? Delimiters.dollars.opening Delimiters.dollars.closing t with
  | some body => exact delimited_of_dollars hd ▸ between?_subset hd
  | none =>
    rw [delimited_of_no_dollars hd]
    cases hb : between? Delimiters.brackets.opening Delimiters.brackets.closing t with
    | some body => exact between?_subset hb
    | none => exact List.Subset.refl t

end Between

end Formula.Recognition
