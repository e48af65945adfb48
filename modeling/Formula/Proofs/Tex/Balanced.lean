import Mathlib.Data.List.TakeWhile
import Formula.Tex.Control
import Formula.Tex.Group

/-! # Balanced texts

In a balanced text the braces nest and every backslash has a character behind it. The reader of groups
accepts exactly the balanced texts in braces.
-/

namespace Formula.Tex

inductive Balanced : Text → Prop
  | nil : Balanced []
  | char {c : Char} {t : Text} : c ≠ '\\' → c ≠ '{' → c ≠ '}' → Balanced t → Balanced (c :: t)
  | escape {c : Char} {t : Text} : Balanced t → Balanced ('\\' :: c :: t)
  | group {s t : Text} : Balanced s → Balanced t → Balanced (braced s ++ t)

namespace Balanced

theorem append {s t : Text} (hs : Balanced s) (ht : Balanced t) : Balanced (s ++ t) := by
  induction hs with
  | nil => exact ht
  | char hb ho hc _ ih => exact .char hb ho hc ih
  | escape _ ih => exact .escape ih
  | group hs _ _ ih =>
    rw [List.append_assoc]
    exact .group hs ih

theorem braced {t : Text} (ht : Balanced t) : Balanced (braced t) := by
  simpa using Balanced.group ht .nil

theorem singleton {c : Char} (hb : c ≠ '\\') (ho : c ≠ '{') (hc : c ≠ '}') : Balanced [c] :=
  .char hb ho hc .nil

theorem of_forall {t : Text} (h : ∀ c ∈ t, c ≠ '\\' ∧ c ≠ '{' ∧ c ≠ '}') : Balanced t := by
  induction t with
  | nil => exact .nil
  | cons c t ih =>
    obtain ⟨hb, ho, hc⟩ := h c List.mem_cons_self
    exact .char hb ho hc (ih fun d hd => h d (List.mem_cons_of_mem _ hd))

theorem flatMap {α : Type} {l : List α} {f : α → Text} (h : ∀ a ∈ l, Balanced (f a)) :
    Balanced (l.flatMap f) := by
  induction l with
  | nil => exact .nil
  | cons a l ih =>
    rw [List.flatMap_cons]
    exact (h a List.mem_cons_self).append (ih fun b hb => h b (List.mem_cons_of_mem _ hb))

end Balanced

theorem ne_of_isAlpha {c : Char} (h : c.isAlpha = true) : c ≠ '\\' ∧ c ≠ '{' ∧ c ≠ '}' := by
  refine ⟨?_, ?_, ?_⟩ <;>
  · rintro rfl
    exact absurd h (by decide)

theorem balanced_of_control? {t name rest : Text} (h : control? t = some (name, rest)) :
    Balanced name := by
  match t with
  | [] | [_] => simp [control?] at h
  | b :: c :: r =>
    simp only [control?] at h
    split at h
    · split at h <;> simp only [Option.some.injEq, Prod.mk.injEq] at h <;> obtain ⟨rfl, rfl⟩ := h
      · exact .escape (.of_forall fun d hd => ne_of_isAlpha (List.mem_takeWhile_imp hd))
      · exact .escape .nil
    · simp at h

theorem balanced_of_isWordControl {name : Text} (h : isWordControl name = true) :
    Balanced name := by
  unfold isWordControl at h
  split at h
  · simp only [List.all_cons, Bool.and_eq_true, List.all_eq_true] at h
    exact .escape (.of_forall fun d hd => ne_of_isAlpha (h.2 d hd))
  · simp at h

/-! ## Groups -/

theorem close?_append {s : Text} (hs : Balanced s) (depth : Nat) (t : Text) :
    close? depth (s ++ t) = (close? depth t).map fun (u, rest) => (s ++ u, rest) := by
  induction hs generalizing depth t with
  | nil => simp
  | char hb ho hc _ ih => simp [close?_char hb ho hc, ih, Function.comp_def]
  | escape _ ih => simp [ih, Function.comp_def]
  | group _ _ ihs ih => simp [braced, ihs, ih, Function.comp_def]

/-- The text has `depth` closing braces that nothing in it opens, and balanced texts around them. -/
def Closing : Nat → Text → Prop
  | 0, t => Balanced t
  | depth + 1, t => ∃ s u, t = s ++ '}' :: u ∧ Balanced s ∧ Closing depth u

theorem Closing.append {depth : Nat} {s t : Text} (hs : Balanced s) (ht : Closing depth t) :
    Closing depth (s ++ t) := by
  cases depth with
  | zero => exact hs.append ht
  | succ depth =>
    obtain ⟨u, v, rfl, hu, hv⟩ := ht
    exact ⟨s ++ u, v, by simp, hs.append hu, hv⟩

theorem closing_of_close? {depth : Nat} {t content rest : Text}
    (h : close? depth t = some (content, rest)) : Closing depth content := by
  fun_induction close? depth t generalizing content with
  | case1 | case2 => simp at h
  | case3 depth d r ih =>
    simp only [Option.map_eq_some_iff, Prod.mk.injEq, Prod.exists] at h
    obtain ⟨u, _, h, rfl, rfl⟩ := h
    exact (ih h).append (s := ['\\', d]) (.escape .nil)
  | case4 depth r _ ih =>
    simp only [Option.map_eq_some_iff, Prod.mk.injEq, Prod.exists] at h
    obtain ⟨u, _, h, rfl, rfl⟩ := h
    obtain ⟨s, v, rfl, hs, hv⟩ := ih h
    simpa [braced] using hv.append hs.braced
  | case5 r =>
    simp only [Option.some.injEq, Prod.mk.injEq] at h
    obtain ⟨rfl, rfl⟩ := h
    exact Balanced.nil
  | case6 r depth _ _ ih =>
    simp only [Option.map_eq_some_iff, Prod.mk.injEq, Prod.exists] at h
    obtain ⟨u, _, h, rfl, rfl⟩ := h
    exact ⟨[], u, rfl, .nil, ih h⟩
  | case7 depth c r hb ho hc ih =>
    simp only [Option.map_eq_some_iff, Prod.mk.injEq, Prod.exists] at h
    obtain ⟨u, _, h, rfl, rfl⟩ := h
    exact (ih h).append (.singleton hb ho hc)

theorem Closing.close?_eq {depth : Nat} {t : Text} (h : Closing depth t) (r : Text) :
    close? depth (t ++ '}' :: r) = some (t, r) := by
  induction depth generalizing t with
  | zero => simp [close?_append (show Balanced t from h)]
  | succ depth ih =>
    obtain ⟨s, u, rfl, hs, hu⟩ := h
    simp [close?_append hs, ih hu]

theorem closing_iff_close? {depth : Nat} {t : Text} :
    Closing depth t ↔ close? depth (t ++ ['}']) = some (t, []) :=
  ⟨fun h => h.close?_eq [], closing_of_close?⟩

theorem balanced_iff_close? {t : Text} : Balanced t ↔ close? 0 (t ++ ['}']) = some (t, []) :=
  show Closing 0 t ↔ _ from closing_iff_close?

instance (t : Text) : Decidable (Balanced t) :=
  decidable_of_iff _ balanced_iff_close?.symm

theorem closing_open_iff {depth : Nat} {t : Text} :
    Closing depth ('{' :: t) ↔ Closing (depth + 1) t := by
  rw [closing_iff_close?, closing_iff_close?, List.cons_append, close?_open]
  simp

theorem closing_shut_iff {depth : Nat} {t : Text} :
    Closing depth ('}' :: t) ↔ ∃ d, depth = d + 1 ∧ Closing d t := by
  cases depth with
  | zero => simp [closing_iff_close?]
  | succ depth => simp [closing_iff_close?]

theorem Closing.of_append {depth : Nat} {s t : Text} (hs : Balanced s)
    (h : Closing depth (s ++ t)) : Closing depth t := by
  rw [closing_iff_close?, List.append_assoc, close?_append hs] at h
  rw [closing_iff_close?]
  cases hc : close? depth (t ++ ['}']) with
  | none => simp [hc] at h
  | some p => simpa [hc, Prod.ext_iff] using h

theorem close?_zero_iff {t content rest : Text} :
    close? 0 t = some (content, rest) ↔ Balanced content ∧ t = content ++ '}' :: rest := by
  constructor
  · intro h
    exact ⟨closing_of_close? h, eq_append_of_close? h⟩
  · rintro ⟨hb, rfl⟩
    simp [close?_append hb]

theorem group?_iff {t content rest : Text} :
    group? t = some (content, rest) ↔ Balanced content ∧ t = braced content ++ rest := by
  match t with
  | [] => simp [group?, braced]
  | c :: r =>
    by_cases hc : c = '{'
    · simp [group?, hc, close?_zero_iff, braced]
    · simp [group?, hc, braced]

end Formula.Tex
