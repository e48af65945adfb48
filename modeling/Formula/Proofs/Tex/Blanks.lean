import Mathlib.Data.List.TakeWhile
import Formula.Tex.RunningText
import Formula.Text.Word
import Formula.Proofs.Tex.Reading

/-! # Words and tidy blanks

Tidying the blanks of a text keeps its words and puts one space between two of them. The induction over
the words of a text goes from a word and one blank behind it to what follows.
-/

namespace Formula

namespace Text

theorem toNat_of_isAlphanum {c : Char} (h : c.isAlphanum = true) :
    48 ≤ c.toNat ∧ c.toNat ≤ 122 := by
  have hr : ∀ {a b : UInt32}, 48 ≤ a.toNat → b.toNat ≤ 122 → a ≤ c.val → c.val ≤ b →
      48 ≤ c.toNat ∧ c.toNat ≤ 122 := by
    intro a b ha hb hac hcb
    exact ⟨ha.trans (UInt32.le_iff_toNat_le.mp hac), (UInt32.le_iff_toNat_le.mp hcb).trans hb⟩
  rcases Bool.or_eq_true_iff.mp h with h | h
  · rcases Bool.or_eq_true_iff.mp h with h | h
    · obtain ⟨h₁, h₂⟩ := of_decide_eq_true h
      exact hr (by decide) (by decide) h₁ h₂
    · obtain ⟨h₁, h₂⟩ := Bool.and_eq_true_iff.mp h
      exact hr (by decide) (by decide) (of_decide_eq_true h₁) (of_decide_eq_true h₂)
  · obtain ⟨h₁, h₂⟩ := Bool.and_eq_true_iff.mp h
    exact hr (by decide) (by decide) (of_decide_eq_true h₁) (of_decide_eq_true h₂)

theorem isBlank_of_isAlphanum {c : Char} (h : c.isAlphanum = true) : isBlank c = false := by
  have hr := toNat_of_isAlphanum h
  cases hb : isBlank c with
  | false => rfl
  | true =>
    simp only [isBlank, Bool.or_eq_true, Bool.and_eq_true, decide_eq_true_eq, beq_iff_eq] at hb
    omega

theorem isAlpha_of_isBlank {c : Char} (h : isBlank c = true) : c.isAlpha = false := by
  by_contra hc
  have ha : isBlank c = false := isBlank_of_isAlphanum (by simp_all [Char.isAlphanum])
  simp [h] at ha

def blankCodes : List Nat :=
  List.range' 0x09 5 ++ List.range' 0x1C 5 ++ [0x85, 0xA0, 0x1680] ++ List.range' 0x2000 11 ++
    [0x2028, 0x2029, 0x202F, 0x205F, 0x3000]

theorem toNat_mem_blankCodes {c : Char} (h : isBlank c = true) : c.toNat ∈ blankCodes := by
  simp only [isBlank, Bool.or_eq_true, Bool.and_eq_true, decide_eq_true_eq, beq_iff_eq] at h
  simp only [blankCodes, List.mem_append, List.mem_range'_1, List.mem_cons, List.not_mem_nil, or_false]
  omega

theorem isWord_of_isBlank {c : Char} (h : isBlank c = true) : isWord c = false := by
  have hw : ∀ n ∈ blankCodes, isWord (Char.ofNat n) = false := by
    decide +kernel
  have hc := hw c.toNat (toNat_mem_blankCodes h)
  rwa [Char.ofNat_toNat] at hc

theorem beq_eq_false_of_isBlank {d : Char} (hd : isBlank d = false) {c : Char}
    (hc : isBlank c = true) : (c == d) = false := by
  rw [beq_eq_false_iff_ne]
  rintro rfl
  simp [hc] at hd

theorem isBlank_of_allBlank {t : Text} (h : allBlank t = true) : ∀ c ∈ t, isBlank c = true :=
  List.all_eq_true.mp h

theorem isBlank_of_skipBlanks {t r : Text} {c : Char} (h : skipBlanks t = c :: r) : isBlank c = false := by
  have hn := List.head?_dropWhile_not isBlank t
  rw [show t.dropWhile isBlank = c :: r from h] at hn
  simpa using hn

theorem skipBlanks_append {s : Text} (hs : allBlank s = true) (t : Text) :
    skipBlanks (s ++ t) = skipBlanks t :=
  List.dropWhile_append_of_pos (isBlank_of_allBlank hs)

theorem skipBlanks_append_right {s : Text} (hs : ∀ c ∈ s.head?, isBlank c = false) (t : Text) :
    skipBlanks (t ++ s) = skipBlanks t ++ s := by
  rw [skipBlanks, skipBlanks, List.dropWhile_append]
  split_ifs with h
  · have hd : s.dropWhile isBlank = s := by
      cases s with
      | nil => rfl
      | cons c s => exact List.dropWhile_cons_of_neg (by simp [hs c rfl])
    rw [List.isEmpty_iff.mp h, hd, List.nil_append]
  · rfl

theorem skipBlanks_eq_nil_iff {t : Text} : skipBlanks t = [] ↔ allBlank t = true := by
  simp [skipBlanks, allBlank]

theorem words_eq_nil_iff {t : Text} : words t = [] ↔ allBlank t = true := by
  rw [← skipBlanks_eq_nil_iff, words]
  split <;> simp_all

theorem words_append {s : Text} (hs : allBlank s = true) (t : Text) :
    words (s ++ t) = words t := by
  rw [words, words, skipBlanks_append hs]

theorem words_word_append {word : Text} (hne : word ≠ []) (hw : ∀ c ∈ word, isBlank c = false)
    {t : Text} (ht : ∀ c ∈ t.head?, isBlank c = true) : words (word ++ t) = word :: words t := by
  obtain ⟨c, r, rfl⟩ := List.exists_cons_of_ne_nil hne
  have hr : ∀ d ∈ r, (!isBlank d) = true := by simp_all
  have hs : skipBlanks (c :: r ++ t) = c :: (r ++ t) := by
    simp [skipBlanks, hw c List.mem_cons_self]
  have ht' : t.takeWhile (!isBlank ·) = [] ∧ t.dropWhile (!isBlank ·) = t := by
    cases t <;> simp_all
  rw [words]
  split
  · simp_all
  · next d u he =>
    obtain ⟨rfl, rfl⟩ : c = d ∧ r ++ t = u := by simpa using hs.symm.trans he
    rw [List.takeWhile_append_of_pos hr, List.dropWhile_append_of_pos hr, ht'.1, ht'.2,
      List.append_nil]

theorem length_trimEnd_le (t : Text) : (trimEnd t).length ≤ t.length := by
  rw [trimEnd, List.length_reverse, ← t.length_reverse]
  exact (List.dropWhile_suffix isBlank).length_le

theorem length_trim_le (t : Text) : (trim t).length ≤ t.length :=
  (length_trimEnd_le _).trans (skipBlanks_length_le t)

theorem trimEnd_append {s t : Text} (ht : allBlank t = true) : trimEnd (s ++ t) = trimEnd s := by
  rw [trimEnd, List.reverse_append, List.dropWhile_append_of_pos, trimEnd]
  simpa using isBlank_of_allBlank ht

theorem trimEnd_append_of_not_blank (s : Text) {t : Text} (ht : allBlank t = false) :
    trimEnd (s ++ t) = s ++ trimEnd t := by
  have hn : t.reverse.dropWhile isBlank ≠ [] := by
    intro h
    have : allBlank t = true := by simpa [allBlank] using h
    simp [this] at ht
  rw [trimEnd, List.reverse_append, List.dropWhile_append, if_neg (by simpa using hn),
    List.reverse_append, List.reverse_reverse, trimEnd]

theorem trimEnd_of_blank {t : Text} (ht : allBlank t = true) : trimEnd t = [] := by
  simpa [trimEnd] using trimEnd_append (s := []) ht

theorem exists_trail (t : Text) : ∃ trail, allBlank trail = true ∧ t = trimEnd t ++ trail := by
  refine ⟨(t.reverse.takeWhile isBlank).reverse, by simp [allBlank], ?_⟩
  rw [trimEnd, ← List.reverse_append, List.takeWhile_append_dropWhile, List.reverse_reverse]

theorem allBlank_eq_false_of_word {word : Text} (hne : word ≠ [])
    (hw : ∀ c ∈ word, isBlank c = false) : allBlank word = false := by
  obtain ⟨c, r, rfl⟩ := List.exists_cons_of_ne_nil hne
  simp [allBlank, hw c List.mem_cons_self]

theorem trimEnd_word {word : Text} (hne : word ≠ []) (hw : ∀ c ∈ word, isBlank c = false) :
    trimEnd word = word := by
  have hl : isBlank (word.getLast hne) = false := hw _ (List.getLast_mem hne)
  have e := List.dropLast_concat_getLast hne
  rw [trimEnd, ← e, List.reverse_append]
  simp [hl]

/-- A text is all blank, or ends with a word and blanks, or has a word, a blank and more words. -/
inductive Worded : Text → Prop
  | blank {t : Text} : allBlank t = true → Worded t
  | last {lead word trail : Text} : allBlank lead = true → word ≠ [] →
      (∀ c ∈ word, isBlank c = false) → allBlank trail = true → Worded (lead ++ word ++ trail)
  | cons {lead word t : Text} {b : Char} : allBlank lead = true → word ≠ [] →
      (∀ c ∈ word, isBlank c = false) → isBlank b = true → allBlank t = false → Worded t →
      Worded (lead ++ word ++ b :: t)

theorem exists_word {t : Text} (ht : allBlank t = false) :
    ∃ lead word tail, t = lead ++ word ++ tail ∧ allBlank lead = true ∧ word ≠ [] ∧
      (∀ c ∈ word, isBlank c = false) ∧ ∀ c ∈ tail.head?, isBlank c = true := by
  cases hs : skipBlanks t with
  | nil => simp [skipBlanks_eq_nil_iff.mp hs] at ht
  | cons c r =>
    have hc : isBlank c = false := by
      have := List.head?_dropWhile_not isBlank t
      rw [show t.dropWhile isBlank = c :: r from hs] at this
      simpa using this
    refine ⟨t.takeWhile isBlank, c :: r.takeWhile (!isBlank ·), r.dropWhile (!isBlank ·), ?_,
      List.all_takeWhile, by simp, ?_, ?_⟩
    · rw [List.append_assoc, List.cons_append, List.takeWhile_append_dropWhile, ← hs]
      exact List.takeWhile_append_dropWhile.symm
    · intro d hd
      rcases List.mem_cons.mp hd with rfl | hd
      · exact hc
      · simpa using List.mem_takeWhile_imp hd
    · intro d hd
      have hb := List.head?_dropWhile_not (!isBlank ·) r
      rw [Option.mem_def.mp hd] at hb
      simpa using hb

theorem worded (t : Text) : Worded t := by
  induction h : t.length using Nat.strongRecOn generalizing t with
  | ind n ih =>
    cases ht : allBlank t with
    | true => exact .blank ht
    | false =>
      obtain ⟨lead, word, tail, rfl, hl, hne, hw, hb⟩ := exists_word ht
      cases htail : allBlank tail with
      | true => exact .last hl hne hw htail
      | false =>
        cases tail with
        | nil => simp [allBlank] at htail
        | cons b u =>
          have hb : isBlank b = true := hb b rfl
          have hu : allBlank u = false := by simpa [allBlank, hb] using htail
          exact .cons hl hne hw hb hu (ih u.length (by simp [← h]; omega) u rfl)

end Text

namespace Tex

open Text

theorem opensLetter_blanks_append {gap t : Text} (hg : allBlank gap = true) (ht : opensLetter t = false) :
    opensLetter (gap ++ t) = false := by
  cases gap with
  | nil => exact ht
  | cons b gap => simpa [opensLetter] using isAlpha_of_isBlank (isBlank_of_allBlank hg b List.mem_cons_self)

theorem tidyBlanks_blank {t : Text} (ht : allBlank t = true) : tidyBlanks t = [] := by
  rw [tidyBlanks, words_eq_nil_iff.mpr ht]
  rfl

theorem tidyBlanks_last {lead word trail : Text} (hl : allBlank lead = true) (hne : word ≠ [])
    (hw : ∀ c ∈ word, isBlank c = false) (ht : allBlank trail = true) :
    tidyBlanks (lead ++ word ++ trail) = word := by
  have hh : ∀ c ∈ trail.head?, isBlank c = true :=
    fun c hc => isBlank_of_allBlank ht c (List.mem_of_mem_head? hc)
  rw [tidyBlanks, List.append_assoc, words_append hl, words_word_append hne hw hh,
    words_eq_nil_iff.mpr ht]
  simp [List.intercalate]

theorem tidyBlanks_cons {lead word t : Text} {b : Char} (hl : allBlank lead = true)
    (hne : word ≠ []) (hw : ∀ c ∈ word, isBlank c = false) (hb : isBlank b = true)
    (ht : allBlank t = false) :
    tidyBlanks (lead ++ word ++ b :: t) = word ++ ' ' :: tidyBlanks t := by
  have hb' : allBlank [b] = true := by simpa [allBlank] using hb
  have hn : words t ≠ [] := by simp [words_eq_nil_iff, ht]
  obtain ⟨w, ws, e⟩ := List.exists_cons_of_ne_nil hn
  rw [tidyBlanks, List.append_assoc, words_append hl, words_word_append hne hw (by simpa using hb),
    show b :: t = [b] ++ t from rfl, words_append hb', tidyBlanks, e]
  simp [List.intercalate]

theorem length_tidyBlanks_le (t : Text) : (tidyBlanks t).length ≤ t.length := by
  induction worded t with
  | blank ht => simp [tidyBlanks_blank ht]
  | last hl hne hw ht =>
    rw [tidyBlanks_last hl hne hw ht]
    simp only [List.length_append]
    omega
  | cons hl hne hw hb ht _ ih =>
    rw [tidyBlanks_cons hl hne hw hb ht]
    simp only [List.length_append, List.length_cons]
    omega

/-! ## Tidy texts -/

/-- Every blank of the text is a space, between two characters that are no blanks. -/
def Tidy (t : Text) : Prop :=
  ∀ s b u, t = s ++ b :: u → isBlank b = true →
    b = ' ' ∧ (∃ c ∈ s.getLast?, isBlank c = false) ∧ ∃ c ∈ u.head?, isBlank c = false

theorem tidy_of_word {word : Text} (hw : ∀ c ∈ word, isBlank c = false) : Tidy word := by
  rintro s b u rfl hb
  simp [hw b (by simp)] at hb

theorem Tidy.lead_eq_nil {lead t : Text} (h : Tidy (lead ++ t)) (hl : allBlank lead = true) :
    lead = [] := by
  cases lead with
  | nil => rfl
  | cons b lead =>
    obtain ⟨-, ⟨d, hd, -⟩, -⟩ := h [] b _ rfl (isBlank_of_allBlank hl b List.mem_cons_self)
    simp at hd

theorem Tidy.trail_eq_nil {t trail : Text} (h : Tidy (t ++ trail)) (ht : allBlank trail = true) :
    trail = [] := by
  cases trail with
  | nil => rfl
  | cons b trail =>
    have hb := isBlank_of_allBlank ht
    obtain ⟨-, -, d, hd, hd'⟩ := h t b trail rfl (hb b List.mem_cons_self)
    simp [hb d (List.mem_cons_of_mem _ (List.mem_of_mem_head? hd))] at hd'

theorem Tidy.head {t : Text} (h : Tidy t) (ht : allBlank t = false) :
    ∃ c ∈ t.head?, isBlank c = false := by
  cases t with
  | nil => simp [allBlank] at ht
  | cons c t =>
    refine ⟨c, rfl, ?_⟩
    by_contra hc
    have hl : [c] = [] := Tidy.lead_eq_nil (t := t) h (by simpa [allBlank] using hc)
    simp at hl

theorem Tidy.cons {word t : Text} (hne : word ≠ []) (hw : ∀ c ∈ word, isBlank c = false)
    (h : Tidy t) (ht : allBlank t = false) : Tidy (word ++ ' ' :: t) := by
  intro s b u e hb
  rcases List.append_eq_append_iff.mp e with ⟨v, rfl, e'⟩ | ⟨v, rfl, e'⟩
  · cases v with
    | nil =>
      obtain ⟨rfl, rfl⟩ := List.cons.inj e'
      refine ⟨rfl, ⟨word.getLast hne, ?_, hw _ (List.getLast_mem hne)⟩, h.head ht⟩
      simp [List.getLast?_eq_some_getLast hne]
    | cons d v =>
      obtain ⟨rfl, rfl⟩ := List.cons.inj e'
      obtain ⟨hs, ⟨c, hc, hc'⟩, hu⟩ := h v b u rfl hb
      refine ⟨hs, ⟨c, ?_, hc'⟩, hu⟩
      cases v with
      | nil => simp at hc
      | cons d v => simpa using hc
  · cases v with
    | nil =>
      obtain ⟨rfl, rfl⟩ := List.cons.inj e'
      rw [List.append_nil] at hne hw
      refine ⟨rfl, ⟨s.getLast hne, ?_, hw _ (List.getLast_mem hne)⟩, h.head ht⟩
      simp [List.getLast?_eq_some_getLast hne]
    | cons d v =>
      obtain ⟨rfl, -⟩ := List.cons.inj e'
      simp [hw b (by simp)] at hb

theorem Tidy.of_append {s u : Text} {b : Char} (h : Tidy (s ++ b :: u)) (hb : isBlank b = true) :
    Tidy u := by
  rintro v c w rfl hc
  obtain ⟨hs, ⟨d, hd, hd'⟩, hw⟩ := h (s ++ b :: v) c w (by simp) hc
  refine ⟨hs, ⟨d, ?_, hd'⟩, hw⟩
  cases v with
  | nil =>
    obtain rfl : b = d := by simpa using hd
    simp [hb] at hd'
  | cons e v => simpa using hd

theorem tidyBlanks_eq_self_iff {t : Text} : tidyBlanks t = t ↔ Tidy t := by
  induction worded t with
  | @blank t ht =>
    rw [tidyBlanks_blank ht]
    constructor
    · rintro rfl
      exact tidy_of_word (by simp)
    · intro h
      exact (Tidy.trail_eq_nil (t := []) h ht).symm
  | @last lead word trail hl hne hw ht =>
    rw [tidyBlanks_last hl hne hw ht]
    constructor
    · intro h
      have h' := congrArg List.length h
      simp only [List.length_append] at h'
      obtain rfl : lead = [] := List.length_eq_zero_iff.mp (by omega)
      obtain rfl : trail = [] := List.length_eq_zero_iff.mp (by omega)
      simpa using tidy_of_word hw
    · intro h
      obtain rfl := h.trail_eq_nil ht
      rw [List.append_assoc] at h
      rw [h.lead_eq_nil hl]
      simp
  | @cons lead word t b hl hne hw hb ht _ ih =>
    rw [tidyBlanks_cons hl hne hw hb ht]
    constructor
    · intro h
      have h' := congrArg List.length h
      have hle := length_tidyBlanks_le t
      simp only [List.length_append, List.length_cons] at h'
      obtain rfl : lead = [] := List.length_eq_zero_iff.mp (by omega)
      obtain ⟨rfl, e⟩ := List.cons.inj (List.append_cancel_left h)
      exact (ih.mp e).cons hne hw ht
    · intro h
      have hlead : lead = [] := by
        rw [List.append_assoc] at h
        exact h.lead_eq_nil hl
      obtain ⟨rfl, -, -⟩ := h (lead ++ word) b t rfl hb
      rw [ih.mpr (h.of_append hb), hlead]
      rfl

end Tex

end Formula
