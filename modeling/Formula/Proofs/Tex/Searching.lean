import Formula.Tex.Prescript
import Formula.Proofs.Tex.Splitting
import Formula.Proofs.Tex.Tokens

/-! # Searching for commands

A command may be looked for without tokens: anywhere in a text, behind an even run of backslashes that
has no further backslash in front of it. The run is made of line breaks, so that the command behind it is
a token, and every token is found. The passes over a text may be run by such searches, one find after
another, as well as on tokens.
-/

namespace Formula.Tex

open Text

def endsEscaping (t : Text) : Bool :=
  t.getLast? == some '\\'

theorem endsEscaping_append (t u : Text) :
    endsEscaping (t ++ u) = if u = [] then endsEscaping t else endsEscaping u := by
  split
  · next hu => rw [hu, List.append_nil]
  · next hu =>
    obtain ⟨d, hd⟩ := Option.isSome_iff_exists.mp (List.getLast?_isSome.mpr hu)
    rw [endsEscaping, endsEscaping, List.getLast?_append, hd, Option.some_or]

theorem endsEscaping_of_letters {c : Char} {w : Text} (hw : ∀ d ∈ c :: w, d.isAlpha = true) :
    endsEscaping ('\\' :: c :: w) = false := by
  rw [endsEscaping, List.getLast?_cons_cons, beq_eq_false_iff_ne]
  intro h
  exact absurd (hw _ (List.mem_of_getLast? h)) (by decide)

/-- A command to look for, under any of some names, with what has to stand behind it. What is there is
taken with the command, up to the rest that `behind?` gives, and some of it as an argument. -/
structure Search where
  names : List Text
  behind? : Text → Option (Text × Text)
  isWordControl : ∀ name ∈ names, isWordControl name = true
  ends : ∀ {t argument rest}, behind? t = some (argument, rest) → opensLetter t = false
  taken : ∀ {t argument rest}, behind? t = some (argument, rest) →
    ∃ u, t = u ++ rest ∧ endsEscaping u = false

/-- A command that stands at the front of a text: what is taken of the text, its argument, and the rest. -/
structure Hit where
  taken : Text
  argument : Text
  rest : Text
  deriving DecidableEq, Repr

/-- A command behind a run of backslashes, with the text from the run on. -/
structure Find where
  start : Text
  hit : Hit
  deriving DecidableEq, Repr

namespace Find

def place (f : Find) : Text :=
  f.hit.taken ++ f.hit.rest

end Find

namespace Search

variable (p : Search)

def hit? (t : Text) : Option Hit :=
  p.names.findSome? fun name => (after? name t).bind fun r =>
    (p.behind? r).map fun (argument, rest) => ⟨upTo rest t, argument, rest⟩

/-- The command behind as many pairs of backslashes as possible. -/
def find? : Text → Option Find
  | '\\' :: '\\' :: r => match find? r with
    | some f => some ⟨'\\' :: '\\' :: r, f.hit⟩
    | none => (p.hit? ('\\' :: '\\' :: r)).map (⟨'\\' :: '\\' :: r, ·⟩)
  | t => (p.hit? t).map (⟨t, ·⟩)

variable {p}

theorem exists_readsToken_of_hit? {t : Text} {h : Hit} (hh : p.hit? t = some h) :
    ∃ name ∈ p.names, ∃ r, ReadsToken t name r ∧ p.behind? r = some (h.argument, h.rest) ∧
      h.taken = upTo h.rest t := by
  obtain ⟨name, hn, hb⟩ := List.exists_of_findSome?_eq_some hh
  simp only [Option.bind_eq_some_iff, Option.map_eq_some_iff, Prod.exists] at hb
  obtain ⟨r, hr, argument, rest, hb, rfl⟩ := hb
  obtain rfl := after?_eq_some_iff.mp hr
  have hc := control?_of_isWordControl (p.isWordControl name hn) (p.ends hb)
  exact ⟨name, hn, r, .control hc, hb, rfl⟩

theorem hit?_eq {t u r : Text} (ht : ReadsToken t u r) :
    p.hit? t = if u ∈ p.names then
      (p.behind? r).map fun (argument, rest) => ⟨upTo rest t, argument, rest⟩ else none := by
  cases hh : p.hit? t with
  | some h =>
    obtain ⟨name, hn, s, hs, hb, e⟩ := exists_readsToken_of_hit? hh
    obtain ⟨rfl, rfl⟩ := hs.unique ht
    simp only [if_pos hn, hb, Option.map_some, ← e]
  | none =>
    split
    · next hu =>
      have hnone := List.findSome?_eq_none_iff.mp hh u hu
      rw [ht.eq_append, after?_append] at hnone
      simpa [ht.eq_append, eq_comm] using hnone
    · rfl

theorem hit?_of_not_isWordControl {t u r : Text} (ht : ReadsToken t u r)
    (hu : Tex.isWordControl u = false) : p.hit? t = none := by
  rw [hit?_eq ht, if_neg]
  intro hm
  rw [p.isWordControl u hm] at hu
  cases hu

theorem eq_append_of_hit? {t : Text} {h : Hit} (hh : p.hit? t = some h) :
    t = h.taken ++ h.rest ∧ h.taken ≠ [] ∧ endsEscaping h.taken = false := by
  obtain ⟨name, hn, r, hr, hb, e⟩ := exists_readsToken_of_hit? hh
  obtain ⟨u, rfl, hu⟩ := p.taken hb
  rw [hr.eq_append, ← List.append_assoc, upTo_append] at e
  obtain ⟨c, w, rfl, hw⟩ := exists_letters_of_isWordControl (p.isWordControl name hn)
  refine ⟨by rw [e, hr.eq_append, List.append_assoc], by simp [e], ?_⟩
  rw [e, endsEscaping_append]
  split
  · exact endsEscaping_of_letters hw
  · exact hu

theorem find?_nil : p.find? [] = none := by
  have h : p.hit? [] = none := by
    cases hh : p.hit? [] with
    | none => rfl
    | some h =>
      obtain ⟨e, hne, -⟩ := eq_append_of_hit? hh
      exact absurd (List.append_eq_nil_iff.mp e.symm).1 hne
  rw [find?, h]
  · rfl
  · simp

theorem find?_pair (r : Text) :
    p.find? ('\\' :: '\\' :: r) = (p.find? r).map fun f => ⟨'\\' :: '\\' :: r, f.hit⟩ := by
  have ht : ReadsToken ('\\' :: '\\' :: r) ['\\', '\\'] r := .control rfl
  rw [find?, hit?_of_not_isWordControl ht rfl]
  cases p.find? r <;> rfl

/-- Without a pair of backslashes at its front, the text itself has to begin with the command. -/
theorem find?_of_not_pair {t : Text} (ht : ¬ ['\\', '\\'] <+: t) :
    p.find? t = (p.hit? t).map (⟨t, ·⟩) := by
  rw [find?]
  rintro r rfl
  exact ht ⟨r, rfl⟩

theorem eq_append_of_find? {t : Text} {f : Find} (h : p.find? t = some f) :
    f.start = t ∧ (∃ run, t = run ++ f.place ∧ ∀ c ∈ run, c = '\\') ∧ p.hit? f.place = some f.hit := by
  fun_induction find? p t generalizing f with
  | case1 r g hg ih =>
    obtain rfl := Option.some.inj h
    obtain ⟨-, ⟨run, e, hrun⟩, hh⟩ := ih hg
    refine ⟨rfl, ⟨'\\' :: '\\' :: run, by rw [e]; rfl, ?_⟩, hh⟩
    simpa using hrun
  | case2 r _ _ =>
    obtain ⟨g, hg, rfl⟩ := Option.map_eq_some_iff.mp h
    have e := (eq_append_of_hit? hg).1
    exact ⟨rfl, ⟨[], e, by simp⟩, e ▸ hg⟩
  | case3 t _ =>
    obtain ⟨g, hg, rfl⟩ := Option.map_eq_some_iff.mp h
    have e := (eq_append_of_hit? hg).1
    exact ⟨rfl, ⟨[], e, by simp⟩, e ▸ hg⟩

theorem find?_length {t : Text} {f : Find} (h : p.find? t = some f) :
    f.hit.rest.length < t.length := by
  obtain ⟨-, ⟨run, rfl, -⟩, hh⟩ := eq_append_of_find? h
  have hpos := List.length_pos_iff.mpr (eq_append_of_hit? hh).2.1
  simp only [Find.place, List.length_append]
  omega

variable (p)

/-- The finds in a text from left to right, where `escaped` says whether a backslash stands in front of it.
The next one is looked for behind what the last one has taken. -/
def finds (escaped : Bool) : Text → List Find
  | [] => []
  | c :: r => match _h : if escaped then none else p.find? (c :: r) with
    | some f => f :: finds (endsEscaping (upTo f.hit.rest (c :: r))) f.hit.rest
    | none => finds (c == '\\') r
termination_by t => t.length
decreasing_by
  · split at _h
    · cases _h
    · exact find?_length _h
  · simp

end Search

/-- A pass that looks for a command and does something to it: what it writes for the command, and what it
goes on from. -/
structure Rewriting extends Search where
  act? : Hit → Option (Text × Text)

namespace Rewriting

variable (p : Rewriting)

/-- The text with all finds dealt with. A find that starts in front of the text is passed over; it is part
of something that is written already. -/
def writeFrom (t : Text) : List Find → Text
  | [] => t
  | f :: fs =>
    if t.length < f.start.length then writeFrom t fs
    else match p.act? f.hit with
      | none => writeFrom t fs
      | some (new, rest) => upTo f.place t ++ new ++ writeFrom rest fs

def run (t : Text) : Text :=
  p.writeFrom t (p.finds false t)

end Rewriting

/-! ## Finds along the tokens -/

namespace Search

variable {p : Search}

theorem finds_cons_of_none {c : Char} {r : Text} (h : p.find? (c :: r) = none) (escaped : Bool) :
    p.finds escaped (c :: r) = p.finds (c == '\\') r := by
  rw [finds]
  split
  · next h' =>
    split at h'
    · cases h'
    · rw [h] at h'
      cases h'
  · rfl

theorem finds_escaped (c : Char) (r : Text) : p.finds true (c :: r) = p.finds (c == '\\') r := by
  rw [finds]
  split
  · next h' => cases h'
  · rfl

theorem finds_of_none {t : Text} (h : p.find? t = none) (escaped : Bool) :
    p.finds escaped t = p.finds false t := by
  cases t with
  | nil => rw [finds, finds]
  | cons c r => rw [finds_cons_of_none h, finds_cons_of_none h]

theorem finds_of_some {t : Text} {f : Find} (h : p.find? t = some f) :
    p.finds false t = f :: p.finds false f.hit.rest := by
  obtain ⟨-, ⟨run, e, -⟩, hh⟩ := eq_append_of_find? h
  obtain ⟨-, hne, hesc⟩ := eq_append_of_hit? hh
  have hup : endsEscaping (upTo f.hit.rest t) = false := by
    rw [e, Find.place, ← List.append_assoc, upTo_append, endsEscaping_append, if_neg hne, hesc]
  cases t with
  | nil =>
    rw [find?_nil] at h
    cases h
  | cons c r =>
    rw [finds]
    split
    · next g hg =>
      obtain rfl := Option.some.inj (h.symm.trans hg)
      rw [hup]
    · next hg =>
      rw [show p.find? (c :: r) = none from hg] at h
      cases h

theorem suffix_of_mem_finds {escaped : Bool} {t : Text} {f : Find} (hf : f ∈ p.finds escaped t) :
    f.place <:+ f.start ∧ f.start <:+ t := by
  fun_induction finds p escaped t with
  | case1 => cases hf
  | case2 escaped c r g hg ih =>
    split at hg
    · cases hg
    · obtain ⟨hs, ⟨run, e, -⟩, -⟩ := eq_append_of_find? hg
      have hp : g.place <:+ c :: r := ⟨run, e.symm⟩
      rcases List.mem_cons.mp hf with rfl | hf
      · rw [hs]
        exact ⟨hp, List.suffix_rfl⟩
      · obtain ⟨h₁, h₂⟩ := ih hf
        exact ⟨h₁, h₂.trans ((List.suffix_append _ _).trans hp)⟩
  | case3 escaped c r _ ih =>
    obtain ⟨h₁, h₂⟩ := ih hf
    exact ⟨h₁, h₂.trans (List.suffix_cons c r)⟩

theorem find?_eq {t u r : Text} (ht : ReadsToken t u r) (hu : u ≠ ['\\', '\\']) :
    p.find? t = (p.hit? t).map (⟨t, ·⟩) := by
  apply find?_of_not_pair
  rintro ⟨s, rfl⟩
  have hs : ReadsToken ('\\' :: '\\' :: s) ['\\', '\\'] s := .control rfl
  exact hu (ht.unique hs).1

theorem find?_char {c : Char} (hc : c ≠ '\\') (r : Text) : p.find? (c :: r) = none := by
  have hw : Tex.isWordControl [c] = false := by simp [Tex.isWordControl]
  have ht : ReadsToken (c :: r) [c] r := .char hc
  rw [find?_eq ht (by simp), hit?_of_not_isWordControl ht hw, Option.map_none]

theorem exists_append_of_not_mem {w r u v : Text} {x : Char} (hx : x ∉ w) (e : w ++ r = u ++ x :: v) :
    ∃ s, u = w ++ s ∧ r = s ++ x :: v := by
  rcases List.append_eq_append_iff.mp e with ⟨s, hu, hr⟩ | ⟨s, rfl, hs⟩
  · exact ⟨s, hu, hr⟩
  · cases s with
    | nil => exact ⟨[], by simp, by simpa using hs.symm⟩
    | cons y s =>
      obtain ⟨rfl, -⟩ := List.cons.inj hs
      exact absurd (List.mem_append_right u List.mem_cons_self) hx

/-- No find reaches over a character that none takes, and behind it the search starts afresh. -/
theorem exists_finds_append {x : Char} (hx : x ≠ '\\')
    (htaken : ∀ {t : Text} {h : Hit}, p.hit? t = some h → x ∉ h.taken) (v : Text) (escaped : Bool)
    (u : Text) : ∃ fs, p.finds escaped (u ++ x :: v) = fs ++ p.finds false v ∧
      ∀ f ∈ fs, v.length < f.start.length := by
  -- By the length of what is in front: a find takes some of it and leaves the character.
  induction hn : u.length using Nat.strongRecOn generalizing u escaped with
  | ind n ih =>
    cases u with
    | nil =>
      refine ⟨[], ?_, by simp⟩
      rw [List.nil_append, finds_cons_of_none (find?_char hx v), beq_eq_false_iff_ne.mpr hx, List.nil_append]
    | cons c u =>
      have htail := ih u.length (by simp [← hn]) (c == '\\') u rfl
      cases escaped with
      | true => rwa [List.cons_append, finds_escaped]
      | false =>
        cases hf : p.find? (c :: (u ++ x :: v)) with
        | none => rwa [List.cons_append, finds_cons_of_none hf]
        | some f =>
          obtain ⟨hs, ⟨run, e, hrun⟩, hh⟩ := eq_append_of_find? hf
          have hnot : x ∉ run ++ f.hit.taken := by
            rw [List.mem_append, not_or]
            exact ⟨fun hm => hx (hrun x hm), htaken hh⟩
          rw [Find.place, ← List.append_assoc] at e
          obtain ⟨s, hu, hr⟩ := exists_append_of_not_mem (u := c :: u) hnot e.symm
          have hlt : s.length < n := by
            have hpos := List.length_pos_iff.mpr (eq_append_of_hit? hh).2.1
            have hlen := congrArg List.length hu
            simp only [List.length_cons, List.length_append] at hlen hn
            omega
          obtain ⟨fs, hfs, hstart⟩ := ih s.length hlt false s rfl
          refine ⟨f :: fs, ?_, List.forall_mem_cons.mpr ⟨?_, hstart⟩⟩
          · rw [List.cons_append, finds_of_some hf, hr, hfs, List.cons_append]
          · rw [hs]
            simp
            omega

end Search

namespace Rewriting

variable {p : Rewriting}

theorem upTo_cons {c : Char} {r s : Text} (hs : s <:+ r) : upTo s (c :: r) = c :: upTo s r := by
  obtain ⟨u, rfl⟩ := hs
  rw [upTo_append, ← List.cons_append, upTo_append]

theorem writeFrom_cons (c : Char) {r : Text} {fs : List Find}
    (hfs : ∀ f ∈ fs, f.place <:+ f.start ∧ f.start <:+ r) :
    p.writeFrom (c :: r) fs = c :: p.writeFrom r fs := by
  induction fs with
  | nil => rfl
  | cons f fs ih =>
    obtain ⟨⟨hp, hs⟩, hfs⟩ := List.forall_mem_cons.mp hfs
    have hle := hs.length_le
    rw [writeFrom, writeFrom, if_neg (by simp; omega), if_neg (by omega)]
    cases p.act? f.hit with
    | none => exact ih hfs
    | some a => simp only [upTo_cons (hp.trans hs), List.cons_append]

theorem writeFrom_append {t : Text} {fs : List Find} (hfs : ∀ f ∈ fs, t.length < f.start.length)
    (gs : List Find) : p.writeFrom t (fs ++ gs) = p.writeFrom t gs := by
  induction fs with
  | nil => rfl
  | cons f fs ih =>
    obtain ⟨hf, hfs⟩ := List.forall_mem_cons.mp hfs
    rw [List.cons_append, writeFrom, if_pos hf, ih hfs]

theorem writeFrom_finds_append (u r : Text) (escaped : Bool) :
    p.writeFrom (u ++ r) (p.finds escaped r) = u ++ p.writeFrom r (p.finds escaped r) := by
  induction u with
  | nil => rfl
  | cons c u ih =>
    have hfs : ∀ f ∈ p.finds escaped r, f.place <:+ f.start ∧ f.start <:+ u ++ r := fun f hf =>
      (Search.suffix_of_mem_finds hf).imp_right (·.trans (List.suffix_append u r))
    rw [List.cons_append, writeFrom_cons c hfs, ih, List.cons_append]

theorem run_nil : p.run [] = [] := by
  rw [run, Search.finds, writeFrom]

theorem run_char {c : Char} (hc : c ≠ '\\') (r : Text) : p.run (c :: r) = c :: p.run r := by
  rw [run, Search.finds_cons_of_none (Search.find?_char hc r), beq_eq_false_iff_ne.mpr hc]
  exact writeFrom_finds_append [c] r false

theorem run_append {u : Text} (hu : ∀ c ∈ u, c ≠ '\\') (r : Text) : p.run (u ++ r) = u ++ p.run r := by
  induction u with
  | nil => rfl
  | cons c u ih =>
    obtain ⟨hc, hu⟩ := List.forall_mem_cons.mp hu
    rw [List.cons_append, run_char hc, ih hu, List.cons_append]

theorem run_of_find? {t : Text} {f : Find} (h : p.find? t = some f) :
    p.run t = match p.act? f.hit with
      | none => p.writeFrom t (p.finds false f.hit.rest)
      | some (new, rest) => upTo f.place t ++ new ++ p.writeFrom rest (p.finds false f.hit.rest) := by
  have hs := (Search.eq_append_of_find? h).1
  rw [run, Search.finds_of_some h, writeFrom, if_neg (by rw [hs]; omega)]

/-- A line break is copied, whether or not the run of backslashes goes on to a command. -/
theorem run_pair (r : Text) : p.run ('\\' :: '\\' :: r) = '\\' :: '\\' :: p.run r := by
  have hpair := p.find?_pair r
  cases h : p.find? r with
  | none =>
    rw [h, Option.map_none] at hpair
    have hfs : p.finds false ('\\' :: '\\' :: r) = p.finds false r := by
      rw [Search.finds_cons_of_none hpair]
      exact (Search.finds_escaped '\\' r).trans (Search.finds_of_none h _)
    rw [run, hfs]
    exact writeFrom_finds_append ['\\', '\\'] r false
  | some f =>
    rw [h, Option.map_some] at hpair
    obtain ⟨-, ⟨run, rfl, -⟩, -⟩ := Search.eq_append_of_find? h
    rw [run_of_find? h, run_of_find? hpair]
    cases p.act? f.hit with
    | none =>
      have hrest : run ++ f.place = (run ++ f.hit.taken) ++ f.hit.rest := by
        rw [Find.place, List.append_assoc]
      simp only [hrest, ← List.cons_append, writeFrom_finds_append]
    | some a =>
      have hup : upTo (Find.place ⟨'\\' :: '\\' :: (run ++ f.place), f.hit⟩)
          ('\\' :: '\\' :: (run ++ f.place)) = '\\' :: '\\' :: run :=
        upTo_append ('\\' :: '\\' :: run) f.place
      simp only [hup, upTo_append, List.cons_append]

/-- The pass finds its way back to the finds of what it goes on from, and takes no backslash where it
leaves a command alone. -/
structure InStep (p : Rewriting) : Prop where
  resumes : ∀ {h new rest}, p.act? h = some (new, rest) → p.writeFrom rest (p.finds false h.rest) = p.run rest
  leaves : ∀ {t taken argument rest}, p.behind? t = some (argument, rest) →
    p.act? ⟨taken, argument, rest⟩ = none → ∀ c ∈ upTo rest t, c ≠ '\\'

def answer? (p : Rewriting) (u r : Text) : Option (Text × Text) :=
  if u ∈ p.names then
    (p.behind? r).bind fun (argument, rest) => p.act? ⟨u ++ upTo rest r, argument, rest⟩
  else none

theorem answer?_of_mem {u r argument rest : Text} (hu : u ∈ p.names)
    (hb : p.behind? r = some (argument, rest)) :
    p.answer? u r = p.act? ⟨u ++ upTo rest r, argument, rest⟩ := by
  rw [answer?, if_pos hu, hb, Option.bind_some]

theorem answer?_eq_none {u r : Text} (h : u ∈ p.names → ∀ {argument rest},
    p.behind? r = some (argument, rest) → p.act? ⟨u ++ upTo rest r, argument, rest⟩ = none) :
    p.answer? u r = none := by
  rw [answer?]
  split
  · next hu =>
    cases hb : p.behind? r with
    | none => rfl
    | some a => exact h hu hb
  · rfl

theorem answer?_eq {t u r : Text} (ht : ReadsToken t u r) :
    p.answer? u r = (p.hit? t).bind p.act? := by
  rw [Search.hit?_eq ht, answer?]
  split
  · cases hb : p.behind? r with
    | none => rfl
    | some a =>
      obtain ⟨v, rfl, -⟩ := p.taken hb
      have hup : upTo a.2 t = u ++ v := by
        rw [ht.eq_append, ← List.append_assoc, upTo_append]
      simp only [Option.bind_some, Option.map_some, hup, upTo_append]
  · rfl

theorem run_escape {d : Char} (hd : d ≠ '\\') {r : Text} (h : p.find? ('\\' :: d :: r) = none) :
    p.run ('\\' :: d :: r) = '\\' :: d :: p.run r := by
  have hfs : p.finds false ('\\' :: d :: r) = p.finds false r := by
    rw [Search.finds_cons_of_none h, beq_self_eq_true, Search.finds_escaped, beq_eq_false_iff_ne.mpr hd]
  rw [run, hfs]
  exact writeFrom_finds_append ['\\', d] r false

theorem run_of_hit?_eq_none {t u r : Text} (ht : ReadsToken t u r) (h : p.hit? t = none) :
    p.run t = u ++ p.run r := by
  by_cases hu : u = ['\\', '\\']
  · rw [ht.eq_append, hu]
    exact run_pair r
  · have hf : p.find? t = none := by rw [Search.find?_eq ht hu, h, Option.map_none]
    cases ht with
    | char hc => exact run_char hc _
    | backslash =>
      rw [run, Search.finds_cons_of_none hf, Search.finds, writeFrom, run_nil]
      rfl
    | control hc =>
      rw [(eq_append_of_control? hc).1] at hf ⊢
      rcases control?_cases hc with ⟨hw, -⟩ | ⟨c, rfl, -⟩
      · obtain ⟨d, w, rfl, hletters⟩ := exists_letters_of_isWordControl hw
        have hne : ∀ e ∈ d :: w, e ≠ '\\' := by
          rintro e he rfl
          exact absurd (hletters _ he) (by decide)
        obtain ⟨hd, hw⟩ := List.forall_mem_cons.mp hne
        exact (run_escape hd hf).trans (by rw [List.append_eq, run_append hw]; rfl)
      · have hd : c ≠ '\\' := by
          rintro rfl
          exact hu rfl
        exact run_escape hd hf

theorem run_of_hit? {t u r : Text} (ht : ReadsToken t u r) {h : Hit} (hh : p.hit? t = some h) :
    p.run t = match p.act? h with
      | none => p.writeFrom t (p.finds false h.rest)
      | some (new, rest) => new ++ p.writeFrom rest (p.finds false h.rest) := by
  have hu : u ≠ ['\\', '\\'] := by
    rintro rfl
    rw [Search.hit?_of_not_isWordControl ht rfl] at hh
    cases hh
  have hf : p.find? t = some ⟨t, h⟩ := by rw [Search.find?_eq ht hu, hh, Option.map_some]
  have hup : upTo (Find.place ⟨t, h⟩) t = [] := by
    rw [Find.place, ← (Search.eq_append_of_hit? hh).1]
    exact upTo_append [] t
  rw [run_of_find? hf, hup]
  rfl

namespace InStep

variable (hp : p.InStep) {t u r : Text} (ht : ReadsToken t u r)

include hp ht

theorem run_of_none (h : p.answer? u r = none) : p.run t = u ++ p.run r := by
  cases hh : p.hit? t with
  | none => exact run_of_hit?_eq_none ht hh
  | some f =>
    have ha : p.act? f = none := by rwa [answer?_eq ht, hh, Option.bind_some] at h
    obtain ⟨name, -, s, hs, hb, -⟩ := Search.exists_readsToken_of_hit? hh
    obtain ⟨rfl, rfl⟩ := hs.unique ht
    obtain ⟨v, rfl, -⟩ := p.taken hb
    have hv := hp.leaves hb ha
    rw [upTo_append] at hv
    rw [run_of_hit? ht hh, ha, run_append hv, ht.eq_append, ← List.append_assoc, ← List.append_assoc]
    exact writeFrom_finds_append _ f.rest false

theorem run_of_some {new rest : Text} (h : p.answer? u r = some (new, rest)) :
    p.run t = new ++ p.run rest := by
  rw [answer?_eq ht] at h
  obtain ⟨f, hh, ha⟩ := Option.bind_eq_some_iff.mp h
  rw [run_of_hit? ht hh, ha, ← hp.resumes ha]

end InStep

end Rewriting

end Formula.Tex
