import Formula.Text.Blank

/-! # Groups

A group is a text in braces. Inside it braces are balanced, and a backslash takes the next character
with it, so that an escaped brace neither opens nor closes anything.
-/

namespace Formula.Tex

/-- The text up to the brace that closes `depth` groups opened before and one more, and what follows
that brace. -/
def close? (depth : Nat) : Text → Option (Text × Text)
  | [] => none
  | c :: r =>
    if c = '\\' then match r with
      | [] => none
      | d :: r => (close? depth r).map fun (t, rest) => (c :: d :: t, rest)
    else if c = '{' then (close? (depth + 1) r).map fun (t, rest) => (c :: t, rest)
    else if c = '}' then match depth with
      | 0 => some ([], r)
      | depth + 1 => (close? depth r).map fun (t, rest) => (c :: t, rest)
    else (close? depth r).map fun (t, rest) => (c :: t, rest)

@[simp] theorem close?_nil (depth : Nat) : close? depth [] = none := by
  cases depth <;> rfl

@[simp] theorem close?_escape (depth : Nat) (c : Char) (r : Text) :
    close? depth ('\\' :: c :: r) =
      (close? depth r).map fun (t, rest) => ('\\' :: c :: t, rest) := by
  rw [close?.eq_def]
  simp

@[simp] theorem close?_open (depth : Nat) (r : Text) :
    close? depth ('{' :: r) = (close? (depth + 1) r).map fun (t, rest) => ('{' :: t, rest) := by
  rw [close?.eq_def]
  simp

@[simp] theorem close?_shut (r : Text) : close? 0 ('}' :: r) = some ([], r) := by
  rw [close?.eq_def]
  simp

@[simp] theorem close?_shut_succ (depth : Nat) (r : Text) :
    close? (depth + 1) ('}' :: r) = (close? depth r).map fun (t, rest) => ('}' :: t, rest) := by
  rw [close?.eq_def]
  simp

theorem close?_char {c : Char} (hb : c ≠ '\\') (ho : c ≠ '{') (hc : c ≠ '}') (depth : Nat)
    (r : Text) : close? depth (c :: r) = (close? depth r).map fun (t, rest) => (c :: t, rest) := by
  rw [close?.eq_def]
  simp [hb, ho, hc]

def braced (t : Text) : Text :=
  '{' :: t ++ ['}']

def group? : Text → Option (Text × Text)
  | [] => none
  | c :: r => if c = '{' then close? 0 r else none

theorem eq_append_of_close? {depth : Nat} {t content rest : Text}
    (h : close? depth t = some (content, rest)) : t = content ++ '}' :: rest := by
  fun_induction close? depth t generalizing content <;> simp_all <;> grind

theorem eq_append_of_group? {t content rest : Text} (h : group? t = some (content, rest)) :
    t = braced content ++ rest := by
  match t with
  | [] => simp [group?] at h
  | c :: r =>
    simp only [group?] at h
    split at h
    · next hc => simp [hc, braced, eq_append_of_close? h]
    · simp at h

theorem group?_length {t content rest : Text} (h : group? t = some (content, rest)) :
    content.length + rest.length + 2 = t.length := by
  rw [eq_append_of_group? h]
  simp only [braced, List.length_append, List.length_cons, List.length_nil]
  omega

end Formula.Tex
