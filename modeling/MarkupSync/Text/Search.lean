import MarkupSync.Text.Basic

/-!
# Searching texts

* `Text.lower`: ASCII letters in lower case;
* `Text.cut?`: the text before and after the first occurrence of a word
  (`eq_of_cut?_eq_some`);
* `Text.replaceAll`: every occurrence replaced;
* `Text.lineStart`: where the line of a position starts;
* `Text.indentBefore?`, `Text.lineIndent`: the indentation in front of a place and of its line;
* `Text.indented`: the lines of a text behind the first one put further in.
-/

namespace MarkupSync.Text

/-- ASCII letters in lower case. -/
def lower (s : Text) : Text := s.map Char.toLower

/-- Split a text after the word `w`, if it starts with it. -/
def afterWord? : Text → Text → Option Text
  | [], s => some s
  | _ :: _, [] => none
  | d :: w, c :: s => if d = c then afterWord? w s else none

theorem eq_of_afterWord? {w s r : Text} (h : afterWord? w s = some r) : s = w ++ r := by
  fun_induction afterWord? w s with
  | case1 s => simpa using h
  | case2 => simp at h
  | case3 d w s ih => simp [ih h]
  | case4 => simp at h

@[simp] theorem afterWord?_append (w r : Text) : afterWord? w (w ++ r) = some r := by
  induction w with
  | nil => simp [afterWord?]
  | cons c w ih => simp [afterWord?, ih]

/-- Whether a text starts with the word `w`. -/
def startsWith (w s : Text) : Bool := (afterWord? w s).isSome

/-- Whether a text ends with the word `w`. -/
def endsWith (w s : Text) : Bool := startsWith w.reverse s.reverse

/-- The text before and the text after the first occurrence of the word `w`. -/
def cut? (w : Text) : Text → Option (Text × Text)
  | [] => if w = [] then some ([], []) else none
  | c :: s =>
    match afterWord? w (c :: s) with
    | some r => some ([], r)
    | none => extend [c] (cut? w s)

/-- Cutting at a word takes the word out and nothing else. -/
theorem eq_of_cut?_eq_some {w s p r : Text} (h : cut? w s = some (p, r)) : s = p ++ w ++ r := by
  induction s generalizing p with
  | nil =>
    simp only [cut?] at h
    split at h <;> simp_all
  | cons c s ih =>
    simp only [cut?] at h
    split at h
    next t ht =>
      obtain ⟨rfl, rfl⟩ := Prod.mk.inj (Option.some.inj h)
      simpa using eq_of_afterWord? ht
    next =>
      obtain ⟨p', h', rfl⟩ := extend_eq_some.1 h
      simp [ih h']

/-- The byte offset of the first occurrence of the word `w`. -/
def find? (w s : Text) : Option Nat := (cut? w s).map fun (p, _) => width p

/-- Whether the word `w` occurs. -/
def containsWord (w s : Text) : Bool := (cut? w s).isSome

/-- Replace every occurrence of the word `w`, from the left; `copied` characters of the word just
replaced are still to be dropped. -/
def replaceFrom (w new : Text) : Nat → Text → Text
  | _, [] => []
  | n + 1, _ :: s => replaceFrom w new n s
  | 0, c :: s =>
    if startsWith w (c :: s) then new ++ replaceFrom w new (w.length - 1) s
    else c :: replaceFrom w new 0 s

/-- Put `new` before every character and at the end. -/
def interleave (new : Text) : Text → Text
  | [] => new
  | c :: s => new ++ c :: interleave new s

/-- Every occurrence of the word `w` replaced by `new`; the empty word stands between all
characters. -/
def replaceAll (w new s : Text) : Text :=
  if w = [] then interleave new s else replaceFrom w new 0 s

/-- Every character `c` replaced by the text `new`. -/
def replaceChar (c : Char) (new : Text) : Text → Text
  | [] => []
  | d :: s => if d = c then new ++ replaceChar c new s else d :: replaceChar c new s

/-- The part of a text after its last line feed. -/
def lastLine (s : Text) : Text := (s.reverse.takeWhile (· != '\n')).reverse

/-- The offset at which the line of byte `n` starts. -/
def lineStart (n : Nat) (s : Text) : Nat :=
  let p := before n s
  width p - width (lastLine p)

end MarkupSync.Text

namespace MarkupSync

/-! ## Indentation -/

/-- Space and tab. -/
def isIndent (c : Char) : Bool := c == ' ' || c == '\t'

namespace Text

/-- The text between the start of the line and byte `n`, if it is only indentation. -/
def indentBefore? (n : Nat) (s : Text) : Option Text :=
  let front := lastLine (before n s)
  if front.all isIndent then some front else none

/-- The indentation of the line of byte `n`. -/
def lineIndent (n : Nat) (s : Text) : Text := (after (lineStart n s) s).takeWhile isIndent

/-- Indent all lines but the first. -/
def indented (indent s : Text) : Text := replaceChar '\n' ('\n' :: indent) s

end Text

end MarkupSync
