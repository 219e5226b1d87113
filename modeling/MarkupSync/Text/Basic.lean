/-!
# Texts and byte positions

A text is the list of its characters. Every position in it is the number of bytes that the UTF-8
form of the characters before it takes, so a range of a text is a pair of byte offsets.

* `Text`, `width`: texts and their length in bytes;
* `Text.before`, `Text.after`, `Text.slice`: cutting a text at byte offsets;
* `Text.Boundary`: the offsets that lie between two characters;
* `Span`: a range of bytes.
-/

namespace MarkupSync

/-- A text, as the list of its characters. -/
abbrev Text := List Char

/-- The number of bytes of the UTF-8 form of a text. -/
def width : Text → Nat
  | [] => 0
  | c :: s => c.utf8Size + width s

@[simp] theorem width_nil : width [] = 0 := rfl

@[simp] theorem width_cons (c : Char) (s : Text) : width (c :: s) = c.utf8Size + width s := rfl

@[simp] theorem width_append (s t : Text) : width (s ++ t) = width s + width t := by
  induction s with
  | nil => simp
  | cons c s ih => simp [ih, Nat.add_assoc]

/-- A text of no bytes is empty. -/
theorem width_eq_zero {s : Text} : width s = 0 ↔ s = [] := by
  cases s with
  | nil => simp
  | cons c s => have := Char.utf8Size_pos c; simp; omega

namespace Text

/-- The characters that start before byte `n`. -/
def before : Nat → Text → Text
  | _, [] => []
  | n, c :: s => if n = 0 then [] else c :: before (n - c.utf8Size) s

/-- The characters that start at byte `n` or later. -/
def after : Nat → Text → Text
  | _, [] => []
  | n, c :: s => if n = 0 then c :: s else after (n - c.utf8Size) s

/-- The characters between the bytes `a` and `b`. -/
def slice (a b : Nat) (s : Text) : Text := before (b - a) (after a s)

/-- Whether byte `n` lies between two characters or at an end of the text. -/
def isBoundary : Nat → Text → Bool
  | 0, _ => true
  | _ + 1, [] => false
  | n + 1, c :: s => c.utf8Size ≤ n + 1 && isBoundary (n + 1 - c.utf8Size) s

/-- The offset `n` lies between two characters. -/
def Boundary (n : Nat) (s : Text) : Prop := ∃ p q, s = p ++ q ∧ width p = n

@[simp] theorem before_zero (s : Text) : before 0 s = [] := by cases s <;> simp [before]

@[simp] theorem after_zero (s : Text) : after 0 s = s := by cases s <;> simp [after]

theorem before_append_after (n : Nat) (s : Text) : before n s ++ after n s = s := by
  induction s generalizing n with
  | nil => simp [before, after]
  | cons c s ih => by_cases h : n = 0 <;> simp [before, after, h, ih]

@[simp] theorem before_width_append (p q : Text) : before (width p) (p ++ q) = p := by
  induction p with
  | nil => simp
  | cons c p ih =>
    have := Nat.ne_of_gt (Char.utf8Size_pos c)
    simp [before, ih, this]

@[simp] theorem after_width_append (p q : Text) : after (width p) (p ++ q) = q := by
  induction p with
  | nil => simp
  | cons c p ih =>
    have := Nat.ne_of_gt (Char.utf8Size_pos c)
    simp [after, ih, this]

/-- The slice between two boundaries is what stands there. -/
theorem slice_append (p m q : Text) : slice (width p) (width p + width m) (p ++ m ++ q) = m := by
  simp [slice, List.append_assoc]

theorem isBoundary_iff {n : Nat} {s : Text} : isBoundary n s = true ↔ Boundary n s := by
  fun_induction isBoundary n s with
  | case1 s => exact ⟨fun _ => ⟨[], s, rfl, rfl⟩, fun _ => rfl⟩
  | case2 n =>
    simp only [Bool.false_eq_true, false_iff, Boundary]
    rintro ⟨p, q, h, hw⟩
    obtain ⟨rfl, rfl⟩ := List.append_eq_nil_iff.1 h.symm
    simp at hw
  | case3 n c s ih =>
    simp only [Bool.and_eq_true, decide_eq_true_eq, ih, Boundary]
    constructor
    · rintro ⟨hc, p, q, rfl, hw⟩
      exact ⟨c :: p, q, rfl, by simp [hw]; omega⟩
    · rintro ⟨p, q, h, hw⟩
      cases p with
      | nil => simp at hw
      | cons d p =>
        obtain ⟨rfl, rfl⟩ := List.cons.inj h
        simp only [width_cons] at hw
        exact ⟨by omega, p, q, rfl, by omega⟩

/-- Characters put in front of the first part of a text cut in two. -/
def extend (q : Text) (cut : Option (Text × Text)) : Option (Text × Text) :=
  cut.map fun (p, r) => (q ++ p, r)

theorem extend_eq_some {q p r : Text} {cut : Option (Text × Text)} :
    extend q cut = some (p, r) ↔ ∃ p', cut = some (p', r) ∧ p = q ++ p' := by
  simp only [extend, Option.map_eq_some_iff, Prod.mk.injEq, Prod.exists]
  constructor
  · rintro ⟨p', r', h, rfl, rfl⟩
    exact ⟨p', h, rfl⟩
  · rintro ⟨p', h, rfl⟩
    exact ⟨p', r, h, rfl, rfl⟩

end Text

/-- A range of bytes, from `start` up to and without `stop`. -/
structure Span where
  start : Nat
  stop : Nat
  deriving Repr, DecidableEq, Inhabited

namespace Span

/-- The number of bytes in a range. -/
def length (r : Span) : Nat := r.stop - r.start

/-- The range moved by `n` bytes. -/
def shift (n : Nat) (r : Span) : Span := ⟨r.start + n, r.stop + n⟩

/-- The range lies within `outer`. -/
def Within (r outer : Span) : Prop := outer.start ≤ r.start ∧ r.stop ≤ outer.stop

instance (r outer : Span) : Decidable (r.Within outer) := inferInstanceAs (Decidable (_ ∧ _))

end Span

/-- The characters in a range of bytes. -/
def Text.at (r : Span) (s : Text) : Text := Text.slice r.start r.stop s

end MarkupSync
