import MarkupSync.Proofs.Document.JsxNormal
import MarkupSync.Proofs.Document.Regular
import MarkupSync.Proofs.Lexeme.Places

/-!
# What lexemes are made of

* `Flavor.Makes`: what all attributes of tags have (`Flavor.Makes.of_tagBody`);
* `RawAttribute.IsOf`: names are words, and braces stand in JSX only;
* `OpenTag.IsOf`, `Lexeme.IsOf`: the lexemes of a flavor;
* **`isOf_of_mem_scan`**: the lexemes of a text;
* `RawAttribute.IsJsx`, `Lexeme.IsJsx`: what stands in braces ends at the brace that closes the
  first one (`makes_isJsx`, **`isJsx_of_mem_scan`**);
* `Scan.upTo`: the lexemes up to a byte;
* **`pairwise_stop_scan`**, `Scan.upTo_eq`: every lexeme stops behind those in front of it.
-/

namespace MarkupSync

open Text

variable {flavor : Flavor}

/-! ## Attributes -/

/-- What waits for a value is a word. -/
def Waiting.IsNamed : Waiting → Prop
  | nothing => True
  | value name _ | valueAfterEquals name _ => IsWord name

/-- A property that words have, words with the values of tags, and the braces of tags. -/
structure Flavor.Makes (flavor : Flavor) (P : RawAttribute → Prop) : Prop where
  name : ∀ {name span}, IsWord name → P ⟨name, span, none⟩
  value : ∀ {name span vspan quoting s content p r}, IsWord name →
    tagHead? flavor s = some (.value quoting content p r) →
    P ⟨name, span, some ⟨content, vspan, quoting⟩⟩
  braces : ∀ {span s content p r}, tagHead? flavor s = some (.value .braces content p r) →
    P ⟨p, span, none⟩

namespace Flavor.Makes

variable {P : RawAttribute → Prop} (hP : flavor.Makes P)
include hP

theorem of_valueless {w : Waiting} (hw : w.IsNamed) : ∀ a ∈ w.valueless, P a := by
  cases w with
  | nothing => exact List.forall_mem_nil _
  | value | valueAfterEquals => exact List.forall_mem_singleton.2 (hP.name hw)

theorem of_take {w v : Waiting} (hw : w.IsNamed) {quoting : Quoting} {s content piece r : Text}
    {n : Nat} {as : List RawAttribute}
    (hs : tagHead? flavor s = some (.value quoting content piece r))
    (h : w.take quoting content piece n = .ok (as, v)) : v.IsNamed ∧ ∀ a ∈ as, P a := by
  cases w with
  | valueAfterEquals name span =>
    cases h
    exact ⟨trivial, List.forall_mem_singleton.2 (hP.value hw hs)⟩
  | nothing | value =>
    cases quoting <;> cases h
    · exact ⟨(isWord_of_tagHead? hs).1, hP.of_valueless hw⟩
    · exact ⟨trivial, List.forall_mem_append.2
        ⟨hP.of_valueless hw, List.forall_mem_singleton.2 (hP.braces hs)⟩⟩

/-- The attributes of a tag have the property. -/
theorem of_tagBody {n : Nat} {w : Waiting} {s : Text} {b : TagBody}
    (h : tagBody flavor n w s = .ok b) (hw : w.IsNamed) : ∀ a ∈ b.attributes, P a := by
  fun_induction tagBody flavor n w s generalizing b with
  | case1 | case6 | case7 => cases h
  | case2 n w s piece rest hs ih | case3 n w s piece rest hs ih => exact ih h hw
  | case5 n s piece rest hs name span ih => exact ih h hw
  | case4 n w s selfClosing piece rest hs =>
    cases h
    exact hP.of_valueless hw
  | case8 n w s quoting content piece rest hs done w' hw' ih =>
    cases ht : tagBody flavor (n + width piece) w' rest with
    | error e => rw [ht] at h; cases h
    | ok u =>
      rw [ht] at h
      cases h
      obtain ⟨hnamed, hdone⟩ := hP.of_take hw hs hw'
      exact List.forall_mem_append.2 ⟨hdone, ih ht hnamed⟩

end Flavor.Makes

/-- The name of an attribute is a word, or what JSX has in braces, without a value; a value in
braces stands in JSX only. -/
structure RawAttribute.IsOf (flavor : Flavor) (a : RawAttribute) : Prop where
  name : IsWord a.name ∨ flavor = .jsx ∧ a.value = none
  value : ∀ v ∈ a.value, v.quoting = .braces → flavor = .jsx

/-- Only JSX reads values in braces. -/
theorem eq_jsx_of_tagHead? {s content p r : Text}
    (h : tagHead? flavor s = some (.value .braces content p r)) : flavor = .jsx := by
  revert h
  fun_cases tagHead? flavor s with
  | case6 | case7 =>
    intro h
    obtain ⟨_, _, h⟩ := Option.map_eq_some_iff.1 h
    cases h
  | case10 => exact fun _ => rfl
  | _ => rintro ⟨⟩

/-- **The attributes of a flavor.** -/
theorem makes_isOf : flavor.Makes (RawAttribute.IsOf flavor) where
  name hname := ⟨.inl hname, by simp⟩
  value hname hs := by
    refine ⟨.inl hname, ?_⟩
    rintro _ ⟨⟩ rfl
    exact eq_jsx_of_tagHead? hs
  braces hs := ⟨.inr ⟨eq_jsx_of_tagHead? hs, rfl⟩, by simp⟩

/-! ## Lexemes -/

/-- A tag has the name of a tag, and its content is kept as it is written only if its name says so
and no close tag of it starts in there. -/
structure OpenTag.IsOf (flavor : Flavor) (t : OpenTag) : Prop where
  name : IsTagName t.name
  attributes : ∀ a ∈ t.attributes, a.IsOf flavor
  raw : ∀ r ∈ t.raw, isRaw t.name = true ∧ IsRawContent t.name r.1

/-- Tags are such tags, and HTML has no expressions. -/
def Lexeme.IsOf (flavor : Flavor) : Lexeme → Prop
  | .openTag t => t.IsOf flavor
  | .expression .. => flavor = .jsx
  | .closeTag .. | .fragmentOpen _ | .fragmentClose _ | .text .. => True

theorem isOf_of_openTag {n stop : Nat} {name s rest : Text} {t : OpenTag} (hname : IsTagName name)
    (h : openTag flavor n name s = .ok (t, stop, rest)) : t.IsOf flavor := by
  simp only [openTag] at h
  split at h
  · cases h
  next b hb =>
    have hattrs := makes_isOf.of_tagBody hb trivial
    split at h
    next hraw =>
      simp only [Bool.and_eq_true] at hraw
      split at h
      · cases h
      next content r hcontent =>
        cases h
        refine ⟨hname, hattrs, fun x hx => ?_⟩
        obtain ⟨-, ⟨⟩⟩ := Option.ite_none_left_eq_some.1 hx
        exact ⟨hraw.2, (isRawContent_of_rawContent? hname hcontent).1⟩
    next =>
      cases h
      exact ⟨hname, hattrs, by simp⟩

/-- **The lexemes of a text.** -/
theorem isOf_of_mem_scan {n : Nat} {s : Text} {l : Lexeme} (h : l ∈ (scan flavor n s).lexemes) :
    l.IsOf flavor := by
  fun_induction scan flavor n s with
  | case1 | case2 | case4 => cases h
  | case3 n s p r hs ih => exact ih h
  | case5 n s name p r hs t stop u ht ih =>
    obtain rfl | h := List.mem_cons.1 h
    · exact isOf_of_openTag (name_of_contentHead hs).2 ht
    · exact ih h
  | case9 n s p r hs stop ih =>
    obtain rfl | h := List.mem_cons.1 h
    · cases flavor with
      | html => exact absurd hs contentHead_ne_expression
      | jsx => rfl
    · exact ih h
  | case6 _ _ _ _ _ _ _ ih | case7 _ _ _ _ _ _ ih | case8 _ _ _ _ _ _ ih
  | case10 _ _ _ _ _ _ _ _ ih =>
    obtain rfl | h := List.mem_cons.1 h
    · trivial
    · exact ih h

/-! ## Code -/

/-- The name is a word, or code in braces that stands in place of a name and a value, and a value in
braces is code. -/
structure RawAttribute.IsJsx (a : RawAttribute) : Prop where
  name : IsWord a.name ∨ IsClosed a.name ∧ a.value = none
  value : ∀ v ∈ a.value, v.quoting = .braces → IsClosed ('\x7b' :: v.text ++ ['\x7d'])

/-- Whether the value of an attribute is code. -/
def RawAttribute.isCode (a : RawAttribute) : Bool := a.value.any (·.quoting == .braces)

/-- What is read up to the brace that closes an open one is closed by itself. -/
theorem isClosed_of_closeBraces? {s p r : Text} (h : closeBraces? s = some (p, r)) :
    IsClosed ('\x7b' :: p) := by
  have := closeBraces?_congr h []
  rw [List.append_nil] at this
  exact ⟨rfl, this⟩

theorem IsClosed.isExpression {t : Text} (h : IsClosed t) : isExpression t = true := by
  obtain ⟨s, rfl, hs⟩ := h.exists_cons
  obtain ⟨u, rfl⟩ := exists_of_closeFrom hs
  exact isExpression_braces u

theorem isClosed_of_tagHead? {s content p r : Text}
    (h : tagHead? .jsx s = some (.value .braces content p r)) :
    IsClosed p ∧ p = '\x7b' :: content ++ ['\x7d'] := by
  refine ⟨?_, (isWritten_of_tagHead? h).1⟩
  revert h
  generalize hflavor : Flavor.jsx = flavor
  fun_cases tagHead? flavor s with
  | case6 | case7 =>
    intro h
    obtain ⟨_, _, ⟨⟩⟩ := Option.map_eq_some_iff.1 h
  | case10 =>
    intro h
    obtain ⟨⟨q, _⟩, hclose, ⟨⟩⟩ := Option.map_eq_some_iff.1 h
    exact isClosed_of_closeBraces? hclose
  | _ => rintro ⟨⟩

/-- **The attributes of JSX.** -/
theorem makes_isJsx : Flavor.jsx.Makes RawAttribute.IsJsx where
  name hname := ⟨.inl hname, by simp⟩
  value hname hs := by
    refine ⟨.inl hname, ?_⟩
    rintro _ ⟨⟩ rfl
    obtain ⟨hclosed, heq⟩ := isClosed_of_tagHead? hs
    exact heq ▸ hclosed
  braces hs := ⟨.inr ⟨(isClosed_of_tagHead? hs).1, rfl⟩, by simp⟩

/-- Tags have names and attributes of JSX, no content is kept as it is written, and expressions are
code. -/
def Lexeme.IsJsx : Lexeme → Prop
  | .openTag t => IsTagName t.name ∧ t.raw = none ∧ ∀ a ∈ t.attributes, a.IsJsx
  | .expression content _ => IsClosed content
  | .closeTag .. | .fragmentOpen _ | .fragmentClose _ | .text .. => True

theorem isJsx_of_openTag {n stop : Nat} {name s rest : Text} {t : OpenTag} (hname : IsTagName name)
    (h : openTag .jsx n name s = .ok (t, stop, rest)) : (Lexeme.openTag t).IsJsx := by
  simp only [openTag] at h
  split at h
  · cases h
  next b hb =>
    rw [if_neg (by simp)] at h
    cases h
    exact ⟨hname, rfl, makes_isJsx.of_tagBody hb trivial⟩

theorem isClosed_of_contentHead {s p r : Text}
    (h : contentHead .jsx s = .ok (some (.expression p r))) : IsClosed p := by
  revert h
  generalize hflavor : Flavor.jsx = flavor
  fun_cases contentHead flavor s with
  | case2 _ t =>
    intro h
    cases ha : angleHead t with
    | error => rw [ha] at h; cases h
    | ok k =>
      rw [ha] at h
      cases h
      exact absurd ha angleHead_ne_expression
  | case3 s p rest hclose =>
    rintro ⟨⟩
    exact isClosed_of_closeBraces? hclose
  | _ => rintro ⟨⟩

/-- **The lexemes of JSX.** -/
theorem isJsx_of_mem_scan {n : Nat} {s : Text} {l : Lexeme} (h : l ∈ (scan .jsx n s).lexemes) :
    l.IsJsx := by
  fun_induction scan .jsx n s with
  | case1 | case2 | case4 => cases h
  | case3 n s p r hs ih => exact ih h
  | case5 n s name p r hs t stop u ht ih =>
    obtain rfl | h := List.mem_cons.1 h
    · exact isJsx_of_openTag (name_of_contentHead hs).2 ht
    · exact ih h
  | case9 n s p r hs stop ih =>
    obtain rfl | h := List.mem_cons.1 h
    · exact isClosed_of_contentHead hs
    · exact ih h
  | case6 _ _ _ _ _ _ _ ih | case7 _ _ _ _ _ _ ih | case8 _ _ _ _ _ _ ih
  | case10 _ _ _ _ _ _ _ _ ih =>
    obtain rfl | h := List.mem_cons.1 h
    · trivial
    · exact ih h

/-! ## Lexemes in their order -/

theorem stop_of_openTag {n stop : Nat} {name s rest : Text} {t : OpenTag}
    (h : openTag flavor n name s = .ok (t, stop, rest)) :
    (Lexeme.openTag t).stop = stop ∧ n < stop := by
  simp only [openTag] at h
  split at h
  · cases h
  next b hb =>
    obtain ⟨q, -, hstop⟩ := exists_of_tagBody hb
    have hlt : n < b.closing.stop := by
      rw [hstop]
      show n < n + 1 + width name + width q
      omega
    split at h
    · split at h
      · cases h
      next content r hcontent =>
        cases h
        refine ⟨?_, by omega⟩
        rw [Lexeme.stop]
        split
        next hnone =>
          have hempty : content = [] := by simpa using hnone
          simp [hempty]
        next span hsome =>
          obtain ⟨-, ⟨⟩⟩ := Option.ite_none_left_eq_some.1 hsome
          rfl
    · cases h
      exact ⟨rfl, hlt⟩

/-- **Every lexeme stops behind those in front of it**, and behind the byte where the text
starts. -/
theorem pairwise_stop_scan (n : Nat) (s : Text) :
    (scan flavor n s).lexemes.Pairwise (fun l k => l.stop < k.stop) ∧
      ∀ l ∈ (scan flavor n s).lexemes, n < l.stop := by
  -- a lexeme in front of the others
  have cons {n : Nat} {l : Lexeme} {r : Scan} (hl : n < l.stop)
      (hr : r.lexemes.Pairwise (fun l k => l.stop < k.stop) ∧ ∀ k ∈ r.lexemes, l.stop < k.stop) :
      (r.cons l).lexemes.Pairwise (fun l k => l.stop < k.stop) ∧
        ∀ k ∈ (r.cons l).lexemes, n < k.stop :=
    ⟨List.pairwise_cons.2 ⟨hr.2, hr.1⟩,
      List.forall_mem_cons.2 ⟨hl, fun k hk => Nat.lt_trans hl (hr.2 k hk)⟩⟩
  have behind {n : Nat} {s : Text} {k : ContentHead}
      (hk : contentHead flavor s = .ok (some k)) : n < n + width k.piece :=
    Nat.lt_add_of_pos_right <|
      Nat.pos_of_ne_zero fun h => (eq_of_contentHead hk).2 (width_eq_zero.1 h)
  fun_induction scan flavor n s with
  | case1 | case2 | case4 => exact ⟨.nil, List.forall_mem_nil _⟩
  | case3 n s p r hs ih =>
    exact ⟨ih.1, fun l hl => Nat.lt_trans (behind hs) (ih.2 l hl)⟩
  | case5 n s name p r hs t stop rest ht ih =>
    obtain ⟨rfl, hlt⟩ := stop_of_openTag ht
    exact cons hlt ih
  | case6 n s name p r hs stop ih => exact cons (l := .closeTag name ⟨n, stop⟩) (behind hs) ih
  | case7 n s p r hs stop ih => exact cons (l := .fragmentOpen ⟨n, stop⟩) (behind hs) ih
  | case8 n s p r hs stop ih => exact cons (l := .fragmentClose ⟨n, stop⟩) (behind hs) ih
  | case9 n s p r hs stop ih => exact cons (l := .expression p ⟨n, stop⟩) (behind hs) ih
  | case10 n s p r hs run content stop ih =>
    refine cons (l := .text content ⟨n, stop⟩) ?_ ih
    have := behind (n := n) hs
    show n < n + width (p ++ run.1)
    rw [width_append]
    exact Nat.lt_of_lt_of_le this (by simp [ContentHead.piece])

/-- The lexemes that stop at a byte or in front of it. -/
def Scan.upTo (stop : Nat) (r : Scan) : List Lexeme := r.lexemes.takeWhile (·.stop ≤ stop)

/-- The lexemes up to the end of one of them. -/
theorem Scan.upTo_eq {n : Nat} {s : Text} {ls rest : List Lexeme} {last : Lexeme}
    (h : (scan flavor n s).lexemes = ls ++ last :: rest) :
    (scan flavor n s).upTo last.stop = ls ++ [last] := by
  have hsorted : (scan flavor n s).lexemes.Pairwise (fun l k => l.stop < k.stop) :=
    (pairwise_stop_scan n s).1
  rw [h, ← List.singleton_append, ← List.append_assoc] at hsorted
  obtain ⟨hfront, -, hbehind⟩ := List.pairwise_append.1 hsorted
  obtain ⟨-, -, hlast⟩ := List.pairwise_append.1 hfront
  have hle : ∀ l ∈ ls ++ [last], decide (l.stop ≤ last.stop) = true := by
    intro l hl
    rw [decide_eq_true_iff]
    obtain hl | hl := List.mem_append.1 hl
    · exact Nat.le_of_lt (hlast l hl last List.mem_cons_self)
    · rw [List.mem_singleton.1 hl]
  rw [upTo, h, ← List.singleton_append, ← List.append_assoc, List.takeWhile_append_of_pos hle]
  cases rest with
  | nil => rw [List.takeWhile_nil, List.append_nil]
  | cons k ks =>
    have := hbehind last (by simp) k List.mem_cons_self
    rw [List.takeWhile_cons_of_neg (by simpa using this), List.append_nil]

end MarkupSync
