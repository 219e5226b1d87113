import Mathlib.Data.List.Basic
import MarkupSync.Lexeme.Scan
import MarkupSync.Proofs.Text.Search
import MarkupSync.Proofs.Text.Words

/-!
# Open angles in running text

* `opensNothing`: whether an open angle in front of a text is text itself;
* `angleHead_skipped`: a comment is read the same whatever follows it;
* `angleHead_or_plain`: what stands at the start of a text;
* `IsSoft`: what can follow an open angle that opens nothing and leave it so;
* `stripped?`: the text of a run between tags, without comments;
* `AllPlain`: texts in which every open angle is text;
* `stripped?_append`: runs put together.
-/

namespace MarkupSync

open Text

/-! ## What an open angle opens -/

/-- Whether an open angle in front of a text opens nothing. -/
def opensNothing : Text → Bool
  | '!' :: '-' :: '-' :: _ => false
  | '!' :: c :: _ => !(c.isAlpha || c == '[')
  | '?' :: _ => false
  | '/' :: '>' :: _ => false
  | '/' :: c :: _ => !isNameStart c
  | '>' :: _ => false
  | c :: _ => !isNameStart c
  | [] => true

theorem angleHead_of_opensNothing {s : Text} (h : opensNothing s = true) :
    angleHead s = .ok (.plain ['<'] s) := by
  fun_cases opensNothing s <;> simp_all [angleHead, opensNothing]

theorem skipTo_ne_plain {stop start s p r : Text} : skipTo stop start s ≠ .ok (.plain p r) := by
  rw [skipTo]
  split <;> simp

theorem closeHead_ne_plain {s p r : Text} : closeHead s ≠ .ok (.plain p r) := by
  simp only [closeHead]
  split <;> simp

theorem opensNothing_of_angleHead {s p r : Text} (h : angleHead s = .ok (.plain p r)) :
    opensNothing s = true ∧ p = ['<'] ∧ r = s := by
  by_cases ho : opensNothing s = true
  · rw [angleHead_of_opensNothing ho] at h
    cases h
    exact ⟨ho, rfl, rfl⟩
  · exfalso
    revert h
    fun_cases opensNothing s with
    | case1 =>
      simp only [angleHead]
      split <;> simp
    | case2 c s =>
      have hc : c.isAlpha = true ∨ c = '[' := by
        by_cases hc : c.isAlpha = true
        · exact .inl hc
        · simp_all [opensNothing]
      simp_all [angleHead, skipTo_ne_plain]
    | _ => simp_all [angleHead, opensNothing, skipTo_ne_plain, closeHead_ne_plain]

/-- What can follow an open angle that opens nothing and leave it so: the end, an angle, a
reference or a blank. -/
def IsSoft : Text → Prop
  | [] => True
  | c :: _ => c = '<' ∨ c = '&' ∨ isBlank c = true

theorem IsSoft.head {c : Char} {s : Text} (h : IsSoft (c :: s)) :
    c.isAlpha = false ∧ c ≠ '-' ∧ c ≠ '[' ∧ c ≠ '>' ∧ c ≠ '!' ∧ c ≠ '?' ∧ c ≠ '/' := by
  simp only [IsSoft, isBlank, Bool.or_eq_true, beq_iff_eq] at h
  rcases h with rfl | rfl | (((rfl | rfl) | rfl) | rfl) | rfl <;> decide

theorem opensNothing_append {s y : Text} (h : opensNothing s = true) (hy : IsSoft y) :
    opensNothing (s ++ y) = true := by
  cases y with
  | nil => rwa [List.append_nil]
  | cons d y =>
    obtain ⟨h1, h2, h3, h4, h5, h6, h7⟩ := hy.head
    fun_cases opensNothing s with
    | case2 c tail hne => cases tail <;> simp_all [opensNothing]
    | case7 c tail =>
      by_cases hx : c = '!' <;> by_cases hs : c = '/' <;> cases tail <;>
        simp_all [opensNothing, isNameStart]
    | _ => simp_all [opensNothing, isNameStart]

theorem opensNothing_of_append {s y : Text} (h : opensNothing (s ++ y) = true) :
    opensNothing s = true := by
  fun_cases opensNothing s with
  | case2 c tail hne => by_cases hc : c = '-' <;> simp_all [opensNothing]
  | case7 c tail =>
    by_cases hx : c = '!'
    · subst hx
      rfl
    by_cases hs : c = '/'
    · subst hs
      rfl
    simp_all [opensNothing, isNameStart]
  | _ => simp_all [opensNothing, isNameStart]

/-- A comment, a declaration or an instruction is read the same whatever follows it. -/
theorem angleHead_skipped {s p r : Text} (h : angleHead s = .ok (.skipped p r)) :
    ∃ q, p = '<' :: q ∧ s = q ++ r ∧ ∀ u, angleHead (q ++ u) = .ok (.skipped p u) := by
  have skip {stop start s : Text} (h : skipTo stop start s = .ok (.skipped p r)) :
      ∃ q, p = start ++ q ∧ s = q ++ r ∧ ∀ u, skipTo stop start (q ++ u) = .ok (.skipped p u) := by
    rw [skipTo] at h
    split at h
    next q r' hc =>
      cases h
      refine ⟨q ++ stop, by simp, eq_of_cut?_eq_some hc, fun u => ?_⟩
      rw [skipTo, cut?_congr hc]
    next => cases h
  revert h
  fun_cases angleHead s with
  | case1 s q r' hc =>
    intro h
    cases h
    refine ⟨['!', '-', '-'] ++ q ++ ['-', '-', '>'], by simp,
      by simpa using eq_of_cut?_eq_some hc, fun u => ?_⟩
    have := cut?_congr hc u
    simp_all [angleHead]
  | case3 c s hne hc =>
    intro h
    obtain ⟨q, rfl, rfl, hu⟩ := skip h
    refine ⟨'!' :: c :: q, rfl, rfl, fun u => ?_⟩
    have hd : c ≠ '-' := by
      rintro rfl
      simp at hc
    rw [List.cons_append, List.cons_append, angleHead, if_pos hc]
    · exact hu u
    · exact fun s h => absurd h hd
  | case5 s =>
    intro h
    obtain ⟨q, rfl, rfl, hu⟩ := skip h
    exact ⟨'?' :: q, rfl, rfl, hu⟩
  | case7 c s =>
    intro h
    simp only [closeHead] at h
    split at h <;> cases h
  | _ => intro h; cases h

/-- What stands at the start of a text is opened by an angle, or plain without one. -/
theorem angleHead_or_plain {s : Text} {h : ContentHead} (hs : contentHead .html s = .ok (some h)) :
    (∃ t, s = '<' :: t ∧ angleHead t = .ok h) ∨ ∃ p r, h = .plain p r ∧ '<' ∉ p := by
  cases s with
  | nil => simp [contentHead] at hs
  | cons c s =>
    by_cases hc : c = '<'
    · subst hc
      rw [contentHead] at hs
      cases ha : angleHead s with
      | error e => rw [ha] at hs; cases hs
      | ok k =>
        rw [ha] at hs
        cases hs
        exact .inl ⟨s, rfl, ha⟩
    · rw [contentHead] at hs
      · split at hs
        next hb =>
          subst hb
          cases hs
          exact .inr ⟨_, _, rfl, by decide⟩
        next =>
          cases hs
          have hall : (s.takeWhile isPlain).all isPlain = true := List.all_takeWhile
          refine .inr ⟨_, _, rfl, ?_⟩
          simp only [List.mem_cons, not_or]
          exact ⟨Ne.symm hc, fun hm => absurd (List.all_eq_true.1 hall _ hm) (by decide)⟩
      · exact fun h => hc h
      · rintro _ _ ⟨⟩

/-! ## Runs of text -/

/-- The text of a run between tags, without comments; none if a tag is in it. -/
def stripped? : Text → Option Text
  | [] => some []
  | c :: s =>
    if c = '<' then
      match _h : angleHead s with
      | .ok (.skipped _ rest) => stripped? rest
      | .ok (.plain _ _) => (stripped? s).map (c :: ·)
      | _ => none
    else (stripped? s).map (c :: ·)
termination_by s => s.length
decreasing_by
  all_goals simp_wf
  obtain ⟨q, rfl, rfl, -⟩ := angleHead_skipped _h
  simp only [List.length_append]
  omega

@[simp] theorem stripped?_nil : stripped? [] = some [] := by rw [stripped?]

theorem stripped?_cons {c : Char} (hc : c ≠ '<') (s : Text) :
    stripped? (c :: s) = (stripped? s).map (c :: ·) := by
  rw [stripped?, if_neg hc]

theorem stripped?_angle {s : Text} (h : opensNothing s = true) :
    stripped? ('<' :: s) = (stripped? s).map ('<' :: ·) := by
  rw [stripped?, if_pos rfl]
  split <;> simp_all [angleHead_of_opensNothing h]

theorem stripped?_skipped {s p r : Text} (h : angleHead s = .ok (.skipped p r)) :
    stripped? ('<' :: s) = stripped? r := by
  rw [stripped?, if_pos rfl]
  split <;> simp_all

/-- An open angle in a run between tags opens nothing or a comment. -/
theorem stripped?_angle_eq_some {s x : Text} (h : stripped? ('<' :: s) = some x) :
    (∃ p r, angleHead s = .ok (.skipped p r) ∧ stripped? r = some x) ∨
      opensNothing s = true ∧ ∃ y, stripped? s = some y ∧ x = '<' :: y := by
  rw [stripped?, if_pos rfl] at h
  split at h
  next p r hs => exact .inl ⟨p, r, hs, h⟩
  next p r hs =>
    obtain ⟨y, hy, rfl⟩ := Option.map_eq_some_iff.1 h
    exact .inr ⟨(opensNothing_of_angleHead hs).1, y, hy, rfl⟩
  next => cases h

theorem stripped?_cons_eq_some {c : Char} (hc : c ≠ '<') {s x : Text}
    (h : stripped? (c :: s) = some x) : ∃ y, stripped? s = some y ∧ x = c :: y := by
  rw [stripped?_cons hc] at h
  obtain ⟨y, hy, rfl⟩ := Option.map_eq_some_iff.1 h
  exact ⟨y, hy, rfl⟩

/-- Runs put together are a run, unless an open angle at the end of the first comes to open
something. -/
theorem stripped?_append {s t x y : Text} (hs : stripped? s = some x) (ht : stripped? t = some y)
    (h : '<' ∉ x ∨ IsSoft t) : stripped? (s ++ t) = some (x ++ y) := by
  induction hn : s.length using Nat.strongRecOn generalizing s x with
  | _ n ih =>
    subst hn
    cases s with
    | nil =>
      cases hs.symm.trans stripped?_nil
      exact ht
    | cons c s =>
      by_cases hc : c = '<'
      · subst hc
        rw [List.cons_append]
        obtain ⟨p, r, hp, hr⟩ | ⟨ho, x, hx, rfl⟩ := stripped?_angle_eq_some hs
        · obtain ⟨q, rfl, rfl, hu⟩ := angleHead_skipped hp
          rw [List.append_assoc, stripped?_skipped (hu _)]
          exact ih _ (by simp only [List.length_cons, List.length_append]; omega) hr h rfl
        · have ho := opensNothing_append ho (h.resolve_left (by simp))
          rw [stripped?_angle ho, ih _ (by simp) hx (.inr (h.resolve_left (by simp))) rfl]
          rfl
      · obtain ⟨x, hx, rfl⟩ := stripped?_cons_eq_some hc hs
        rw [List.cons_append, stripped?_cons hc,
          ih _ (by simp) hx (h.imp_left fun h hm => h (List.mem_cons_of_mem _ hm)) rfl]
        rfl

/-! ## Plain text -/

/-- Every open angle in a text is text, if `rest` follows. -/
def AllPlain : Text → Text → Prop
  | [], _ => True
  | c :: s, rest => (c = '<' → opensNothing (s ++ rest) = true) ∧ AllPlain s rest

theorem allPlain_of_not_mem {s : Text} (h : '<' ∉ s) (rest : Text) : AllPlain s rest := by
  induction s with
  | nil => trivial
  | cons c s ih =>
    simp only [List.mem_cons, not_or] at h
    exact ⟨fun hc => absurd hc.symm h.1, ih h.2⟩

theorem allPlain_append {s t rest : Text} :
    AllPlain (s ++ t) rest ↔ AllPlain s (t ++ rest) ∧ AllPlain t rest := by
  induction s with
  | nil => simp [AllPlain]
  | cons c s ih => simp [AllPlain, ih, and_assoc]

theorem AllPlain.of_append {s t u : Text} (h : AllPlain s (t ++ u)) : AllPlain s t := by
  induction s with
  | nil => trivial
  | cons c s ih =>
    refine ⟨fun hc => opensNothing_of_append (y := u) ?_, ih h.2⟩
    rw [List.append_assoc]
    exact h.1 hc

/-- Plain text belongs to the text of a run. -/
theorem AllPlain.stripped? {s rest : Text} (h : AllPlain s rest) :
    stripped? (s ++ rest) = (stripped? rest).map (s ++ ·) := by
  induction s with
  | nil => simp
  | cons c s ih =>
    have hs : MarkupSync.stripped? (c :: (s ++ rest)) =
        (MarkupSync.stripped? (s ++ rest)).map (c :: ·) := by
      by_cases hc : c = '<'
      · subst hc
        exact stripped?_angle (h.1 rfl)
      · exact stripped?_cons hc _
    rw [List.cons_append, hs, ih h.2, Option.map_map]
    rfl

theorem AllPlain.stripped?_eq {s rest : Text} (h : AllPlain s rest) :
    MarkupSync.stripped? s = some s := by
  have := (AllPlain.of_append (t := []) h).stripped?
  simpa using this

theorem stripped?_of_not_mem {s : Text} (h : '<' ∉ s) : stripped? s = some s :=
  (allPlain_of_not_mem h []).stripped?_eq

end MarkupSync
