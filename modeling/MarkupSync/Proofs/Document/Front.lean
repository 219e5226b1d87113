import MarkupSync.Outcome
import MarkupSync.Proofs.Document.Flow
import MarkupSync.Proofs.Lexeme.Close
import MarkupSync.Proofs.Lexeme.Places

/-!
# Text in front of a tag

What stands in front of an open tag is read the same whatever tag stands there.

* `SameFront`: texts that are the same up to an open tag;
* `contentHead_congr`, `openTag_congr`, `textRun_congr`: what is read in front of it;
* **`exists_standsBehind`**: an open tag that is read from a text, and how the text is read with another tag
  in its place.
-/

namespace MarkupSync

open Text

/-! ## Texts that are the same up to a tag -/

/-- An open tag starts here. -/
def StartsTag (s : Text) : Prop := ∃ c u, s = '<' :: c :: u ∧ isNameStart c = true

/-- Up to an open tag in each of them, the texts are the same. -/
def SameFront (s t : Text) : Prop := ∃ a u v, StartsTag u ∧ StartsTag v ∧ s = a ++ u ∧ t = a ++ v

theorem IsTagName.startsTag {name : Text} (h : IsTagName name) (s : Text) :
    StartsTag ('<' :: name ++ s) := by
  obtain ⟨c, name, rfl⟩ := List.exists_cons_of_ne_nil h.ne_nil
  exact ⟨c, name ++ s, rfl, h.1⟩

namespace StartsTag

variable {s : Text}

theorem head? (h : StartsTag s) : s.head? = some '<' := by
  obtain ⟨c, u, rfl, -⟩ := h
  rfl

theorem isSoft (h : StartsTag s) : IsSoft s := by
  obtain ⟨c, u, rfl, -⟩ := h
  exact .inl rfl

theorem not_plain (h : StartsTag s) (p r : Text) : contentHead .html s ≠ .ok (some (.plain p r)) := by
  obtain ⟨c, u, rfl, hc⟩ := h
  intro hplain
  obtain ⟨k, ha, hk⟩ := exists_of_map_eq_ok hplain
  cases hk
  have hopens := (opensNothing_of_angleHead ha).1
  rw [opensNothing.eq_def] at hopens
  split at hopens <;> simp_all [isNameStart]

end StartsTag

namespace SameFront

variable {s t u : Text}

theorem append (h : SameFront s t) (p : Text) : SameFront (p ++ s) (p ++ t) := by
  obtain ⟨a, u, v, hu, hv, rfl, rfl⟩ := h
  exact ⟨p ++ a, u, v, hu, hv, (List.append_assoc ..).symm, (List.append_assoc ..).symm⟩

theorem head? (h : SameFront s t) : t.head? = s.head? := by
  obtain ⟨a, u, v, hu, hv, rfl, rfl⟩ := h
  rw [List.head?_append, List.head?_append, hu.head?, hv.head?]

theorem opensNothing (h : SameFront s t) (hs : opensNothing s = true) :
    MarkupSync.opensNothing t = true := by
  obtain ⟨a, u, v, -, hv, rfl, rfl⟩ := h
  exact opensNothing_append (opensNothing_of_append hs) hv.isSoft

/-- Whether running text goes on shows in front of the tag. -/
theorem not_plain (h : SameFront s t)
    (hs : ∀ p r, contentHead .html s ≠ .ok (some (.plain p r))) (p r : Text) :
    contentHead .html t ≠ .ok (some (.plain p r)) := by
  obtain ⟨a, u, v, hu, hv, rfl, rfl⟩ := h
  cases a with
  | nil => exact hv.not_plain p r
  | cons c a =>
    by_cases hc : c = '<'
    · subst hc
      intro ht
      obtain ⟨k, ha, hk⟩ := exists_of_map_eq_ok ht
      cases hk
      have hnothing := SameFront.opensNothing ⟨a, v, u, hv, hu, rfl, rfl⟩
        (opensNothing_of_angleHead ha).1
      refine absurd ?_ (hs ['<'] (a ++ u))
      rw [List.cons_append, contentHead, angleHead_of_opensNothing hnothing]
      rfl
    · -- any other character is running text
      by_cases hbrace : c = '\x7b'
      · subst hbrace
        exact absurd rfl (hs ['\x7b'] (a ++ u))
      · exact absurd (contentHead_of_isPlain (by simp [isPlain, hc, hbrace]) (a ++ u)) (hs _ _)

end SameFront

/-! ## What stands at the start of a text -/

/-- What stands at the start of content, in front of another text. -/
def ContentHead.before (v : Text) : ContentHead → ContentHead
  | skipped p _ => skipped p v
  | openTag name p _ => openTag name p v
  | closeTag name p _ => closeTag name p v
  | fragmentOpen p _ => fragmentOpen p v
  | fragmentClose p _ => fragmentClose p v
  | expression p _ => expression p v
  | plain p _ => plain p v

/-- A close tag is read the same whatever follows it. -/
theorem closeHead_congr {s : Text} {k : ContentHead} (h : closeHead s = .ok k) :
    ∃ c q, s = c :: q ++ k.rest ∧ k.piece = '<' :: '/' :: c :: q ∧
      ∀ v, closeHead (c :: q ++ v) = .ok (k.before v) := by
  simp only [closeHead] at h
  split at h
  next r hr =>
    cases h
    have hname := List.takeWhile_append_dropWhile (p := isNameChar) (l := s)
    have hblanks := List.takeWhile_append_dropWhile (p := isCloseBlank) (l := s.dropWhile isNameChar)
    rw [hr] at hblanks
    have hclose (v : Text) :=
      closeHead_append (List.all_takeWhile (l := s) (p := isNameChar))
        (List.all_takeWhile (l := s.dropWhile isNameChar) (p := isCloseBlank)) v
    obtain ⟨c, q, hq⟩ : ∃ c q, s.takeWhile isNameChar ++
        ((s.dropWhile isNameChar).takeWhile isCloseBlank ++ ['>']) = c :: q :=
      List.exists_cons_of_ne_nil (by simp)
    refine ⟨c, q, ?_, ?_, fun v => ?_⟩ <;> rw [← hq]
    · simpa [ContentHead.rest] using hname.symm.trans (congrArg _ hblanks.symm)
    · simp [ContentHead.piece]
    · simpa [ContentHead.before] using hclose v
  next => cases h

theorem skipTo_congr {stop start s : Text} {k : ContentHead} (h : skipTo stop start s = .ok k) :
    ∃ q, s = q ++ k.rest ∧ k.piece = start ++ q ∧ ∀ v, skipTo stop start (q ++ v) = .ok (k.before v) := by
  rw [skipTo] at h
  split at h
  next p r hcut =>
    cases h
    refine ⟨p ++ stop, eq_of_cut?_eq_some hcut, (List.append_assoc ..), fun v => ?_⟩
    rw [skipTo, cut?_congr hcut]
    rfl
  next => cases h

variable {s u : Text}

/-- What an open angle opens does not depend on the tag in which the texts differ. -/
theorem angleHead_congr {k : ContentHead} (h : angleHead s = .ok k) (hu : SameFront k.rest u) :
    ∃ q, k.piece = '<' :: q ∧ angleHead (q ++ u) = .ok (k.before u) := by
  by_cases hplain : ∃ p r, k = .plain p r
  · obtain ⟨p, r, rfl⟩ := hplain
    obtain ⟨hnothing, rfl, rfl⟩ := opensNothing_of_angleHead h
    exact ⟨[], rfl, angleHead_of_opensNothing (hu.opensNothing hnothing)⟩
  revert h
  fun_cases angleHead s with
  | case1 s p r hcut =>
    rintro ⟨⟩
    refine ⟨['!', '-', '-'] ++ p ++ ['-', '-', '>'], by simp [ContentHead.piece], ?_⟩
    have := cut?_congr hcut u
    simp_all [angleHead, ContentHead.before]
  | case2 => rintro ⟨⟩
  | case3 c s hne hc =>
    intro h
    obtain ⟨q, -, hp, hq⟩ := skipTo_congr h
    refine ⟨'!' :: c :: q, hp, ?_⟩
    have hd : c ≠ '-' := by
      rintro rfl
      exact absurd hc (by decide)
    rw [List.cons_append, List.cons_append, angleHead, if_pos hc]
    · exact hq u
    · exact fun s h => absurd h hd
  | case5 s =>
    intro h
    obtain ⟨q, -, hp, hq⟩ := skipTo_congr h
    exact ⟨'?' :: q, hp, hq u⟩
  | case7 c s hne hc =>
    intro h
    obtain ⟨d, q, hs, hp, hq⟩ := closeHead_congr h
    obtain rfl : c = d := (List.cons.inj hs).1
    refine ⟨'/' :: c :: q, hp, ?_⟩
    rw [List.cons_append, List.cons_append, angleHead, if_pos hc]
    · exact hq u
    · exact hne
  | case6 | case9 =>
    rintro ⟨⟩
    exact ⟨_, rfl, rfl⟩
  | case10 c s h1 h2 h3 h4 h5 h6 hc =>
    rintro ⟨⟩
    refine ⟨c :: s.takeWhile isNameChar, rfl, ?_⟩
    have hname : IsTagName (c :: s.takeWhile isNameChar) := ⟨hc, List.all_takeWhile⟩
    refine angleHead_name hname ?_
    rw [hu.head?]
    exact head?_dropWhile isNameChar s
  | _ =>
    rintro ⟨⟩
    exact absurd ⟨_, _, rfl⟩ hplain

/-- What stands at the start of a text does not depend on the tag in which the texts differ. -/
theorem contentHead_congr {k : ContentHead} (h : contentHead .html s = .ok (some k))
    (hu : SameFront k.rest u) : contentHead .html (k.piece ++ u) = .ok (some (k.before u)) := by
  cases s with
  | nil => cases h
  | cons c s =>
    by_cases hangle : c = '<'
    · subst hangle
      obtain ⟨k', ha, hk⟩ := exists_of_map_eq_ok h
      cases hk
      obtain ⟨q, hp, hq⟩ := angleHead_congr ha hu
      rw [hp, List.cons_append, contentHead, hq]
      rfl
    by_cases hbrace : c = '\x7b'
    · subst hbrace
      cases h
      rfl
    · have hc : isPlain c = true := by simp [isPlain, hangle, hbrace]
      rw [contentHead_of_isPlain hc] at h
      cases h
      have hstop : ∀ d ∈ u.head?, isPlain d = false := by
        rw [hu.head?]
        exact head?_dropWhile isPlain s
      rw [ContentHead.piece, List.cons_append, contentHead_of_isPlain hc,
        takeWhile_append_of_stop List.all_takeWhile hstop,
        dropWhile_append_of_stop List.all_takeWhile hstop]
      rfl

/-- A run of text does not depend on the tag in which the texts behind it differ. -/
theorem textRun_congr (hu : SameFront (textRun .html s).2 u) :
    textRun .html ((textRun .html s).1 ++ u) = ((textRun .html s).1, u) := by
  fun_induction textRun .html s with
  | case1 s p r hs ih =>
    have hrest : SameFront r ((textRun .html r).1 ++ u) := by
      have := hu.append (textRun .html r).1
      rwa [textRun_append] at this
    have hhead : contentHead .html (p ++ ((textRun .html r).1 ++ u)) =
        .ok (some (.plain p ((textRun .html r).1 ++ u))) := contentHead_congr hs hrest
    rw [List.append_assoc, textRun_plain hhead, ih hu]
  | case2 s hs =>
    rw [List.nil_append, textRun_of_ne_plain (hu.not_plain hs)]

/-! ## Tags -/

section Tag

variable {flavor : Flavor} {p q r : Text} {n : Nat}

/-- A piece of a tag is read the same in front of what starts like its rest. -/
theorem tagHead?_front {k : TagHead} (hk : tagHead? flavor s = some k) (hq : q ≠ [])
    (hrest : k.rest = q ++ r) (v : Text) :
    tagHead? flavor (k.piece ++ (q ++ v)) = some (k.before (q ++ v)) := by
  refine tagHead?_congr hk ((stopsAt_rest hk).congr ?_)
  rw [hrest]
  exact head?_append_of_ne_nil hq ..

/-- The rest of a tag is read the same whatever follows it. -/
theorem tagBody_congr {w : Waiting} {b : TagBody} (h : tagBody flavor n w s = .ok b) :
    ∃ q, q ≠ [] ∧ s = q ++ b.rest ∧
      ∀ v, tagBody flavor n w (q ++ v) = .ok { b with rest := v } := by
  have split {s q r : Text} {k : TagHead} (hk : tagHead? flavor s = some k) (hrest : k.rest = q ++ r) :
      s = k.piece ++ q ++ r := by
    rw [List.append_assoc, ← hrest]
    exact (eq_of_tagHead? hk).1
  fun_induction tagBody flavor n w s generalizing b with
  | case1 | case6 | case7 => cases h
  | case2 n w s p r hk ih =>
    obtain ⟨q, hne, hrest, hq⟩ := ih h
    refine ⟨p ++ q, by simp [hne], split hk hrest, fun v => ?_⟩
    rw [List.append_assoc]
    exact (tagBody_blank (tagHead?_front hk hne hrest v)).trans (hq v)
  | case3 n w s p r hk ih =>
    obtain ⟨q, hne, hrest, hq⟩ := ih h
    refine ⟨p ++ q, by simp [hne], split hk hrest, fun v => ?_⟩
    rw [List.append_assoc]
    exact (tagBody_slash (tagHead?_front hk hne hrest v)).trans (hq v)
  | case4 n w s sc p r hk =>
    cases h
    exact ⟨p, (eq_of_tagHead? hk).2, (eq_of_tagHead? hk).1, fun v =>
      tagBody_close (tagHead?_congr hk trivial)⟩
  | case5 n s p r hk name span ih =>
    obtain ⟨q, hne, hrest, hq⟩ := ih h
    refine ⟨p ++ q, by simp [hne], split hk hrest, fun v => ?_⟩
    rw [List.append_assoc]
    exact (tagBody_equals (tagHead?_front hk hne hrest v)).trans (hq v)
  | case8 n w s quoting content p r hk done w' hw ih =>
    obtain ⟨b, hb, rfl⟩ := exists_of_map_eq_ok h
    obtain ⟨q, hne, hrest, hq⟩ := ih hb
    refine ⟨p ++ q, by simp [hne], split hk hrest, fun v => ?_⟩
    rw [List.append_assoc]
    exact (tagBody_value (tagHead?_front hk hne hrest v) hw).trans (congrArg (Except.map _) (hq v))

/-- Content that is kept ends where its close tag starts, wherever an open tag stands behind that. -/
theorem rawContent?_congr {name content : Text} (hname : IsTagName name)
    (h : rawContent? name s = some (content, r)) (hu : SameFront r u) :
    rawContent? name (content ++ u) = some (content, u) := by
  obtain ⟨hcontent, hclose, hhead⟩ := isRawContent_of_rawContent? hname h
  obtain ⟨c, x, hx, hc⟩ := exists_of_startsClose hname hclose
  obtain ⟨a, y, z, ⟨d, y', rfl, hd⟩, ⟨e, z', rfl, -⟩, rfl, rfl⟩ := hu
  have hne : a ≠ [] := by
    rintro rfl
    obtain rfl : d = '/' := (List.cons.inj (List.cons.inj hx).2).1
    exact absurd hd (by decide)
  rw [startsClose_append_angle hname hne, ← startsClose_append_angle hname hne (e :: z')] at hclose
  obtain ⟨b, a, rfl⟩ := List.exists_cons_of_ne_nil hne
  obtain rfl : b = '<' := (List.cons.inj hx).1
  exact rawContent?_append hname hcontent hclose

/-- An open tag is read the same, with content that is kept, wherever another one stands behind. -/
theorem openTag_congr {name : Text} {t : OpenTag} {stop : Nat} (hname : IsTagName name)
    (h : openTag .html n name s = .ok (t, stop, r)) :
    ∃ q, q ≠ [] ∧ s = q ++ r ∧ stop = n + 1 + width name + width q ∧
      ∀ u, SameFront r u → openTag .html n name (q ++ u) = .ok (t, stop, u) := by
  simp only [openTag] at h
  split at h
  · cases h
  next b hb =>
    obtain ⟨q, hne, rfl, hq⟩ := tagBody_congr hb
    have hstop : b.closing.stop = n + 1 + width name + width q := by
      have := tagBody_stop hb
      rw [width_append] at this
      omega
    split at h
    next hraw =>
      split at h
      · cases h
      next content r' hcontent =>
        cases h
        refine ⟨q ++ content, by simp [hne], ?_, by rw [hstop, width_append, Nat.add_assoc], ?_⟩
        · rw [List.append_assoc, ← eq_of_rawContent? hcontent]
        · intro u hu
          simp only [openTag, List.append_assoc, hq]
          rw [if_pos hraw, rawContent?_congr hname hcontent hu]
    next hraw =>
      cases h
      refine ⟨q, hne, rfl, hstop, fun u _ => ?_⟩
      simp only [openTag, hq]
      rw [if_neg hraw]

end Tag

/-- The name of an open tag ends where its characters end. -/
theorem head?_of_contentHead {name p r : Text}
    (h : contentHead .html s = .ok (some (.openTag name p r))) :
    ∀ c ∈ r.head?, isNameChar c = false := by
  have angle {s : Text} (h : angleHead s = .ok (.openTag name p r)) :
      ∀ c ∈ r.head?, isNameChar c = false := by
    revert h
    fun_cases angleHead s with
    | case3 | case5 =>
      rw [skipTo]
      split <;> rintro ⟨⟩
    | case7 =>
      simp only [closeHead]
      split <;> rintro ⟨⟩
    | case10 c s =>
      rintro ⟨⟩
      exact head?_dropWhile isNameChar s
    | _ => rintro ⟨⟩
  obtain ⟨t, -, ht⟩ | ⟨_, _, ⟨⟩, -⟩ := angleHead_or_plain h
  exact angle ht

/-! ## Scans -/

/-- Lexemes in front of a scan. -/
def Scan.behind (ls : List Lexeme) (r : Scan) : Scan := { r with lexemes := ls ++ r.lexemes }

@[simp] theorem Scan.behind_nil (r : Scan) : r.behind [] = r := rfl

/-- An open tag that is read from a text stands in it, and what is in front of it is read the same
whatever tag stands there. -/
structure OpenTag.StandsBehind (t : OpenTag) (n : Nat) (s front : Text) (ls : List Lexeme) : Prop where
  exists_openTag : ∃ name r stop rest, IsTagName name ∧ (∀ c ∈ r.head?, isNameChar c = false) ∧
    s = front ++ ('<' :: name ++ r) ∧ openTag .html (n + width front) name r = .ok (t, stop, rest)
  scan : ∀ v, StartsTag v → scan .html n (front ++ v) = (scan .html (n + width front) v).behind ls

section Scan

variable {n m : Nat} {t : OpenTag} {front p q r : Text} {ls : List Lexeme}

theorem OpenTag.StandsBehind.sameFront (h : t.StandsBehind n s front ls) {v : Text}
    (hv : StartsTag v) : SameFront s (front ++ v) := by
  obtain ⟨name, r, stop, rest, hname, -, rfl, -⟩ := h.exists_openTag
  exact ⟨front, _, v, hname.startsTag r, hv, rfl, rfl⟩

/-- The text in front of a tag grows by what is read in front of it. -/
theorem OpenTag.StandsBehind.append (h : t.StandsBehind m r front ls) (first : List Lexeme)
    (hm : m = n + width p)
    (hscan : ∀ u, SameFront r u → MarkupSync.scan .html n (p ++ u) =
      (MarkupSync.scan .html m u).behind first) :
    t.StandsBehind n (p ++ r) (p ++ front) (first ++ ls) := by
  subst hm
  obtain ⟨name, r', stop, rest, hname, hhead, rfl, htag⟩ := h.exists_openTag
  refine ⟨⟨name, r', stop, rest, hname, hhead, (List.append_assoc ..).symm, ?_⟩, fun v hv => ?_⟩
  · rwa [width_append, ← Nat.add_assoc]
  · rw [List.append_assoc, hscan _ (h.sameFront hv), h.scan v hv, width_append, Nat.add_assoc]
    simp [Scan.behind]

/-- **An open tag that is read from a text stands in it**, behind a text that is read the same
whatever tag stands there. -/
theorem exists_standsBehind (h : .openTag t ∈ (scan .html n s).lexemes) :
    ∃ front ls, t.StandsBehind n s front ls := by
  -- behind a lexeme of one piece of content, or behind a piece that is skipped
  have behind {n : Nat} {s : Text} {k : ContentHead} (hc : contentHead .html s = .ok (some k))
      (first : List Lexeme) (hscan : ∀ u, contentHead .html (k.piece ++ u) = .ok (some (k.before u)) →
        scan .html n (k.piece ++ u) = (scan .html (n + width k.piece) u).behind first)
      (h : ∃ front ls, t.StandsBehind (n + width k.piece) k.rest front ls) :
      ∃ front ls, t.StandsBehind n s front ls := by
    obtain ⟨front, ls, h⟩ := h
    rw [(eq_of_contentHead hc).1]
    exact ⟨_, _, h.append first rfl fun u hu => hscan u (contentHead_congr hc hu)⟩
  fun_induction scan .html n s with
  | case1 | case2 | case4 => cases h
  | case3 n s p r hc ih => exact behind hc [] (fun u hu => scan_skipped hu) (ih h)
  | case5 n s name p r hc tag stop rest ht ih =>
    obtain ⟨rfl, hname⟩ := name_of_contentHead hc
    rw [(eq_of_contentHead hc).1]
    obtain h | h := List.mem_cons.1 h
    · cases h
      exact ⟨[], [], ⟨⟨name, r, stop, rest, hname, head?_of_contentHead hc, rfl, ht⟩, fun v _ => rfl⟩⟩
    · obtain ⟨front, ls, h⟩ := ih h
      obtain ⟨q, hne, rfl, hstop, hq⟩ := openTag_congr hname ht
      have hangle : width ('<' :: name ++ q) = 1 + width name + width q := by
        rw [width_append, width_cons]
        rfl
      have := h.append (n := n) (p := '<' :: name ++ q) [.openTag tag]
        (by rw [hstop, hangle]; omega) fun u hu => ?_
      · exact ⟨_, _, by simpa [ContentHead.piece, ContentHead.rest] using this⟩
      · have hhead : contentHead .html ('<' :: name ++ (q ++ u)) =
            .ok (some (.openTag name ('<' :: name) (q ++ u))) := contentHead_congr hc (hu.append q)
        rw [List.append_assoc, scan_openTag hhead (hq u hu)]
        rfl
  | case6 n s name p r hc stop ih =>
    exact behind hc [_] (fun u hu => scan_closeTag hu) (ih (List.mem_of_ne_of_mem (by rintro ⟨⟩) h))
  | case7 n s p r hc stop ih =>
    exact behind hc [_] (fun u hu => scan_fragmentOpen hu) (ih (List.mem_of_ne_of_mem (by rintro ⟨⟩) h))
  | case8 n s p r hc stop ih =>
    exact behind hc [_] (fun u hu => scan_fragmentClose hu)
      (ih (List.mem_of_ne_of_mem (by rintro ⟨⟩) h))
  | case9 n s p r hc stop ih =>
    exact behind hc [_] (fun u hu => scan_expression hu) (ih (List.mem_of_ne_of_mem (by rintro ⟨⟩) h))
  | case10 n s p r hc run content stop ih =>
    obtain ⟨front, ls, h⟩ := ih (List.mem_of_ne_of_mem (by rintro ⟨⟩) h)
    rw [eq_append_textRun hc]
    refine ⟨_, _, h.append [.text content ⟨n, stop⟩] rfl fun u hu => ?_⟩
    have hrest : SameFront r (run.1 ++ u) := by
      have := hu.append run.1
      rwa [textRun_append] at this
    have hhead : contentHead .html (p ++ (run.1 ++ u)) = .ok (some (.plain p (run.1 ++ u))) :=
      contentHead_congr hc hrest
    rw [List.append_assoc, scan_plain hhead, textRun_congr hu]
    rfl

end Scan

end MarkupSync
