import MarkupSync.Document.Read
import MarkupSync.Proofs.Lexeme.Close
import MarkupSync.Proofs.Lexeme.Inset
import MarkupSync.Proofs.Lexeme.Shift
import MarkupSync.Proofs.Text.Range

/-!
# Where lexemes stand

* `TagHead.StopsAt`, `tagHead?_congr`: a piece of a tag is read the same whatever follows it, as
  long as that does not go on with the piece;
* `TagHead.IsWritten`: the characters of a piece of a tag;
* `WritesAttr`: a text that is read as one attribute;
* `RawAttribute.Stands`, `OpenTag.Stands`, `Lexeme.Stands`: the bytes of a lexeme and of its parts
  hold what was read;
* `stands_of_tagBody`, **`stands_scan`**: the attributes of a tag and the lexemes of a text stand in
  the text, one behind the other.
-/

namespace MarkupSync

open Text

variable {flavor : Flavor}

/-! ## Pieces of tags -/

/-- A name, or a value without quotes. -/
def IsWord (w : Text) : Prop := w ≠ [] ∧ w.all isWordChar = true

theorem isWord_takeWhile {c : Char} (hc : isWordChar c = true) (s : Text) :
    IsWord (c :: s.takeWhile isWordChar) := by
  refine ⟨List.cons_ne_nil _ _, ?_⟩
  rw [List.all_cons, hc, List.all_takeWhile]
  rfl

/-- Words do not start with braces. -/
theorem head?_of_isWord {w : Text} (h : IsWord w) : w.head? ≠ some '\x7b' := by
  intro hc
  have := List.all_eq_true.1 h.2 _ (List.mem_of_head? hc)
  revert this
  decide

/-- The text `v` does not go on with a piece. -/
def TagHead.StopsAt (v : Text) : TagHead → Prop
  | slash _ _ => v.head? ≠ some '>'
  | value .bare _ _ _ => ∀ c ∈ v.head?, isWordChar c = false
  | _ => True

/-- A piece in front of another text. -/
def TagHead.before (v : Text) : TagHead → TagHead
  | blank p _ => blank p v
  | close selfClosing p _ => close selfClosing p v
  | equals p _ => equals p v
  | slash p _ => slash p v
  | value quoting content p _ => value quoting content p v

/-- A value in quotes is read the same whatever follows it. -/
theorem quotedHead?_congr {quoting : Quoting} {q : Char} {s : Text} {k : TagHead}
    (h : quotedHead? quoting q s = some k) (v : Text) :
    ∃ u, k.piece = q :: u ∧ quotedHead? quoting q (u ++ v) = some (k.before v) := by
  obtain ⟨⟨content, r⟩, hcut, rfl⟩ := Option.map_eq_some_iff.1 h
  exact ⟨content ++ [q], rfl, by rw [quotedHead?, cut?_congr hcut]; rfl⟩

/-- A piece of a tag is read the same whatever follows it. -/
theorem tagHead?_congr {s v : Text} {k : TagHead} (h : tagHead? flavor s = some k)
    (hv : k.StopsAt v) : tagHead? flavor (k.piece ++ v) = some (k.before v) := by
  revert h
  fun_cases tagHead? flavor s with
  | case1 | case9 | case12 => rintro ⟨⟩
  | case2 | case3 | case5 =>
    rintro ⟨⟩
    rfl
  | case4 =>
    rintro ⟨⟩
    exact tagHead?_slash hv
  | case6 | case7 =>
    intro h
    obtain ⟨u, hu, h⟩ := quotedHead?_congr h v
    rw [hu]
    exact h
  | case8 _ c s _ _ _ _ _ _ hc =>
    rintro ⟨⟩
    exact tagHead?_blank hc
  | case10 s _ _ _ _ _ _ hc =>
    intro h
    obtain ⟨⟨p, r⟩, hclose, rfl⟩ := Option.map_eq_some_iff.1 h
    show tagHead? .jsx ('\x7b' :: (p ++ v)) = _
    rw [tagHead?, if_neg hc, if_pos rfl]
    · simp only [closeBraces?_congr hclose]
      rfl
    all_goals (intros; contradiction)
  | case11 _ c s _ _ _ _ _ _ _ _ hword =>
    rintro ⟨⟩
    exact tagHead?_word (isWord_takeWhile hword s).1 (isWord_takeWhile hword s).2 hv

/-- What follows a piece does not go on with it. -/
theorem stopsAt_rest {s : Text} {k : TagHead} (h : tagHead? flavor s = some k) :
    k.StopsAt k.rest := by
  revert h
  fun_cases tagHead? flavor s with
  | case1 | case9 | case12 => rintro ⟨⟩
  | case2 | case3 | case5 | case8 =>
    rintro ⟨⟩
    trivial
  | case4 _ s hne =>
    rintro ⟨⟩ hs
    obtain ⟨u, rfl⟩ := List.head?_eq_some_iff.1 hs
    exact hne u rfl
  | case6 | case7 | case10 =>
    intro h
    obtain ⟨_, _, rfl⟩ := Option.map_eq_some_iff.1 h
    trivial
  | case11 _ c s =>
    rintro ⟨⟩
    exact head?_dropWhile isWordChar s

/-- Whether a text goes on with a piece shows in its first character. -/
theorem TagHead.StopsAt.congr {k : TagHead} {u v : Text} (h : k.StopsAt u)
    (hv : v.head? = u.head?) : k.StopsAt v := by
  revert h
  rw [StopsAt.eq_def, StopsAt.eq_def, hv]
  exact id

/-- The characters of a piece of a tag are what it says. -/
def TagHead.IsWritten : TagHead → Prop
  | blank p _ => ∃ c, isBlank c = true ∧ p = [c]
  | equals p _ => p = ['=']
  | slash p _ => p = ['/']
  | close selfClosing p _ => p = tagClose selfClosing
  | value quoting content p _ =>
    p = quoting.wrap content ∧ (quoting = .braces ∨ quoting.Admits content)

theorem isWritten_of_tagHead? {s : Text} {h : TagHead} (hs : tagHead? flavor s = some h) :
    h.IsWritten := by
  revert hs
  fun_cases tagHead? flavor s with
  | case1 | case9 | case12 => rintro ⟨⟩
  | case2 | case3 | case4 | case5 =>
    rintro ⟨⟩
    rfl
  | case6 | case7 =>
    intro h
    obtain ⟨_, hcut, rfl⟩ := Option.map_eq_some_iff.1 h
    exact ⟨rfl, .inr (not_mem_of_cut?_eq_some hcut)⟩
  | case8 _ c s _ _ _ _ _ _ hc =>
    rintro ⟨⟩
    exact ⟨c, hc, rfl⟩
  | case10 =>
    intro h
    obtain ⟨⟨q, _⟩, hclose, rfl⟩ := Option.map_eq_some_iff.1 h
    obtain ⟨u, rfl⟩ := exists_of_closeFrom hclose
    exact ⟨by simp [Quoting.wrap], .inl rfl⟩
  | case11 _ c s _ _ _ _ _ _ _ _ hword =>
    rintro ⟨⟩
    exact ⟨rfl, .inr (isWord_takeWhile hword s)⟩

/-- In HTML no value stands in braces. -/
theorem ne_braces_of_tagHead? {s content p r : Text} {quoting : Quoting}
    (h : tagHead? .html s = some (.value quoting content p r)) : quoting ≠ .braces := by
  rintro rfl
  revert h
  generalize hflavor : Flavor.html = flavor
  fun_cases tagHead? flavor s with
  | case6 | case7 =>
    intro h
    obtain ⟨_, _, ⟨⟩⟩ := Option.map_eq_some_iff.1 h
  | case10 => cases hflavor
  | case11 => exact fun h => absurd (TagHead.value.inj (Option.some.inj h)).1 (by decide)
  | _ => rintro ⟨⟩

/-! ## Attributes -/

/-- The text of an attribute: with an angle behind it, it is read as that attribute alone. -/
def WritesAttr (flavor : Flavor) (u : Text) (a : RawAttribute) : Prop :=
  ∃ b, tagBody flavor 0 .nothing (u ++ ['>']) =
      .ok ⟨[b], ⟨width u, width u + 1⟩, false, []⟩ ∧ b.written = a.written

/-- The bytes of an attribute and of its value hold what was read. -/
structure RawAttribute.Stands (flavor : Flavor) (source : Text) (a : RawAttribute) : Prop where
  text : ∃ u, source.Holds a.span u ∧ u ≠ [] ∧ EndsInk u ∧ WritesAttr flavor u a
  value : ∀ v ∈ a.value, (∃ u, source.Holds v.span u) ∧ a.span.start ≤ v.span.start

/-- Read by itself, the text `u` leaves `w` waiting, if what follows starts like `s`. -/
def Awaits (flavor : Flavor) (u s : Text) (w : Waiting) : Prop :=
  ∀ v, v.head? = s.head? → tagBody flavor 0 .nothing (u ++ v) = tagBody flavor (width u) w v

/-- What waits in front of `s`, which starts at byte `n`, is a name that has been read there. -/
def Waiting.Stands (flavor : Flavor) (source : Text) (n : Nat) (s : Text) : Waiting → Prop
  | nothing => True
  | value name span => IsWord name ∧ source.Holds span name ∧ span.stop ≤ n ∧
    ∃ u, source.Holds ⟨span.start, n⟩ u ∧ Awaits flavor u s (.value name ⟨0, width name⟩)
  | valueAfterEquals name span => IsWord name ∧ source.Holds span name ∧ span.stop ≤ n ∧
    ∃ u, source.Holds ⟨span.start, n⟩ u ∧ Awaits flavor u s (.valueAfterEquals name ⟨0, width name⟩)

/-- Where the name starts that waits in front of byte `n`. -/
def Waiting.start (n : Nat) : Waiting → Nat
  | nothing => n
  | value _ span | valueAfterEquals _ span => span.start

section Pieces

variable {s content p r u v name : Text} {quoting : Quoting} {n : Nat} {span : Span} {w : Waiting}

/-- A value ends without a blank. -/
theorem endsInk_of_tagHead? (h : tagHead? flavor s = some (.value quoting content p r)) :
    p ≠ [] ∧ EndsInk p := by
  refine ⟨(eq_of_tagHead? h).2, ?_⟩
  have concat (u : Text) {c : Char} (hc : isBlank c = false) : EndsInk (u ++ [c]) :=
    endsInk_append (List.cons_ne_nil _ _) (by rintro d ⟨⟩; exact hc)
  revert h
  fun_cases tagHead? flavor s with
  | case6 | case7 =>
    intro h
    obtain ⟨_, _, h⟩ := Option.map_eq_some_iff.1 h
    cases h
    exact concat (_ :: _) (by decide)
  | case10 =>
    intro h
    obtain ⟨⟨q, _⟩, hclose, h⟩ := Option.map_eq_some_iff.1 h
    cases h
    obtain ⟨u, rfl⟩ := exists_of_closeFrom hclose
    exact concat (_ :: u) (by decide)
  | case11 _ c s _ _ _ _ _ _ _ _ hword =>
    intro h
    obtain ⟨-, -, rfl, -⟩ := TagHead.value.inj (Option.some.inj h)
    exact endsInk_of_isWordChar (isWord_takeWhile hword s).2
  | _ => rintro ⟨⟩

/-- A value without quotes is a word. -/
theorem isWord_of_tagHead? (h : tagHead? flavor s = some (.value .bare content p r)) :
    IsWord p ∧ content = p := by
  obtain ⟨rfl, hadmits⟩ : p = Quoting.bare.wrap content ∧ _ := isWritten_of_tagHead? h
  exact ⟨hadmits.resolve_left (by decide), rfl⟩

theorem head?_append_of_ne_nil (hp : p ≠ []) (u v : Text) : (p ++ u).head? = (p ++ v).head? := by
  cases p with
  | nil => exact absurd rfl hp
  | cons c p => rfl

theorem stopsAt_angle (quoting : Quoting) (content p r : Text) :
    (TagHead.value quoting content p r).StopsAt ['>'] := by
  cases quoting
  case bare =>
    rintro c ⟨⟩
    rfl
  all_goals trivial

/-- A value in front of an angle. -/
theorem tagHead?_angle (h : tagHead? flavor s = some (.value quoting content p r)) :
    tagHead? flavor (p ++ ['>']) = some (.value quoting content p ['>']) :=
  tagHead?_congr h (stopsAt_angle ..)

theorem tagBody_angle (n : Nat) (w : Waiting) :
    tagBody flavor n w ['>'] = .ok ⟨w.valueless, ⟨n, n + 1⟩, false, []⟩ :=
  tagBody_close (show tagHead? flavor ['>'] = some (.close false ['>'] []) from rfl)

/-- A name is read as an attribute without a value. -/
theorem IsWord.writesAttr (h : IsWord name) : WritesAttr flavor name ⟨name, span, none⟩ := by
  have hhead : tagHead? flavor (name ++ ['>']) = some (.value .bare name name ['>']) :=
    tagHead?_word h.1 h.2 (by rintro c ⟨⟩; rfl)
  refine ⟨⟨name, ⟨0, 0 + width name⟩, none⟩, ?_, rfl⟩
  rw [tagBody_value hhead rfl, tagBody_angle, Nat.zero_add]
  rfl

/-- An expression is read as an attribute that spreads it. -/
theorem writesAttr_braces (h : tagHead? flavor s = some (.value .braces content p r)) :
    WritesAttr flavor p ⟨p, span, none⟩ := by
  refine ⟨⟨p, ⟨0, 0 + width p⟩, none⟩, ?_, rfl⟩
  rw [tagBody_value (tagHead?_angle h) rfl, tagBody_angle, Nat.zero_add]
  rfl

/-- A name with an equals sign and a value is read as an attribute. -/
theorem Awaits.writesAttr {span' vspan : Span}
    (hu : Awaits flavor u s (.valueAfterEquals name span'))
    (h : tagHead? flavor s = some (.value quoting content p r)) :
    WritesAttr flavor (u ++ p) ⟨name, span, some ⟨content, vspan, quoting⟩⟩ := by
  have hhead : (p ++ ['>']).head? = s.head? := by
    obtain ⟨hs, hp⟩ := eq_of_tagHead? h
    rw [hs]
    exact head?_append_of_ne_nil hp ['>'] r
  refine ⟨⟨name, span', some ⟨content, ⟨width u, width u + width p⟩, quoting⟩⟩, ?_, rfl⟩
  rw [List.append_assoc, hu _ hhead, tagBody_value (tagHead?_angle h) rfl, tagBody_angle, width_append]
  rfl

/-- Blanks and the like do not end the waiting. -/
theorem Awaits.next {w w' : Waiting} (hu : Awaits flavor u s w) {k : TagHead}
    (hk : tagHead? flavor s = some k)
    (hnext : ∀ v, tagHead? flavor (k.piece ++ v) = some (k.before v) →
      tagBody flavor (width u) w (k.piece ++ v) = tagBody flavor (width u + width k.piece) w' v) :
    Awaits flavor (u ++ k.piece) k.rest w' := by
  intro v hv
  obtain ⟨hs, hp⟩ := eq_of_tagHead? hk
  have hhead : (k.piece ++ v).head? = s.head? := by
    rw [hs]
    exact head?_append_of_ne_nil hp v k.rest
  rw [List.append_assoc, hu _ hhead, hnext v (tagHead?_congr hk ((stopsAt_rest hk).congr hv)),
    width_append]

/-- A name by itself waits for a value. -/
theorem awaits_name (h : tagHead? flavor s = some (.value .bare content p r)) :
    Awaits flavor p r (.value p ⟨0, width p⟩) := by
  intro v hv
  have hhead : tagHead? flavor (p ++ v) = some (.value .bare content p v) :=
    tagHead?_congr h ((stopsAt_rest h).congr hv)
  rw [tagBody_value hhead rfl, Nat.zero_add]
  exact congrFun Except.map_id _

end Pieces

section Waiting

variable {source s content p r : Text} {quoting : Quoting} {n k : Nat} {w w' : Waiting}
  {done : List RawAttribute}

/-- An attribute without a value stands where its name stands. -/
theorem stands_valueless (hw : w.Stands flavor source n s) :
    InOrder (w.start n) n (w.valueless.map RawAttribute.span) ∧
      ∀ a ∈ w.valueless, a.Stands flavor source := by
  have name {name : Text} {span : Span} (hword : IsWord name) (hname : source.Holds span name) :
      (⟨name, span, none⟩ : RawAttribute).Stands flavor source :=
    ⟨⟨name, hname, hword.1, endsInk_of_isWordChar hword.2, hword.writesAttr⟩, by rintro v ⟨⟩⟩
  cases w with
  | nothing => exact ⟨Nat.le_refl n, by rintro a ⟨⟩⟩
  | value _ span | valueAfterEquals _ span =>
    obtain ⟨hword, hname, hstop, -⟩ := hw
    refine ⟨⟨Nat.le_refl _, hname.le, hstop⟩, fun a ha => ?_⟩
    rw [List.mem_singleton.1 ha]
    exact name hword hname

/-- What a value completes stands in the text, and so does what waits behind it. -/
theorem stands_take (hw : w.Stands flavor source n s) (hs : source.Holds ⟨n, k⟩ s)
    (hhead : tagHead? flavor s = some (.value quoting content p r))
    (ht : w.take quoting content p n = .ok (done, w')) :
    InOrder (w.start n) (w'.start (n + width p)) (done.map RawAttribute.span) ∧
      (∀ a ∈ done, a.Stands flavor source) ∧ w'.Stands flavor source (n + width p) r := by
  obtain ⟨hne, hink⟩ := endsInk_of_tagHead? hhead
  obtain rfl : s = p ++ r := (eq_of_tagHead? hhead).1
  have hp : source.Holds ⟨n, n + width p⟩ p := hs.left
  cases w with
  | valueAfterEquals name span =>
    cases ht
    obtain ⟨-, -, -, u, hu, hawaits⟩ := hw
    have hattr := hu.append hp
    refine ⟨⟨Nat.le_refl _, hattr.le, Nat.le_refl _⟩, fun a ha => ?_, trivial⟩
    rw [List.mem_singleton.1 ha]
    refine ⟨⟨u ++ p, hattr, List.append_ne_nil_of_right_ne_nil _ hne, endsInk_append hne hink,
      hawaits.writesAttr hhead⟩, ?_⟩
    rintro v ⟨⟩
    exact ⟨⟨p, hp⟩, hu.le⟩
  | nothing | value =>
    obtain ⟨horder, hvalueless⟩ := stands_valueless hw
    cases quoting with
    | double | single => cases ht
    | bare =>
      cases ht
      exact ⟨horder, hvalueless, (isWord_of_tagHead? hhead).1, hp, Nat.le_refl _, p, hp,
        awaits_name hhead⟩
    | braces =>
      cases ht
      rw [List.map_append]
      refine ⟨horder.append ⟨Nat.le_refl _, hp.le, Nat.le_refl _⟩, fun a ha => ?_, trivial⟩
      obtain ha | ha := List.mem_append.1 ha
      · exact hvalueless a ha
      · rw [List.mem_singleton.1 ha]
        exact ⟨⟨p, hp, hne, hink, writesAttr_braces hhead⟩, by rintro v ⟨⟩⟩

/-- What waits goes on to wait behind a piece that is skipped. -/
theorem Waiting.Stands.skip (hw : w.Stands flavor source n s) (hs : source.Holds ⟨n, k⟩ s)
    {t : TagHead} (ht : tagHead? flavor s = some t)
    (hskip : ∀ m w v, tagHead? flavor (t.piece ++ v) = some (t.before v) →
      tagBody flavor m w (t.piece ++ v) = tagBody flavor (m + width t.piece) w v) :
    w.Stands flavor source (n + width t.piece) t.rest := by
  obtain rfl : s = t.piece ++ t.rest := (eq_of_tagHead? ht).1
  cases w with
  | nothing => trivial
  | value | valueAfterEquals =>
    obtain ⟨hword, hname, hstop, u, hu, hawaits⟩ := hw
    exact ⟨hword, hname, Nat.le_add_right_of_le hstop, u ++ t.piece, hu.append hs.left,
      hawaits.next ht fun v => hskip _ _ v⟩

theorem Waiting.start_le (w : Waiting) (n m : Nat) : w.start n ≤ w.start (n + m) := by
  cases w with
  | nothing => exact Nat.le_add_right n m
  | value | valueAfterEquals => exact Nat.le_refl _

end Waiting

/-! ## Tags -/

/-- A piece of a tag stands where the tag goes on, and so does what follows it. -/
theorem holds_of_tagHead? {source s : Text} {n k : Nat} {t : TagHead} (hs : source.Holds ⟨n, k⟩ s)
    (ht : tagHead? flavor s = some t) :
    source.Holds ⟨n, n + width t.piece⟩ t.piece ∧ source.Holds ⟨n + width t.piece, k⟩ t.rest := by
  rw [(eq_of_tagHead? ht).1] at hs
  exact ⟨hs.left, hs.right⟩

/-- **The attributes of a tag stand in its text**, one behind the other. -/
theorem stands_of_tagBody {source s : Text} {n k : Nat} {w : Waiting} {b : TagBody}
    (h : tagBody flavor n w s = .ok b) (hs : source.Holds ⟨n, k⟩ s)
    (hw : w.Stands flavor source n s) :
    InOrder (w.start n) b.closing.start (b.attributes.map RawAttribute.span) ∧
      (∀ a ∈ b.attributes, a.Stands flavor source) ∧ (∃ u, source.Holds b.closing u) ∧
      source.Holds ⟨b.closing.stop, k⟩ b.rest := by
  fun_induction tagBody flavor n w s generalizing b with
  | case1 | case6 | case7 => cases h
  | case2 n w s piece r ht ih =>
    obtain ⟨horder, hstands⟩ := ih h (holds_of_tagHead? hs ht).2 (hw.skip hs ht fun _ _ _ => tagBody_blank)
    exact ⟨horder.mono (w.start_le n _) (Nat.le_refl _), hstands⟩
  | case3 n w s piece r ht ih =>
    obtain ⟨horder, hstands⟩ := ih h (holds_of_tagHead? hs ht).2 (hw.skip hs ht fun _ _ _ => tagBody_slash)
    exact ⟨horder.mono (w.start_le n _) (Nat.le_refl _), hstands⟩
  | case4 n w s selfClosing piece r ht =>
    cases h
    obtain ⟨horder, hattrs⟩ := stands_valueless hw
    obtain rfl : s = piece ++ r := (eq_of_tagHead? ht).1
    exact ⟨horder, hattrs, ⟨piece, hs.left⟩, hs.right⟩
  | case5 n s piece r ht name span ih =>
    obtain ⟨hword, hname, hstop, u, hu, hawaits⟩ := hw
    obtain rfl : s = piece ++ r := (eq_of_tagHead? ht).1
    exact ih h hs.right ⟨hword, hname, Nat.le_add_right_of_le hstop, u ++ piece, hu.append hs.left,
      hawaits.next ht fun v => tagBody_equals⟩
  | case8 n w s quoting content piece r ht done w' hw' ih =>
    cases hb : tagBody flavor (n + width piece) w' r with
    | error e => rw [hb] at h; cases h
    | ok b =>
      rw [hb] at h
      cases h
      obtain ⟨horder, hdone, hwaiting⟩ := stands_take hw hs ht hw'
      obtain ⟨horder', hattrs, hclosing⟩ := ih hb (holds_of_tagHead? hs ht).2 hwaiting
      refine ⟨?_, fun a ha => (List.mem_append.1 ha).elim (hdone a) (hattrs a), hclosing⟩
      show InOrder _ _ ((done ++ b.attributes).map _)
      rw [List.map_append]
      exact horder.append horder'

/-! ## Lexemes -/

/-- The bytes of an open tag and of its parts hold what was read. -/
structure OpenTag.Stands (flavor : Flavor) (source : Text) (t : OpenTag) : Prop where
  name : source.Holds t.nameSpan ('<' :: t.name)
  attributes : ∀ a ∈ t.attributes, a.Stands flavor source
  order : InOrder t.nameSpan.stop t.closing.start (t.attributes.map RawAttribute.span)
  closing : ∃ u, source.Holds t.closing u
  /-- Content that is kept as it is written stands behind the tag. -/
  raw : ∀ content span, t.raw = some (content, span) →
    source.Holds span content ∧ span.start = t.closing.stop

/-- The bytes of a lexeme hold what was read. -/
def Lexeme.Stands (flavor : Flavor) (source : Text) : Lexeme → Prop
  | openTag t => t.Stands flavor source
  | closeTag _ span => ∃ u, source.Holds span u
  | fragmentOpen span => source.Holds span ['<', '>']
  | fragmentClose span => source.Holds span ['<', '/', '>']
  | text content span | expression content span => source.Holds span content

/-- The bytes of a lexeme. -/
def Lexeme.span : Lexeme → Span
  | openTag t => ⟨t.nameSpan.start, (openTag t).stop⟩
  | closeTag _ span | fragmentOpen span | fragmentClose span | text _ span | expression _ span =>
    span

@[simp] theorem Lexeme.stop_span (l : Lexeme) : l.span.stop = l.stop := by cases l <;> rfl

section Scan

variable {source s r : Text} {n k : Nat}

/-- An open tag stands where it was read. -/
theorem stands_of_openTag {name : Text} {t : OpenTag} {stop : Nat}
    (h : openTag flavor n name s = .ok (t, stop, r)) (hs : source.Holds ⟨n, k⟩ ('<' :: name ++ s)) :
    t.Stands flavor source ∧ (Lexeme.openTag t).span = ⟨n, stop⟩ ∧ n ≤ stop ∧
      source.Holds ⟨stop, k⟩ r := by
  have hname := hs.left
  have hrest := hs.right
  rw [width_cons, show '<'.utf8Size = 1 from rfl, ← Nat.add_assoc] at hname hrest
  simp only [openTag] at h
  split at h
  · cases h
  next b hb =>
    obtain ⟨horder, hattrs, ⟨u, hclosing⟩, hbody⟩ := stands_of_tagBody hb hrest trivial
    have hle : n ≤ b.closing.stop := Nat.le_trans hname.le (Nat.le_trans horder.le hclosing.le)
    split at h
    · split at h
      · cases h
      next content rest hraw =>
        cases h
        rw [eq_of_rawContent? hraw] at hbody
        refine ⟨⟨hname, hattrs, horder, ⟨u, hclosing⟩, ?_⟩, ?_, ?_, hbody.right⟩
        · intro content' span hcontent
          split at hcontent
          · cases hcontent
          · cases hcontent
            exact ⟨hbody.left, rfl⟩
        · simp only [Lexeme.span, Lexeme.stop]
          split_ifs with hempty
          · rw [hempty, width_nil, Nat.add_zero]
          · rfl
        · exact Nat.le_add_right_of_le hle
    · cases h
      exact ⟨⟨hname, hattrs, horder, ⟨u, hclosing⟩, by rintro _ _ ⟨⟩⟩, rfl, hle, hbody⟩

/-- A piece of content stands where the content starts, and so does what follows it. -/
theorem holds_of_contentHead {c : ContentHead} (hs : source.Holds ⟨n, k⟩ s)
    (hc : contentHead flavor s = .ok (some c)) :
    source.Holds ⟨n, n + width c.piece⟩ c.piece ∧ source.Holds ⟨n + width c.piece, k⟩ c.rest := by
  rw [(eq_of_contentHead hc).1] at hs
  exact ⟨hs.left, hs.right⟩

/-- A run of text starts with its first plain characters. -/
theorem eq_append_textRun {p : Text} (hc : contentHead flavor s = .ok (some (.plain p r))) :
    s = p ++ (textRun flavor r).1 ++ (textRun flavor r).2 := by
  rw [List.append_assoc, textRun_append]
  exact (eq_of_contentHead hc).1

variable (flavor) in
/-- **The lexemes of a text stand in it**, one behind the other. -/
theorem stands_scan (hs : source.Holds ⟨n, k⟩ s) :
    InOrder n k ((scan flavor n s).lexemes.map Lexeme.span) ∧
      ∀ l ∈ (scan flavor n s).lexemes, l.Stands flavor source := by
  -- a lexeme in front of the others
  have cons {n : Nat} {l : Lexeme} {r : Scan} (hl : l.Stands flavor source) (hstart : n ≤ l.span.start)
      (hle : l.span.start ≤ l.span.stop) (hr : InOrder l.span.stop k (r.lexemes.map Lexeme.span) ∧
        ∀ l ∈ r.lexemes, l.Stands flavor source) :
      InOrder n k ((r.cons l).lexemes.map Lexeme.span) ∧
        ∀ m ∈ (r.cons l).lexemes, m.Stands flavor source :=
    ⟨⟨hstart, hle, hr.1⟩, List.forall_mem_cons.2 ⟨hl, hr.2⟩⟩
  fun_induction scan flavor n s with
  | case1 n | case2 n => exact ⟨hs.le, by rintro l ⟨⟩⟩
  | case4 n => exact ⟨hs.le, by rintro l ⟨⟩⟩
  | case3 n s p r hc ih =>
    obtain ⟨hp, hr⟩ := holds_of_contentHead hs hc
    obtain ⟨horder, hstands⟩ := ih hr
    exact ⟨horder.mono hp.le (Nat.le_refl _), hstands⟩
  | case5 n s name p r hc t stop rest ht ih =>
    obtain ⟨rfl, -⟩ := name_of_contentHead hc
    rw [(eq_of_contentHead hc).1] at hs
    obtain ⟨hstands, hspan, hle, hrest⟩ := stands_of_openTag ht hs
    have hstart : (Lexeme.openTag t).span.start = n := congrArg Span.start hspan
    have hstop : (Lexeme.openTag t).span.stop = stop := congrArg Span.stop hspan
    refine cons hstands (Nat.le_of_eq hstart.symm) ?_ ?_
    · rw [hstart, hstop]
      exact hle
    · rw [hstop]
      exact ih hrest
  | case6 n s name p r hc stop ih =>
    obtain ⟨hp, hr⟩ := holds_of_contentHead hs hc
    exact cons (l := .closeTag name ⟨n, stop⟩) ⟨p, hp⟩ (Nat.le_refl _) hp.le (ih hr)
  | case7 n s p r hc stop ih =>
    obtain ⟨hp, hr⟩ := holds_of_contentHead hs hc
    obtain rfl : p = ['<', '>'] := isExact_of_contentHead hc
    exact cons (l := .fragmentOpen ⟨n, stop⟩) hp (Nat.le_refl _) hp.le (ih hr)
  | case8 n s p r hc stop ih =>
    obtain ⟨hp, hr⟩ := holds_of_contentHead hs hc
    obtain rfl : p = ['<', '/', '>'] := isExact_of_contentHead hc
    exact cons (l := .fragmentClose ⟨n, stop⟩) hp (Nat.le_refl _) hp.le (ih hr)
  | case9 n s p r hc stop ih =>
    obtain ⟨hp, hr⟩ := holds_of_contentHead hs hc
    exact cons (l := .expression p ⟨n, stop⟩) hp (Nat.le_refl _) hp.le (ih hr)
  | case10 n s p r hc run content stop ih =>
    rw [eq_append_textRun hc] at hs
    exact cons (l := .text content ⟨n, stop⟩) hs.left (Nat.le_refl _) hs.left.le (ih hs.right)

end Scan

end MarkupSync
