import MarkupSync.Outcome
import MarkupSync.Proofs.Lexeme.Places

/-!
# Open tags with any spacing

Between the attributes of a tag there may be slashes as well as blanks, behind quotes there need not
be anything, the last name may have an equals sign without a value, and names may be repeated.

* `AttrSource.IsLoose`, `TagSource.IsLoose`: tags of this kind as they are written;
* `AttrSource.AreApart`, `TagSource.IsApart`: what stands next to each other in such a tag is not
  taken for one thing;
* **`tagBody_loose`**: the attributes of such a tag are read as they were written;
* `TagSource.IsValid.isLoose`: a tag with blanks in front of its attributes is of this kind;
* **`exists_tagSource_of_openTag`**: so is every tag that is read.
-/

namespace MarkupSync

open Text

/-! ## Tags -/

/-- The sides of the equals sign hold no more than filler, and the value can be read. -/
structure ValueSource.IsLoose (v : ValueSource) : Prop where
  front : IsFiller v.front
  back : IsFiller v.back
  text : v.quoting.Admits v.text

instance (s : Text) : Decidable (IsFiller s) :=
  List.decidableBAll (fun c => isBlank c = true ∨ c = '/') s

instance : (q : Quoting) → (s : Text) → Decidable (q.Admits s)
  | .double, s => inferInstanceAs (Decidable ('"' ∉ s))
  | .single, s => inferInstanceAs (Decidable ('\'' ∉ s))
  | .bare, s => inferInstanceAs (Decidable (s ≠ [] ∧ s.all isWordChar))
  | .braces, _ => inferInstanceAs (Decidable False)

instance (v : ValueSource) : Decidable v.IsLoose :=
  decidable_of_iff (IsFiller v.front ∧ IsFiller v.back ∧ v.quoting.Admits v.text)
    ⟨fun ⟨a, b, c⟩ => ⟨a, b, c⟩, fun ⟨a, b, c⟩ => ⟨a, b, c⟩⟩

namespace AttrSource

/-- There is no more than filler in front, the name is a word and the value can be read. -/
structure IsLoose (a : AttrSource) : Prop where
  blanks : IsFiller a.blanks
  name : IsWord a.name
  value : ∀ v ∈ a.value, v.IsLoose

instance (a : AttrSource) : Decidable a.IsLoose :=
  decidable_of_iff (IsFiller a.blanks ∧ (a.name ≠ [] ∧ a.name.all isWordChar = true) ∧
    ∀ v ∈ a.value, v.IsLoose) ⟨fun ⟨a, b, c⟩ => ⟨a, b, c⟩, fun ⟨a, b, c⟩ => ⟨a, b, c⟩⟩

/-- Words of attributes end where the attributes end, in front of `tail`. -/
def AreApart (tail : Text) : List AttrSource → Prop
  | [] => True
  | a :: as => (a.endsInWord = true →
      ∀ c ∈ (as.flatMap source ++ tail).head?, isWordChar c = false) ∧ AreApart tail as

/-- Decides whether words of attributes end where the attributes end. -/
def decidableAreApart (tail : Text) : (as : List AttrSource) → Decidable (AreApart tail as)
  | [] => inferInstanceAs (Decidable True)
  | a :: as =>
    haveI : Decidable (∀ c ∈ (as.flatMap source ++ tail).head?, isWordChar c = false) :=
      Option.decidableForallMem _
    haveI := decidableAreApart tail as
    inferInstanceAs (Decidable ((a.endsInWord = true →
      ∀ c ∈ (as.flatMap source ++ tail).head?, isWordChar c = false) ∧ AreApart tail as))

instance (tail : Text) (as : List AttrSource) : Decidable (AreApart tail as) :=
  decidableAreApart tail as

/-- The last of attributes has no value. -/
def EndValueless (as : List AttrSource) : Prop := ∃ a ∈ as.getLast?, a.value = none

instance (as : List AttrSource) : Decidable (EndValueless as) :=
  inferInstanceAs (Decidable (∃ a ∈ as.getLast?, a.value = none))

end AttrSource

namespace TagSource

/-- The parts of a tag are not taken for one thing: neither its name nor words of its attributes go
on, and a slash in front of its end is not part of the end. An equals sign in front of the end
follows a name. -/
structure IsApart (g : TagSource) : Prop where
  name : ∀ c ∈ g.body.head?, isNameChar c = false
  attributes : AttrSource.AreApart (g.blanks ++ tagClose g.selfClosing) g.attributes
  closing : g.selfClosing = false → g.blanks.getLast? ≠ some '/'
  equals : '=' ∈ g.blanks → AttrSource.EndValueless g.attributes

instance (g : TagSource) : Decidable g.IsApart :=
  haveI : Decidable (∀ c ∈ g.body.head?, isNameChar c = false) := Option.decidableForallMem _
  decidable_of_iff ((∀ c ∈ g.body.head?, isNameChar c = false) ∧
    AttrSource.AreApart (g.blanks ++ tagClose g.selfClosing) g.attributes ∧
    (g.selfClosing = false → g.blanks.getLast? ≠ some '/') ∧
    ('=' ∈ g.blanks → AttrSource.EndValueless g.attributes))
    ⟨fun ⟨a, b, c, d⟩ => ⟨a, b, c, d⟩, fun ⟨a, b, c, d⟩ => ⟨a, b, c, d⟩⟩

/-- A tag whose parts can be read and stand apart, with at most one equals sign in front of its
end. -/
structure IsLoose (g : TagSource) : Prop where
  name : IsTagName g.name
  attributes : ∀ a ∈ g.attributes, a.IsLoose
  blanks : IsFiller (g.blanks.erase '=')
  apart : g.IsApart

end TagSource

/-! ## Reading -/

theorem isFiller_nil : IsFiller [] := by rintro c ⟨⟩

theorem IsFiller.append {s t : Text} (hs : IsFiller s) (ht : IsFiller t) : IsFiller (s ++ t) :=
  fun c hc => (List.mem_append.1 hc).elim (hs c) (ht c)

theorem IsFiller.not_mem {s : Text} (h : IsFiller s) : '=' ∉ s := fun hc =>
  absurd (h _ hc) (by decide)

/-- No word goes on in filler. -/
theorem ends_of_isFiller {b s : Text} (hb : IsFiller b)
    (hs : b = [] → ∀ c ∈ s.head?, isWordChar c = false) :
    ∀ c ∈ (b ++ s).head?, isWordChar c = false := by
  intro c hc
  cases b with
  | nil => exact hs rfl c hc
  | cons d b =>
    cases hc
    exact hb.isWordChar _ List.mem_cons_self

theorem AttrSource.IsLoose.before {a : AttrSource} (ha : a.IsLoose) (flavor : Flavor) {next : Text}
    (hnext : a.endsInWord = true → ∀ c ∈ next.head?, isWordChar c = false) :
    a.IsReadBefore flavor next where
  blanks := ha.blanks
  name_ne := ha.name.1
  name := ha.name.2
  value := fun v hv => ⟨(ha.value v hv).front, (ha.value v hv).back,
    tagHead?_wrap (ha.value v hv).text fun hq =>
      hnext (by simp [AttrSource.endsInWord, Option.mem_def.1 hv, hq])⟩
  valueless := fun hv => hnext (by rw [AttrSource.endsInWord, hv])

theorem AttrSource.IsValid.isLoose {a : AttrSource} (ha : a.IsValid) : a.IsLoose :=
  ⟨ha.blanks.isFiller, ⟨ha.name_ne, ha.name⟩, fun v hv =>
    ⟨(ha.value v hv).front.isFiller, (ha.value v hv).back.isFiller, (ha.value v hv).text⟩⟩

/-- What attributes stand in front of shows in front of the end of the tag. -/
theorem AttrSource.head?_sources (as : List AttrSource) (b : Text) (sc : Bool) (rest : Text) :
    (as.flatMap source ++ (b ++ (tagClose sc ++ rest))).head? =
      (as.flatMap source ++ (b ++ tagClose sc)).head? := by
  have hne : as.flatMap source ++ (b ++ tagClose sc) ≠ [] := by
    cases sc <;> simp [tagClose]
  have := head?_append_of_ne_nil hne rest []
  rwa [List.append_nil, List.append_assoc, List.append_assoc] at this

theorem tagHead?_tagClose (flavor : Flavor) (sc : Bool) (rest : Text) :
    tagHead? flavor (tagClose sc ++ rest) = some (.close sc (tagClose sc) rest) := by
  cases sc <;> rfl

section Read

variable {b : Text} {sc : Bool} {as : List AttrSource} {w : Waiting} {n : Nat}

/-- The end of a tag is read behind filler, in which an equals sign may follow a name. -/
theorem tagBody_end (hb : IsFiller (b.erase '=')) (hclosing : sc = false → b.getLast? ≠ some '/')
    (hw : '=' ∈ b → ∃ name span, w = .value name span) (rest : Text) :
    tagBody .html n w (b ++ (tagClose sc ++ rest)) =
      .ok ⟨w.valueless, ⟨n + width b, n + width b + width (tagClose sc)⟩, sc, rest⟩ := by
  have hangle : b.getLast? = some '/' → (tagClose sc ++ rest).head? ≠ some '>' := by
    intro hlast
    cases sc with
    | false => exact absurd hlast (hclosing rfl)
    | true => rintro ⟨⟩
  by_cases hmem : '=' ∈ b
  · obtain ⟨name, span, rfl⟩ := hw hmem
    obtain ⟨x, y, -, rfl, herase⟩ := List.exists_erase_eq hmem
    rw [herase] at hb
    have hx : IsFiller x := fun c hc => hb c (List.mem_append_left _ hc)
    have hy : IsFiller y := fun c hc => hb c (List.mem_append_right _ hc)
    have hequals (s : Text) : tagHead? .html ('=' :: s) = some (.equals ['='] s) := rfl
    have hlast : y.getLast? = some '/' → (tagClose sc ++ rest).head? ≠ some '>' := by
      intro h
      refine hangle ?_
      rw [List.getLast?_append, List.getLast?_cons, h]
      rfl
    have hwidth : n + width x + width ['='] + width y = n + width (x ++ '=' :: y) := by
      simp
      omega
    rw [List.append_assoc, List.cons_append, tagBody_filler hx fun _ => by rintro ⟨⟩,
      tagBody_equals (hequals _), tagBody_filler hy hlast, tagBody_close (tagHead?_tagClose ..), hwidth]
    rfl
  · rw [List.erase_of_not_mem hmem] at hb
    rw [tagBody_filler hb hangle, tagBody_close (tagHead?_tagClose ..)]

/-- **The attributes of a tag are read as they were written**, whatever the spacing. -/
theorem tagBody_loose (has : ∀ a ∈ as, a.IsLoose) (hb : IsFiller (b.erase '='))
    (happart : AttrSource.AreApart (b ++ tagClose sc) as)
    (hclosing : sc = false → b.getLast? ≠ some '/')
    (hequals : '=' ∈ b → as ≠ [] → AttrSource.EndValueless as)
    (hw : ∀ name span, w ≠ .valueAfterEquals name span)
    (hvalue : '=' ∈ b → as = [] → ∃ name span, w = .value name span) (rest : Text) :
    tagBody .html n w (as.flatMap AttrSource.source ++ (b ++ (tagClose sc ++ rest))) =
      .ok ⟨w.valueless ++ AttrSource.raws n as,
        ⟨n + width (as.flatMap AttrSource.source) + width b,
          n + width (as.flatMap AttrSource.source) + width b + width (tagClose sc)⟩, sc, rest⟩ := by
  induction as generalizing n w with
  | nil =>
    rw [List.flatMap_nil, List.nil_append, tagBody_end hb hclosing (fun h => hvalue h rfl),
      AttrSource.raws, List.append_nil, width_nil, Nat.add_zero]
  | cons a as ih =>
    obtain ⟨ha, has⟩ := List.forall_mem_cons.1 has
    have hnext : a.endsInWord = true →
        ∀ c ∈ (as.flatMap AttrSource.source ++ (b ++ (tagClose sc ++ rest))).head?,
          isWordChar c = false := by
      rw [AttrSource.head?_sources]
      exact happart.1
    obtain ⟨done, w', hw', hdone, hname, htag⟩ := tagBody_attr (ha.before .html hnext) n hw
    have hlast : '=' ∈ b → as ≠ [] → AttrSource.EndValueless as := by
      intro hmem hne
      obtain ⟨l, hl, hvalueless⟩ := hequals hmem (List.cons_ne_nil _ _)
      rw [List.getLast?_cons, List.getLast?_eq_some_getLast hne] at hl
      exact ⟨l, by rw [List.getLast?_eq_some_getLast hne]; exact hl, hvalueless⟩
    have hfirst : '=' ∈ b → as = [] → ∃ name span, w' = .value name span := by
      rintro hmem rfl
      obtain ⟨l, ⟨⟩, hvalueless⟩ := hequals hmem (List.cons_ne_nil _ _)
      exact ⟨_, hname hvalueless⟩
    rw [List.flatMap_cons, List.append_assoc, htag, ih has happart.2 hlast hw' hfirst,
      AttrSource.raws, width_append]
    simp only [Except.map, TagBody.withFirst]
    have : w.valueless ++ done ++ (w'.valueless ++ AttrSource.raws (n + width a.source) as) =
        w.valueless ++ a.raw n :: AttrSource.raws (n + width a.source) as := by
      rw [List.append_assoc, ← List.append_assoc done, hdone]
      rfl
    simp only [this, Nat.add_assoc]

end Read

/-- A loose tag is read behind its name as it was written. -/
theorem TagSource.IsLoose.tagBody {g : TagSource} (hg : g.IsLoose) (n : Nat) (rest : Text) :
    MarkupSync.tagBody .html (n + 1 + width g.name) .nothing (g.body ++ rest) =
      .ok ⟨(g.openTag n none).attributes, (g.openTag n none).closing, g.selfClosing, rest⟩ := by
  have happart := hg.apart
  rw [TagSource.body, List.append_assoc, List.append_assoc,
    tagBody_loose hg.attributes hg.blanks happart.attributes happart.closing
      (fun h _ => happart.equals h) (by rintro _ _ ⟨⟩) fun h hnil => ?_]
  · rfl
  · obtain ⟨a, ha, -⟩ := happart.equals h
    rw [hnil] at ha
    cases ha

/-! ## Every tag that is read -/

/-- A value is written as it is read. -/
theorem admits_of_tagHead? {s content p r : Text} {q : Quoting}
    (h : tagHead? .html s = some (.value q content p r)) : q.Admits content ∧ p = q.wrap content := by
  obtain ⟨rfl, hadmits⟩ : p = q.wrap content ∧ _ := isWritten_of_tagHead? h
  exact ⟨hadmits.resolve_left (ne_braces_of_tagHead? h), rfl⟩

/-- What stands in front of `s` and waits for it: filler, or a name behind filler that more filler
and an equals sign may follow. -/
def Waiting.IsWritten (p s : Text) : Waiting → Prop
  | nothing => IsFiller p
  | value name _ => ∃ x y, p = x ++ name ++ y ∧ IsFiller x ∧ IsWord name ∧ IsFiller y ∧
    (y = [] → ∀ c ∈ s.head?, isWordChar c = false)
  | valueAfterEquals name _ => ∃ x y z, p = x ++ name ++ y ++ '=' :: z ∧ IsFiller x ∧ IsWord name ∧
    IsFiller y ∧ IsFiller z

/-- The text `t` is attributes and the end of a tag, in front of `rest`. -/
structure AttrSource.Write (as : List AttrSource) (b t : Text) (sc : Bool) (rest : Text) : Prop where
  eq : t = as.flatMap source ++ (b ++ (tagClose sc ++ rest))
  attributes : ∀ a ∈ as, a.IsLoose
  blanks : IsFiller (b.erase '=')
  apart : AreApart (b ++ tagClose sc) as
  closing : sc = false → b.getLast? ≠ some '/'
  equals : '=' ∈ b → EndValueless as

section Write

variable {as : List AttrSource} {a : AttrSource} {b p s r t rest : Text} {sc : Bool} {n : Nat}

theorem AttrSource.Write.cons (h : Write as b t sc rest) (ha : a.IsLoose)
    (hnext : a.endsInWord = true → ∀ c ∈ t.head?, isWordChar c = false) :
    Write (a :: as) b (a.source ++ t) sc rest := by
  refine ⟨?_, List.forall_mem_cons.2 ⟨ha, h.attributes⟩, h.blanks, ⟨?_, h.apart⟩, h.closing,
    fun hmem => ?_⟩
  · rw [List.flatMap_cons, List.append_assoc, ← h.eq]
  · rwa [h.eq, head?_sources] at hnext
  · obtain ⟨l, hl, hvalueless⟩ := h.equals hmem
    exact ⟨l, by rw [List.getLast?_cons, hl]; rfl, hvalueless⟩

/-- Filler in front of the end of a tag. -/
theorem AttrSource.write_nil (hb : IsFiller b) (hclosing : sc = false → b.getLast? ≠ some '/')
    (rest : Text) : Write [] b (b ++ (tagClose sc ++ rest)) sc rest :=
  ⟨rfl, by rintro a ⟨⟩, by rwa [List.erase_of_not_mem hb.not_mem], trivial, hclosing,
    fun h => absurd h hb.not_mem⟩

/-- In front of the end of a tag, a name may wait for a value that does not come. -/
theorem AttrSource.write_close {w : Waiting} (hw : w.IsWritten p (tagClose sc ++ rest))
    (hlast : p.getLast? = some '/' → (tagClose sc ++ rest).head? ≠ some '>') :
    ∃ as b, Write as b (p ++ (tagClose sc ++ rest)) sc rest := by
  have hslash {b : Text} (h : p.getLast? = b.getLast?) : sc = false → b.getLast? ≠ some '/' := by
    rintro rfl hb
    exact hlast (h.trans hb) rfl
  cases w with
  | nothing => exact ⟨[], p, write_nil hw (hslash rfl) rest⟩
  | value name span =>
    obtain ⟨x, y, rfl, hx, hname, hy, hnext⟩ := hw
    have hclosing : sc = false → y.getLast? ≠ some '/' := by
      intro hsc hyl
      refine hslash (b := y) ?_ hsc hyl
      rw [List.getLast?_append, hyl]
      rfl
    have hend := (write_nil hy hclosing rest).cons (a := ⟨x, name, none⟩) ⟨hx, hname, by rintro v ⟨⟩⟩
      fun _ => ends_of_isFiller hy hnext
    exact ⟨_, y, by simpa [source] using hend⟩
  | valueAfterEquals name span =>
    obtain ⟨x, y, z, rfl, hx, hname, hy, hz⟩ := hw
    refine ⟨[⟨x, name, none⟩], y ++ '=' :: z, by simp [source],
      List.forall_mem_singleton.2 ⟨hx, hname, by rintro v ⟨⟩⟩, ?_, ⟨fun _ => ?_, trivial⟩,
      hslash ?_, fun _ => ⟨_, rfl, rfl⟩⟩
    · rw [List.erase_append_right _ hy.not_mem, List.erase_cons_head]
      exact hy.append hz
    · rw [List.flatMap_nil, List.nil_append, List.append_assoc]
      refine ends_of_isFiller hy fun _ c hc => ?_
      cases hc
      rfl
    · rw [List.getLast?_append, List.getLast?_append (l := y)]
      rfl

/-- What a value completes, and what waits behind it. -/
theorem exists_take_written {w w' : Waiting} {done : List RawAttribute} {q : Quoting}
    {content : Text} (hw : w.IsWritten p s)
    (hhead : tagHead? .html s = some (.value q content t r))
    (ht : w.take q content t n = .ok (done, w')) :
    ∃ as p', w'.IsWritten p' r ∧ (p' = [] ∨ ∃ x, p' = x ++ t) ∧
      ∀ sc rest bs b, AttrSource.Write bs b (p' ++ r) sc rest →
        AttrSource.Write (as ++ bs) b (p ++ s) sc rest := by
  obtain ⟨hs, hne⟩ := eq_of_tagHead? hhead
  simp only [TagHead.piece, TagHead.rest] at hs hne
  subst hs
  obtain ⟨hadmits, hwrap⟩ := admits_of_tagHead? hhead
  have hstop := stopsAt_rest hhead
  cases w with
  | valueAfterEquals name span =>
    cases ht
    obtain ⟨x, y, z, rfl, hx, hname, hy, hz⟩ := hw
    refine ⟨[⟨x, name, some ⟨y, z, q, content⟩⟩], [], isFiller_nil, .inl rfl,
      fun sc rest bs b h => ?_⟩
    have := h.cons (a := ⟨x, name, some ⟨y, z, q, content⟩⟩)
      ⟨hx, hname, by rintro v ⟨⟩; exact ⟨hy, hz, hadmits⟩⟩ fun hword => by
        obtain rfl : q = .bare := by simpa [AttrSource.endsInWord] using hword
        exact hstop
    simpa [AttrSource.source, ValueSource.source, ValueSource.quoted, ← hwrap] using this
  | nothing =>
    cases q with
    | double | single => cases ht
    | braces => exact hadmits.elim
    | bare =>
      cases ht
      refine ⟨[], p ++ t, ⟨p, [], by simp, hw, (isWord_of_tagHead? hhead).1, isFiller_nil,
        fun _ => hstop⟩, .inr ⟨p, rfl⟩, fun sc rest bs b h => ?_⟩
      simpa using h
  | value name span =>
    cases q with
    | double | single => cases ht
    | braces => exact hadmits.elim
    | bare =>
      cases ht
      obtain ⟨x, y, rfl, hx, hname, hy, hnext⟩ := hw
      have hword := (isWord_of_tagHead? hhead).1
      refine ⟨[⟨x, name, none⟩], y ++ t, ⟨y, [], by simp, hy, hword, isFiller_nil, fun _ => hstop⟩,
        .inr ⟨y, rfl⟩, fun sc rest bs b h => ?_⟩
      have := h.cons (a := ⟨x, name, none⟩) ⟨hx, hname, by rintro v ⟨⟩⟩ fun _ => by
        rw [List.append_assoc]
        exact ends_of_isFiller hy hnext
      simpa [AttrSource.source] using this

/-- Filler belongs to what waits in front of it. -/
theorem Waiting.IsWritten.skip {w : Waiting} (hw : w.IsWritten p (t ++ r)) (ht : IsFiller t)
    (hne : t ≠ []) : w.IsWritten (p ++ t) r := by
  cases w with
  | nothing => exact IsFiller.append hw ht
  | value name span =>
    obtain ⟨x, y, rfl, hx, hname, hy, -⟩ := hw
    exact ⟨x, y ++ t, by simp, hx, hname, hy.append ht, by simp [hne]⟩
  | valueAfterEquals name span =>
    obtain ⟨x, y, z, rfl, hx, hname, hy, hz⟩ := hw
    exact ⟨x, y, z ++ t, by simp, hx, hname, hy, hz.append ht⟩

/-- A value ends with no slash. -/
theorem getLast?_ne_slash {q : Quoting} {content : Text}
    (h : tagHead? .html s = some (.value q content t r)) (x : Text) :
    (x ++ t).getLast? ≠ some '/' := by
  obtain ⟨hadmits, rfl⟩ := admits_of_tagHead? h
  cases q with
  | double | single =>
    show (x ++ (_ :: content ++ [_])).getLast? ≠ _
    rw [← List.append_assoc, List.getLast?_concat]
    decide
  | braces => exact hadmits.elim
  | bare =>
    intro hlast
    have hmem := List.mem_of_getLast? ((List.getLast?_append_of_ne_nil x hadmits.1).symm.trans hlast)
    exact absurd (List.all_eq_true.1 hadmits.2 _ hmem) (by decide)

/-- What waits in front of a tag that is read, and the tag, are attributes and the end of a tag. -/
theorem exists_write_of_tagBody {w : Waiting} {body : TagBody} (h : tagBody .html n w s = .ok body)
    (hw : w.IsWritten p s) (hlast : p.getLast? = some '/' → s.head? ≠ some '>') :
    ∃ as b, AttrSource.Write as b (p ++ s) body.selfClosing body.rest := by
  fun_induction tagBody .html n w s generalizing p body with
  | case1 | case6 | case7 => cases h
  | case2 n w s t r hhead ih =>
    obtain ⟨c, hc, rfl, rfl⟩ := exists_of_tagHead?_blank hhead
    have := ih h (hw.skip (t := [c]) (List.forall_mem_singleton.2 (.inl hc)) (List.cons_ne_nil _ _))
      fun h => by
        rw [List.getLast?_concat] at h
        cases h
        cases hc
    simpa using this
  | case3 n w s t r hhead ih =>
    have hstop := stopsAt_rest hhead
    obtain rfl : t = ['/'] := isWritten_of_tagHead? hhead
    obtain rfl : s = ['/'] ++ r := (eq_of_tagHead? hhead).1
    have := ih h (hw.skip (List.forall_mem_singleton.2 (.inr rfl)) (List.cons_ne_nil _ _))
      fun _ => hstop
    simpa using this
  | case4 n w s sc t r hhead =>
    cases h
    obtain rfl : t = tagClose sc := isWritten_of_tagHead? hhead
    obtain rfl : s = tagClose sc ++ r := (eq_of_tagHead? hhead).1
    exact AttrSource.write_close hw hlast
  | case5 n s t r hhead name span ih =>
    obtain rfl : t = ['='] := isWritten_of_tagHead? hhead
    obtain rfl : s = ['='] ++ r := (eq_of_tagHead? hhead).1
    obtain ⟨x, y, rfl, hx, hname, hy, -⟩ := hw
    have := ih h (p := x ++ name ++ y ++ ['=']) ⟨x, y, [], rfl, hx, hname, hy, isFiller_nil⟩
      fun h => by
        rw [List.getLast?_concat] at h
        cases h
    simpa using this
  | case8 n w s q content t r hhead done w' ht ih =>
    obtain ⟨body', hbody, rfl⟩ := exists_of_map_eq_ok h
    obtain ⟨as, p', hw', hp', hwrite⟩ := exists_take_written hw hhead ht
    obtain ⟨bs, b, hb⟩ := ih hbody hw' fun h => by
      obtain rfl | ⟨x, rfl⟩ := hp'
      · cases h
      · exact absurd h (getLast?_ne_slash hhead x)
    exact ⟨as ++ bs, b, hwrite _ _ _ _ hb⟩

end Write

/-- Every tag that is read is written with filler around its attributes. -/
theorem exists_tagSource_of_tagBody {name s : Text} {n : Nat} {body : TagBody} (hname : IsTagName name)
    (hs : ∀ c ∈ s.head?, isNameChar c = false) (h : tagBody .html n .nothing s = .ok body) :
    ∃ g : TagSource, g.IsLoose ∧ g.name = name ∧ g.selfClosing = body.selfClosing ∧
      s = g.body ++ body.rest := by
  obtain ⟨as, b, hwrite⟩ := exists_write_of_tagBody (p := []) h isFiller_nil (by rintro ⟨⟩)
  have hbody : s = TagSource.body ⟨name, as, b, body.selfClosing⟩ ++ body.rest := by
    rw [← List.nil_append s, hwrite.eq]
    simp [TagSource.body]
  refine ⟨⟨name, as, b, body.selfClosing⟩, ⟨hname, hwrite.attributes, hwrite.blanks,
    ⟨fun c hc => hs c ?_, hwrite.apart, hwrite.closing, hwrite.equals⟩⟩, rfl, rfl, hbody⟩
  rw [hbody, List.head?_append, hc]
  rfl

theorem AttrSource.areApart_of_isValid {as : List AttrSource} (has : ∀ a ∈ as, a.IsValid)
    {tail : Text} (htail : ∀ c ∈ tail.head?, isWordChar c = false) : AreApart tail as := by
  induction as with
  | nil => trivial
  | cons a as ih =>
    obtain ⟨-, has⟩ := List.forall_mem_cons.1 has
    refine ⟨fun _ => ?_, ih has⟩
    cases as with
    | nil => exact htail
    | cons b as =>
      have hb := has b List.mem_cons_self
      simp only [List.flatMap_cons, source, List.append_assoc]
      exact ends_of_isFiller hb.blanks.isFiller fun h => absurd h hb.blanks_ne

/-- The parts of a tag with blanks in front of its attributes stand apart. -/
theorem TagSource.IsValid.isLoose {g : TagSource} (hg : g.IsValid) : g.IsLoose where
  name := hg.name
  attributes := fun a ha => (hg.attributes a ha).isLoose
  blanks := by
    rw [List.erase_of_not_mem hg.blanks.isFiller.not_mem]
    exact hg.blanks.isFiller
  apart :=
    { name := fun c hc => hg.head_body [] c (by rwa [List.append_nil])
      attributes := AttrSource.areApart_of_isValid hg.attributes
        (ends_of_isFiller hg.blanks.isFiller fun _ c hc => by
          cases hsc : g.selfClosing <;> rw [hsc] at hc <;> cases hc <;> rfl)
      closing := fun _ hlast => absurd (hg.blanks _ (List.mem_of_getLast? hlast)) (by decide)
      equals := fun h => absurd h hg.blanks.isFiller.not_mem }

/-- A loose tag is read as it was written, with content that is kept as it is written. -/
theorem TagSource.IsLoose.openTag {g : TagSource} (hg : g.IsLoose) (n : Nat) (rest : Text) :
    MarkupSync.openTag .html n g.name (g.body ++ rest) =
      if !g.selfClosing && isRaw g.name then
        match rawContent? g.name rest with
        | none => .error (.openElement g.name)
        | some (content, behind) => .ok (g.openTag n (if content = [] then none
            else some (content, ⟨n + width g.source, n + width g.source + width content⟩)),
            n + width g.source + width content, behind)
      else .ok (g.openTag n none, n + width g.source, rest) := by
  have hflavor : (Flavor.html == Flavor.html) = true := rfl
  rw [MarkupSync.openTag]
  simp only [hg.tagBody, g.openTag_closing_stop, hflavor, Bool.and_true]
  split_ifs with hraw
  · rw [Bool.and_eq_true, Bool.not_eq_true'] at hraw
    cases rawContent? g.name rest with
    | none => rfl
    | some => simp [TagSource.openTag, hraw.1]
  · rfl

/-- **An open tag that is read is a loose tag**, and another one of its name is read in its place. -/
theorem exists_tagSource_of_openTag {name s rest : Text} {n stop : Nat} {t : OpenTag}
    (hname : IsTagName name) (hs : ∀ c ∈ s.head?, isNameChar c = false)
    (h : openTag .html n name s = .ok (t, stop, rest)) :
    ∃ g tail, TagSource.IsLoose g ∧ g.name = name ∧ s = g.body ++ tail ∧ t = g.openTag n t.raw ∧
      ∀ g' : TagSource, g'.IsLoose → g'.name = name → g'.selfClosing = g.selfClosing →
        ∃ raw stop', openTag .html n name (g'.body ++ tail) = .ok (g'.openTag n raw, stop', rest) ∧
          raw.map Prod.fst = t.raw.map Prod.fst := by
  cases hbody : tagBody .html (n + 1 + width name) .nothing s with
  | error =>
    simp only [openTag, hbody] at h
    cases h
  | ok body =>
    obtain ⟨g, hg, rfl, -, rfl⟩ := exists_tagSource_of_tagBody hname hs hbody
    rw [hg.openTag] at h
    refine ⟨g, body.rest, hg, rfl, rfl, ?_, fun g' hg' hname' hself => ?_⟩
    · split at h
      · split at h <;> cases h
        rfl
      · cases h
        rfl
    · rw [← hname', hg'.openTag, hname', hself]
      split_ifs at h ⊢
      · cases hcontent : rawContent? g.name body.rest with
        | none =>
          rw [hcontent] at h
          cases h
        | some x =>
          rw [hcontent] at h
          cases h
          refine ⟨_, _, rfl, ?_⟩
          show Option.map _ _ = Option.map _ _
          split_ifs <;> rfl
      · cases h
        exact ⟨_, _, rfl, rfl⟩

end MarkupSync
