import MarkupSync.Proofs.Lexeme.Places
import MarkupSync.Proofs.Lexeme.Shift

/-!
# Reading tokens in place

A part of a text is read without cutting it out: a tokenizer keeps the whole text, the position of
the next piece and the end of its part. It reads one token at a time and keeps in a queue what it
reads ahead, the attributes and the end of a tag and raw text behind it.

* `Tokenizer`, `Tokenizer.next`: a tokenizer and the token it reads next;
* `Tokenizer.Emits`: the tokens up to the end of the part or to a fault, which are determined
  (`Tokenizer.Emits.unique`);
* `Tokenizer.emits_scan`: in place, a tokenizer reads the tokens of the scan of its part;
* `Scan.eq_of_tokens`: the tokens of a scan determine its lexemes;
* **`Tokenizer.emits_iff`**: the tokens of a part are those of its text by itself, moved to where it
  starts.
-/

namespace MarkupSync

open Text

/-- A reader of the tokens of a part of a text. -/
structure Tokenizer where
  /-- The whole text. -/
  source : Text
  flavor : Flavor
  /-- The byte at which the next piece is read. -/
  position : Nat
  /-- The end of the part. -/
  stop : Nat
  /-- Tokens that have been read ahead. -/
  queued : List (Token × Span)
  deriving Repr

namespace Tokenizer

/-- A tokenizer of the part `region` of a text. -/
def bounded (flavor : Flavor) (region : Span) (source : Text) : Tokenizer :=
  ⟨source, flavor, region.start, min region.stop (width source), []⟩

/-- What is left of the part from byte `n` on. -/
def rest (t : Tokenizer) (n : Nat) : Text := t.source.at ⟨n, t.stop⟩

/-- A text that holds a character is not empty. -/
theorem lt_stop_of_rest_ne_nil {t : Tokenizer} {n : Nat} (h : t.rest n ≠ []) : n < t.stop := by
  by_contra hn
  refine h ?_
  show before (t.stop - n) (after n t.source) = []
  rw [Nat.sub_eq_zero_of_le (Nat.le_of_not_lt hn), before_zero]

/-- A piece of content takes bytes of the part. -/
theorem lt_of_contentHead {t : Tokenizer} {n : Nat} {k : ContentHead}
    (h : contentHead t.flavor (t.rest n) = .ok (some k)) : n < t.stop ∧ 0 < width k.piece := by
  obtain ⟨hrest, hpiece⟩ := eq_of_contentHead h
  refine ⟨lt_stop_of_rest_ne_nil ?_, Nat.pos_of_ne_zero (mt width_eq_zero.1 hpiece)⟩
  rw [hrest]
  exact List.append_ne_nil_of_left_ne_nil hpiece _

/-- Where a run of text ends that goes on at byte `n`. -/
def textStop (t : Tokenizer) (n : Nat) : Nat :=
  match _h : contentHead t.flavor (t.rest n) with
  | .ok (some (.plain piece _)) => t.textStop (n + width piece)
  | _ => n
termination_by t.stop - n
decreasing_by
  obtain ⟨hn, hpiece⟩ := lt_of_contentHead _h
  simp only [ContentHead.piece] at hpiece
  omega

/-- Read an open tag ahead, behind its open angle and its name. -/
def queueTag (t : Tokenizer) (opened : Span) : Except ParseError Tokenizer :=
  let name := t.source.at ⟨opened.start + 1, opened.stop⟩
  match tagBody t.flavor opened.stop .nothing (t.rest opened.stop) with
  | .error e => .error ⟨e.fault name, opened.start⟩
  | .ok body =>
    let behind := { t with
      position := body.closing.stop
      queued := body.attributes.map (fun a => (.attr a, a.span)) ++
        [(.tagEnd body.selfClosing, body.closing)] }
    if !body.selfClosing && t.flavor == .html && isRaw name then
      match rawContent? name (behind.rest behind.position) with
      | none => .error ⟨.openElement name, opened.start⟩
      | some (content, _) =>
        let raw : Span := ⟨behind.position, behind.position + width content⟩
        .ok { behind with
          position := raw.stop
          queued := behind.queued ++ if content = [] then [] else [(.raw (t.source.at raw), raw)] }
    else .ok behind

/-- The token of a piece of content that takes the bytes `span`, and the tokenizer behind it; none
for a piece that is skipped. The tokenizer stands behind the piece. -/
def token? (t : Tokenizer) (span : Span) :
    ContentHead → Option (Except ParseError ((Token × Span) × Tokenizer))
  | .skipped _ _ => none
  | .openTag _ _ _ =>
    let name := t.source.at ⟨span.start + 1, span.stop⟩
    some ((t.queueTag span).map fun behind => ((.openTag name, span), behind))
  | .closeTag name _ _ => some (.ok ((.closeTag name, span), t))
  | .fragmentOpen _ _ => some (.ok ((.fragmentOpen, span), t))
  | .fragmentClose _ _ => some (.ok ((.fragmentClose, span), t))
  | .expression _ _ => some (.ok ((.expression (t.source.at span), span), t))
  | .plain _ _ =>
    let run : Span := ⟨span.start, t.textStop span.stop⟩
    some (.ok ((.text (t.source.at run), run), { t with position := run.stop }))

/-- The next token, and the tokenizer behind it; none at the end of the part. -/
def next (t : Tokenizer) : Except ParseError (Option ((Token × Span) × Tokenizer)) :=
  match t.queued with
  | token :: queued => .ok (some (token, { t with queued }))
  | [] =>
    match _h : contentHead t.flavor (t.rest t.position) with
    | .error fault => .error ⟨fault, t.position⟩
    | .ok none => .ok none
    | .ok (some head) =>
      let span : Span := ⟨t.position, t.position + width head.piece⟩
      let behind := { t with position := span.stop }
      match behind.token? span head with
      | none => behind.next
      | some read => read.map some
termination_by t.stop - t.position
decreasing_by
  obtain ⟨hn, hpiece⟩ := lt_of_contentHead _h
  exact Nat.sub_lt_sub_left hn (Nat.lt_add_of_pos_right hpiece)

/-- The tokens that are read up to the end of the part, or up to a fault. -/
inductive Emits : Tokenizer → List (Token × Span) → Option ParseError → Prop
  | done {t : Tokenizer} (h : t.next = .ok none) : Emits t [] none
  | failed {t : Tokenizer} {e : ParseError} (h : t.next = .error e) : Emits t [] (some e)
  | read {t behind : Tokenizer} {token : Token × Span} {tokens : List (Token × Span)}
      {fault : Option ParseError} (h : t.next = .ok (some (token, behind)))
      (hbehind : Emits behind tokens fault) : Emits t (token :: tokens) fault

/-- What is read is determined. -/
theorem Emits.unique {t : Tokenizer} {tokens tokens' : List (Token × Span)}
    {fault fault' : Option ParseError} (h : t.Emits tokens fault) (h' : t.Emits tokens' fault') :
    tokens = tokens' ∧ fault = fault' := by
  induction h generalizing tokens' with
  | done hnext | failed hnext =>
    cases h' with
    | done hnext' | failed hnext' | read hnext' =>
      cases hnext.symm.trans hnext'
      try exact ⟨rfl, rfl⟩
  | read hnext _ ih =>
    cases h' with
    | done hnext' | failed hnext' => cases hnext.symm.trans hnext'
    | read hnext' hbehind' =>
      cases hnext.symm.trans hnext'
      obtain ⟨rfl, rfl⟩ := ih hbehind'
      exact ⟨rfl, rfl⟩

/-- Tokenizers with the same next token read the same. -/
theorem Emits.congr {t t' : Tokenizer} {tokens : List (Token × Span)} {fault : Option ParseError}
    (h : t'.Emits tokens fault) (hnext : t.next = t'.next) : t.Emits tokens fault := by
  cases h with
  | done h => exact .done (hnext.trans h)
  | failed h => exact .failed (hnext.trans h)
  | read h hbehind => exact .read (hnext.trans h) hbehind

/-- Tokens that have been read ahead come first. -/
theorem Emits.queued {source : Text} {flavor : Flavor} {position stop : Nat}
    {tokens : List (Token × Span)} {fault : Option ParseError}
    (h : Emits ⟨source, flavor, position, stop, []⟩ tokens fault) (queued : List (Token × Span)) :
    Emits ⟨source, flavor, position, stop, queued⟩ (queued ++ tokens) fault := by
  induction queued with
  | nil => exact h
  | cons token queued ih => exact .read (by rw [next]) ih

/-! ## Scans -/

section Scan

variable {flavor : Flavor} {source s : Text} {n k : Nat} {head : ContentHead}

/-- What is left of the part is what stands there. -/
theorem rest_of_holds {m : Nat} {queued : List (Token × Span)} (hs : source.Holds ⟨n, k⟩ s) :
    (⟨source, flavor, m, k, queued⟩ : Tokenizer).rest n = s := hs.at_eq

/-- The next token of a tokenizer that has read nothing ahead, by what stands at its position. -/
theorem next_eq (hs : source.Holds ⟨n, k⟩ s) :
    (⟨source, flavor, n, k, []⟩ : Tokenizer).next =
      match contentHead flavor s with
      | .error fault => .error ⟨fault, n⟩
      | .ok none => .ok none
      | .ok (some head) =>
        let behind : Tokenizer := ⟨source, flavor, n + width head.piece, k, []⟩
        match behind.token? ⟨n, n + width head.piece⟩ head with
        | none => behind.next
        | some read => read.map some := by
  rw [next]
  simp only
  split <;> rename_i hhead <;> rw [rest_of_holds hs] at hhead <;> rw [hhead]

/-- A run of text goes on as it does in the part by itself. -/
theorem textStop_eq {m : Nat} {queued : List (Token × Span)} (hs : source.Holds ⟨n, k⟩ s) :
    (⟨source, flavor, m, k, queued⟩ : Tokenizer).textStop n =
      n + width (textRun flavor s).1 := by
  fun_induction textRun flavor s generalizing n with
  | case1 s piece r hc ih =>
    have hr : source.Holds ⟨n + width piece, k⟩ r := by
      rw [(eq_of_contentHead hc).1] at hs
      exact hs.right
    rw [textStop]
    split <;> rename_i hhead <;> rw [rest_of_holds hs] at hhead
    · cases hhead.symm.trans hc
      rw [ih hr, width_append, Nat.add_assoc]
    · exact absurd hc (hhead _ _)
  | case2 s hc =>
    rw [textStop]
    split <;> rename_i hhead <;> rw [rest_of_holds hs] at hhead
    · exact absurd hhead (hc _ _)
    · rfl

variable (flavor) in
/-- A tag is read ahead as it is read in the part by itself. -/
theorem queueTag_eq {m : Nat} {name : Text} (hs : source.Holds ⟨n, k⟩ ('<' :: name ++ s)) :
    (⟨source, flavor, m, k, []⟩ : Tokenizer).queueTag ⟨n, n + width ('<' :: name)⟩ =
      match openTag flavor n name s with
      | .error fault => .error ⟨fault, n⟩
      | .ok (t, stop, _) => .ok ⟨source, flavor, stop, k, t.tokens.tail⟩ := by
  have hstop : n + width ('<' :: name) = n + 1 + width name := (Nat.add_assoc ..).symm
  have hname : source.Holds ⟨n + 1, n + 1 + width name⟩ name :=
    hstop ▸ (hs.left.right (t := ['<']) (u := name))
  have hrest : source.Holds ⟨n + 1 + width name, k⟩ s := hstop ▸ hs.right
  rw [hstop, queueTag, openTag]
  simp only [hname.at_eq, rest_of_holds hrest]
  cases hbody : tagBody flavor (n + 1 + width name) .nothing s with
  | error e => rfl
  | ok body =>
    obtain ⟨-, -, -, hbehind⟩ := stands_of_tagBody hbody hrest trivial
    simp only [rest_of_holds hbehind]
    split
    · cases hraw : rawContent? name body.rest with
      | none => rfl
      | some cut =>
        obtain ⟨content, r⟩ := cut
        rw [eq_of_rawContent? hraw] at hbehind
        simp only [hbehind.left.at_eq, OpenTag.tokens]
        split_ifs <;> simp_all
    · simp [OpenTag.tokens]

/-- The first token of an open tag is its angle and its name. -/
theorem tokens_of_openTag {name r : Text} {t : OpenTag} {stop : Nat}
    (h : openTag flavor n name s = .ok (t, stop, r)) :
    t.tokens = (.openTag name, ⟨n, n + width ('<' :: name)⟩) :: t.tokens.tail := by
  have hstop : n + width ('<' :: name) = n + 1 + width name := (Nat.add_assoc ..).symm
  simp only [openTag] at h
  split at h
  · cases h
  · split at h
    · split at h <;> cases h
      rw [hstop]
      rfl
    · cases h
      rw [hstop]
      rfl

variable (flavor) in
/-- **In place, a tokenizer reads the tokens of the scan of its part.** -/
theorem emits_scan (hs : source.Holds ⟨n, k⟩ s) :
    (⟨source, flavor, n, k, []⟩ : Tokenizer).Emits (scan flavor n s).tokens
      (scan flavor n s).fault := by
  -- one token of one lexeme
  have single {n : Nat} {head : ContentHead} {s : Text} {token : Token × Span} {l : Lexeme}
      {r : Scan} {stop : Nat} (hs : source.Holds ⟨n, k⟩ s)
      (hc : contentHead flavor s = .ok (some head))
      (hl : l.tokens = [token])
      (htoken : token? ⟨source, flavor, n + width head.piece, k, []⟩ ⟨n, n + width head.piece⟩
        head = some (.ok (token, ⟨source, flavor, stop, k, []⟩)))
      (hr : Emits ⟨source, flavor, stop, k, []⟩ r.tokens r.fault) :
      Emits ⟨source, flavor, n, k, []⟩ (r.cons l).tokens (r.cons l).fault := by
    have htokens : (r.cons l).tokens = token :: r.tokens := by
      rw [Scan.tokens, Scan.cons, List.flatMap_cons, hl]
      rfl
    rw [htokens]
    refine .read ?_ hr
    rw [next_eq hs, hc]
    simp only [htoken]
    rfl
  fun_induction scan flavor n s with
  | case1 n s fault hc => exact .failed (by rw [next_eq hs, hc])
  | case2 n s hc => exact .done (by rw [next_eq hs, hc])
  | case3 n s p r hc ih =>
    refine (ih (holds_of_contentHead hs hc).2).congr ?_
    rw [next_eq hs, hc]
    rfl
  | case4 n s name p r hc fault ht =>
    obtain ⟨rfl, -⟩ := name_of_contentHead hc
    rw [(eq_of_contentHead hc).1] at hs
    have hqueue := queueTag_eq flavor (m := n + width ('<' :: name)) hs
    refine .failed ?_
    rw [next_eq hs, ← (eq_of_contentHead hc).1, hc]
    simp only [ContentHead.rest, ht] at hqueue
    simp only [token?, ContentHead.piece, hqueue]
    rfl
  | case5 n s name p r hc t stop rest ht ih =>
    obtain ⟨rfl, -⟩ := name_of_contentHead hc
    rw [(eq_of_contentHead hc).1] at hs
    have hname : source.Holds ⟨n + 1, n + width ('<' :: name)⟩ name := hs.left.right (t := ['<'])
    have hqueue := queueTag_eq flavor (m := n + width ('<' :: name)) hs
    simp only [ContentHead.rest, ht] at hqueue
    have htokens : (Scan.cons (.openTag t) (scan flavor stop rest)).tokens =
        (.openTag name, ⟨n, n + width ('<' :: name)⟩) ::
          (t.tokens.tail ++ (scan flavor stop rest).tokens) := by
      rw [← List.cons_append, ← tokens_of_openTag ht]
      rfl
    rw [htokens]
    refine .read ?_ ((ih (stands_of_openTag ht hs).2.2.2).queued _)
    rw [next_eq hs, ← (eq_of_contentHead hc).1, hc]
    simp only [token?, ContentHead.piece, hqueue, hname.at_eq]
    rfl
  | case6 n s name p r hc stop ih => exact single hs hc rfl rfl (ih (holds_of_contentHead hs hc).2)
  | case7 n s p r hc stop ih => exact single hs hc rfl rfl (ih (holds_of_contentHead hs hc).2)
  | case8 n s p r hc stop ih => exact single hs hc rfl rfl (ih (holds_of_contentHead hs hc).2)
  | case9 n s p r hc stop ih =>
    obtain ⟨hp, hr⟩ := holds_of_contentHead hs hc
    refine single hs hc rfl ?_ (ih hr)
    simp only [token?, hp.at_eq]
    rfl
  | case10 n s p r hc run content stop ih =>
    have hr : source.Holds ⟨n + width p, k⟩ r := (holds_of_contentHead hs hc).2
    have hstop : textStop ⟨source, flavor, n + width p, k, []⟩ (n + width p) = stop := by
      rw [textStop_eq hr, Nat.add_assoc, ← width_append]
    have hs' := hs
    rw [eq_append_textRun hc] at hs'
    refine single hs hc rfl ?_ (ih hs'.right)
    simp only [token?, ContentHead.piece, hstop]
    rw [hs'.left.at_eq]

end Scan

end Tokenizer

/-! ## Lexemes -/

/-- The tokens of attributes end where the tag does. -/
theorem attrTokens_inj {as bs : List RawAttribute} {x y : Bool} {span span' : Span}
    {xs ys : List (Token × Span)}
    (h : as.map (fun a => (Token.attr a, a.span)) ++ (.tagEnd x, span) :: xs =
      bs.map (fun a => (Token.attr a, a.span)) ++ (.tagEnd y, span') :: ys) :
    as = bs ∧ x = y ∧ span = span' ∧ xs = ys := by
  induction as generalizing bs with
  | nil => cases bs <;> simp_all
  | cons a as ih =>
    cases bs with
    | nil => simp at h
    | cons b bs =>
      simp only [List.map_cons, List.cons_append, List.cons.injEq, Prod.mk.injEq] at h
      obtain ⟨⟨hab, -⟩, h⟩ := h
      obtain ⟨has, hend⟩ := ih h
      exact ⟨by rw [Token.attr.inj hab, has], hend⟩

/-- No lexeme starts with raw text. -/
theorem ne_raw_of_tokens {ls : List Lexeme} {content : Text} {span : Span}
    {xs : List (Token × Span)} : ls.flatMap Lexeme.tokens ≠ (.raw content, span) :: xs := by
  cases ls with
  | nil => exact nofun
  | cons l ls => cases l <;> simp [Lexeme.tokens, OpenTag.tokens]

/-- The tokens of an open tag determine it. -/
theorem OpenTag.tokens_inj {t t' : OpenTag} {ls ls' : List Lexeme}
    (h : t.tokens ++ ls.flatMap Lexeme.tokens = t'.tokens ++ ls'.flatMap Lexeme.tokens) :
    t = t' ∧ ls.flatMap Lexeme.tokens = ls'.flatMap Lexeme.tokens := by
  obtain ⟨name, nameSpan, attributes, closing, selfClosing, raw⟩ := t
  obtain ⟨name', nameSpan', attributes', closing', selfClosing', raw'⟩ := t'
  simp only [OpenTag.tokens, List.cons_append, List.append_assoc, List.cons.injEq, Prod.mk.injEq,
    Token.openTag.injEq] at h
  obtain ⟨⟨rfl, rfl⟩, h⟩ := h
  obtain ⟨rfl, rfl, rfl, hbehind⟩ := attrTokens_inj h
  cases raw with
  | none =>
    cases raw' with
    | none => exact ⟨rfl, hbehind⟩
    | some raw' => exact absurd hbehind ne_raw_of_tokens
  | some raw =>
    cases raw' with
    | none => exact absurd hbehind.symm ne_raw_of_tokens
    | some raw' =>
      simp only [List.cons_append, List.nil_append, List.cons.injEq, Prod.mk.injEq,
        Token.raw.injEq] at hbehind
      obtain ⟨⟨hcontent, hspan⟩, hbehind⟩ := hbehind
      exact ⟨by rw [Prod.ext hcontent hspan], hbehind⟩

/-- The tokens of lexemes determine them. -/
theorem Lexeme.eq_of_tokens {ls ls' : List Lexeme}
    (h : ls.flatMap Lexeme.tokens = ls'.flatMap Lexeme.tokens) : ls = ls' := by
  induction ls generalizing ls' with
  | nil =>
    cases ls' with
    | nil => rfl
    | cons l ls' => cases l <;> simp [Lexeme.tokens, OpenTag.tokens] at h
  | cons l ls ih =>
    cases ls' with
    | nil => cases l <;> simp [Lexeme.tokens, OpenTag.tokens] at h
    | cons l' ls' =>
      simp only [List.flatMap_cons] at h
      suffices l = l' ∧ ls.flatMap Lexeme.tokens = ls'.flatMap Lexeme.tokens by
        rw [this.1, ih this.2]
      cases l with
      | openTag t =>
        cases l' with
        | openTag t' =>
          obtain ⟨ht, hbehind⟩ := OpenTag.tokens_inj h
          exact ⟨congrArg Lexeme.openTag ht, hbehind⟩
        | _ => simp [Lexeme.tokens, OpenTag.tokens] at h
      | _ => cases l' <;> simp_all [Lexeme.tokens, OpenTag.tokens]

/-- The tokens and the fault of a scan determine it. -/
theorem Scan.eq_of_tokens {r r' : Scan} (htokens : r.tokens = r'.tokens)
    (hfault : r.fault = r'.fault) : r = r' := by
  obtain ⟨ls, fault⟩ := r
  obtain ⟨ls', fault'⟩ := r'
  obtain rfl : ls = ls' := Lexeme.eq_of_tokens htokens
  obtain rfl : fault = fault' := hfault
  rfl

/-- **The tokens of a part are those of its text by itself**, moved to where the part starts. -/
theorem Tokenizer.emits_iff (flavor : Flavor) (p m q : Text) (r : Scan) :
    (bounded flavor ⟨width p, width p + width m⟩ (p ++ m ++ q)).Emits r.tokens r.fault ↔
      r = (scanAll flavor m).shift (width p) := by
  have hholds : (p ++ m ++ q).Holds ⟨width p, width p + width m⟩ m := ⟨p, q, rfl, rfl⟩
  have hemits : (bounded flavor ⟨width p, width p + width m⟩ (p ++ m ++ q)).Emits
      (scan flavor (width p) m).tokens (scan flavor (width p) m).fault := by
    rw [bounded, Nat.min_eq_left hholds.stop_le]
    exact emits_scan flavor hholds
  have hshift : scan flavor (width p) m = (scanAll flavor m).shift (width p) := by
    rw [scanAll, ← scan_shift, Nat.zero_add]
  rw [← hshift]
  constructor
  · intro h
    obtain ⟨htokens, hfault⟩ := h.unique hemits
    exact Scan.eq_of_tokens htokens hfault
  · rintro rfl
    exact hemits

end MarkupSync
