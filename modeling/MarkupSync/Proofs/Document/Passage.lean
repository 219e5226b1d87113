import MarkupSync.Proofs.Document.Inset
import MarkupSync.Proofs.Document.Written
import MarkupSync.Proofs.Lexeme.Close

/-!
# Reading parts of a text one after another

* `Reader.Passes`: what reading a part of a text makes of a reader;
* `Reader.Passes.append`: parts put together, if something is open between them;
* **`Reader.Passes.exists_untilClosed`**: a part after which nothing is open is read until it ends;
* `Reader.Passes.nodes_scan`: what a text is read as if nothing is open at its end;
* `OpensMarkup`: a text that does not start with running text;
* `Reader.passes_text`, `Reader.passes_expression`: running text and expressions;
* `Reader.passes_closeTag`, `Reader.passes_fragmentOpen`, `Reader.passes_fragmentClose`: what closes
  an element, and what opens and closes a fragment.
-/

namespace MarkupSync

namespace Reader

variable {flavor : Flavor}

/-- Reading a part of a text, which starts at a byte and is followed by `rest`, takes a reader to
another one. Something is open between any two of its lexemes. -/
inductive Passes (flavor : Flavor) (rest : Text) : Nat → Text → Reader → Reader → Prop
  | nil (n : Nat) (r : Reader) : Passes flavor rest n [] r r
  | single {n : Nat} {s : Text} {r r₁ : Reader} (l : Lexeme)
    (hscan : scan flavor n (s ++ rest) = (scan flavor l.stop rest).cons l)
    (hstop : l.stop = n + width s) (hstep : r.step flavor l = .ok r₁) :
    Passes flavor rest n s r r₁
  | cons {n : Nat} {s t : Text} {r r₁ r₂ : Reader} (l : Lexeme)
    (hscan : scan flavor n (s ++ (t ++ rest)) = (scan flavor l.stop (t ++ rest)).cons l)
    (hstop : l.stop = n + width s) (hstep : r.step flavor l = .ok r₁) (hopen : r₁.stack ≠ [])
    (h : Passes flavor rest l.stop t r₁ r₂) : Passes flavor rest n (s ++ t) r r₂

namespace Passes

variable {n : Nat} {s t rest : Text} {r r₁ r₂ : Reader}

/-- **Parts are read one after another**, if something is open between them. -/
theorem append (h : Passes flavor (t ++ rest) n s r r₁) (hopen : r₁.stack ≠ [])
    (ht : Passes flavor rest (n + width s) t r₁ r₂) : Passes flavor rest n (s ++ t) r r₂ := by
  induction h with
  | nil => simpa using ht
  | single l hscan hstop hstep => exact .cons l hscan hstop hstep hopen (hstop ▸ ht)
  | @cons n s u r r' r₁ l hscan hstop hstep hopen' h ih =>
    rw [width_append, ← Nat.add_assoc, ← hstop] at ht
    rw [List.append_assoc]
    refine .cons l ?_ hstop hstep hopen' (ih hopen ht)
    rwa [List.append_assoc]

/-- **A part after which nothing is open is read until it ends**, whatever follows it. -/
theorem exists_untilClosed (h : Passes flavor rest n s r r₁) (hne : r.stack ≠ [] ∨ s ≠ [])
    (hclosed : r₁.stack = []) (fault : Option ParseError) :
    ∃ last, untilClosed flavor fault r (scan flavor n (s ++ rest)).lexemes =
      .ok (r₁.nodes.reverse, last) ∧ last.stop = n + width s := by
  induction h with
  | nil => exact hne.elim (absurd hclosed) (absurd rfl)
  | single l hscan hstop hstep =>
    refine ⟨l, ?_, hstop⟩
    rw [hscan, Scan.cons]
    simp only [untilClosed, hstep, hclosed, List.isEmpty_nil, if_true]
  | @cons n s u r r' r₁ l hscan hstop hstep hopen h ih =>
    obtain ⟨last, hread, hlast⟩ := ih (.inl hopen) hclosed
    refine ⟨last, ?_, by rw [hlast, hstop, width_append, Nat.add_assoc]⟩
    rw [List.append_assoc, hscan, Scan.cons]
    simp only [untilClosed, hstep, List.isEmpty_iff, hopen, if_false, hread]

/-- Reading a part in front of the rest of a text leaves the rest to be read. -/
theorem steps_scan (h : Passes flavor rest n s r r₁) :
    r.steps flavor (scan flavor n (s ++ rest)).lexemes =
        r₁.steps flavor (scan flavor (n + width s) rest).lexemes ∧
      (scan flavor n (s ++ rest)).fault = (scan flavor (n + width s) rest).fault := by
  induction h with
  | nil => exact ⟨rfl, rfl⟩
  | single l hscan hstop hstep =>
    rw [hscan, Scan.cons, steps, hstep, hstop]
    exact ⟨rfl, rfl⟩
  | @cons n s t r r₁ r₂ l hscan hstop hstep hopen h ih =>
    rw [List.append_assoc, hscan, Scan.cons, steps, hstep, width_append, ← Nat.add_assoc, ← hstop]
    exact ih

/-- A text at whose end nothing is open is read as the nodes there are. -/
theorem nodes_scan (h : Passes flavor [] n s .start r) (hrun : r.run = []) (hclosed : r.stack = []) :
    (scan flavor n s).nodes flavor = .ok r.nodes.reverse := by
  obtain ⟨hsteps, hfault⟩ := h.steps_scan
  rw [List.append_nil, scan_nil] at hsteps hfault
  simp only [Scan.nodes, hsteps, steps, hfault, finish, hclosed, flush_of_run hrun]

end Passes

/-! ## Running text and expressions -/

variable {n : Nat} {s rest : Text}

/-- What stands at the start of a text is not running text. -/
def OpensMarkup (s : Text) : Prop :=
  ∃ k, contentHead .jsx s = .ok (some k) ∧ ∀ p r, k ≠ .plain p r

theorem contentHead_running (hs : s.all isPlain = true) (hne : s ≠ []) (hrest : OpensMarkup rest) :
    contentHead .jsx (s ++ rest) = .ok (some (.plain s rest)) := by
  obtain ⟨k, hk, hplain⟩ := hrest
  obtain ⟨d, u, rfl, hd⟩ := exists_cons_of_contentHead hk hplain
  obtain ⟨c, s, rfl⟩ := List.exists_cons_of_ne_nil hne
  rw [List.all_cons, Bool.and_eq_true] at hs
  have hstop : ∀ e ∈ (d :: u).head?, isPlain e = false := by
    rintro e ⟨⟩
    exact hd
  rw [List.cons_append, contentHead_of_isPlain hs.1, Text.takeWhile_append_of_stop hs.2 hstop,
    Text.dropWhile_append_of_stop hs.2 hstop]

/-- Running text is one lexeme. -/
theorem scan_running (hs : s.all isPlain = true) (hne : s ≠ []) (hrest : OpensMarkup rest)
    (n : Nat) : scan .jsx n (s ++ rest) =
      (scan .jsx (n + width s) rest).cons (.text s ⟨n, n + width s⟩) := by
  have hrun : textRun .jsx rest = ([], rest) := by
    obtain ⟨k, hk, hplain⟩ := hrest
    refine textRun_of_ne_plain fun p u h => ?_
    rw [hk] at h
    cases h
    exact hplain p u rfl
  have hscan := scan_plain (n := n) (contentHead_running hs hne hrest)
  rwa [hrun, List.append_nil] at hscan

/-- **Running text** is added to the run. -/
theorem passes_text (hs : s.all isPlain = true) (hne : s ≠ []) (hrest : OpensMarkup rest) (n : Nat)
    (r : Reader) : Passes .jsx rest n s r (r.hear [(s, n)]) :=
  .single (.text s ⟨n, n + width s⟩) (scan_running hs hne hrest n) rfl rfl

/-- An expression is added to the nodes. -/
theorem passes_expression (hs : closeBraces? s = some (s, [])) (n : Nat) (rest : Text) (r : Reader) :
    ∃ span, Passes .jsx rest n ('\x7b' :: s) r
      ((r.flush .jsx).push (.text ('\x7b' :: s), .text span)) := by
  have hhead := contentHead_expression (closeBraces?_congr hs rest)
  exact ⟨_, .single (.expression ('\x7b' :: s) ⟨n, n + width ('\x7b' :: s)⟩)
    (scan_expression hhead) rfl rfl⟩

theorem opensMarkup_expression (hs : closeBraces? s = some (s, [])) (rest : Text) :
    OpensMarkup ('\x7b' :: s ++ rest) :=
  ⟨_, contentHead_expression (closeBraces?_congr hs rest), nofun⟩

/-! ## Tags -/

theorem opensMarkup_closeSource {tag : Text} (htag : IsTagName tag) (rest : Text) :
    OpensMarkup ((CloseSource.mk tag []).source ++ rest) :=
  ⟨_, contentHead_closeSource ⟨htag, rfl, rfl⟩ rest, nofun⟩

/-- A close tag ends the innermost element. -/
theorem passes_closeTag {t : OpenTag} (htag : IsTagName t.name) (n : Nat) (rest : Text) {r : Reader}
    {before : List (Node × Place)} {stack : List (Opened × List (Node × Place))}
    (hstack : r.stack = (.element t, before) :: stack) :
    ∃ stop inner, Passes .jsx rest n (CloseSource.mk t.name []).source r
      ⟨t.element .jsx stop inner (r.flush .jsx).nodes.reverse :: before, [], stack⟩ := by
  have hhead : contentHead .jsx ((CloseSource.mk t.name []).source ++ rest) =
      .ok (some (.closeTag t.name (CloseSource.mk t.name []).source rest)) :=
    contentHead_closeSource ⟨htag, rfl, rfl⟩ rest
  have hcloses : Flavor.jsx.closes t.name t.name = true := by simp [Flavor.closes]
  refine ⟨n + width (CloseSource.mk t.name []).source, some ⟨t.closing.stop, n⟩,
    .single _ (scan_closeTag hhead) rfl ?_⟩
  simp only [step, stepTag, stack_flush, hstack, hcloses, if_true, run_flush]

/-- A fragment is opened. -/
theorem passes_fragmentOpen (n : Nat) (rest : Text) (r : Reader) : Passes .jsx rest n ['<', '>'] r
    ⟨[], [], (.fragment ⟨n, n + width ['<', '>']⟩, (r.flush .jsx).nodes) :: r.stack⟩ := by
  have hhead : contentHead .jsx ('<' :: '>' :: rest) = .ok (some (.fragmentOpen ['<', '>'] rest)) := rfl
  refine .single _ (scan_fragmentOpen hhead) rfl ?_
  simp only [step, stepTag, run_flush, stack_flush]

theorem opensMarkup_fragmentClose (rest : Text) : OpensMarkup (['<', '/', '>'] ++ rest) :=
  ⟨.fragmentClose ['<', '/', '>'] rest, rfl, nofun⟩

/-- A fragment is closed: its nodes stand where it stood. -/
theorem passes_fragmentClose (n : Nat) (rest : Text) {r : Reader} {span : Span}
    {before : List (Node × Place)} {stack : List (Opened × List (Node × Place))}
    (hstack : r.stack = (.fragment span, before) :: stack) :
    Passes .jsx rest n ['<', '/', '>'] r ⟨(r.flush .jsx).nodes ++ before, [], stack⟩ := by
  have hhead : contentHead .jsx ('<' :: '/' :: '>' :: rest) =
      .ok (some (.fragmentClose ['<', '/', '>'] rest)) := rfl
  refine .single _ (scan_fragmentClose hhead) rfl ?_
  simp only [step, stepTag, stack_flush, hstack, run_flush]

end Reader

end MarkupSync
