import MarkupSync.Proofs.Document.Written

/-!
# Content put together

* `Piece`: an element or the run of a text;
* `Content.ofPieces`, `Content.between`: pieces with gaps around them, as content;
* **`isValid_ofPieces`**, `isValid_between`: gaps keep pieces apart, unless two runs meet;
* `Piece.read`, `readPieces`: pieces that start at a byte, with their places (`Piece.outer_read`);
* **`Content.exists_pieces`**: valid content is made of pieces with gaps around them;
* `exists_of_mem_readPieces`: the text of a piece stands at its place.
-/

namespace MarkupSync

open Text

/-- A node as it is written: the run of a text, or an element. -/
inductive Piece
  | run (t s : Text)
  | element (w : Written)

namespace Piece

/-- The text of a piece. -/
def source : Piece → Text
  | run _ s => s
  | element w => w.source

/-- The node of a piece. -/
def node : Piece → Node
  | run t _ => .text t
  | element w => w.node

/-- A run reads as its text, and an element can be read. -/
def IsValid : Piece → Prop
  | run t s => IsRunOf t s
  | element w => w.IsValid

end Piece

/-- The text of pieces with texts in front of them. -/
def sourcePieces (ps : List (Text × Piece)) : Text := ps.flatMap fun p => p.1 ++ p.2.source

@[simp] theorem sourcePieces_nil : sourcePieces [] = [] := rfl

@[simp] theorem sourcePieces_cons (gap : Text) (c : Piece) (ps : List (Text × Piece)) :
    sourcePieces ((gap, c) :: ps) = gap ++ c.source ++ sourcePieces ps := rfl

theorem sourcePieces_map (gap : Text) (cs : List Piece) :
    sourcePieces (cs.map fun c => (gap, c)) = cs.flatMap fun c => gap ++ c.source := by
  rw [sourcePieces, List.flatMap_map]

/-- No two texts stand side by side. -/
def TextsApart (ns : List Node) : Prop :=
  ns.IsChain fun a b => ¬ (a.isText = true ∧ b.isText = true)

namespace Content

/-- Content with more text in front. -/
def prepend (s : Text) : Content → Content
  | flow t => flow (s ++ t)
  | cons t w rest => cons (s ++ t) w rest

/-- Pieces with a gap in front of every one and behind the last. -/
def ofPieces : List (Text × Piece) → Text → Content
  | [], back => flow back
  | (gap, .run _ s) :: ps, back => (ofPieces ps back).prepend (gap ++ s)
  | (gap, .element w) :: ps, back => cons gap w (ofPieces ps back)

/-- Pieces side by side, with a text in front of the first, one between two and one behind the
last. -/
def between (front gap : Text) (cs : List Piece) (back : Text) : Content :=
  match cs with
  | [] => .flow (front ++ back)
  | c :: cs => .ofPieces ((front, c) :: cs.map fun c => (gap, c)) back

/-- The content starts with a gap. -/
def StartsWithGap : Content → Prop
  | flow s => IsGap s
  | cons s _ _ => IsGap s

theorem source_prepend (s : Text) (c : Content) : (c.prepend s).source = s ++ c.source := by
  cases c with
  | flow t => rfl
  | cons t w rest => simp [prepend, source]

theorem source_ofPieces (ps : List (Text × Piece)) (back : Text) :
    (ofPieces ps back).source = sourcePieces ps ++ back := by
  induction ps with
  | nil => rfl
  | cons p ps ih =>
    obtain ⟨gap, ⟨t, s⟩ | w⟩ := p
    · simp [ofPieces, source_prepend, ih, Piece.source]
    · simp [ofPieces, source, ih, Piece.source]

theorem source_between (front gap : Text) (cs : List Piece) (back : Text) :
    (between front gap cs back).source = front ++ gap.intercalate (cs.map Piece.source) ++ back := by
  cases cs with
  | nil => simp [between, source, List.intercalate]
  | cons c cs =>
    have key : gap.intercalate ((c :: cs).map Piece.source) =
        c.source ++ cs.flatMap fun c => gap ++ c.source := by
      induction cs generalizing c with
      | nil => simp
      | cons d cs ih =>
        rw [List.map_cons, List.map_cons, List.intercalate_cons_cons, ← List.map_cons, ih]
        simp
    rw [between, source_ofPieces, sourcePieces_cons, sourcePieces_map, key]
    simp

end Content

theorem flowNodes_of_isGap {s : Text} (h : IsGap s) : flowNodes s = [] := by
  obtain ⟨x, hx, hb⟩ := h
  rw [flowNodes, hx]
  simp [collapsed?_eq_none_iff.2 hb]

theorem flowNodes_of_isRunOf {t s : Text} (h : IsRunOf t s) : flowNodes s = [.text t] := by
  obtain ⟨x, hx, ht⟩ := h
  rw [flowNodes, hx]
  simp [ht]

theorem IsGap.isSome {s : Text} (h : IsGap s) : (stripped? s).isSome := by
  obtain ⟨x, hx, -⟩ := h
  simp [hx]

theorem IsRunOf.isSome {t s : Text} (h : IsRunOf t s) : (stripped? s).isSome := by
  obtain ⟨x, hx, -⟩ := h
  simp [hx]

namespace Content

/-- A run in front of a gap is a node of its own. -/
theorem isValid_prepend {t s gap : Text} (hs : IsRunOf t s) (hgap : IsGap gap) {c : Content}
    (hc : c.IsValid) (hstart : c.StartsWithGap) : (c.prepend (gap ++ s)).IsValid ∧
      (c.prepend (gap ++ s)).nodes = .text t :: c.nodes := by
  cases c with
  | flow u =>
    have hrun := hs.between hgap hstart
    refine ⟨hrun.isSome, ?_⟩
    rw [prepend, nodes, nodes, flowNodes_of_isRunOf hrun, flowNodes_of_isGap hstart]
  | cons u w rest =>
    have hrun := hs.between hgap hstart
    refine ⟨⟨hrun.isSome, hc.2⟩, ?_⟩
    rw [prepend, nodes, nodes, flowNodes_of_isRunOf hrun, flowNodes_of_isGap hstart]
    rfl

/-- Content starts with a gap unless its first piece is a run. -/
theorem startsWithGap_ofPieces {ps : List (Text × Piece)} {back : Text} (hback : IsGap back)
    (hgaps : ∀ p ∈ ps, IsGap p.1) (hfirst : ∀ p ∈ ps.head?, p.2.node.isText = false) :
    (ofPieces ps back).StartsWithGap := by
  cases ps with
  | nil => exact hback
  | cons p ps =>
    obtain ⟨gap, ⟨t, s⟩ | w⟩ := p
    · exact Bool.noConfusion (hfirst _ rfl)
    · exact hgaps _ List.mem_cons_self

/-- So it does behind a text. -/
theorem startsWithGap_behind_text {ps : List (Text × Piece)} {back : Text} (hback : IsGap back)
    (hgaps : ∀ p ∈ ps, IsGap p.1) {t : Text}
    (hapart : TextsApart (.text t :: (ps.map Prod.snd).map Piece.node)) :
    (ofPieces ps back).StartsWithGap := by
  refine startsWithGap_ofPieces hback hgaps fun q hq => ?_
  cases ps with
  | nil => cases hq
  | cons p ps =>
    cases hq
    have := (List.isChain_cons_cons.1 hapart).1
    simpa [Node.isText, Node.isElement] using this

/-- **Gaps keep pieces apart, unless two runs meet.** -/
theorem isValid_ofPieces {ps : List (Text × Piece)} {back : Text} (hback : IsGap back)
    (hgaps : ∀ p ∈ ps, IsGap p.1) (hps : ∀ c ∈ ps.map Prod.snd, c.IsValid)
    (hapart : TextsApart ((ps.map Prod.snd).map Piece.node)) :
    (ofPieces ps back).IsValid ∧ (ofPieces ps back).nodes = (ps.map Prod.snd).map Piece.node := by
  induction ps with
  | nil => exact ⟨hback.isSome, flowNodes_of_isGap hback⟩
  | cons p ps ih =>
    have hgap := hgaps p List.mem_cons_self
    have hp := hps p.2 List.mem_cons_self
    have hgaps' : ∀ p ∈ ps, IsGap p.1 := fun q hq => hgaps q (List.mem_cons_of_mem _ hq)
    obtain ⟨hvalid, hnodes⟩ :=
      ih hgaps' (fun q hq => hps q (List.mem_cons_of_mem _ hq)) hapart.of_cons
    obtain ⟨gap, ⟨t, s⟩ | w⟩ := p
    · have hstart := startsWithGap_behind_text hback hgaps' hapart
      obtain ⟨hv, hn⟩ := isValid_prepend hp hgap hvalid hstart
      exact ⟨hv, by rw [ofPieces, hn, hnodes]; rfl⟩
    · refine ⟨⟨hgap.isSome, hp, hvalid⟩, ?_⟩
      rw [ofPieces, nodes, flowNodes_of_isGap hgap, hnodes]
      rfl

/-- Gaps between pieces and around them keep them apart, unless two runs meet. -/
theorem isValid_between {front gap back : Text} (hfront : IsGap front) (hgap : IsGap gap)
    (hback : IsGap back) {cs : List Piece} (hcs : ∀ c ∈ cs, c.IsValid)
    (hapart : TextsApart (cs.map Piece.node)) :
    (between front gap cs back).IsValid ∧ (between front gap cs back).nodes = cs.map Piece.node := by
  cases cs with
  | nil =>
    have := hfront.append hback
    exact ⟨this.isSome, flowNodes_of_isGap this⟩
  | cons c cs =>
    have hsnd : ((front, c) :: cs.map fun c => (gap, c)).map Prod.snd = c :: cs := by
      simp [Function.comp_def]
    have hgaps : ∀ q ∈ (front, c) :: cs.map fun c => (gap, c), IsGap q.1 := by
      refine List.forall_mem_cons.2 ⟨hfront, fun q hq => ?_⟩
      obtain ⟨d, -, rfl⟩ := List.mem_map.1 hq
      exact hgap
    have := isValid_ofPieces hback hgaps (by rwa [hsnd]) (by rwa [hsnd])
    rwa [hsnd] at this

end Content

/-! ## Where pieces stand -/

/-- The node of a piece that starts at byte `n`, with its place. -/
def Piece.read (n : Nat) : Piece → Node × Place
  | .run t s => (.text t, .text ⟨n, n + width s⟩)
  | .element w => w.read n

/-- The nodes of pieces, the first of which is behind a text that starts at byte `n`, with their
places. -/
def readPieces (n : Nat) : List (Text × Piece) → List (Node × Place)
  | [] => []
  | (gap, c) :: ps =>
    c.read (n + width gap) :: readPieces (n + width gap + width c.source) ps

@[simp] theorem length_readPieces (n : Nat) (ps : List (Text × Piece)) :
    (readPieces n ps).length = ps.length := by
  induction ps generalizing n with
  | nil => rfl
  | cons p ps ih => exact congrArg (· + 1) (ih _)

theorem width_le_sourcePieces {ps : List (Text × Piece)} {q : Text × Piece} (hq : q ∈ ps) :
    width q.2.source ≤ width (sourcePieces ps) := by
  induction ps with
  | nil => cases hq
  | cons r ps ih =>
    rw [sourcePieces_cons, width_append, width_append]
    rcases List.mem_cons.1 hq with rfl | hq
    · omega
    · have := ih hq
      omega

theorem TagSource.outer_element (g : TagSource) (n : Nat) (raw : Option (Text × Span)) (stop : Nat)
    (inner : Option Span) (children : List (Node × Place)) :
    ((g.openTag n raw).element .html stop inner children).2.outer = ⟨n, stop⟩ := rfl

/-- A piece takes the bytes of its text. -/
theorem Piece.outer_read (c : Piece) (n : Nat) :
    (c.read n).2.outer = ⟨n, n + width c.source⟩ := by
  match c with
  | .run t s => rfl
  | .element (.leaf tag) => exact tag.outer_element n _ _ _ _
  | .element (.raw tag content close) =>
    rw [read, Written.read, tag.outer_element]
    simp [source, Written.source, Nat.add_assoc]
  | .element (.full tag content close) =>
    rw [read, Written.read, tag.outer_element]
    simp [source, Written.source, Nat.add_assoc]

/-- The text of a piece stands at its place. -/
theorem exists_of_mem_readPieces {ps : List (Text × Piece)} {n : Nat} {x : Node × Place}
    (h : x ∈ readPieces n ps) : ∃ front back, ∃ p ∈ ps,
      sourcePieces ps = front ++ p.2.source ++ back ∧ x = p.2.read (n + width front) := by
  induction ps generalizing n with
  | nil => cases h
  | cons p ps ih =>
    obtain ⟨gap, c⟩ := p
    rcases List.mem_cons.1 h with rfl | h
    · exact ⟨gap, sourcePieces ps, _, List.mem_cons_self, rfl, rfl⟩
    · obtain ⟨front, back, p, hp, hs, rfl⟩ := ih h
      refine ⟨gap ++ c.source ++ front, back, p, List.mem_cons_of_mem _ hp, ?_, ?_⟩
      · rw [sourcePieces_cons, hs]
        simp
      · rw [width_append, width_append, ← Nat.add_assoc, ← Nat.add_assoc]

/-! ## Pieces of content -/

theorem readFlow_of_isGap {s : Text} (h : IsGap s) (n : Nat) : readFlow n s = [] := by
  obtain ⟨x, hx, hb⟩ := h
  rw [readFlow, runNode?_flowPieces hx, collapsed?_eq_none_iff.2 hb]
  rfl

/-- A run of text is a piece between two gaps. -/
theorem IsRunOf.exists_piece {t s : Text} (h : IsRunOf t s) (n : Nat) :
    ∃ a m b, s = a ++ m ++ b ∧ IsGap a ∧ IsRunOf t m ∧ IsGap b ∧
      readFlow n s = [Piece.read (n + width a) (.run t m)] := by
  obtain ⟨x, hx, ht⟩ := id h
  obtain ⟨a, m, b, rfl, ha, hm, hb, hspan⟩ := h.exists_runSpan n
  refine ⟨a, m, b, rfl, ha, hm, hb, ?_⟩
  rw [readFlow, runNode?_flowPieces hx, ht, hspan]
  rfl

namespace Content

/-- **Valid content is made of pieces with gaps around them.** -/
theorem exists_pieces {c : Content} (hc : c.IsValid) (n : Nat) : ∃ ps back, c = ofPieces ps back ∧
    IsGap back ∧ (∀ p ∈ ps, IsGap p.1 ∧ p.2.IsValid) ∧ c.read n = readPieces n ps := by
  cases c with
  | flow s =>
    obtain ⟨x, hx⟩ := Option.isSome_iff_exists.1 hc
    obtain hgap | ⟨t, hrun⟩ := isGap_or_isRunOf hx
    · exact ⟨[], s, rfl, hgap, nofun, readFlow_of_isGap hgap n⟩
    · obtain ⟨a, m, b, rfl, ha, hm, hb, hread⟩ := hrun.exists_piece n
      refine ⟨[(a, .run t m)], b, rfl, hb, ?_, hread⟩
      exact List.forall_mem_singleton.2 ⟨ha, hm⟩
  | cons s w rest =>
    obtain ⟨hs, hw, hrest⟩ := hc
    obtain ⟨x, hx⟩ := Option.isSome_iff_exists.1 hs
    obtain ⟨ps, back, rfl, hback, hps, hread⟩ :=
      exists_pieces hrest (n + width s + width w.source)
    obtain hgap | ⟨t, hrun⟩ := isGap_or_isRunOf hx
    · refine ⟨(s, .element w) :: ps, back, rfl, hback, List.forall_mem_cons.2 ⟨⟨hgap, hw⟩, hps⟩, ?_⟩
      rw [read, readFlow_of_isGap hgap, hread]
      rfl
    · obtain ⟨a, m, b, rfl, ha, hm, hb, hflow⟩ := hrun.exists_piece n
      refine ⟨(a, .run t m) :: (b, .element w) :: ps, back, rfl, hback,
        List.forall_mem_cons.2 ⟨⟨ha, hm⟩, List.forall_mem_cons.2 ⟨⟨hb, hw⟩, hps⟩⟩, ?_⟩
      rw [read, hflow, hread]
      simp [readPieces, Piece.read, Piece.source, Nat.add_assoc]

end Content

end MarkupSync
