import MarkupSync.Proofs.Patch.Confined

/-!
# Splices in any order, applied at once

* `Splice.mergeSort_eq`: what sorting splices gives;
* `Rewrites.flatMap`: splices carried out by finer ones;
* **`Splice.exists_applyAll_flatMap`**: parts of a text that stand apart are rewritten together,
  whatever order their splices come in;
* `Splice.woven`: a text in which ranges are replaced, put together of what stands between the
  ranges and what is written in their place;
* `Text.replaced`: one range replaced;
* `Splice.check_eq_ok_iff`: which splices can be applied;
* `Rewrites.eq_woven`, `Rewrites.eq_foldr`: rewriting a text from front to back, and replacing its
  ranges one after another, the last one first;
* **`Splice.applyAll_at_once`**: when splices can be applied, and what they give.
-/

namespace MarkupSync

open Text

/-- Ranges stand in order if each stops before those behind it. -/
theorem InOrder.of_pairwise {lo hi : Nat} {rs : List Span} (hle : lo ≤ hi)
    (hrs : ∀ r ∈ rs, lo ≤ r.start ∧ r.start ≤ r.stop ∧ r.stop ≤ hi)
    (h : rs.Pairwise fun a b => a.stop ≤ b.start) : InOrder lo hi rs := by
  induction rs generalizing lo with
  | nil => exact hle
  | cons r rs ih =>
    obtain ⟨⟨hlo, hr, hhi⟩, hrs⟩ := List.forall_mem_cons.1 hrs
    obtain ⟨hfirst, hrest⟩ := List.pairwise_cons.1 h
    exact ⟨hlo, hr, ih hhi (fun q hq => ⟨hfirst q hq, (hrs q hq).2⟩) hrest⟩

/-! ## Sorting -/

namespace Splice

variable {a b : Splice} {l m : List Splice}

theorem precedes_iff : precedes a b = true ↔ a.span.start < b.span.start ∨
    a.span.start = b.span.start ∧ a.span.stop ≤ b.span.stop := by
  simp [precedes]

theorem precedes_of_span (h : a.span = b.span) : precedes a b = true := by
  rw [precedes_iff, h]
  omega

theorem precedes_trans (a b c : Splice) (h : precedes a b = true) (h' : precedes b c = true) :
    precedes a c = true := by
  rw [precedes_iff] at *
  omega

theorem precedes_total (a b : Splice) : (precedes a b || precedes b a) = true := by
  rw [Bool.or_eq_true, precedes_iff, precedes_iff]
  omega

theorem span_eq_of_precedes (h : precedes a b = true) (h' : precedes b a = true) :
    a.span = b.span := by
  obtain ⟨⟨start, stop⟩, _⟩ := a
  obtain ⟨⟨start', stop'⟩, _⟩ := b
  rw [precedes_iff] at h h'
  dsimp only at h h' ⊢
  rw [Span.mk.injEq]
  omega

/-- Sorting keeps the order of splices of the same range. -/
theorem filter_mergeSort (l : List Splice) (r : Span) :
    (l.mergeSort precedes).filter (·.span = r) = l.filter (·.span = r) := by
  have hties : (l.filter (·.span = r)).Pairwise (precedes · · = true) := by
    refine List.pairwise_of_forall_mem_list fun a ha b hb => ?_
    simp only [List.mem_filter, decide_eq_true_eq] at ha hb
    exact precedes_of_span (ha.2.trans hb.2.symm)
  have hsub := (List.sublist_mergeSort precedes_trans precedes_total hties
    List.filter_sublist).filter (·.span = r)
  rw [List.filter_filter] at hsub
  simp only [Bool.and_self] at hsub
  exact (hsub.eq_of_length ((List.mergeSort_perm l precedes).filter _).length_eq.symm).symm

theorem mem_iff_of_filter (h : ∀ r, l.filter (·.span = r) = m.filter (·.span = r)) {e : Splice} :
    e ∈ l ↔ e ∈ m := by
  simpa [List.mem_filter] using (congrArg (e ∈ ·) (h e.span) :)

/-- Sorted splices are determined by the splices of each range. -/
theorem eq_of_filter (hl : l.Pairwise (precedes · · = true)) (hm : m.Pairwise (precedes · · = true))
    (h : ∀ r, l.filter (·.span = r) = m.filter (·.span = r)) : l = m := by
  induction l generalizing m with
  | nil => exact (List.eq_nil_iff_forall_not_mem.2 fun e he =>
      List.not_mem_nil ((mem_iff_of_filter h).2 he)).symm
  | cons a l ih =>
    cases m with
    | nil => exact absurd ((mem_iff_of_filter h).1 List.mem_cons_self) List.not_mem_nil
    | cons b m =>
      obtain ⟨ha, hls⟩ := List.pairwise_cons.1 hl
      obtain ⟨hb, hms⟩ := List.pairwise_cons.1 hm
      -- each of the two heads is in the other list, behind or at its head
      have hspan : a.span = b.span := by
        obtain rfl | hba := List.mem_cons.1 ((mem_iff_of_filter h).1 List.mem_cons_self)
        · rfl
        obtain rfl | hab := List.mem_cons.1 ((mem_iff_of_filter h).2 List.mem_cons_self)
        · rfl
        exact span_eq_of_precedes (ha _ hab) (hb _ hba)
      have hhead := h a.span
      rw [List.filter_cons_of_pos (by simp), List.filter_cons_of_pos (by simp [hspan])] at hhead
      obtain ⟨rfl, -⟩ := List.cons.inj hhead
      refine congrArg (a :: ·) (ih hls hms fun r => ?_)
      have hrest := h r
      rw [List.filter_cons, List.filter_cons] at hrest
      split at hrest
      · exact (List.cons.inj hrest).2
      · exact hrest

/-- **What sorting gives**: splices in order that agree with those before on every range. -/
theorem mergeSort_eq (hm : m.Pairwise (precedes · · = true))
    (h : ∀ r, l.filter (·.span = r) = m.filter (·.span = r)) : l.mergeSort precedes = m :=
  eq_of_filter (List.pairwise_mergeSort precedes_trans precedes_total l) hm fun r =>
    (filter_mergeSort l r).trans (h r)

end Splice

/-- Splices that agree on every range with splices in order are applied like those. -/
theorem Rewrites.applyAll_of_filter {l m : List Splice} {s t : Text} (h : Rewrites 0 s m t)
    (hlm : ∀ r, l.filter (·.span = r) = m.filter (·.span = r)) :
    Splice.applyAll l s = .ok t := by
  have hl : l.mergeSort Splice.precedes = m := Splice.mergeSort_eq h.pairwise hlm
  have hm : m.mergeSort Splice.precedes = m := List.mergeSort_of_pairwise h.pairwise
  have happly := h.applyAll
  rw [Splice.applyAll, hm] at happly
  rwa [Splice.applyAll, hl]

/-! ## Finer splices -/

section Finer

variable {α : Type} {as bs : List α}

/-- Lists put together in another order, if no two of them have anything. -/
theorem flatMap_eq_of_perm {β : Type} {f : α → List β} (h : as.Perm bs)
    (hf : as.Pairwise fun a b => f a = [] ∨ f b = []) : as.flatMap f = bs.flatMap f := by
  have hsymm {l m : List α} (h : l.Perm m) : (l.Pairwise fun a b => f a = [] ∨ f b = []) →
      m.Pairwise fun a b => f a = [] ∨ f b = [] := (h.pairwise_iff Or.symm).1
  induction h with
  | nil => rfl
  | cons a _ ih =>
    rw [List.flatMap_cons, List.flatMap_cons, ih (List.pairwise_cons.1 hf).2]
  | swap a b l =>
    obtain h | h := (List.pairwise_cons.1 hf).1 a List.mem_cons_self <;> simp [h]
  | trans h _ ih ih' => exact (ih hf).trans (ih' (hsymm h hf))

variable {whole : α → Splice} {fine : α → List Splice} {source s t : Text} {n hi : Nat}

/-- Each splice is carried out by finer ones in its range. -/
theorem Rewrites.flatMap (h : Rewrites n s (as.map whole) t) (hs : source.Holds ⟨n, hi⟩ s)
    (hfine : ∀ a ∈ as, Rewrites (whole a).span.start (source.at (whole a).span) (fine a)
      (whole a).replacement) : Rewrites n s (as.flatMap fine) t := by
  generalize hes : as.map whole = es at h
  induction h generalizing as with
  | nil =>
    obtain rfl := List.map_eq_nil_iff.1 hes
    exact .nil
  | keep a _ ih => exact .keep a (ih hs.right hfine hes)
  | @replace n a b s t es _ ih =>
    obtain ⟨x, as, rfl, hx, rfl⟩ := List.map_eq_cons_iff.1 hes
    obtain ⟨hfirst, hrest⟩ := List.forall_mem_cons.1 hfine
    rw [hx, hs.left.at_eq] at hfirst
    rw [List.flatMap_cons]
    exact hfirst.append (ih hs.right hrest rfl)

end Finer

namespace Splice

/-- Sorted, ranges that do not touch stand one behind the other. -/
theorem pairwise_mergeSort {l : List Splice} (hle : ∀ e ∈ l, e.span.start ≤ e.span.stop)
    (hapart : l.Pairwise fun a b => a.span.IsApart b.span) :
    (l.mergeSort precedes).Pairwise fun a b => a.span.stop < b.span.start := by
  have hperm := List.mergeSort_perm l precedes
  have hsorted := List.pairwise_mergeSort precedes_trans precedes_total l
  have hapart := (hperm.pairwise_iff Span.IsApart.symm).2 hapart
  refine (hsorted.and hapart).imp_of_mem ?_
  rintro a b - hb ⟨hab, h | h⟩
  · exact h
  · have := hle b (hperm.mem_iff.1 hb)
    rw [precedes_iff] at hab
    omega

/-- Splices in ranges that do not touch have no range in common. -/
theorem filter_eq_nil_of_isApart {source : Text} {l m : List Splice} {p q : Span}
    (hl : ∀ e ∈ l, source.IsRange p e.span) (hm : ∀ e ∈ m, source.IsRange q e.span)
    (h : p.IsApart q) (r : Span) :
    l.filter (·.span = r) = [] ∨ m.filter (·.span = r) = [] := by
  by_contra hnot
  obtain ⟨hne, hne'⟩ := not_or.1 hnot
  obtain ⟨e, he⟩ := List.exists_mem_of_ne_nil _ hne
  obtain ⟨f, hf⟩ := List.exists_mem_of_ne_nil _ hne'
  simp only [List.mem_filter, decide_eq_true_eq] at he hf
  obtain ⟨h1, h2⟩ := (hl e he.1).within
  obtain ⟨h3, h4⟩ := (hm f hf.1).within
  have hle := (hl e he.1).le
  rw [he.2] at h1 h2 hle
  rw [hf.2] at h3 h4
  rw [Span.IsApart] at h
  omega

variable {α : Type} {source front back : Text} {atFront atBack : List Splice}

/-- **Parts of a text that stand apart are rewritten together**, whatever order their splices come
in, and something is put in front of the text and behind it. -/
theorem exists_applyAll_flatMap (as : List α) (whole : α → Splice) (fine : α → List Splice)
    (hrange : ∀ a ∈ as, source.IsRange ⟨0, width source⟩ (whole a).span)
    (hapart : as.Pairwise fun a b => (whole a).span.IsApart (whole b).span)
    (hfine : ∀ a ∈ as, Rewrites (whole a).span.start (source.at (whole a).span) (fine a)
      (whole a).replacement)
    (hfront : Rewrites 0 [] atFront front) (hback : Rewrites (width source) [] atBack back) :
    ∃ es body, es.Perm (as.map whole) ∧ es.Pairwise (fun a b => a.span.stop < b.span.start) ∧
      Rewrites 0 source es body ∧
      applyAll (atFront ++ as.flatMap fine ++ atBack) source = .ok (front ++ body ++ back) := by
  -- the parts in the order of the text
  let sorted := as.mergeSort fun a b => precedes (whole a) (whole b)
  have hperm : sorted.Perm as := List.mergeSort_perm _ _
  have hsorted : sorted.map whole = (as.map whole).mergeSort precedes :=
    List.map_mergeSort fun _ _ _ _ => rfl
  have hlt := pairwise_mergeSort (l := as.map whole)
    (List.forall_mem_map.2 fun a ha => (hrange a ha).le) (List.pairwise_map.2 hapart)
  rw [← hsorted] at hlt
  have hin : AreConfined source 0 (width source) (sorted.map whole) := by
    have hsource {e : Splice} (he : e ∈ sorted.map whole) :
        source.IsRange ⟨0, width source⟩ e.span := by
      obtain ⟨a, ha, rfl⟩ := List.mem_map.1 he
      exact hrange a (hperm.mem_iff.1 ha)
    refine ⟨.of_pairwise (Nat.zero_le _) (List.forall_mem_map.2 fun e he => ?_) ?_,
      fun e he => (hsource he).start, fun e he => (hsource he).stop⟩
    · exact ⟨(hsource he).within.1, (hsource he).le, (hsource he).within.2⟩
    · exact List.pairwise_map.2 (hlt.imp Nat.le_of_lt)
  obtain ⟨body, hbody⟩ := hin.exists_rewrites (.self source)
  refine ⟨sorted.map whole, body, hperm.map whole, hlt, hbody, ?_⟩
  have hparts : Rewrites 0 source (sorted.flatMap fine) body :=
    hbody.flatMap (.self source) fun a ha => hfine a (hperm.mem_iff.1 ha)
  have hall : Rewrites 0 source (atFront ++ sorted.flatMap fine ++ atBack)
      (front ++ body ++ back) := by
    have := (hfront.append hparts).append (by simpa using hback)
    simpa using this
  have hfilter (r : Span) : (as.flatMap fine).filter (·.span = r) =
      (sorted.flatMap fine).filter (·.span = r) := by
    rw [List.filter_flatMap, List.filter_flatMap]
    refine flatMap_eq_of_perm hperm.symm (hapart.imp_of_mem fun {a b} ha hb hab => ?_)
    have hin {a : α} (ha : a ∈ as) : ∀ e ∈ fine a, source.IsRange (whole a).span e.span := by
      obtain ⟨t, ht⟩ := (hrange a ha).exists_holds
      exact (AreConfined.of_rewrites (hfine a ha) (ht.at_eq.symm ▸ ht)).isRange
    exact filter_eq_nil_of_isApart (hin ha) (hin hb) hab r
  refine hall.applyAll_of_filter fun r => ?_
  simp only [List.filter_append, hfilter r]

end Splice

/-! ## Splices applied at once -/

/-- A text with a range of it replaced. -/
def Text.replaced (s : Text) (r : Span) (u : Text) : Text :=
  before r.start s ++ (u ++ after r.stop s)

/-- The text from byte `n` on, with ranges replaced: what stands in front of the first range, what
is written in its place, and the rest. -/
def Splice.woven (s : Text) : Nat → List Splice → Text
  | n, [] => s.at ⟨n, width s⟩
  | n, e :: es => s.at ⟨n, e.span.start⟩ ++ (e.replacement ++ woven s e.span.stop es)

/-! ## What rewriting gives -/

namespace Rewrites

variable {source s t : Text} {es : List Splice} {n : Nat}

/-- What is rewritten from front to back is put together of what stands between the ranges and what
is written in their place. -/
theorem eq_woven (h : Rewrites n s es t) {a : Text} {m : Nat}
    (hs : source.Holds ⟨m, width source⟩ (a ++ s)) (hn : n = m + width a) :
    Splice.woven source m es = a ++ t := by
  induction h generalizing a m with
  | nil => exact hs.at_eq
  | keep b _ ih =>
    subst hn
    rw [← List.append_assoc] at hs ⊢
    exact ih hs (by rw [width_append, Nat.add_assoc])
  | @replace n b u s t es _ ih =>
    subst hn
    have hrest := ih (a := []) hs.right.right rfl
    rw [Splice.woven, hs.left.at_eq, hrest]
    rfl

/-- The ranges replaced one after another, the last one first. -/
theorem eq_foldr (h : Rewrites n s es t) {p : Text} (hp : width p = n) :
    es.foldr (fun e u => u.replaced e.span e.replacement) (p ++ s) = p ++ t := by
  induction h generalizing p with
  | nil => rfl
  | keep a _ ih =>
    have := ih (p := p ++ a) (by rw [width_append, hp])
    rwa [List.append_assoc, List.append_assoc] at this
  | @replace n a u s t es _ ih =>
    subst hp
    have hrest := ih (p := p ++ a) (width_append p a)
    rw [List.append_assoc, List.append_assoc] at hrest
    rw [List.foldr_cons, hrest, Text.replaced, before_width_append, ← List.append_assoc p a,
      ← width_append, after_width_append]

end Rewrites

/-! ## Which splices can be applied -/

namespace Splice

variable {s : Text} {es fs : List Splice} {n : Nat}

/-- A range can be replaced behind byte `n`. -/
theorem fault?_eq_none_iff {r : Span} :
    fault? s n r = none ↔ s.IsRange ⟨0, width s⟩ r ∧ n ≤ r.start := by
  rw [fault?]
  split_ifs with hbounds hboundary hoverlap
  · simp only [false_iff, not_and]
    rintro ⟨⟨-, hstop⟩, hle, -, -⟩
    exact absurd hbounds (by simp only [not_or, Nat.not_lt]; exact ⟨hle, hstop⟩)
  · simp only [false_iff, not_and]
    rintro ⟨-, -, hstart, hstop⟩
    rw [isBoundary_iff.2 hstart, isBoundary_iff.2 hstop] at hboundary
    cases hboundary
  · simp only [false_iff, not_and, Nat.not_le]
    exact fun _ => hoverlap
  · simp only [Bool.or_eq_true, Bool.not_eq_true', not_or, Bool.not_eq_false,
      isBoundary_iff] at hboundary
    simp only [not_or, Nat.not_lt] at hbounds
    simp only [true_iff]
    exact ⟨⟨⟨Nat.zero_le _, hbounds.2⟩, hbounds.1, hboundary.1, hboundary.2⟩,
      Nat.not_lt.1 hoverlap⟩

/-- Splices pass the check if they stand one behind the other in the text. -/
theorem check_eq_ok_iff (hn : n ≤ width s) :
    check s n es = .ok () ↔ AreConfined s n (width s) es := by
  induction es generalizing n with
  | nil => exact ⟨fun _ => .nil hn, fun _ => rfl⟩
  | cons e es ih =>
    rw [check]
    cases hfault : fault? s n e.span with
    | some fault =>
      simp only [reduceCtorEq, false_iff]
      intro h
      have hrange := h.isRange e List.mem_cons_self
      have := fault?_eq_none_iff.2 ⟨⟨⟨Nat.zero_le _, hrange.within.2⟩, hrange.le, hrange.start,
        hrange.stop⟩, hrange.within.1⟩
      rw [hfault] at this
      cases this
    | none =>
      obtain ⟨hrange, hlo⟩ := fault?_eq_none_iff.1 hfault
      rw [ih hrange.within.2]
      constructor
      · exact fun h => ⟨⟨hlo, hrange.le, h.order⟩, List.forall_mem_cons.2 ⟨hrange.start, h.start⟩,
          List.forall_mem_cons.2 ⟨hrange.stop, h.stop⟩⟩
      · exact fun h => ⟨h.order.2.2, (List.forall_mem_cons.1 h.start).2,
          (List.forall_mem_cons.1 h.stop).2⟩

/-- Splices stand one behind the other if their ranges lie in the text and none starts before the
one in front of it ends. -/
theorem areConfined_iff : AreConfined s 0 (width s) es ↔
    (∀ e ∈ es, s.IsRange ⟨0, width s⟩ e.span) ∧
      es.IsChain fun a b => a.span.stop ≤ b.span.start := by
  constructor
  · exact fun h => ⟨h.isRange, (List.pairwise_map.1 h.order.pairwise).isChain⟩
  · rintro ⟨hrange, hchain⟩
    refine ⟨?_, fun e he => (hrange e he).start, fun e he => (hrange e he).stop⟩
    have key {es : List Splice} (hrange : ∀ e ∈ es, s.IsRange ⟨0, width s⟩ e.span) {n : Nat}
        (hn : n ≤ width s) (hfirst : ∀ e ∈ es.head?, n ≤ e.span.start)
        (hchain : es.IsChain fun a b => a.span.stop ≤ b.span.start) :
        InOrder n (width s) (es.map Splice.span) := by
      induction es generalizing n with
      | nil => exact hn
      | cons e es ih =>
        obtain ⟨he, hes⟩ := List.forall_mem_cons.1 hrange
        obtain ⟨hnext, hchain⟩ := List.isChain_cons.1 hchain
        exact ⟨hfirst e rfl, he.le, ih hes he.within.2 hnext hchain⟩
    exact key hrange (Nat.zero_le _) (fun _ _ => Nat.zero_le _) hchain

theorem applyAll_eq_ok_iff {t : Text} : applyAll es s = .ok t ↔
    AreConfined s 0 (width s) (es.mergeSort precedes) ∧ Rewrites 0 s (es.mergeSort precedes) t := by
  constructor
  · intro h
    have hcheck : check s 0 (es.mergeSort precedes) = .ok () := by
      rw [applyAll] at h
      split at h
      · cases h
      · assumption
    have hconfined := (check_eq_ok_iff (Nat.zero_le _)).1 hcheck
    obtain ⟨u, hu⟩ := hconfined.exists_rewrites (.self s)
    have := hu.applyAll_of_filter fun r => (filter_mergeSort es r).symm
    cases h.symm.trans this
    exact ⟨hconfined, hu⟩
  · exact fun h => h.2.applyAll_of_filter fun r => (filter_mergeSort es r).symm

/-- **Splices are applied at once.** They can be applied exactly if their ranges lie in the text,
between characters, and none of them, in the order of their ranges, starts before the one in front
of it ends. The result has every range replaced and all else as it was, which is also what
replacing one range after another gives, the last one first. Splices of the same range come in
their order; the order of those of different ranges does not matter. -/
theorem applyAll_at_once (s : Text) (es : List Splice) :
    let sorted := es.mergeSort precedes
    (sorted.Perm es ∧ sorted.Pairwise (precedes · · = true) ∧
      ∀ r, sorted.filter (·.span = r) = es.filter (·.span = r)) ∧
    ((∃ t, applyAll es s = .ok t) ↔
      (∀ e ∈ es, e.span.start ≤ e.span.stop ∧ e.span.stop ≤ width s ∧
        Boundary e.span.start s ∧ Boundary e.span.stop s) ∧
      sorted.IsChain fun a b => a.span.stop ≤ b.span.start) ∧
    (∀ t, applyAll es s = .ok t → t = woven s 0 sorted ∧
      t = sorted.foldr (fun e u => u.replaced e.span e.replacement) s) ∧
    ∀ fs, (∀ r, fs.filter (·.span = r) = es.filter (·.span = r)) →
      applyAll fs s = applyAll es s := by
  intro sorted
  have hperm : sorted.Perm es := List.mergeSort_perm es precedes
  have hpairwise : sorted.Pairwise (precedes · · = true) :=
    List.pairwise_mergeSort precedes_trans precedes_total es
  refine ⟨⟨hperm, hpairwise, filter_mergeSort es⟩, ?_, fun t ht => ?_, fun fs hfs => ?_⟩
  · have hranges : (∀ e ∈ sorted, s.IsRange ⟨0, width s⟩ e.span) ↔ ∀ e ∈ es,
        e.span.start ≤ e.span.stop ∧ e.span.stop ≤ width s ∧
          Boundary e.span.start s ∧ Boundary e.span.stop s := by
      refine forall_congr' fun e => ?_
      rw [hperm.mem_iff]
      exact imp_congr_right fun _ => ⟨fun h => ⟨h.le, h.within.2, h.start, h.stop⟩,
        fun ⟨hle, hstop, h, h'⟩ => ⟨⟨Nat.zero_le _, hstop⟩, hle, h, h'⟩⟩
    rw [← hranges, ← areConfined_iff]
    constructor
    · exact fun ⟨t, ht⟩ => (applyAll_eq_ok_iff.1 ht).1
    · intro h
      obtain ⟨t, ht⟩ := h.exists_rewrites (.self s)
      exact ⟨t, applyAll_eq_ok_iff.2 ⟨h, ht⟩⟩
  · obtain ⟨-, hrewrites⟩ := applyAll_eq_ok_iff.1 ht
    exact ⟨(hrewrites.eq_woven (a := []) (.self s) rfl).symm,
      (hrewrites.eq_foldr (p := []) rfl).symm⟩
  · have : fs.mergeSort precedes = sorted :=
      mergeSort_eq hpairwise fun r => (hfs r).trans (filter_mergeSort es r).symm
    rw [applyAll, applyAll, this]

/-- Two insertions at one place keep their order, and what is replaced behind them comes behind. -/
example : applyAll [⟨⟨1, 2⟩, "x".toList⟩, ⟨⟨1, 1⟩, "y".toList⟩, ⟨⟨1, 1⟩, "z".toList⟩] "abc".toList =
    .ok "ayzxc".toList := by cbv

end Splice

end MarkupSync
