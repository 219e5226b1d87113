import Mathlib.Data.List.Induction
import Mathlib.Data.List.Nodup
import MarkupSync.Diff.Basic

/-!
# Matched children and longest rises

* `getElem?_matching`: children with a key that is unique on both sides belong together;
* `length_matching`: every new child gets an answer;
* `lt_of_mem_matching`: matched old children exist;
* `nodup_matching`: no old child is continued twice;
* `rises_of_mem_pilesOf`: the piles of a list of numbers are rising sequences
  (`longestRise_sublist`, `longestRise_pairwise`: so is what is found);
* `IsLongestRise`: no strictly increasing subsequence is longer;
* `Covers`: the tops of the piles are not larger than the numbers of a rising sequence, one by one.
  A number that is laid keeps what the piles cover (`Covers.layOn`), and what it continues they
  cover with it (`Covers.layOn_concat`);
* `map_length_pilesOf`: a pile has as many numbers as there are piles up to it;
* **`isLongestRise_longestRise`**: what is found is a longest rise.
-/

namespace MarkupSync

/-! ## Keys -/

theorem key?_of_uniqueKey? {ns : List Node} {n : Node} {k : Text}
    (h : uniqueKey? ns n = some k) : n.key? = some k ∧ ns.countP (·.key? == some k) = 1 := by
  simpa [uniqueKey?, Option.filter_eq_some_iff] using h

/-- What is found only once is found at one index. -/
theorem index_unique {α β : Type} {f : α → Option β} {l : List α} (hd : (l.filterMap f).Nodup)
    {i j : Nat} {a b : α} {x : β} (hi : l[i]? = some a) (hj : l[j]? = some b) (ha : f a = some x)
    (hb : f b = some x) : i = j := by
  rw [List.Nodup, List.pairwise_filterMap, List.pairwise_iff_getElem] at hd
  obtain ⟨hilt, rfl⟩ := List.getElem?_eq_some_iff.1 hi
  obtain ⟨hjlt, rfl⟩ := List.getElem?_eq_some_iff.1 hj
  rcases Nat.lt_trichotomy i j with h | h | h
  · exact absurd rfl (hd i j hilt hjlt h x ha x hb)
  · exact h
  · exact absurd rfl (hd j i hjlt hilt h x hb x ha)

/-- No two siblings have a unique key in common. -/
theorem nodup_uniqueKeys (ns : List Node) : (ns.filterMap (uniqueKey? ns)).Nodup := by
  rw [List.nodup_iff_count_le_one]
  intro k
  by_cases hk : k ∈ ns.filterMap (uniqueKey? ns)
  · obtain ⟨n, -, hn⟩ := List.mem_filterMap.1 hk
    rw [List.count_filterMap, ← (key?_of_uniqueKey? hn).2]
    refine List.countP_mono_left fun m _ hm => ?_
    simpa using (key?_of_uniqueKey? (by simpa using hm)).1
  · rw [List.count_eq_zero_of_not_mem hk]
    exact Nat.zero_le 1

/-- A key that no other sibling has is unique. -/
theorem uniqueKey?_of_key? {ns : List Node} {n : Node} {k : Text} (hn : n.key? = some k)
    (h : ns.countP (·.key? == some k) = 1) : uniqueKey? ns n = some k := by
  rw [uniqueKey?, hn, Option.filter_some, if_pos (decide_eq_true h)]

/-- A child is found by its unique key. -/
theorem index_of_uniqueKey? {ns : List Node} {i j : Nat} {n m : Node} {k : Text}
    (hi : ns[i]? = some n) (hj : ns[j]? = some m) (hn : uniqueKey? ns n = some k)
    (hm : uniqueKey? ns m = some k) : i = j := index_unique (nodup_uniqueKeys ns) hi hj hn hm

theorem mem_looseIndices {ns : List Node} {i : Nat} :
    i ∈ looseIndices ns ↔ ∃ n, ns[i]? = some n ∧ uniqueKey? ns n = none := by
  simp only [looseIndices, List.mem_map, List.mem_filter, Prod.exists, List.mem_zipIdx_iff_getElem?]
  constructor
  · rintro ⟨n, j, ⟨hn, hk⟩, rfl⟩
    exact ⟨n, hn, by simpa using hk⟩
  · rintro ⟨n, hn, hk⟩
    exact ⟨n, i, ⟨hn, by simpa using hk⟩, rfl⟩

theorem nodup_looseIndices (ns : List Node) : (looseIndices ns).Nodup := by
  have h : (looseIndices ns).Sublist (ns.zipIdx.map Prod.snd) := List.filter_sublist.map _
  rw [List.zipIdx_map_snd] at h
  exact (List.nodup_range' ..).sublist h

/-! ## Matches -/

section MatchFrom

variable {key : Node → Option Text} {find : Text → Option Nat}

theorem length_matchFrom (loose : List Nat) (ns : List Node) :
    (matchFrom key find loose ns).length = ns.length := by
  fun_induction matchFrom key find loose ns <;> simp_all

/-- A child with a key is matched by it. -/
theorem getElem?_matchFrom {loose : List Nat} {ns : List Node} {j : Nat} {n : Node} {k : Text}
    (hn : ns[j]? = some n) (hk : key n = some k) : (matchFrom key find loose ns)[j]? = some (find k) := by
  fun_induction matchFrom key find loose ns generalizing j with
  | case1 => cases hn
  | case2 loose m ns k' hk' ih =>
    cases j with
    | zero =>
      cases hn
      rw [Option.some.inj (hk'.symm.trans hk)]
      rfl
    | succ j => exact ih hn
  | case3 m ns hm ih | case4 m ns i loose hm ih =>
    cases j with
    | zero =>
      cases hn
      cases hm.symm.trans hk
    | succ j => exact ih hn

/-- A match is found by a key or it is one of the loose indices. -/
theorem mem_matchFrom {loose : List Nat} {ns : List Node} {i : Nat}
    (h : some i ∈ matchFrom key find loose ns) :
    i ∈ loose ∨ ∃ k ∈ ns.filterMap key, find k = some i := by
  fun_induction matchFrom key find loose ns with
  | case1 => cases h
  | case2 loose n ns k hk ih =>
    rw [List.filterMap_cons_some hk]
    rcases List.mem_cons.1 h with h | h
    · exact .inr ⟨k, List.mem_cons_self, h.symm⟩
    · obtain h | ⟨k', hk', hf⟩ := ih h
      · exact .inl h
      · exact .inr ⟨k', List.mem_cons_of_mem _ hk', hf⟩
  | case3 n ns hk ih =>
    rw [List.filterMap_cons_none hk]
    rcases List.mem_cons.1 h with h | h
    · cases h
    · exact ih h
  | case4 n ns j loose hk ih =>
    rw [List.filterMap_cons_none hk]
    rcases List.mem_cons.1 h with h | h
    · cases h
      exact .inl List.mem_cons_self
    · exact (ih h).imp_left (List.mem_cons_of_mem _)

/-- Keys that find different indices, none of them loose, match no index twice. -/
theorem nodup_matchFrom (hf : ∀ k k' i, find k = some i → find k' = some i → k = k')
    {loose : List Nat} (hl : loose.Nodup) (hn : ∀ k i, find k = some i → i ∉ loose)
    {ns : List Node} (hk : (ns.filterMap key).Nodup) :
    ((matchFrom key find loose ns).filterMap id).Nodup := by
  have mem {ms : List (Option Nat)} {i : Nat} (h : i ∈ ms.filterMap id) : some i ∈ ms := by
    simpa using h
  fun_induction matchFrom key find loose ns with
  | case1 => exact List.nodup_nil
  | case2 loose n ns k hkey ih =>
    rw [List.filterMap_cons_some hkey] at hk
    obtain ⟨hk', hk⟩ := List.nodup_cons.1 hk
    cases hfk : find k with
    | none => exact ih hl hn hk
    | some i =>
      refine List.nodup_cons.2 ⟨fun h => ?_, ih hl hn hk⟩
      obtain h | ⟨k'', hk'', hfk''⟩ := mem_matchFrom (mem h)
      · exact hn k i hfk h
      · exact hk' (hf _ _ _ hfk hfk'' ▸ hk'')
  | case3 n ns hkey ih =>
    rw [List.filterMap_cons_none hkey] at hk
    exact ih hl hn hk
  | case4 n ns i loose hkey ih =>
    rw [List.filterMap_cons_none hkey] at hk
    obtain ⟨hi, hl⟩ := List.nodup_cons.1 hl
    have hn' : ∀ k j, find k = some j → j ∉ loose := fun k j h hj =>
      hn k j h (List.mem_cons_of_mem _ hj)
    refine List.nodup_cons.2 ⟨fun h => ?_, ih hl hn' hk⟩
    obtain h | ⟨k, -, hfk⟩ := mem_matchFrom (mem h)
    · exact hi h
    · exact hn k i hfk List.mem_cons_self

end MatchFrom

variable {old new : List Node} {i : Nat}

theorem uniqueKey?_of_findIdx? {k : Text}
    (h : old.findIdx? (uniqueKey? old · == some k) = some i) :
    ∃ n, old[i]? = some n ∧ uniqueKey? old n = some k := by
  obtain ⟨hi, hk, -⟩ := List.findIdx?_eq_some_iff_getElem.1 h
  exact ⟨old[i], List.getElem?_eq_getElem hi, by simpa using hk⟩

/-- Children with the same key belong together if it is unique on both sides. -/
theorem getElem?_matching {j : Nat} {c d : Node} {k : Text} (hc : old[i]? = some c)
    (hd : new[j]? = some d) (hck : uniqueKey? old c = some k) (hdk : uniqueKey? new d = some k) :
    (matching old new)[j]? = some (some i) := by
  obtain ⟨hi, rfl⟩ := List.getElem?_eq_some_iff.1 hc
  rw [matching, getElem?_matchFrom hd hdk, Option.some.injEq, List.findIdx?_eq_some_iff_getElem]
  refine ⟨hi, by simpa using hck, fun l hl hk => ?_⟩
  have hll : l < old.length := Nat.lt_trans hl hi
  exact Nat.ne_of_lt hl (index_of_uniqueKey? (List.getElem?_eq_getElem hll) hc (by simpa using hk) hck)

theorem length_matching (old new : List Node) : (matching old new).length = new.length :=
  length_matchFrom _ _

/-- Matched old children exist. -/
theorem lt_of_mem_matching (h : some i ∈ matching old new) : i < old.length := by
  have hi : ∃ n, old[i]? = some n := by
    obtain h | ⟨k, -, hk⟩ := mem_matchFrom h
    · exact (mem_looseIndices.1 h).imp fun n hn => hn.1
    · exact (uniqueKey?_of_findIdx? hk).imp fun n hn => hn.1
  obtain ⟨n, hn⟩ := hi
  exact (List.getElem?_eq_some_iff.1 hn).1

/-- **No old child is continued twice.** -/
theorem nodup_matching (old new : List Node) : ((matching old new).filterMap id).Nodup := by
  refine nodup_matchFrom ?_ (nodup_looseIndices old) ?_ (nodup_uniqueKeys new)
  · intro k k' i h h'
    obtain ⟨n, hn, hk⟩ := uniqueKey?_of_findIdx? h
    obtain ⟨m, hm, hk'⟩ := uniqueKey?_of_findIdx? h'
    obtain rfl : n = m := Option.some.inj (hn.symm.trans hm)
    exact Option.some.inj (hk.symm.trans hk')
  · intro k i h hl
    obtain ⟨n, hn, hk⟩ := uniqueKey?_of_findIdx? h
    obtain ⟨m, hm, hk'⟩ := mem_looseIndices.1 hl
    obtain rfl : n = m := Option.some.inj (hn.symm.trans hm)
    rw [hk] at hk'
    cases hk'

/-! ## Rising sequences -/

/-- A pile is there before a number is laid, or it is the number on a pile of smaller ones. -/
theorem mem_layOn {v : Nat} {below pile : List Nat} {piles : List (List Nat)}
    (h : pile ∈ layOn v below piles) :
    pile ∈ piles ∨ ∃ q, pile = v :: q ∧ (q = below ∨ q ∈ piles ∧ q.headD 0 < v) := by
  induction piles generalizing below with
  | nil =>
    rw [layOn, List.mem_singleton] at h
    exact .inr ⟨below, h, .inl rfl⟩
  | cons top piles ih =>
    rw [layOn] at h
    split_ifs at h with ht
    · rcases List.mem_cons.1 h with rfl | h
      · exact .inl List.mem_cons_self
      · obtain h | ⟨q, rfl, rfl | ⟨hq, hv⟩⟩ := ih h
        · exact .inl (List.mem_cons_of_mem _ h)
        · exact .inr ⟨q, rfl, .inr ⟨List.mem_cons_self, ht⟩⟩
        · exact .inr ⟨q, rfl, .inr ⟨List.mem_cons_of_mem _ hq, hv⟩⟩
    · rcases List.mem_cons.1 h with rfl | h
      · exact .inr ⟨below, rfl, .inl rfl⟩
      · exact .inl (List.mem_cons_of_mem _ h)

theorem pilesOf_concat (l : List Nat) (v : Nat) : pilesOf (l ++ [v]) = layOn v [] (pilesOf l) := by
  simp [pilesOf]

/-- Every pile is a rising sequence of the numbers that were laid. -/
theorem rises_of_mem_pilesOf {l pile : List Nat} (h : pile ∈ pilesOf l) :
    pile.reverse.Sublist l ∧ pile.Pairwise (· > ·) := by
  induction l using List.reverseRecOn generalizing pile with
  | nil => cases h
  | append_singleton l v ih =>
    rw [pilesOf_concat] at h
    obtain h | ⟨q, rfl, rfl | ⟨hq, hv⟩⟩ := mem_layOn h
    · exact ⟨(ih h).1.trans (List.sublist_append_left l [v]), (ih h).2⟩
    · exact ⟨by simp, List.pairwise_singleton _ _⟩
    · obtain ⟨hs, hp⟩ := ih hq
      refine ⟨by simpa using hs.append (List.Sublist.refl [v]), List.pairwise_cons.2 ⟨?_, hp⟩⟩
      intro w hw
      cases q with
      | nil => cases hw
      | cons top q =>
        -- the top is the largest number of its pile
        rcases List.mem_cons.1 hw with rfl | hw
        · exact hv
        · exact Nat.lt_trans ((List.pairwise_cons.1 hp).1 w hw) hv

theorem rises_getLastD_pilesOf (l : List Nat) :
    ((pilesOf l).getLastD []).reverse.Sublist l ∧ ((pilesOf l).getLastD []).Pairwise (· > ·) := by
  rw [List.getLastD_eq_getLast?]
  cases h : (pilesOf l).getLast? with
  | none => exact ⟨List.nil_sublist l, List.Pairwise.nil⟩
  | some pile => exact rises_of_mem_pilesOf (List.mem_of_getLast? h)

theorem longestRise_sublist (l : List Nat) : (longestRise l).Sublist l :=
  (rises_getLastD_pilesOf l).1

theorem longestRise_pairwise (l : List Nat) : (longestRise l).Pairwise (· < ·) :=
  List.pairwise_reverse.2 (rises_getLastD_pilesOf l).2

/-! ## Longest ones -/

/-- A strictly increasing subsequence that is as long as any other. -/
structure IsLongestRise (numbers rise : List Nat) : Prop where
  sublist : rise.Sublist numbers
  rises : rise.Pairwise (· < ·)
  longest (other : List Nat) : other.Sublist numbers → other.Pairwise (· < ·) →
    other.length ≤ rise.length

theorem IsLongestRise.length_eq {numbers rise rise' : List Nat} (h : IsLongestRise numbers rise)
    (h' : IsLongestRise numbers rise') : rise.length = rise'.length :=
  Nat.le_antisymm (h'.longest rise h.sublist h.rises) (h.longest rise' h'.sublist h'.rises)

/-! ## The tops of the piles -/

/-- For each number of a sequence there is a pile, and its top is not larger. -/
inductive Covers : List (List Nat) → List Nat → Prop
  | nil {piles : List (List Nat)} : Covers piles []
  | cons {pile : List Nat} {piles : List (List Nat)} {x : Nat} {xs : List Nat}
    (hx : pile.headD 0 ≤ x) (h : Covers piles xs) : Covers (pile :: piles) (x :: xs)

variable {piles : List (List Nat)} {below xs : List Nat} {v : Nat}

theorem Covers.length_le (h : Covers piles xs) : xs.length ≤ piles.length := by
  induction h with
  | nil => exact Nat.zero_le _
  | cons _ _ ih => exact Nat.succ_le_succ ih

/-- The tops become no larger when a number is laid. -/
theorem Covers.layOn (h : Covers piles xs) (v : Nat) (below : List Nat) :
    Covers (layOn v below piles) xs := by
  induction h generalizing below with
  | nil => exact .nil
  | @cons pile piles x xs hx h ih =>
    rw [MarkupSync.layOn]
    split_ifs with hv
    · exact .cons hx (ih pile)
    · exact .cons (Nat.le_trans (Nat.not_lt.1 hv) hx) h

/-- A number that continues a sequence is laid on the pile behind those of the sequence, or there is a
smaller one already. -/
theorem Covers.layOn_concat (h : Covers piles xs) (hv : ∀ x ∈ xs, x < v) (below : List Nat) :
    Covers (MarkupSync.layOn v below piles) (xs ++ [v]) := by
  induction h generalizing below with
  | @nil piles =>
    cases piles with
    | nil => exact .cons (Nat.le_refl v) .nil
    | cons pile piles =>
      rw [MarkupSync.layOn]
      split_ifs with hlt
      · exact .cons (Nat.le_of_lt hlt) .nil
      · exact .cons (Nat.le_refl v) .nil
  | @cons pile piles x xs hx h ih =>
    obtain ⟨hxv, hv⟩ := List.forall_mem_cons.1 hv
    rw [MarkupSync.layOn, if_pos (Nat.lt_of_le_of_lt hx hxv)]
    exact .cons hx (ih hv pile)

/-- The piles cover every rising subsequence of the numbers that were laid. -/
theorem covers_pilesOf {l : List Nat} (hs : xs.Sublist l) (hr : xs.Pairwise (· < ·)) :
    Covers (pilesOf l) xs := by
  induction l using List.reverseRecOn generalizing xs with
  | nil =>
    rw [List.sublist_nil.1 hs]
    exact .nil
  | append_singleton l v ih =>
    rw [pilesOf_concat]
    obtain ⟨front, back, rfl, hfront, hback⟩ := List.sublist_append_iff.1 hs
    obtain ⟨hrfront, -, hlt⟩ := List.pairwise_append.1 hr
    have hcovers := ih hfront hrfront
    obtain rfl | rfl := List.sublist_singleton.1 hback
    · rw [List.append_nil]
      exact hcovers.layOn v []
    · exact hcovers.layOn_concat (fun x hx => hlt x hx v List.mem_cons_self) []

/-! ## The sizes of the piles -/

/-- The sizes of piles that go on behind a pile of `n` numbers. -/
theorem map_length_layOn {n : Nat} (h : piles.map List.length = List.range' (n + 1) piles.length)
    (hn : below.length = n) : (layOn v below piles).map List.length =
      List.range' (n + 1) (layOn v below piles).length := by
  induction piles generalizing n below with
  | nil => simp [layOn, hn]
  | cons pile piles ih =>
    rw [List.map_cons, List.length_cons, List.range'_succ] at h
    obtain ⟨hpile, hpiles⟩ := List.cons.inj h
    rw [layOn]
    split_ifs
    · rw [List.map_cons, List.length_cons, List.range'_succ, hpile, ih hpiles hpile]
    · rw [List.map_cons, List.length_cons, hpiles, hn, List.length_cons, List.range'_succ]

theorem map_length_pilesOf (l : List Nat) :
    (pilesOf l).map List.length = List.range' 1 (pilesOf l).length := by
  induction l using List.reverseRecOn with
  | nil => rfl
  | append_singleton l v ih =>
    rw [pilesOf_concat]
    exact map_length_layOn ih rfl

/-- The last pile is as large as there are piles. -/
theorem length_longestRise (l : List Nat) : (longestRise l).length = (pilesOf l).length := by
  have hlast := congrArg List.getLast? (map_length_pilesOf l)
  rw [List.getLast?_map, List.getLast?_range'] at hlast
  rw [longestRise, List.length_reverse, List.getLastD_eq_getLast?]
  cases hpiles : (pilesOf l).getLast? with
  | none => rw [List.getLast?_eq_none_iff.1 hpiles]; rfl
  | some pile =>
    have hne : (pilesOf l).length ≠ 0 := by
      rw [Ne, List.length_eq_zero_iff, ← List.getLast?_eq_none_iff, hpiles]
      exact nofun
    rw [hpiles, if_neg hne] at hlast
    have := Option.some.inj hlast
    rw [Option.getD_some]
    omega

/-- **What is found is a longest rise.** -/
theorem isLongestRise_longestRise (l : List Nat) : IsLongestRise l (longestRise l) where
  sublist := longestRise_sublist l
  rises := longestRise_pairwise l
  longest other hs hr := by
    rw [length_longestRise]
    exact (covers_pilesOf hs hr).length_le

end MarkupSync
