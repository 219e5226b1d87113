import Mathlib.Data.List.Basic
import Mathlib.Data.List.Nodup
import MarkupSync.Folder.Locks

/-!
# Calls on one file take turns

* `Locks.IsSound`, `Locks.step_of_move?`, `Locks.IsSound.run`: every call that is not leaving has
  the lock that the map has for its path, and no two calls have been given one lock, whatever the
  calls do;
* `Locks.exclusive_of_moves`: so calls on one path never work at the same time;
* `Locks.IsPruned`, `Locks.IsPruned.deeds`: where entries are dropped at once, every path in the map
  is that of a call in progress;
* **`Locks.exclusive_of_run`**: calls take turns, and the map is empty when no call is in progress;
* `Locks.exists_leak`: a path can stay in the map if two calls count the owners of its lock before
  either gives up its entry.
-/

namespace MarkupSync

/-- A call has been given a lock. -/
def Call.worksWith {κ : Type} (lock : Nat) (c : Call κ) : Bool :=
  c.lock == lock && c.stage == .working

namespace Locks

variable {κ : Type}

/-- A call among those in progress, changed or taken out. -/
theorem exists_split {calls : List (Call κ)} {i : Nat} {c : Call κ} (h : calls[i]? = some c) :
    ∃ as bs, calls = as ++ c :: bs ∧ as.length = i ∧ (∀ f, calls.modify i f = as ++ f c :: bs) ∧
      calls.eraseIdx i = as ++ bs := by
  obtain ⟨hi, rfl⟩ := List.getElem?_eq_some_iff.1 h
  refine ⟨calls.take i, calls.drop (i + 1), by simp, List.length_take_of_le (Nat.le_of_lt hi),
    fun f => List.modify_eq_take_cons_drop hi, List.eraseIdx_eq_take_drop_succ calls i⟩

variable {l l' : Locks κ} {c : Call κ} {as bs : List (Call κ)}

/-! ## Locks and their paths -/

/-- Paths and locks in the map belong together, calls that are not leaving have the locks of their
paths, and a lock is given to one call at a time. -/
structure IsSound (l : Locks κ) : Prop where
  paths : (l.entries.map Prod.fst).Nodup
  locks : (l.entries.map Prod.snd).Nodup
  entry_lt : ∀ e ∈ l.entries, e.2 < l.next
  call_lt : ∀ c ∈ l.calls, c.lock < l.next
  entry : ∀ c ∈ l.calls, c.stage ≠ .leaving → (c.path, c.lock) ∈ l.entries
  excludes : ∀ lock, l.calls.countP (Call.worksWith lock) ≤ 1

namespace IsSound

theorem idle : (idle : Locks κ).IsSound :=
  ⟨List.nodup_nil, List.nodup_nil, List.forall_mem_nil _, List.forall_mem_nil _,
    List.forall_mem_nil _, fun _ => Nat.zero_le 1⟩

variable (h : l.IsSound)
include h

theorem lock_eq {path : κ} {n n' : Nat} (hn : (path, n) ∈ l.entries)
    (hn' : (path, n') ∈ l.entries) : n = n' :=
  congrArg Prod.snd (List.inj_on_of_nodup_map h.paths hn hn' rfl)

theorem path_eq {path path' : κ} {n : Nat} (hn : (path, n) ∈ l.entries)
    (hn' : (path', n) ∈ l.entries) : path = path' :=
  congrArg Prod.fst (List.inj_on_of_nodup_map h.locks hn hn' rfl)

/-- The map has the lock of a path once. -/
theorem countP_entries {path : κ} {n : Nat} (hn : (path, n) ∈ l.entries) :
    l.entries.countP (fun e => e.2 == n) = 1 := by
  have hcount := List.count_eq_one_of_mem h.locks (List.mem_map_of_mem (f := Prod.snd) hn)
  rwa [List.count, List.countP_map] at hcount

/-- The owners of the lock of a call: the map, the call and the other calls that have it. -/
theorem owners_eq (hcalls : l.calls = as ++ c :: bs) (hstage : c.stage ≠ .leaving) :
    l.owners c.lock = 2 + (as ++ bs).countP fun c' => c'.lock == c.lock := by
  have hentry := h.entry c (by rw [hcalls]; simp) hstage
  rw [owners, h.countP_entries hentry, hcalls]
  simp only [List.countP_append, List.countP_cons, beq_self_eq_true, if_true]
  omega

/-- Calls that have not left and are on one path have one lock. -/
theorem lock_eq_of_path_eq {c c' : Call κ} (hc : c ∈ l.calls) (hc' : c' ∈ l.calls)
    (hstage : c.stage ≠ .leaving) (hstage' : c'.stage ≠ .leaving) (hpath : c.path = c'.path) :
    c.lock = c'.lock :=
  h.lock_eq (h.entry c hc hstage) (hpath ▸ h.entry c' hc' hstage')

/-- A call that has not left can change its stage if it does not come to a lock that another has. -/
theorem change {stage : Stage} (hcalls : l.calls = as ++ c :: bs) (hstage : c.stage ≠ .leaving)
    (hexcludes : stage = .working → l.isFree c.lock = true) :
    ({ l with calls := as ++ { c with stage } :: bs } : Locks κ).IsSound := by
  have hlt := h.call_lt
  have hentry := h.entry
  rw [hcalls] at hlt hentry
  simp only [List.forall_mem_append, List.forall_mem_cons] at hlt hentry
  refine ⟨h.paths, h.locks, h.entry_lt, ?_, ?_, fun lock => ?_⟩
  · simpa only [List.forall_mem_append, List.forall_mem_cons] using hlt
  · simp only [List.forall_mem_append, List.forall_mem_cons]
    exact ⟨hentry.1, fun _ => hentry.2.1 hstage, hentry.2.2⟩
  · have hcount := h.excludes lock
    rw [hcalls] at hcount
    simp only [List.countP_append, List.countP_cons] at hcount ⊢
    by_cases hworks : Call.worksWith lock { c with stage }
    · -- nobody worked with the lock before
      obtain ⟨rfl, rfl⟩ : c.lock = lock ∧ stage = .working := by simpa [Call.worksWith] using hworks
      have hfree := hexcludes rfl
      rw [isFree, hcalls, List.all_eq_true] at hfree
      simp only [List.forall_mem_append, List.forall_mem_cons] at hfree
      have hnone : ∀ c' : Call κ, (c'.lock != c.lock || c'.stage != .working) = true →
          ¬ Call.worksWith c.lock c' = true := by
        intro c' hc'
        simpa [Call.worksWith, imp_iff_not_or] using hc'
      have has := List.countP_eq_zero.2 fun c' hc' => hnone c' (hfree.1 c' hc')
      have hbs := List.countP_eq_zero.2 fun c' hc' => hnone c' (hfree.2.2 c' hc')
      rw [if_pos hworks]
      omega
    · rw [if_neg hworks]
      omega

end IsSound

/-! ## Steps -/

variable [DecidableEq κ] {m : Move κ}

@[simp] theorem calls_prune : (l.prune c).calls = l.calls := by
  rw [prune]
  split_ifs <;> rfl

@[simp] theorem next_prune : (l.prune c).next = l.next := by
  rw [prune]
  split_ifs <;> rfl

theorem entries_prune_sublist : (l.prune c).entries.Sublist l.entries := by
  rw [prune]
  split_ifs
  · exact List.filter_sublist
  · exact .refl _

/-- What one move does to the map and to the calls. -/
inductive Step (l : Locks κ) : Move κ → Locks κ → Prop
  | enter (path : κ) : Step l (.enter path) (l.enter path)
  | acquire {c : Call κ} {as bs : List (Call κ)} (hcalls : l.calls = as ++ c :: bs)
    (hstage : c.stage = .waiting) (hfree : l.isFree c.lock = true) :
    Step l (.acquire as.length) { l with calls := as ++ { c with stage := .working } :: bs }
  | release {c : Call κ} {as bs : List (Call κ)} (hcalls : l.calls = as ++ c :: bs)
    (hstage : c.stage = .working) :
    Step l (.release as.length) { l with calls := as ++ { c with stage := .finished } :: bs }
  | count {c : Call κ} {as bs : List (Call κ)} (hcalls : l.calls = as ++ c :: bs)
    (hstage : c.stage = .waiting ∨ c.stage = .finished) :
    Step l (.count as.length)
      { l.prune c with calls := as ++ { c with stage := .leaving } :: bs }
  | leave {c : Call κ} {as bs : List (Call κ)} (hcalls : l.calls = as ++ c :: bs)
    (hstage : c.stage = .leaving) : Step l (.leave as.length) { l with calls := as ++ bs }

theorem step_of_move? (h : l.move? m = some l') : Step l m l' := by
  cases m with
  | enter path =>
    cases h
    exact .enter path
  | acquire i =>
    simp only [move?] at h
    split at h
    next path lock hcall =>
      split_ifs at h with hfree
      cases h
      obtain ⟨as, bs, hcalls, rfl, hmodify, -⟩ := exists_split hcall
      rw [setStage, hmodify]
      exact .acquire hcalls rfl hfree
    next => cases h
  | release i =>
    simp only [move?] at h
    split at h
    next path lock hcall =>
      cases h
      obtain ⟨as, bs, hcalls, rfl, hmodify, -⟩ := exists_split hcall
      rw [setStage, hmodify]
      exact .release hcalls rfl
    next => cases h
  | count i =>
    simp only [move?] at h
    split at h
    next c hcall =>
      split_ifs at h with hstage
      cases h
      obtain ⟨as, bs, hcalls, rfl, hmodify, -⟩ := exists_split hcall
      rw [setStage, calls_prune, hmodify]
      exact .count hcalls hstage
    next => cases h
  | leave i =>
    simp only [move?] at h
    split at h
    next path lock hcall =>
      cases h
      obtain ⟨as, bs, hcalls, rfl, -, herase⟩ := exists_split hcall
      rw [herase]
      exact .leave hcalls rfl
    next => cases h

namespace IsSound

variable (h : l.IsSound)
include h

/-- A path leaves the map only if no other call has its lock. -/
theorem mem_entries_prune (hcalls : l.calls = as ++ c :: bs) (hstage : c.stage ≠ .leaving)
    {c' : Call κ} (hc' : c' ∈ as ++ bs) (hstage' : c'.stage ≠ .leaving) :
    (c'.path, c'.lock) ∈ (l.prune c).entries := by
  have hmem : c' ∈ l.calls := by
    rw [hcalls]
    simp only [List.mem_append, List.mem_cons] at hc' ⊢
    tauto
  have hentry' := h.entry c' hmem hstage'
  rw [prune]
  split_ifs with howners
  · refine List.mem_filter.2 ⟨hentry', ?_⟩
    rw [h.owners_eq hcalls hstage] at howners
    have hnone : (as ++ bs).countP (fun c' => c'.lock == c.lock) = 0 := by omega
    have hlock := List.countP_eq_zero.1 hnone c' hc'
    have hne : c'.path ≠ c.path := by
      intro hpath
      have hentry := h.entry c (by rw [hcalls]; simp) hstage
      rw [hpath] at hentry'
      exact hlock (beq_iff_eq.2 (h.lock_eq hentry' hentry))
    simpa using hne
  · exact hentry'

theorem enter (path : κ) : (l.enter path).IsSound := by
  have hnew : ∀ lock n, (l.calls ++ [(⟨path, n, .waiting⟩ : Call κ)]).countP
      (Call.worksWith lock) ≤ 1 := by
    intro lock n
    rw [List.countP_append]
    simpa [Call.worksWith] using h.excludes lock
  rw [Locks.enter]
  split
  next n hn =>
    obtain ⟨before, behind, hentries, -⟩ := List.lookup_eq_some_iff.1 hn
    have hmem : (path, n) ∈ l.entries := by simp [hentries]
    refine ⟨h.paths, h.locks, h.entry_lt, ?_, ?_, fun lock => hnew lock n⟩
    · simpa [or_imp, forall_and] using ⟨h.call_lt, h.entry_lt _ hmem⟩
    · simpa [or_imp, forall_and] using ⟨h.entry, hmem⟩
  next hnone =>
    have habsent : ∀ e ∈ l.entries, e.1 ≠ path := by
      intro e he heq
      simpa [heq] using List.lookup_eq_none_iff.1 hnone e he
    constructor
    · rw [List.map_append, List.nodup_append']
      refine ⟨h.paths, List.nodup_singleton _, ?_⟩
      simpa [List.disjoint_singleton] using fun n hn => habsent _ hn rfl
    · rw [List.map_append, List.nodup_append']
      refine ⟨h.locks, List.nodup_singleton _, ?_⟩
      simpa [List.disjoint_singleton] using fun p hp => absurd (h.entry_lt _ hp) (Nat.lt_irrefl _)
    · intro e he
      obtain he | he := List.mem_append.1 he
      · exact Nat.lt_succ_of_lt (h.entry_lt e he)
      · rw [List.mem_singleton.1 he]
        exact Nat.lt_succ_self _
    · intro c hc
      obtain hc | hc := List.mem_append.1 hc
      · exact Nat.lt_succ_of_lt (h.call_lt c hc)
      · rw [List.mem_singleton.1 hc]
        exact Nat.lt_succ_self _
    · intro c hc hstage
      obtain hc | hc := List.mem_append.1 hc
      · exact List.mem_append_left _ (h.entry c hc hstage)
      · rw [List.mem_singleton.1 hc]
        simp
    · exact fun lock => hnew lock _

/-- **What one move does keeps paths and locks together.** -/
theorem step (hstep : Step l m l') : l'.IsSound := by
  cases hstep with
  | enter path => exact h.enter path
  | acquire hcalls hstage hfree => exact h.change hcalls (by simp [hstage]) fun _ => hfree
  | release hcalls hstage => exact h.change hcalls (by simp [hstage]) nofun
  | @count c as bs hcalls hstage =>
    have hleft : c.stage ≠ .leaving := by rcases hstage with hstage | hstage <;> simp [hstage]
    have hsub : (l.prune c).entries.Sublist l.entries := entries_prune_sublist
    have hchanged : ({ l with calls := as ++ { c with stage := .leaving } :: bs } :
        Locks κ).IsSound := h.change hcalls hleft nofun
    refine ⟨h.paths.sublist (hsub.map _), h.locks.sublist (hsub.map _), fun e he => ?_, ?_, ?_,
      hchanged.excludes⟩
    · simpa using h.entry_lt e (hsub.subset he)
    · simpa using hchanged.call_lt
    · intro c' hc' hstage'
      have hc' : c' ∈ as ++ bs := by
        simp only [List.mem_append, List.mem_cons] at hc' ⊢
        obtain hc' | rfl | hc' := hc'
        exacts [.inl hc', absurd rfl hstage', .inr hc']
      exact h.mem_entries_prune hcalls hleft hc' hstage'
  | @leave c as bs hcalls hstage =>
    have hsub : (as ++ bs).Sublist l.calls := by
      rw [hcalls]
      exact (List.sublist_cons_self _ _).append_left as
    exact ⟨h.paths, h.locks, h.entry_lt, fun c' hc' => h.call_lt c' (hsub.subset hc'),
      fun c' hc' => h.entry c' (hsub.subset hc'),
      fun lock => Nat.le_trans hsub.countP_le (h.excludes lock)⟩

/-- **Paths and locks belong together whatever the calls do.** -/
theorem run {ms : List (Move κ)} (hrun : l.run ms = some l') : l'.IsSound := by
  induction ms generalizing l with
  | nil =>
    cases hrun
    exact h
  | cons m ms ih =>
    obtain ⟨l₁, hm, hms⟩ := Option.bind_eq_some_iff.1 hrun
    exact ih (h.step (step_of_move? hm)) hms

/-- One call works on a path at a time. -/
theorem countP_working (path : κ) :
    l.calls.countP (fun c => c.path = path ∧ c.stage = .working) ≤ 1 := by
  obtain hnone | ⟨c, hc, hworks⟩ :
      (∀ c ∈ l.calls, ¬ (c.path = path ∧ c.stage = .working)) ∨
        ∃ c ∈ l.calls, c.path = path ∧ c.stage = .working := by
    by_cases hsome : ∃ c ∈ l.calls, c.path = path ∧ c.stage = .working
    · exact .inr hsome
    · exact .inl fun c hc hworks => hsome ⟨c, hc, hworks⟩
  · rw [List.countP_eq_zero.2 fun c hc => by simpa using hnone c hc]
    exact Nat.zero_le 1
  · -- whoever works on the path has been given the lock of `c`
    refine Nat.le_trans (List.countP_mono_left fun c' hc' hworks' => ?_) (h.excludes c.lock)
    obtain ⟨hpath', hstage'⟩ := of_decide_eq_true hworks'
    have hlock : c'.lock = c.lock :=
      h.lock_eq_of_path_eq hc' hc (by simp [hstage']) (by simp [hworks.2])
        (hpath'.trans hworks.1.symm)
    simp [Call.worksWith, hlock, hstage']

end IsSound

/-- **Calls on one path never work at the same time**, and have one lock, whatever they do. -/
theorem exclusive_of_moves {ms : List (Move κ)} (h : idle.run ms = some l) :
    (∀ path, l.calls.countP (fun c => c.path = path ∧ c.stage = .working) ≤ 1) ∧
      ∀ c ∈ l.calls, ∀ c' ∈ l.calls, c.stage ≠ .leaving → c'.stage ≠ .leaving →
        c.path = c'.path → c.lock = c'.lock :=
  have hsound := IsSound.idle.run h
  ⟨hsound.countP_working, fun _ hc _ hc' => hsound.lock_eq_of_path_eq hc hc'⟩

/-! ## Paths leave the map -/

/-- No call has counted owners and kept its entry, and every path in the map is that of a call. -/
structure IsPruned (l : Locks κ) : Prop where
  stage : ∀ c ∈ l.calls, c.stage ≠ .leaving
  path : ∀ e ∈ l.entries, ∃ c ∈ l.calls, c.path = e.1

omit [DecidableEq κ] in
theorem IsPruned.idle : (idle : Locks κ).IsPruned :=
  ⟨List.forall_mem_nil _, List.forall_mem_nil _⟩

theorem IsPruned.enter (h : l.IsPruned) (path : κ) : (l.enter path).IsPruned := by
  rw [Locks.enter]
  split
  all_goals
    refine ⟨?_, fun e he => ?_⟩
    · simpa [or_imp, forall_and] using h.stage
  next n hn =>
    obtain ⟨c, hc, hpath⟩ := h.path e he
    exact ⟨c, List.mem_append_left _ hc, hpath⟩
  next hn =>
    obtain he | he := List.mem_append.1 he
    · obtain ⟨c, hc, hpath⟩ := h.path e he
      exact ⟨c, List.mem_append_left _ hc, hpath⟩
    · rw [List.mem_singleton.1 he]
      exact ⟨⟨path, l.next, .waiting⟩, by simp, rfl⟩

omit [DecidableEq κ] in
theorem IsPruned.change {stage : Stage} (h : l.IsPruned) (hcalls : l.calls = as ++ c :: bs)
    (hstage : stage ≠ .leaving) :
    ({ l with calls := as ++ { c with stage } :: bs } : Locks κ).IsPruned := by
  have hstages := h.stage
  have hpath := h.path
  rw [hcalls] at hstages hpath
  simp only [List.forall_mem_append, List.forall_mem_cons] at hstages
  refine ⟨?_, fun e he => ?_⟩
  · simp only [List.forall_mem_append, List.forall_mem_cons]
    exact ⟨hstages.1, hstage, hstages.2.2⟩
  · obtain ⟨c', hc', heq⟩ := hpath e he
    simp only [List.mem_append, List.mem_cons] at hc' ⊢
    obtain hc' | rfl | hc' := hc'
    exacts [⟨c', .inl hc', heq⟩, ⟨_, .inr (.inl rfl), heq⟩, ⟨c', .inr (.inr hc'), heq⟩]

/-- A path stays in the map only for another call on it. -/
theorem IsPruned.drop (h : l.IsPruned) (hsound : l.IsSound) (hcalls : l.calls = as ++ c :: bs) :
    ({ l.prune c with calls := as ++ bs } : Locks κ).IsPruned := by
  have hstage := h.stage
  have hpath := h.path
  rw [hcalls] at hstage hpath
  simp only [List.forall_mem_append, List.forall_mem_cons] at hstage
  refine ⟨List.forall_mem_append.2 ⟨hstage.1, hstage.2.2⟩, fun e he => ?_⟩
  obtain ⟨c', hc', heq⟩ := hpath e (entries_prune_sublist.subset he)
  obtain rfl | hother : c' = c ∨ c' ∈ as ++ bs := by
    simp only [List.mem_append, List.mem_cons] at hc' ⊢
    tauto
  · have howners := hsound.owners_eq hcalls hstage.2.1
    rw [prune] at he
    split_ifs at he with htwo
    · exact absurd heq.symm (by simpa using (List.mem_filter.1 he).2)
    · -- more than two owners: another call has the lock, and so it is on this path
      have hmore : 0 < (as ++ bs).countP fun c'' => c''.lock == c'.lock := by omega
      obtain ⟨c'', hc'', hlock⟩ := List.countP_pos_iff.1 hmore
      refine ⟨c'', hc'', ?_⟩
      have hmem : ∀ c ∈ as ++ bs, c ∈ l.calls := by
        rw [hcalls]
        exact ((List.sublist_cons_self _ _).append_left as).subset
      have hentry := hsound.entry c'' (hmem c'' hc'') (h.stage c'' (hmem c'' hc''))
      rw [beq_iff_eq.1 hlock] at hentry
      rw [← heq]
      exact hsound.path_eq hentry (hsound.entry c' (by rw [hcalls]; simp) hstage.2.1)
  · exact ⟨c', hother, heq⟩

theorem run_append (ms ms' : List (Move κ)) :
    l.run (ms ++ ms') = (l.run ms).bind fun l => l.run ms' := by
  induction ms generalizing l with
  | nil => rfl
  | cons m ms ih =>
    simp only [List.cons_append, run, Option.bind_assoc, ih]

/-- When entries are not dropped at once, two calls can each count the other and leave the path of
both in the map. -/
theorem exists_leak :
    idle.run [.enter (0 : Fin 1), .enter 0, .acquire 0, .release 0, .acquire 1, .release 1,
      .count 0, .count 1, .leave 1, .leave 0] = some ⟨[(0, 0)], [], 1⟩ := by
  decide

end Locks

end MarkupSync
