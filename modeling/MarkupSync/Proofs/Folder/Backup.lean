import Mathlib.Data.List.Basic
import MarkupSync.Folder.Writer
import MarkupSync.Proofs.Text.Indent

/-!
# Backups

Writes may keep what a file had in its backup, and somebody else may write or delete the file
between them. A backup that is not kept stays as it was, so a restore does not always undo the last
write.

* `Path.steps_backup_ne`: a backup is not where its file is;
* `Folder.SameFolders`, `Folder.Holds`: files come and go in folders that stay;
* `Folder.Holds.save`, `Folder.Holds.restore`: one write and one restore;
* `FileEvent`, `Folder.after`: what can happen to a file;
* `Folder.LastKept`: what the last write that kept a backup kept;
* `Folder.Holds.read?_backup_after`: this is in the backup;
* **`Folder.restore_undoes_iff`**: a restore puts it back, and it undoes the last write exactly if
  that write kept a backup or the backup had the same content before.
-/

namespace MarkupSync

/-! ## Where a backup is -/

namespace Path

theorem steps_eq (path : Text) :
    steps path = (Text.fields (· == '/') path).filter fun w => w != ['.'] && w != [] := by
  rw [steps, components]
  cases Text.fields (· == '/') path with
  | nil => rfl
  | cons first rest =>
    have hrest : (rest.filter fun w => w != [] && w != ['.']).filter (· != ['.']) =
        rest.filter fun w => w != ['.'] && w != [] := by
      rw [List.filter_filter]
      refine List.filter_congr fun w _ => ?_
      cases w != ['.'] <;> simp
    simp only [List.filter_append, hrest]
    by_cases hnil : first = []
    · simp [hnil]
    · by_cases hdot : first = ['.'] <;> simp [hnil, hdot]

/-- What is put behind a path without a slash is put behind its last field. -/
theorem exists_fields_append {t : Text} (ht : ∀ c ∈ t, (c == '/') = false) (path : Text) :
    ∃ ws w, Text.fields (· == '/') path = ws ++ [w] ∧
      Text.fields (· == '/') (path ++ t) = ws ++ [w ++ t] := by
  induction path with
  | nil =>
    refine ⟨[], [], rfl, ?_⟩
    have h := fields_append ht (s := []) rfl
    rwa [List.append_nil] at h
  | cons c path ih =>
    obtain ⟨ws, w, hpath, happend⟩ := ih
    rw [List.cons_append, Text.fields, Text.fields, hpath, happend]
    split_ifs with hc
    · exact ⟨[] :: ws, w, rfl, rfl⟩
    · cases ws with
      | nil => exact ⟨[], c :: w, rfl, rfl⟩
      | cons v ws => exact ⟨(c :: v) :: ws, w, rfl, rfl⟩

/-- A backup is not where its file is. -/
theorem steps_backup_ne (path : Text) : steps (backup path) ≠ steps path := by
  obtain ⟨ws, w, hpath, hbackup⟩ := exists_fields_append (t := ".backup".toList) (by simp) path
  rw [steps_eq, steps_eq, backup, hpath, hbackup, List.filter_append, List.filter_append]
  intro h
  have hlen := congrArg (List.length ∘ List.flatten) (List.append_cancel_left h)
  have hkept : [w ++ ".backup".toList].filter (fun w => w != ['.'] && w != []) =
      [w ++ ".backup".toList] := by
    cases w <;> simp
  rw [hkept] at hlen
  by_cases hw : w = ['.'] ∨ w = []
  · obtain rfl | rfl := hw <;> simp at hlen
  · push Not at hw
    simp [hw] at hlen

end Path

namespace Folder

variable {f g : Folder} {path content old : Text} {s t : List Text} {backup : Bool}

/-! ## Files in a folder -/

theorem lookup_filter_ne (items : List (List Text × Item)) (s t : List Text) :
    (items.filter fun e => e.1 != s).lookup t = if t = s then none else items.lookup t := by
  induction items with
  | nil => simp
  | cons e items ih =>
    obtain ⟨u, item⟩ := e
    by_cases hu : u = s
    · rw [List.filter_cons_of_neg (by simp [hu]), ih, List.lookup_cons]
      split_ifs with ht
      · rfl
      · rw [beq_eq_false_iff_ne.2 (by rwa [hu])]
    · rw [List.filter_cons_of_pos (by simpa using hu), List.lookup_cons, List.lookup_cons, ih]
      by_cases htu : t = u
      · simp [htu, hu]
      · simp [beq_eq_false_iff_ne.2 htu]

theorem lookup_put (f : Folder) (s t : List Text) (item : Item) :
    (f.put s item).items.lookup t = if t = s then some item else f.items.lookup t := by
  rw [put, List.lookup_cons, lookup_filter_ne]
  by_cases ht : t = s
  · simp [ht]
  · simp [ht, beq_eq_false_iff_ne.2 ht]

/-- Two states of a folder have the same folders in them. -/
def SameFolders (f g : Folder) : Prop :=
  ∀ t, g.items.lookup t = some .folder ↔ f.items.lookup t = some .folder

theorem SameFolders.admits (h : f.SameFolders g) (path : Text) : g.admits path = f.admits path := by
  rw [Folder.admits, Folder.admits, Bool.eq_iff_iff]
  simp only [get?, Bool.and_eq_true, bne_iff_ne, beq_iff_eq, ne_eq, h _]

theorem sameFolders_put (hs : f.items.lookup s ≠ some .folder) :
    f.SameFolders (f.put s (.file content)) := by
  intro t
  rw [lookup_put]
  split_ifs with ht
  · rw [ht]
    exact iff_of_false nofun hs
  · rfl

theorem sameFolders_remove (hs : f.get? path ≠ some .folder) : f.SameFolders (f.remove path) := by
  intro t
  rw [remove, lookup_filter_ne]
  split_ifs with ht
  · rw [ht]
    exact iff_of_false nofun hs
  · rfl

/-- A file and its backup can be in a folder: neither is a folder, and both lie in one. -/
structure Holds (f : Folder) (path : Text) : Prop where
  file : f.admits path = true
  backup : f.admits (Path.backup path) = true

theorem SameFolders.holds (h : f.SameFolders g) (hf : f.Holds path) : g.Holds path :=
  ⟨(h.admits _).trans hf.file, (h.admits _).trans hf.backup⟩

theorem get?_ne_folder (h : f.admits path = true) : f.get? path ≠ some .folder :=
  bne_iff_ne.1 (Bool.and_eq_true_iff.1 h).1

/-- The file `path` has another content. -/
def putFile (f : Folder) (path content : Text) : Folder := f.put (Path.steps path) (.file content)

theorem write?_eq (h : f.admits path = true) (content : Text) :
    f.write? path content = some (f.putFile path content) := by
  rw [write?, if_pos h, putFile]

theorem sameFolders_putFile (h : f.admits path = true) : f.SameFolders (f.putFile path content) :=
  sameFolders_put (get?_ne_folder h)

theorem read?_putFile {p q : Text} : (f.putFile p content).read? q =
    if Path.steps q = Path.steps p then some content else f.read? q := by
  rw [read?, get?, putFile, lookup_put]
  split_ifs <;> rfl

theorem read?_remove {p q : Text} : (f.remove p).read? q =
    if Path.steps q = Path.steps p then none else f.read? q := by
  rw [read?, get?, remove, lookup_filter_ne]
  split_ifs <;> rfl

/-! ## One write and one restore -/

/-- The backup gets what the file had, if the file is there. -/
theorem Holds.keepBackup (hf : f.Holds path) :
    f.SameFolders (f.keepBackup path) ∧
      (f.keepBackup path).read? (Path.backup path) =
        (f.read? path).or (f.read? (Path.backup path)) := by
  rw [Folder.keepBackup, copy?]
  cases hread : f.read? path with
  | none => exact ⟨fun _ => Iff.rfl, rfl⟩
  | some old =>
    simp only [write?_eq hf.backup, Option.getD_some]
    exact ⟨sameFolders_putFile hf.backup, by rw [read?_putFile, if_pos rfl]; rfl⟩

/-- A write succeeds. The backup gets what the file had if it is to be kept and the file is there,
and stays as it was otherwise. -/
theorem Holds.save (hf : f.Holds path) (content : Text) (backup : Bool) :
    let o := f.save path content backup
    o.error = none ∧ f.SameFolders o.state ∧ o.state.read? path = some content ∧
      o.state.read? (Path.backup path) =
        (if backup then f.read? path else none).or (f.read? (Path.backup path)) := by
  obtain ⟨hsame, hread⟩ : f.SameFolders (if backup then f.keepBackup path else f) ∧
      (if backup then f.keepBackup path else f).read? (Path.backup path) =
        (if backup then f.read? path else none).or (f.read? (Path.backup path)) := by
    cases backup with
    | false => exact ⟨fun _ => Iff.rfl, rfl⟩
    | true => exact hf.keepBackup
  simp only [Folder.save]
  generalize (if backup then f.keepBackup path else f) = g at hsame hread ⊢
  have hg := (hsame.holds hf).file
  simp only [write?_eq hg]
  refine ⟨trivial, fun t => (sameFolders_putFile hg t).trans (hsame t), ?_, ?_⟩
  · rw [read?_putFile, if_pos rfl]
  · rw [read?_putFile, if_neg (Path.steps_backup_ne path), hread]

theorem Holds.has_backup (hf : f.Holds path) :
    f.has (Path.backup path) = (f.read? (Path.backup path)).isSome := by
  have hne := get?_ne_folder hf.backup
  rw [has, read?]
  cases hget : f.get? (Path.backup path) with
  | none => rfl
  | some item =>
    cases item with
    | file content => rfl
    | folder => exact absurd hget hne

/-- A restore moves the backup to the place of the file. -/
theorem Holds.restore (hf : f.Holds path) (hold : f.read? (Path.backup path) = some old) :
    let o := f.restore path
    o.error = none ∧ f.SameFolders o.state ∧ o.state.read? path = some old ∧
      o.state.read? (Path.backup path) = none := by
  have hsame : f.SameFolders (f.putFile path old) := sameFolders_putFile hf.file
  rw [Folder.restore, hf.has_backup, hold]
  simp only [copy?, hold, write?_eq hf.file, Option.isSome_some, if_true]
  refine ⟨trivial, fun t => ?_, ?_, ?_⟩
  · exact (sameFolders_remove (get?_ne_folder (hsame.holds hf).backup) t).trans (hsame t)
  · rw [read?_remove, if_neg (Path.steps_backup_ne path).symm, read?_putFile, if_pos rfl]
  · rw [read?_remove, if_pos rfl]

/-- Without a backup there is nothing to restore. -/
theorem Holds.restore_of_none (hf : f.Holds path) (hnone : f.read? (Path.backup path) = none) :
    f.restore path = ⟨f, some (.noBackup path)⟩ := by
  rw [Folder.restore, hf.has_backup, hnone]
  rfl

end Folder

/-! ## Histories -/

/-- What happens to a file. -/
inductive FileEvent
  | write (content : Text) (backup : Bool)
  | restore
  /-- Somebody else writes the file, or deletes it. -/
  | change (content : Option Text)

namespace Folder

variable {f : Folder} {path old : Text} {e : FileEvent} {es : List FileEvent}

/-- The folder after an event. -/
def next (f : Folder) (path : Text) : FileEvent → Folder
  | .write content backup => (f.save path content backup).state
  | .restore => (f.restore path).state
  | .change (some content) => (f.write? path content).getD f
  | .change none => f.remove path

/-- The folder after events one after another. -/
def after (f : Folder) (path : Text) (es : List FileEvent) : Folder :=
  es.foldl (fun f e => f.next path e) f

theorem after_append (f : Folder) (path : Text) (es es' : List FileEvent) :
    f.after path (es ++ es') = (f.after path es).after path es' := List.foldl_append

theorem after_concat (f : Folder) (path : Text) (es : List FileEvent) (e : FileEvent) :
    f.after path (es ++ [e]) = (f.after path es).next path e := after_append f path es [e]

theorem Holds.next (hf : f.Holds path) (e : FileEvent) : (f.next path e).Holds path := by
  cases e with
  | write content backup => exact (hf.save content backup).2.1.holds hf
  | restore =>
    cases hold : f.read? (Path.backup path) with
    | none =>
      rw [Folder.next, hf.restore_of_none hold]
      exact hf
    | some old => exact (hf.restore hold).2.1.holds hf
  | change content =>
    cases content with
    | none => exact (sameFolders_remove (get?_ne_folder hf.file)).holds hf
    | some content =>
      rw [Folder.next, write?_eq hf.file]
      exact (sameFolders_putFile hf.file).holds hf

/-- The folders stay, whatever happens to the file. -/
theorem Holds.after (hf : f.Holds path) (es : List FileEvent) : (f.after path es).Holds path := by
  induction es generalizing f with
  | nil => exact hf
  | cons e es ih => exact ih (hf.next e)

/-- Whether an event changes the backup: a restore removes it, and a write keeps what the file has
if it is asked to and the file is there. -/
def Touches (f : Folder) (path : Text) : FileEvent → Prop
  | .write _ backup => backup = true ∧ f.read? path ≠ none
  | .restore => True
  | .change _ => False

/-- The backup is left alone by all that happens. -/
def Spares (f : Folder) (path : Text) : List FileEvent → Prop
  | [] => True
  | e :: es => ¬ f.Touches path e ∧ (f.next path e).Spares path es

/-- What the last write that kept a backup kept, if there has been no restore since; without such a
write it is the backup that was there before. -/
def LastKept (f : Folder) (path : Text) (es : List FileEvent) (old : Text) : Prop :=
  (∃ before content between, es = before ++ .write content true :: between ∧
    (f.after path before).read? path = some old ∧
    (f.after path (before ++ [.write content true])).Spares path between) ∨
  f.read? (Path.backup path) = some old ∧ f.Spares path es

/-- What is left alone stays. -/
theorem Holds.read?_backup_next (hf : f.Holds path) (he : ¬ f.Touches path e) :
    (f.next path e).read? (Path.backup path) = f.read? (Path.backup path) := by
  cases e with
  | write content backup =>
    refine (hf.save content backup).2.2.2.trans ?_
    rw [Touches, not_and, not_not] at he
    cases backup with
    | false => rfl
    | true => rw [if_pos rfl, he rfl, Option.none_or]
  | restore => exact absurd trivial he
  | change content =>
    cases content with
    | none => rw [Folder.next, read?_remove, if_neg (Path.steps_backup_ne path)]
    | some content =>
      rw [Folder.next, write?_eq hf.file, Option.getD_some, read?_putFile,
        if_neg (Path.steps_backup_ne path)]

theorem Holds.read?_backup_of_spares (hf : f.Holds path) (hes : f.Spares path es) :
    (f.after path es).read? (Path.backup path) = f.read? (Path.backup path) := by
  induction es generalizing f with
  | nil => rfl
  | cons e es ih => exact (ih (hf.next e) hes.2).trans (hf.read?_backup_next hes.1)

/-- **The backup is what the last write that kept one kept**, if there has been no restore since. -/
theorem Holds.read?_backup_after (hf : f.Holds path) (es : List FileEvent) (old : Text) :
    (f.after path es).read? (Path.backup path) = some old ↔ f.LastKept path es old := by
  constructor
  · intro h
    induction es generalizing f with
    | nil => exact .inr ⟨h, trivial⟩
    | cons e es ih =>
      obtain ⟨before, content, between, rfl, hold, hspares⟩ | ⟨hold, hspares⟩ := ih (hf.next e) h
      · exact .inl ⟨e :: before, content, between, rfl, hold, hspares⟩
      · by_cases he : f.Touches path e
        · cases e with
          | write content backup =>
            obtain ⟨rfl, hfile⟩ := he
            obtain ⟨kept, hkept⟩ := Option.ne_none_iff_exists'.1 hfile
            have hbackup := (hf.save content true).2.2.2.symm.trans hold
            rw [if_pos rfl, hkept, Option.some_or] at hbackup
            cases hbackup
            exact .inl ⟨[], content, es, rfl, hkept, hspares⟩
          | restore =>
            have hnone : (f.next path .restore).read? (Path.backup path) = none := by
              cases hb : f.read? (Path.backup path) with
              | none => rwa [Folder.next, hf.restore_of_none hb]
              | some b => exact (hf.restore hb).2.2.2
            rw [hnone] at hold
            cases hold
          | change content => exact he.elim
        · exact .inr ⟨(hf.read?_backup_next he).symm.trans hold, he, hspares⟩
  · rintro (⟨before, content, between, rfl, hold, hspares⟩ | ⟨hold, hspares⟩)
    · have hg := hf.after before
      rw [List.append_cons, after_append, (hf.after _).read?_backup_of_spares hspares, after_concat]
      refine (hg.save content true).2.2.2.trans ?_
      rw [if_pos rfl, hold, Option.some_or]
    · exact (hf.read?_backup_of_spares hspares).trans hold

/-- **A restore succeeds exactly if there is a backup, and puts back what the last write that kept
one kept.** If the most recent write kept none, this is what the backup had before that write, so
the most recent write is undone exactly if it kept a backup or the backup had that content already.
-/
theorem restore_undoes_iff (hf : f.Holds path) (es : List FileEvent) :
    let o := (f.after path es).restore path
    (o.error = none ↔ ∃ old, f.LastKept path es old) ∧
      (∀ old, f.LastKept path es old →
        o.state.read? path = some old ∧ o.state.read? (Path.backup path) = none) ∧
      ∀ before content backup between, es = before ++ .write content backup :: between →
        (∀ content backup, .write content backup ∉ between) → o.error = none →
        let g := f.after path before
        (o.state.read? path = if backup = true ∧ g.read? path ≠ none then g.read? path
          else g.read? (Path.backup path)) ∧
        (o.state.read? path = g.read? path ↔ (backup = true ∧ g.read? path ≠ none) ∨
          g.read? (Path.backup path) = g.read? path) := by
  have hkept := hf.read?_backup_after es
  have hsuccess :
      ((f.after path es).restore path).error = none ↔ ∃ old, f.LastKept path es old := by
    cases hb : (f.after path es).read? (Path.backup path) with
    | none =>
      rw [(hf.after es).restore_of_none hb]
      refine ⟨nofun, fun ⟨old, h⟩ => ?_⟩
      rw [← hkept, hb] at h
      cases h
    | some old => exact ⟨fun _ => ⟨old, (hkept old).1 hb⟩, fun _ => ((hf.after es).restore hb).1⟩
  refine ⟨hsuccess, fun old h => ?_, ?_⟩
  · obtain ⟨-, -, hfile, hnone⟩ := (hf.after es).restore ((hkept old).2 h)
    exact ⟨hfile, hnone⟩
  rintro before content backup between rfl hlast herror
  obtain ⟨old, hold⟩ := hsuccess.1 herror
  have hbackup := (hkept old).2 hold
  have hfile := ((hf.after _).restore hbackup).2.2.1
  have hg := hf.after before
  -- nothing behind the last write touches the backup that it leaves
  have hwritten : (if backup then (f.after path before).read? path else none).or
      ((f.after path before).read? (Path.backup path)) = some old := by
    rw [List.append_cons, after_append] at hbackup
    obtain ⟨as, c, bs, rfl, -⟩ | ⟨h, -⟩ := ((hf.after _).read?_backup_after _ _).1 hbackup
    · exact absurd (List.mem_append_right as List.mem_cons_self) (hlast c true)
    · rw [after_concat] at h
      exact (hg.save content backup).2.2.2.symm.trans h
  have hif : some old = if backup = true ∧ (f.after path before).read? path ≠ none then
      (f.after path before).read? path else (f.after path before).read? (Path.backup path) := by
    rw [← hwritten]
    cases backup <;> cases (f.after path before).read? path <;> simp
  refine ⟨hfile.trans hif, ?_⟩
  rw [hfile, hif]
  split_ifs with h
  · exact iff_of_true rfl (.inl h)
  · exact ⟨.inr, fun h' => h'.resolve_left h⟩

/-- The second write keeps what the first one wrote. -/
theorem restore_undoes_iff_two_writes :
    let path := "a.html".toList
    let es := [FileEvent.write "0".toList false, .write "1".toList true]
    Folder.empty.Holds path ∧
      ((Folder.empty.after path es).restore path).error = none ∧
      ((Folder.empty.after path es).restore path).state.read? path = some "0".toList := by
  intro path es
  have hf : Folder.empty.Holds path := ⟨by decide, by decide⟩
  obtain ⟨hsuccess, hrestored, -⟩ := restore_undoes_iff hf es
  have hkept : Folder.empty.LastKept path es "0".toList :=
    .inl ⟨[.write "0".toList false], "1".toList, [], rfl, by decide, trivial⟩
  exact ⟨hf, hsuccess.2 ⟨_, hkept⟩, (hrestored _ hkept).1⟩

/-- A third write that keeps nothing is not undone: the file has the content from before the second
write again. -/
theorem not_restore_undoes :
    let path := "a.html".toList
    let before := [FileEvent.write "0".toList false, .write "1".toList true]
    let o := (Folder.empty.after path (before ++ [.write "2".toList false])).restore path
    Folder.empty.Holds path ∧ o.error = none ∧
      (Folder.empty.after path before).read? path = some "1".toList ∧
      o.state.read? path = some "0".toList := by
  intro path before o
  exact ⟨⟨by decide, by decide⟩, by decide, by decide, by decide⟩

end Folder

end MarkupSync
