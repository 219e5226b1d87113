import MarkupSync.Lexeme.Basic
import MarkupSync.Text.Blank
import MarkupSync.Text.Search

/-!
# Sections of single-file components

A component is made of top-level `<template>`, `<script>` and `<style>` blocks.

* `SectionKind`, `Section`, `Sections`: the blocks of a file and their bytes;
* `Sections.split`: the first block of each kind. Templates nest; scripts and styles end at the
  first close tag;
* `Section.attribute?`: an attribute of a block's open tag.
-/

namespace MarkupSync

/-- A kind of block. -/
inductive SectionKind
  | template
  | script
  | style
  deriving Repr, DecidableEq

namespace SectionKind

/-- The tag of a block. -/
def tag : SectionKind → Text
  | template => "template".toList
  | script => "script".toList
  | style => "style".toList

/-- All kinds of blocks. -/
def all : List SectionKind := [template, script, style]

end SectionKind

/-- A block of a component. -/
structure Section where
  openTag : Span
  content : Span
  outer : Span
  deriving Repr, DecidableEq

/-- The first block of each kind. -/
structure Sections where
  template : Option Section
  script : Option Section
  style : Option Section
  deriving Repr, DecidableEq

namespace Sections

/-- The block of a kind. -/
def get? (s : Sections) : SectionKind → Option Section
  | .template => s.template
  | .script => s.script
  | .style => s.style

/-- Add a block, unless there is one of its kind. -/
def add (s : Sections) (kind : SectionKind) (found : Section) : Sections :=
  match kind with
  | .template => { s with template := s.template.or (some found) }
  | .script => { s with script := s.script.or (some found) }
  | .style => { s with style := s.style.or (some found) }

end Sections

namespace Section

/-- Whether the open tag of a kind of block starts here. -/
def opens (kind : SectionKind) (s : Text) : Bool :=
  match Text.afterWord? ('<' :: kind.tag) (Text.lower s) with
  | some (c :: _) => c == '>' || c == '/' || isBlank c
  | _ => false

/-- Whether the close tag of a kind of block starts here. -/
def closes (kind : SectionKind) (s : Text) : Bool :=
  Text.startsWith ('<' :: '/' :: kind.tag) (Text.lower s)

/-- The start of the next block outside comments: its kind, the text in front of it and the text
from it on. -/
def nextOpen? : Text → Option (SectionKind × Text × Text)
  | [] => none
  | c :: s =>
    if Text.startsWith ['<', '!', '-', '-'] (c :: s) then
      match _hc : Text.cut? ['-', '-', '>'] (c :: s) with
      | none => none
      | some (p, r) =>
        (nextOpen? r).map fun (kind, q, t) => (kind, p ++ ['-', '-', '>'] ++ q, t)
    else
      match SectionKind.all.find? (opens · (c :: s)) with
      | some kind => some (kind, [], c :: s)
      | none => (nextOpen? s).map fun (kind, q, t) => (kind, c :: q, t)
termination_by s => s.length
decreasing_by
  · have := congrArg List.length (Text.eq_of_cut?_eq_some _hc)
    simp only [List.length_append, List.length_cons, List.length_nil] at this ⊢
    omega
  · simp

/-- An open tag up to its end, and the text behind it; quoted values may contain the end sign. -/
def tagEnd? : Option Char → Text → Option (Text × Text)
  | _, [] => none
  | some q, c :: s => Text.extend [c] (tagEnd? (if c = q then none else some q) s)
  | none, c :: s =>
    if c = '>' then some ([c], s)
    else Text.extend [c] (tagEnd? (if c = '"' ∨ c = '\'' then some c else none) s)

/-- The content up to the close tag of a template, from inside `depth + 1` templates, and the text
from the close tag on. -/
def templateContent? (depth : Nat) : Text → Option (Text × Text)
  | [] => none
  | c :: s =>
    if closes .template (c :: s) then
      match depth with
      | 0 => some ([], c :: s)
      | depth + 1 => Text.extend [c] (templateContent? depth s)
    else if opens .template (c :: s) then Text.extend [c] (templateContent? (depth + 1) s)
    else Text.extend [c] (templateContent? depth s)

/-- The content up to the first close tag, and the text from it on. -/
def flatContent? (kind : SectionKind) : Text → Option (Text × Text)
  | [] => none
  | c :: s =>
    if closes kind (c :: s) then some ([], c :: s) else Text.extend [c] (flatContent? kind s)

/-- The content of a block, and the text from its close tag on. -/
def content? : SectionKind → Text → Option (Text × Text)
  | .template, s => templateContent? 0 s
  | kind, s => flatContent? kind s

/-- A close tag up to its end, or to the end of the text, and the text behind it. -/
def closeTag (s : Text) : Text × Text :=
  match Text.cut? ['>'] s with
  | some (p, r) => (p ++ ['>'], r)
  | none => (s, [])

/-- The block that starts at byte `start`, and the text behind it. -/
def readAt (kind : SectionKind) (start : Nat) (s : Text) : Except ParseError (Section × Text) :=
  match tagEnd? none s with
  | none => .error ⟨.openSectionTag kind.tag, start⟩
  | some (tag, r) =>
    let openStop := start + width tag
    if Text.endsWith ['/', '>'] tag then
      .ok (⟨⟨start, openStop⟩, ⟨openStop, openStop⟩, ⟨start, openStop⟩⟩, r)
    else
      match content? kind r with
      | none => .error ⟨.openSection kind.tag, start⟩
      | some (content, r) =>
        let stop := openStop + width content
        let (close, r) := closeTag r
        .ok (⟨⟨start, openStop⟩, ⟨openStop, stop⟩, ⟨start, stop + width close⟩⟩, r)

/-- The value of an attribute of a block's open tag, if it is written in quotes. -/
def attribute? (s : Section) (source name : Text) : Option Text :=
  match Text.cut? (name ++ ['=']) (source.at s.openTag) with
  | some (_, q :: rest) =>
    if q = '"' ∨ q = '\'' then (Text.cut? [q] rest).map Prod.fst else none
  | _ => none

theorem eq_of_tagEnd? {q : Option Char} {s p r : Text} (h : tagEnd? q s = some (p, r)) :
    s = p ++ r ∧ p ≠ [] := by
  fun_induction tagEnd? q s generalizing p with
  | case1 => cases h
  | case2 _ _ _ ih | case4 _ _ _ ih =>
    obtain ⟨p', h', rfl⟩ := Text.extend_eq_some.1 h
    simp [(ih h').1]
  | case3 =>
    obtain ⟨rfl, rfl⟩ := Prod.mk.inj (Option.some.inj h)
    simp

theorem eq_of_content? {kind : SectionKind} {s p r : Text} (h : content? kind s = some (p, r)) :
    s = p ++ r := by
  have template {depth s p r} (h : templateContent? depth s = some (p, r)) : s = p ++ r := by
    fun_induction templateContent? depth s generalizing p with
    | case1 => cases h
    | case2 =>
      obtain ⟨rfl, rfl⟩ := Prod.mk.inj (Option.some.inj h)
      rfl
    | case3 _ _ _ _ ih | case4 _ _ _ _ _ ih | case5 _ _ _ _ _ ih =>
      obtain ⟨p', h', rfl⟩ := Text.extend_eq_some.1 h
      simp [ih h']
  have flat {kind s p r} (h : flatContent? kind s = some (p, r)) : s = p ++ r := by
    fun_induction flatContent? kind s generalizing p with
    | case1 => cases h
    | case2 =>
      obtain ⟨rfl, rfl⟩ := Prod.mk.inj (Option.some.inj h)
      rfl
    | case3 _ _ _ ih =>
      obtain ⟨p', h', rfl⟩ := Text.extend_eq_some.1 h
      simp [ih h']
  cases kind with
  | template => exact template h
  | script | style => exact flat h

theorem closeTag_append (s : Text) : (closeTag s).1 ++ (closeTag s).2 = s := by
  unfold closeTag
  split
  next p r h => simp [Text.eq_of_cut?_eq_some h]
  next => simp

theorem length_of_readAt {kind : SectionKind} {start : Nat} {s r : Text} {found : Section}
    (h : readAt kind start s = .ok (found, r)) : r.length < s.length := by
  simp only [readAt] at h
  split at h
  · cases h
  next tag t ht =>
    obtain ⟨he, hn⟩ := eq_of_tagEnd? ht
    have hl := congrArg List.length he
    have := List.length_pos_iff.2 hn
    rw [List.length_append] at hl
    split at h
    · cases h; omega
    · split at h
      · cases h
      next content u hu =>
        cases h
        have h1 := congrArg List.length (eq_of_content? hu)
        have h2 := congrArg List.length (closeTag_append u)
        rw [List.length_append] at h1 h2
        omega

theorem length_of_nextOpen? {s p r : Text} {kind : SectionKind}
    (h : nextOpen? s = some (kind, p, r)) : r.length ≤ s.length := by
  fun_induction nextOpen? s generalizing p with
  | case1 | case2 => cases h
  | case3 c r' _ p' r'' hc ih =>
    simp only [Option.map_eq_some_iff, Prod.mk.injEq] at h
    obtain ⟨⟨k, q, t⟩, ht, rfl, rfl, rfl⟩ := h
    have h1 := congrArg List.length (Text.eq_of_cut?_eq_some hc)
    have h2 := ih ht
    rw [List.length_append] at h1
    omega
  | case4 => cases h; exact Nat.le_refl _
  | case5 c s _ _ ih =>
    simp only [Option.map_eq_some_iff, Prod.mk.injEq] at h
    obtain ⟨⟨k, q, t⟩, ht, rfl, rfl, rfl⟩ := h
    exact Nat.le_succ_of_le (ih ht)

end Section

namespace Sections

/-- The blocks of a text that starts at byte `start`, behind those found before. -/
def splitAt (start : Nat) (found : Sections) (s : Text) : Except ParseError Sections :=
  match _hn : Section.nextOpen? s with
  | none => .ok found
  | some (kind, skipped, rest) =>
    match _hr : Section.readAt kind (start + width skipped) rest with
    | .error e => .error e
    | .ok (block, rest) => splitAt block.outer.stop (found.add kind block) rest
termination_by s.length
decreasing_by
  exact Nat.lt_of_lt_of_le (Section.length_of_readAt _hr) (Section.length_of_nextOpen? _hn)

/-- The first block of each kind; any block without an end is an error. -/
def split (source : Text) : Except ParseError Sections := splitAt 0 ⟨none, none, none⟩ source

end Sections

end MarkupSync
