import MarkupSync.Attrs
import MarkupSync.Json.Read

/-!
# Records in JSON

A record is written as an object; it can also be read from the array of its values in order. Names
that a record does not have are passed over, but none of its own may be repeated.

* `Json.text?`, `Json.natural?`, `Json.list?`, `Json.attrs?`: the values of fields;
* `Record`, `Json.record?`: the fields of a record;
* `Json.variant?`: a value of a type with variants, which are told apart by the field `tag`;
* `Json.isPlain`: the values that variants are read from, which have to be understood as a whole
  before it is known what they are.
-/

namespace MarkupSync

namespace Json

/-! ## Values of fields -/

/-- A text as a value. -/
def ofText (s : Text) : Json := string (quote s)

/-- A natural number as a value. -/
def ofNat (n : Nat) : Json := number (digits n)

/-- A list as a value. -/
def ofList {α : Type} (f : α → Json) (as : List α) : Json := array (as.map f)

/-- A map as a value. -/
def ofAttrs (m : Attrs) : Json := object (m.entries.map fun e => (quote e.1, ofText e.2))

/-- A field of an object. -/
def entry (name : String) (j : Json) : Text × Json := (quote name.toList, j)

/-- A field of an object, unless it is empty. -/
def entryUnless (isEmpty : Bool) (name : String) (j : Json) : List (Text × Json) :=
  if isEmpty then [] else [entry name j]

/-- The text of a string. -/
def text? : Json → Option Text
  | string literal => unquote? literal
  | _ => none

/-- The value of a natural number. -/
def nat? : Json → Option Nat
  | number literal => natural? literal
  | _ => none

/-- The value of a truth value. -/
def bool? : Json → Option Bool
  | bool b => some b
  | _ => none

/-- The items of an array. -/
def list? {α : Type} (f : Json → Option α) : Json → Option (List α)
  | array items => items.mapM f
  | _ => none

/-- The entries of an object. -/
def entries? : Json → Option (List (Text × Json))
  | object entries => entries.mapM fun e => (unquote? e.1).map fun key => (key, e.2)
  | _ => none

/-- The map that an object of strings stands for; the last value of a name counts. -/
def attrs? (j : Json) : Option Attrs :=
  match j.entries? with
  | none => none
  | some entries =>
    (entries.mapM fun e => (text? e.2).map fun value => (e.1, value)).map Attrs.ofList

/-! ## Records -/

/-- The fields of a record as they are given, by name or in order. -/
structure Record where
  isOrdered : Bool
  fields : List (Text × Json)
  deriving Repr

/-- The fields of a record with these names. -/
def record? (names : List String) (j : Json) : Option Record :=
  let names := names.map String.toList
  match j with
  | array items => if items.length ≤ names.length then some ⟨true, names.zip items⟩ else none
  | j =>
    match j.entries? with
    | none => none
    | some entries =>
      let known := entries.filter fun e => names.contains e.1
      if (known.map Prod.fst).Nodup then some ⟨false, known⟩ else none

namespace Record

variable {α : Type}

/-- The value of a field that has to be given. -/
def required? (r : Record) (name : String) (f : Json → Option α) : Option α :=
  (r.fields.lookup name.toList).bind f

/-- The value of a field, or `value` if it is not given. -/
def orElse? (r : Record) (name : String) (f : Json → Option α) (value : α) : Option α :=
  match r.fields.lookup name.toList with
  | some j => f j
  | none => some value

/-- The value of a field that can be null. It need not be given by name, but it has its place. -/
def nullable? (r : Record) (name : String) (f : Json → Option α) : Option (Option α) :=
  match r.fields.lookup name.toList with
  | some null => some none
  | some j => (f j).map some
  | none => if r.isOrdered then none else some none

end Record

/-! ## Variants -/

/-- The levels of arrays and objects that are read before it is known what they are. -/
def maxDepth : Nat := 127

mutual

/-- Whether all strings have a text and all numbers can be read. -/
def isProper : Json → Bool
  | null | bool _ => true
  | number literal => isReadable literal
  | string literal => (unquote? literal).isSome
  | array items => allProper items
  | object entries => properEntries entries

/-- Whether all strings of the items have a text and all numbers can be read. -/
def allProper : List Json → Bool
  | [] => true
  | j :: js => j.isProper && allProper js

/-- Whether all strings of the entries have a text and all numbers can be read. -/
def properEntries : List (Text × Json) → Bool
  | [] => true
  | (key, j) :: es => (unquote? key).isSome && j.isProper && properEntries es

end

/-- Whether a value can be read before it is known what it is. -/
def isPlain (j : Json) : Bool := j.depth ≤ maxDepth && j.isProper

/-- The name of a variant; inside other values its number will do as well. -/
def variantName? (names : List String) (isInner : Bool) (j : Json) : Option String :=
  match j.text? with
  | some name => names.find? fun n => n.toList == name
  | none => if isInner then j.nat?.bind fun n => names[n]? else none

/-- The name of a variant and its fields: the field `tag` tells the variants apart; of an array it
is the first item. -/
def variant? (tag : String) (names : List String) (isInner : Bool) :
    Json → Option (String × Json)
  | array (first :: rest) => (variantName? names isInner first).map fun name => (name, array rest)
  | object entries =>
    match entries.filter fun e => unquote? e.1 == some tag.toList with
    | [(_, j)] =>
      (variantName? names isInner j).map fun name =>
        (name, object (entries.filter fun e => unquote? e.1 != some tag.toList))
    | _ => none
  | _ => none

end Json

end MarkupSync
