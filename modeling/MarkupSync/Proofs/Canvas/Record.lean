import Mathlib.Data.List.InsertIdx
import MarkupSync.Canvas.Patch

/-!
# Records of a canvas

A node has three parts: what it is, its parent and its children.

* `Canvas.get?_congr`: nodes that agree in the three are the same;
* `Canvas.isSignificant_congr`: what a node is tells whether it stands for a node of the document;
* `Canvas.data?_link`, `Canvas.parent?_unlink`, …: the three parts after a change of a canvas.
-/

namespace MarkupSync.Canvas

variable {c c' : Canvas} {x y : NodeId}

/-- What a node is. -/
def data? (c : Canvas) (id : NodeId) : Option LiveData := (c.get? id).map LiveNode.data

theorem get?_eq_none_iff : c.get? x = none ↔ c.nodes.length ≤ x := List.getElem?_eq_none_iff

theorem data?_eq_none_iff : c.data? x = none ↔ c.nodes.length ≤ x := by
  rw [data?, Option.map_eq_none_iff, get?_eq_none_iff]

theorem lt_of_data? {data : LiveData} (h : c.data? x = some data) : x < c.nodes.length :=
  Nat.lt_of_not_le fun hx => nomatch h.symm.trans (data?_eq_none_iff.2 hx)

theorem lt_of_parent? (h : c.parent? y = some x) : y < c.nodes.length := by
  refine Nat.lt_of_not_le fun hy => ?_
  rw [parent?, get?_eq_none_iff.2 hy] at h
  cases h

theorem lt_of_mem_children (h : y ∈ c.children x) : x < c.nodes.length := by
  refine Nat.lt_of_not_le fun hx => ?_
  rw [children, get?_eq_none_iff.2 hx] at h
  cases h

theorem known_of_lt (h : x < c.nodes.length) : c.known x = .ok () := by
  rw [known, if_pos]
  simpa [get?] using h

/-- Nodes that agree in what they are, in their parents and in their children are the same. -/
theorem known_of_le (h : c.nodes.length ≤ x) : c.known x = .error (.unknownNode x) := by
  rw [known, get?_eq_none_iff.2 h]
  rfl

theorem get?_congr (hd : c'.data? x = c.data? x) (hp : c'.parent? x = c.parent? x)
    (hc : c'.children x = c.children x) : c'.get? x = c.get? x := by
  rw [data?, data?] at hd
  rw [parent?, parent?] at hp
  rw [children, children] at hc
  cases h : c.get? x with
  | none => cases h' : c'.get? x with
    | none => rfl
    | some m => simp [h, h'] at hd
  | some n => cases h' : c'.get? x with
    | none => simp [h, h'] at hd
    | some m =>
      obtain ⟨data, p, cs⟩ := n
      obtain ⟨data', p', cs'⟩ := m
      simp_all

theorem data?_congr (h : c'.get? x = c.get? x) : c'.data? x = c.data? x := by rw [data?, data?, h]

theorem parent?_congr (h : c'.get? x = c.get? x) : c'.parent? x = c.parent? x := by
  rw [parent?, parent?, h]

theorem children_congr (h : c'.get? x = c.get? x) : c'.children x = c.children x := by
  rw [children, children, h]

/-! ## What a node stands for -/

variable {d : Decoration}

theorem exists_get? {data : LiveData} (h : c.data? x = some data) :
    ∃ p cs, c.get? x = some ⟨data, p, cs⟩ := by
  obtain ⟨n, hn, rfl⟩ := Option.map_eq_some_iff.1 h
  exact ⟨n.parent, n.children, hn⟩

theorem isElement_of_data? {tag : Text} {as : Attrs} (h : c.data? x = some (.element tag as)) :
    c.isElement x = true := by
  obtain ⟨p, cs, h⟩ := exists_get? h
  simp [isElement, h]

theorem isElement_text {s : Text} (h : c.data? x = some (.text s)) : c.isElement x = false := by
  obtain ⟨p, cs, h⟩ := exists_get? h
  simp [isElement, h]

theorem attributes_of_data? {tag : Text} {as : Attrs} (h : c.data? x = some (.element tag as)) :
    c.attributes x = as := by
  obtain ⟨p, cs, h⟩ := exists_get? h
  simp [attributes, h]

theorem isDecoration_of_data? {tag : Text} {as : Attrs} (h : c.data? x = some (.element tag as)) :
    c.isDecoration d x = d.marks as := by
  rw [isDecoration, isElement_of_data? h, attributes_of_data? h, Bool.true_and]

theorem exists_of_isDecoration {data : LiveData} (hx : c.data? x = some data)
    (h : c.isDecoration d x = true) :
    ∃ tag as, c.data? x = some (.element tag as) ∧ d.marks as = true := by
  cases data with
  | element tag as => exact ⟨tag, as, hx, (isDecoration_of_data? hx).symm.trans h⟩
  | text | comment =>
    obtain ⟨p, cs, hget⟩ := exists_get? hx
    simp [isDecoration, isElement, hget] at h

theorem isSignificant_element {tag : Text} {as : Attrs} (h : c.data? x = some (.element tag as)) :
    c.isSignificant d x = !d.marks as := by
  rw [← isDecoration_of_data? h]
  obtain ⟨p, cs, h⟩ := exists_get? h
  simp [isSignificant, h]

theorem isSignificant_text {s : Text} (h : c.data? x = some (.text s)) :
    c.isSignificant d x = !s.all isSpace := by
  obtain ⟨p, cs, h⟩ := exists_get? h
  simp [isSignificant, h]

theorem isSignificant_comment {s : Text} (h : c.data? x = some (.comment s)) :
    c.isSignificant d x = false := by
  obtain ⟨p, cs, h⟩ := exists_get? h
  simp [isSignificant, h]

theorem get?_cases (h : c'.data? x = c.data? x) : c'.get? x = none ∧ c.get? x = none ∨
    ∃ data p cs q ds, c'.get? x = some ⟨data, p, cs⟩ ∧ c.get? x = some ⟨data, q, ds⟩ := by
  cases hd : c.data? x with
  | none =>
    rw [hd] at h
    exact .inl ⟨Option.map_eq_none_iff.1 h, Option.map_eq_none_iff.1 hd⟩
  | some data =>
    obtain ⟨p, cs, h'⟩ := exists_get? (h.trans hd)
    obtain ⟨q, ds, hd⟩ := exists_get? hd
    exact .inr ⟨data, p, cs, q, ds, h', hd⟩

theorem isElement_congr (h : c'.data? x = c.data? x) : c'.isElement x = c.isElement x := by
  obtain ⟨h', h⟩ | ⟨data, p, cs, q, ds, h', h⟩ := get?_cases h <;> simp [isElement, h', h]

theorem attributes_congr (h : c'.data? x = c.data? x) : c'.attributes x = c.attributes x := by
  obtain ⟨h', h⟩ | ⟨data, p, cs, q, ds, h', h⟩ := get?_cases h
  · simp [attributes, h', h]
  · cases data <;> simp [attributes, h', h]

theorem isDecoration_congr (h : c'.data? x = c.data? x) :
    c'.isDecoration d x = c.isDecoration d x := by
  rw [isDecoration, isDecoration, isElement_congr h, attributes_congr h]

/-- What a node is tells whether it stands for a node of the document. -/
theorem isSignificant_congr (h : c'.data? x = c.data? x) :
    c'.isSignificant d x = c.isSignificant d x := by
  have hd := isDecoration_congr (d := d) h
  obtain ⟨h', h⟩ | ⟨data, p, cs, q, ds, h', h⟩ := get?_cases h
  · simp [isSignificant, h', h, hd]
  · cases data <;> simp [isSignificant, h', h, hd]

/-- What stands for a node of the document is no decoration. -/
theorem isDecoration_of_isSignificant (h : c.isSignificant d x = true) :
    c.isDecoration d x = false := by
  rw [isSignificant] at h
  split at h
  · cases h
  next hget => simp [isDecoration, isElement, hget]
  · simpa using h

theorem significant_congr (hc : c'.children x = c.children x)
    (hd : ∀ y ∈ c.children x, c'.data? y = c.data? y) : c'.significant d x = c.significant d x := by
  rw [significant, significant, hc]
  exact List.filter_congr fun y hy => isSignificant_congr (hd y hy)

theorem mem_significant : y ∈ c.significant d x ↔ y ∈ c.children x ∧ c.isSignificant d y = true :=
  List.mem_filter

/-! ## Records after a change -/

theorem get?_modify (c : Canvas) (x : NodeId) (f : LiveNode → LiveNode) (y : NodeId) :
    (c.modify x f).get? y = if y = x then (c.get? x).map f else c.get? y := by
  rw [get?, get?, get?, modify, List.getElem?_modify]
  by_cases h : y = x
  · subst h; simp
  · simp [h, Ne.symm h]

@[simp] theorem length_modify (c : Canvas) (x : NodeId) (f : LiveNode → LiveNode) :
    (c.modify x f).nodes.length = c.nodes.length := List.length_modify ..

section Modify

variable {f : LiveNode → LiveNode} (c : Canvas) (x y : NodeId)

theorem data?_modify (hf : ∀ n, (f n).data = n.data) : (c.modify x f).data? y = c.data? y := by
  rw [data?, data?, get?_modify]
  split_ifs with h
  · subst h
    cases c.get? y <;> simp [hf]
  · rfl

theorem parent?_modify (hf : ∀ n, (f n).parent = n.parent) :
    (c.modify x f).parent? y = c.parent? y := by
  rw [parent?, parent?, get?_modify]
  split_ifs with h
  · subst h
    cases c.get? y <;> simp [hf]
  · rfl

theorem children_modify (hf : ∀ n, (f n).children = n.children) :
    (c.modify x f).children y = c.children y := by
  rw [children, children, get?_modify]
  split_ifs with h
  · subst h
    cases c.get? y <;> simp [hf]
  · rfl

end Modify

/-- Another content for a node. -/
def setData (c : Canvas) (x : NodeId) (data : LiveData) : Canvas :=
  c.modify x fun n => { n with data := data }

theorem data?_setData {data : LiveData} (hx : x < c.nodes.length) :
    (c.setData x data).data? y = if y = x then some data else c.data? y := by
  rw [data?, setData, get?_modify]
  split_ifs with h
  · simp [get?, hx]
  · rfl

@[simp] theorem parent?_setData (data : LiveData) :
    (c.setData x data).parent? y = c.parent? y := parent?_modify c x y fun _ => rfl

@[simp] theorem children_setData (data : LiveData) :
    (c.setData x data).children y = c.children y := children_modify c x y fun _ => rfl

@[simp] theorem length_setData (data : LiveData) :
    (c.setData x data).nodes.length = c.nodes.length := length_modify ..

theorem updateAttributes_eq {tag : Text} {as : Attrs} (h : c.data? x = some (.element tag as))
    (f : Attrs → Attrs) : c.updateAttributes x f = .ok (c.setData x (.element tag (f as))) := by
  obtain ⟨p, cs, h⟩ := exists_get? h
  rw [updateAttributes, h]
  rfl

theorem setText_eq {s : Text} (h : c.data? x = some (.text s)) (content : Text) :
    c.setText x content = .ok (c.setData x (.text content)) := by
  obtain ⟨p, cs, h⟩ := exists_get? h
  rw [setText, h]
  rfl

theorem get?_alloc (c : Canvas) (data : LiveData) : (c.alloc data).1.get? x =
    if x = c.nodes.length then some ⟨data, none, []⟩ else c.get? x := by
  rw [get?, get?, alloc, List.getElem?_append]
  split_ifs with h h' h'
  · exact absurd h' (Nat.ne_of_lt h)
  · rfl
  · subst h'; simp
  · have hx : c.nodes.length < x := Nat.lt_of_le_of_ne (Nat.le_of_not_lt h) (Ne.symm h')
    rw [List.getElem?_eq_none (Nat.le_of_lt hx), List.getElem?_eq_none]
    exact Nat.sub_pos_of_lt hx

@[simp] theorem length_alloc (c : Canvas) (data : LiveData) :
    (c.alloc data).1.nodes.length = c.nodes.length + 1 := by simp [alloc]

theorem parent?_alloc (c : Canvas) (data : LiveData) :
    (c.alloc data).1.parent? x = c.parent? x := by
  rw [parent?, parent?, get?_alloc]
  split_ifs with h
  · rw [get?_eq_none_iff.2 (Nat.le_of_eq h.symm)]
    rfl
  · rfl

theorem children_alloc (c : Canvas) (data : LiveData) :
    (c.alloc data).1.children x = c.children x := by
  rw [children, children, get?_alloc]
  split_ifs with h
  · rw [get?_eq_none_iff.2 (Nat.le_of_eq h.symm)]
  · rfl

section Link

variable {p : NodeId} {k : Option Nat}

@[simp] theorem length_link : (c.link p y k).nodes.length = c.nodes.length := by simp [link]

@[simp] theorem data?_link : (c.link p y k).data? x = c.data? x := by
  rw [link, data?_modify, data?_modify] <;> exact fun _ => rfl

theorem parent?_link (hy : y < c.nodes.length) :
    (c.link p y k).parent? x = if x = y then some p else c.parent? x := by
  rw [link, parent?, get?_modify]
  split_ifs with h
  · rw [get?, List.getElem?_eq_getElem (by simpa using hy)]
    rfl
  · rw [← parent?, parent?_modify]
    exact fun _ => rfl

theorem children_link (hp : p < c.nodes.length) : (c.link p y k).children x =
    if x = p then (c.children p).insertIdx (k.getD (c.children p).length) y else c.children x := by
  rw [link, children_modify, children, get?_modify]
  · split_ifs with h
    · simp [children, get?, hp]
    · rfl
  · exact fun _ => rfl

end Link

@[simp] theorem length_unlink : (c.unlink y).nodes.length = c.nodes.length := by
  rw [unlink]
  split <;> simp

@[simp] theorem data?_unlink : (c.unlink y).data? x = c.data? x := by
  rw [unlink]
  split
  · rfl
  · rw [data?_modify, data?_modify] <;> exact fun _ => rfl

theorem parent?_unlink : (c.unlink y).parent? x = if x = y then none else c.parent? x := by
  rw [unlink]
  split
  next h =>
    split_ifs with hx
    · rw [hx, h]
    · rfl
  · rw [parent?_modify, parent?, get?_modify]
    · split_ifs with hx
      · cases c.get? y <;> rfl
      · rfl
    · exact fun _ => rfl

theorem children_unlink : (c.unlink y).children x =
    if c.parent? y = some x then (c.children x).filter (· != y) else c.children x := by
  rw [unlink]
  split
  next h => simp [h]
  next p h =>
    have hc (z : NodeId) : (c.modify y fun n => { n with parent := none }).children z = c.children z :=
      children_modify c y z fun _ => rfl
    rw [children, get?_modify]
    by_cases hx : x = p
    · subst hx
      rw [if_pos rfl, if_pos h, ← hc, children]
      cases (c.modify y fun n => { n with parent := none }).get? x <;> rfl
    · rw [if_neg hx, if_neg (by simpa [h] using Ne.symm hx), ← hc]
      rfl

end MarkupSync.Canvas
