import QuantumIR.Proofs.AttributeHistory

/-! # Attribute tables as sorted maps

The string attributes of a set stand in the order of their keys, each key once, so a set is known by
its marks and by the value under each key. A table that attributes are added to, one after the
other, has the last value that was added under each key.
-/

namespace QuantumIR

namespace AttrSet

variable {s t : AttrSet} {k v : Bytes}

/-- The string attributes are strictly increasing by the bytes of their keys. -/
def Ordered (s : AttrSet) : Prop := s.strings.Pairwise fun x y => x.1 < y.1

theorem pairwise_insertSorted (k v : Bytes) {l : List (Bytes × Bytes)}
    (h : l.Pairwise fun x y => x.1 < y.1) :
    (insertSorted k v l).Pairwise fun x y => x.1 < y.1 := by
  induction l with
  | nil => exact List.pairwise_singleton _ _
  | cons y l ih =>
    obtain ⟨hy, hl⟩ := List.pairwise_cons.mp h
    unfold insertSorted
    split
    next hlt =>
      refine List.pairwise_cons.mpr ⟨fun x hx => ?_, h⟩
      rcases List.mem_cons.mp hx with rfl | hx
      · exact hlt
      · exact List.lt_trans hlt (hy x hx)
    split
    next heq => exact List.pairwise_cons.mpr ⟨heq ▸ hy, hl⟩
    next hlt hne =>
      refine List.pairwise_cons.mpr ⟨fun x hx => ?_, ih hl⟩
      rcases mem_insertSorted hx with rfl | hx
      · exact Std.lt_of_le_of_ne (List.not_lt.mp hlt) (Ne.symm hne)
      · exact hy x hx

theorem Ordered.insert (hs : s.Ordered) (a : Attr) : (s.insert a).Ordered := by
  cases a with
  | mark m => exact hs
  | string key value => exact pairwise_insertSorted key value hs

theorem Ordered.mem_strings_iff (hs : s.Ordered) : (k, v) ∈ s.strings ↔ s.get? k = some v := by
  revert hs
  unfold Ordered get?
  induction s.strings with
  | nil => simp
  | cons y l ih =>
    intro hs
    obtain ⟨hy, hl⟩ := List.pairwise_cons.mp hs
    specialize ih hl
    rw [List.find?_cons, List.mem_cons]
    by_cases hk : y.1 = k
    · have hnot : (k, v) ∉ l := by
        intro hx
        have hlt : y.1 < k := hy (k, v) hx
        exact List.lt_irrefl k (hk ▸ hlt)
      simp [hk, hnot, Prod.ext_iff, eq_comm]
    · have hne : (k, v) ≠ y := fun h => hk (h ▸ rfl)
      simp [hk, hne, ih]

theorem Ordered.ext (hs : s.Ordered) (ht : t.Ordered) (hmarks : s.marks = t.marks)
    (hget : ∀ k, s.get? k = t.get? k) : s = t := by
  have hnodup : ∀ {l : List (Bytes × Bytes)}, (l.Pairwise fun x y => x.1 < y.1) → l.Nodup := by
    intro l hl
    refine hl.imp ?_
    rintro x _ hlt rfl
    exact List.lt_irrefl x.1 hlt
  have hperm : s.strings.Perm t.strings := by
    rw [List.perm_ext_iff_of_nodup (hnodup hs) (hnodup ht)]
    rintro ⟨k, v⟩
    rw [hs.mem_strings_iff, ht.mem_strings_iff, hget]
  have hstrings : s.strings = t.strings :=
    hperm.eq_of_pairwise (fun _ _ _ _ hlt hgt => absurd hgt (List.lt_asymm hlt)) hs ht
  obtain ⟨marks, strings⟩ := s
  obtain rfl := hmarks
  obtain rfl := hstrings
  rfl

theorem length_toList (s : AttrSet) : s.toList.length = s.size := by
  simp [toList, size]

theorem insertSorted_insertSorted (k v : Bytes) (l : List (Bytes × Bytes)) :
    insertSorted k v (insertSorted k v l) = insertSorted k v l := by
  have hirrefl := List.lt_irrefl k
  induction l with
  | nil => simp [insertSorted, hirrefl]
  | cons y l ih => grind [insertSorted]

theorem insert_insert (s : AttrSet) (a : Attr) : (s.insert a).insert a = s.insert a := by
  cases a with
  | mark n =>
    have hmarks : (Mark.all.filter fun k => k = n || k ∈ (s.insert (.mark n)).marks) =
        Mark.all.filter fun k => k = n || k ∈ s.marks := by
      refine List.filter_congr fun m _ => ?_
      rw [Bool.eq_iff_iff]
      simp [mem_marks_insert]
    exact congrArg (fun marks => ({ s with marks } : AttrSet)) hmarks
  | string key value =>
    exact congrArg (fun strings => ({ s with strings } : AttrSet))
      (insertSorted_insertSorted key value s.strings)

end AttrSet

structure Tag where
  index : AttrIndex
  key : Bytes
  value : Bytes
  deriving DecidableEq

/-- What a run does to the attributes of a function: it is called to measure, or a string attribute
is added. -/
inductive Tagging
  | measured
  | added (tag : Tag)
  deriving DecidableEq

/-- The last value that is added under a key at an index. -/
def Tag.last? (tags : List Tag) (i : AttrIndex) (k : Bytes) : Option Bytes :=
  (tags.reverse.find? fun x => x.index = i ∧ x.key = k).map Tag.value

def Tagging.value? (i : AttrIndex) (k : Bytes) : Tagging → Option Bytes
  | .measured => if i = .function ∧ k = Bytes.ofString "irreversible" then some [] else none
  | .added x => if x.index = i ∧ x.key = k then some x.value else none

theorem Tag.findSome?_value? (tags : List Tag) (i : AttrIndex) (k : Bytes) :
    (tags.map Tagging.added).reverse.findSome? (·.value? i k) = last? tags i k := by
  unfold last?
  rw [← List.map_reverse, List.findSome?_map]
  induction tags.reverse with
  | nil => rfl
  | cons x l ih =>
    rw [List.findSome?_cons, List.find?_cons, ih]
    by_cases h : x.index = i ∧ x.key = k <;> simp [Tagging.value?, h]

namespace AttrTable

variable {t : AttrTable} {i : AttrIndex}

def tag (t : AttrTable) : Tagging → AttrTable
  | .measured => (t.insert (.param 2) (.mark .writeOnly)).insert .function
      (.string (Bytes.ofString "irreversible") [])
  | .added x => t.insert x.index (.string x.key x.value)

def replay (t : AttrTable) (events : List Tagging) : AttrTable := events.foldl tag t

theorem replay_cons (t : AttrTable) (e : Tagging) (events : List Tagging) :
    t.replay (e :: events) = (t.tag e).replay events := rfl

theorem replay_append (t : AttrTable) (xs ys : List Tagging) :
    t.replay (xs ++ ys) = (t.replay xs).replay ys := List.foldl_append

theorem ordered_insert (h : ∀ i, (t.get i).Ordered) (j : AttrIndex) (a : Attr) (i : AttrIndex) :
    ((t.insert j a).get i).Ordered := by
  rw [get_insert]
  split
  · exact (h i).insert a
  · exact h i

theorem ordered_replay (h : ∀ i, (t.get i).Ordered) (events : List Tagging) (i : AttrIndex) :
    ((t.replay events).get i).Ordered := by
  induction events generalizing t with
  | nil => exact h i
  | cons e events ih =>
    refine ih (t := t.tag e) ?_
    cases e with
    | measured => exact ordered_insert (ordered_insert h _ _) _ _
    | added x => exact ordered_insert h _ _

theorem get_tag_measured (t : AttrTable) (i : AttrIndex) : (t.tag .measured).get i =
    if i = .function then (t.get i).insert (.string (Bytes.ofString "irreversible") [])
    else if i = .param 2 then (t.get i).insert (.mark .writeOnly) else t.get i := by
  rw [tag, get_insert, get_insert]
  grind

theorem get?_tag (t : AttrTable) (e : Tagging) (i : AttrIndex) (k : Bytes) :
    ((t.tag e).get i).get? k = (e.value? i k).or ((t.get i).get? k) := by
  cases e with
  | measured =>
    rw [tag, get?_insert_string, get?_insert_mark, Tagging.value?]
    grind
  | added x =>
    rw [tag, get?_insert_string, Tagging.value?]
    grind

/-- What stands under a key is what was put there last. -/
theorem get?_replay (t : AttrTable) (events : List Tagging) (i : AttrIndex) (k : Bytes) :
    ((t.replay events).get i).get? k =
      (events.reverse.findSome? (·.value? i k)).or ((t.get i).get? k) := by
  induction events generalizing t with
  | nil => rfl
  | cons e events ih =>
    rw [replay_cons, ih, get?_tag, List.reverse_cons, List.findSome?_append,
      List.findSome?_singleton, Option.or_assoc]

theorem marks_insert_string (t : AttrTable) (i j : AttrIndex) (key value : Bytes) :
    ((t.insert j (.string key value)).get i).marks = (t.get i).marks := by
  rw [get_insert]
  split <;> rfl

theorem mem_marks_tag (t : AttrTable) (e : Tagging) (i : AttrIndex) (m : Mark) :
    m ∈ ((t.tag e).get i).marks ↔
      (i = .param 2 ∧ m = .writeOnly ∧ e = .measured) ∨ m ∈ (t.get i).marks := by
  cases e with
  | measured =>
    rw [tag, marks_insert_string, get_insert]
    split
    next hi => simp [AttrSet.mem_marks_insert, hi]
    next hi => simp [hi]
  | added x =>
    rw [tag, marks_insert_string]
    simp

theorem mem_marks_replay (t : AttrTable) (events : List Tagging) (i : AttrIndex) (m : Mark) :
    m ∈ ((t.replay events).get i).marks ↔
      (i = .param 2 ∧ m = .writeOnly ∧ .measured ∈ events) ∨ m ∈ (t.get i).marks := by
  induction events generalizing t with
  | nil => simp [replay]
  | cons e events ih =>
    rw [replay_cons, ih, mem_marks_tag, List.mem_cons]
    grind

theorem get_replay_added {tags : List Tag} (h : ∀ x ∈ tags, x.index ≠ i) (t : AttrTable) :
    (t.replay (tags.map .added)).get i = t.get i := by
  induction tags generalizing t with
  | nil => rfl
  | cons x tags ih =>
    rw [List.map_cons, replay_cons, ih fun y hy => h y (List.mem_cons_of_mem _ hy), tag, get_insert,
      if_neg (Ne.symm (h x (by simp)))]

theorem marks_replay_added (t : AttrTable) (tags : List Tag) (i : AttrIndex) :
    ((t.replay (tags.map .added)).get i).marks = (t.get i).marks := by
  induction tags generalizing t with
  | nil => rfl
  | cons x tags ih => rw [List.map_cons, replay_cons, ih, tag, marks_insert_string]

/-- To measure again changes nothing. -/
theorem get_replay_measured {events : List Tagging} (h : ∀ e ∈ events, e = .measured)
    (t : AttrTable) (i : AttrIndex) :
    ((t.tag .measured).replay events).get i = (t.tag .measured).get i := by
  induction events using List.reverseRecOn with
  | nil => rfl
  | append_singleton events e ih =>
    obtain rfl := h e (by simp)
    specialize ih fun x hx => h x (List.mem_append_left _ hx)
    rw [replay_append]
    change (((t.tag .measured).replay events).tag .measured).get i = _
    rw [get_tag_measured, ih, get_tag_measured]
    split
    · exact AttrSet.insert_insert _ _
    split
    · exact AttrSet.insert_insert _ _
    · rfl

end AttrTable

end QuantumIR
