import QuantumIR.Proofs.Tagging

/-! # The order of string attributes

String attributes that are added to a function are listed in the order of their keys, each key with
the value that was added last, after the marks. So the order in which they were added does not show,
and neither does what was replaced.
-/

namespace QuantumIR

open Session Attempt

theorem AttrSet.Ordered.mem_toList_iff {a : AttrSet} {k v : Bytes} (ha : a.Ordered) :
    .string k v ∈ a.toList ↔ a.get? k = some v := by
  rw [← ha.mem_strings_iff]
  simp [AttrSet.toList]

/-- Add string attributes to a function, one after the other. -/
def Session.addTags (s : Session) (r : FnRef) (tags : List Tag) : Session :=
  tags.foldl (fun s x => s.addAttr r x.index (.string x.key x.value)) s

theorem Session.fn?_addTags (s : Session) (r : FnRef) (tags : List Tag) (q : FnRef) :
    (s.addTags r tags).fn? q =
      if r = q then (s.fn? q).map fun f => { f with attrs := f.attrs.replay (tags.map .added) }
      else s.fn? q := by
  induction tags generalizing s with
  | nil =>
    have hid : (s.fn? q).map (fun f => { f with attrs := f.attrs.replay [] }) = s.fn? q :=
      Option.map_id' ..
    rw [List.map_nil, hid, ite_self]
    rfl
  | cons x tags ih =>
    refine (ih _).trans ?_
    change (if r = q then ((s.updateFn r _).fn? q).map _ else (s.updateFn r _).fn? q) = _
    rw [fn?_updateFn]
    split
    · rw [Option.map_map]
      rfl
    · rfl

def Tag.step (fn : String) (x : Tag) : Step := .perform (.addAttr fn x.index x.key x.value)

theorem Module.findFunction?_updateFunction {g : Fn → Fn} (hg : ∀ f, (g f).name = f.name)
    (m : Module) (k : Nat) (name : String) :
    (m.updateFunction k g).findFunction? name = m.findFunction? name := by
  have hplace : ∀ m : Module, m.functions.findIdx? (·.name = name) =
      (m.functions.map Fn.name).findIdx? (· = name) := by
    intro m
    rw [List.findIdx?_map]
    rfl
  rw [findFunction?, findFunction?, hplace, hplace, names_updateFunction hg]

theorem Step.session_runAll_tags {s : Session} {r : FnRef} {fn : String}
    (hr : s.current = r.module)
    (hplace : (s.module? s.current).bind (·.findFunction? fn) = some r.index) (tags : List Tag) :
    (runAll (tags.map (Tag.step fn)) s).session = s.addTags r tags := by
  induction tags generalizing s with
  | nil => rfl
  | cons x tags ih =>
    have hstep : ∀ message, x.step fn ≠ .fail message := by
      intro message h
      cases h
    have hrun : ((x.step fn).run s).2 = s.addAttr r x.index (.string x.key x.value) := by
      rw [Tag.step, run, answer_snd, Command.leaves_addAttr hr hplace]
    rw [List.map_cons, session_runAll_cons hstep, hrun]
    apply ih (s := s.addAttr r x.index (.string x.key x.value)) hr
    obtain ⟨m, hm, hk⟩ := Option.bind_eq_some_iff.mp hplace
    change ((s.updateModule r.module _).module? s.current).bind _ = _
    rw [module?_updateModule, if_pos hr.symm, hm, Option.map_some, Option.bind_some,
      Module.findFunction?_updateFunction, hk]
    intro f
    rfl

/-- Any string attributes that are added to a function are listed after its marks, strictly
increasing by their keys: each key with the value that was added last, or with the one that it had.
Other indices and other functions are as they were, and what has been added in another order or
more than once makes no difference. -/
theorem Session.addTags_listed {s : Session} {r : FnRef} {f : Fn} (hs : s.Reachable)
    (hf : s.fn? r = some f) (tags : List Tag) :
    ∃ g, (s.addTags r tags).fn? r = some g ∧
      (s.current = r.module → f.name ≠ "" →
        (Step.runAll (tags.map (Tag.step f.name)) s).session = s.addTags r tags) ∧
      (∀ i, (g.attrs.get i).toList.length = (g.attrs.get i).size ∧
        ∃ strings : List (Bytes × Bytes),
          (g.attrs.get i).toList = (f.attrs.get i).marks.map .mark ++
            strings.map (fun x => .string x.1 x.2) ∧
          strings.Pairwise (fun x y => x.1 < y.1) ∧
          ∀ k v, (k, v) ∈ strings ↔ Tag.last? tags i k = some v ∨
            Tag.last? tags i k = none ∧ .string k v ∈ (f.attrs.get i).toList) ∧
      (∀ i, (∀ x ∈ tags, x.index ≠ i) → g.attrs.get i = f.attrs.get i) ∧
      (∀ q, q ≠ r → (s.addTags r tags).fn? q = s.fn? q) ∧
      ∀ tags' : List Tag, (∀ i k, Tag.last? tags' i k = Tag.last? tags i k) →
        ∃ g', (s.addTags r tags').fn? r = some g' ∧ ∀ i, g'.attrs.get i = g.attrs.get i := by
  have hfn : ∀ tags : List Tag, (s.addTags r tags).fn? r =
      some { f with attrs := f.attrs.replay (tags.map .added) } := by
    intro tags
    rw [fn?_addTags, if_pos rfl, hf]
    rfl
  have hordered : ∀ (tags : List Tag) i, ((f.attrs.replay (tags.map .added)).get i).Ordered :=
    fun tags i => AttrTable.ordered_replay (hs.ordered hf) _ i
  have hget : ∀ (tags : List Tag) i k, ((f.attrs.replay (tags.map .added)).get i).get? k =
      (Tag.last? tags i k).or ((f.attrs.get i).get? k) := by
    intro tags i k
    rw [AttrTable.get?_replay, Tag.findSome?_value?]
  refine ⟨_, hfn tags, fun hr hn => ?_, fun i => ⟨AttrSet.length_toList _, _, ?_, hordered tags i,
    fun k v => ?_⟩, fun i hi => AttrTable.get_replay_added hi _, fun q hq => ?_,
    fun tags' hlast => ⟨_, hfn tags', fun i => ?_⟩⟩
  · obtain ⟨m, hm, hk⟩ := fn?_eq_some_iff.mp hf
    apply Step.session_runAll_tags hr
    rw [hr, hm]
    exact (hs.distinct hm).findFunction?_eq hk hn
  · rw [AttrSet.toList, AttrTable.marks_replay_added]
  · rw [(hordered tags i).mem_strings_iff, hget, (hs.ordered hf i).mem_toList_iff,
      Option.or_eq_some_iff]
  · rw [fn?_addTags, if_neg (Ne.symm hq)]
  · refine (hordered tags' i).ext (hordered tags i) ?_ fun k => ?_
    · rw [AttrTable.marks_replay_added, AttrTable.marks_replay_added]
    · rw [hget, hget, hlast]

def Session.oneAttribute : Program where
  name := "m"
  steps := [
    .perform (.declare "f" .void [] .external),
    .perform (.addAttr "f" .function [98] [0])]

theorem Session.addTags_listed_oneAttribute : ∃ g g',
    (oneAttribute.run.session.addTags ⟨0, 0⟩ [⟨.function, [98], [1]⟩, ⟨.param 9, [], [3]⟩,
      ⟨.function, [98], [2]⟩]).fn? ⟨0, 0⟩ = some g ∧
    .string [98] [2] ∈ (g.attrs.get .function).toList ∧
    (oneAttribute.run.session.addTags ⟨0, 0⟩ [⟨.function, [98], [2]⟩, ⟨.param 9, [], [3]⟩]).fn?
      ⟨0, 0⟩ = some g' ∧
    ∀ i, g'.attrs.get i = g.attrs.get i := by
  obtain ⟨f, hf⟩ : ∃ f, oneAttribute.run.session.fn? ⟨0, 0⟩ = some f := ⟨_, rfl⟩
  obtain ⟨g, hg, -, hlisted, -, -, hagain⟩ := addTags_listed oneAttribute.reachable_run hf
    [⟨.function, [98], [1]⟩, ⟨.param 9, [], [3]⟩, ⟨.function, [98], [2]⟩]
  obtain ⟨-, strings, hstrings, -, hmem⟩ := hlisted .function
  obtain ⟨g', hg', hsame⟩ := hagain [⟨.function, [98], [2]⟩, ⟨.param 9, [], [3]⟩] (by
    intro i k
    simp only [Tag.last?, List.reverse_cons, List.reverse_nil, List.nil_append, List.cons_append,
      List.find?_cons, List.find?_nil]
    grind)
  refine ⟨g, g', hg, ?_, hg', hsame⟩
  have hlast : ([98], [2]) ∈ strings := (hmem [98] [2]).mpr (.inl (by decide))
  rw [hstrings]
  exact List.mem_append_right _ (List.mem_map_of_mem hlast)

end QuantumIR
