import QuantumIR.Proofs.Tagging

/-! # The marks of measurements

A measurement marks the function that it calls. No other operation does, so the marks of a function
say whether it has been called to measure, but for the marks that it has as an intrinsic. A second
measurement changes nothing.
-/

namespace QuantumIR

open Session

theorem Fn.get?_given (f : Fn) (i : AttrIndex) (k : Bytes) : (f.given.get i).get? k = none := by
  rw [AttrSet.get?, f.strings_given]
  rfl

theorem Fn.isIrreversible_iff {f : Fn} {events : List Tagging}
    (h : f.attrs = f.given.replay events) : f.isIrreversible = true ↔
      .measured ∈ events ∨
        ∃ value, .added ⟨.function, Bytes.ofString "irreversible", value⟩ ∈ events := by
  have hvalue : f.attr? "irreversible" =
      events.reverse.findSome? (·.value? .function (Bytes.ofString "irreversible")) := by
    rw [attr?, h, AttrTable.get?_replay, f.get?_given, Option.or_none]
  rw [isIrreversible, hasAttr, hvalue, List.findSome?_isSome_iff]
  constructor
  · rintro ⟨e, he, hsome⟩
    rw [List.mem_reverse] at he
    cases e with
    | measured => exact .inl he
    | added x =>
      obtain ⟨i, k, v⟩ := x
      simp only [Tagging.value?, Option.isSome_ite] at hsome
      obtain ⟨rfl, rfl⟩ := hsome
      exact .inr ⟨v, he⟩
  · rintro (he | ⟨value, he⟩)
    · exact ⟨_, List.mem_reverse.mpr he, rfl⟩
    · exact ⟨_, List.mem_reverse.mpr he, by simp [Tagging.value?]⟩

/-- A function after a measurement has called it, and before. -/
theorem Session.Tags.measured {s t : Session} {r : FnRef} (h : Tags r [.measured] s t) :
    ∃ (g : Fn) (table : AttrTable), t.fn? r = some g ∧ g.attrs = table.tag .measured ∧
      ∀ i k, (table.get i).get? k = (s.fn? r).bind fun f => (f.attrs.get i).get? k := by
  unfold Tags at h
  generalize s.fn? r = o, t.fn? r = p at h
  cases h with
  | made hg => exact ⟨_, _, rfl, hg, fun i k => Fn.get?_given _ i k⟩
  | kept _ hg => exact ⟨_, _, rfl, hg, fun _ _ => rfl⟩

namespace Config

/-- At every point of a run, a function is irreversible if and only if a measurement has called it
or an attribute of that name has been added to it. Its marks are the one that a measurement gives to
the second parameter of what it calls, and those that it has as an intrinsic, which only a function
with a reserved name can be. After a measurement the other string attributes are as they were, and
further measurements change nothing. -/
theorem marks_follow_measurements {p : Program} {d : Config} {r : FnRef} {events : List Tagging}
    (h : Trace (taggings r) p.start events d) :
    (∀ f, d.session.fn? r = some f →
      (f.isIrreversible = true ↔ .measured ∈ events ∨
        ∃ value, .added ⟨.function, Bytes.ofString "irreversible", value⟩ ∈ events) ∧
      (∀ i m, m ∈ (f.attrs.get i).marks ↔
        (i = .param 2 ∧ m = .writeOnly ∧ .measured ∈ events) ∨ m ∈ (f.given.get i).marks) ∧
      (¬ "llvm.".toList <+: f.name.toList → f.given = [])) ∧
    ∀ d₁, d.taggings r = [.measured] → d.next = some d₁ →
      ∃ f₁, d₁.session.fn? r = some f₁ ∧
        (∀ i k, ¬ (i = .function ∧ k = Bytes.ofString "irreversible") →
          (f₁.attrs.get i).get? k =
            (d.session.fn? r).bind fun f => (f.attrs.get i).get? k) ∧
        ∀ events' d', Trace (taggings r) d₁ events' d' → (∀ e ∈ events', e = .measured) →
          ∃ f', d'.session.fn? r = some f' ∧ ∀ i, f'.attrs.get i = f₁.attrs.get i := by
  have hstart : p.start.Tidy := ⟨tidy_start p.name, nofun⟩
  have htidy := hstart.reaches h.reaches
  have hcurrent := h.reaches.isSome_current rfl
  constructor
  · intro f hf
    have hattrs := h.attrs_eq hf
    refine ⟨Fn.isIrreversible_iff hattrs, fun i m => ?_, h.given_eq_nil hf⟩
    rw [hattrs, AttrTable.mem_marks_replay]
  · intro d₁ htaggings hn
    have hnext := next_tags (r := r) htidy hcurrent hn
    rw [htaggings] at hnext
    obtain ⟨f₁, table, hf₁, hattrs, hbefore⟩ := hnext.measured
    refine ⟨f₁, hf₁, fun i k hk => ?_, fun events' d' h' hmeasured => ?_⟩
    · rw [hattrs, AttrTable.get?_tag, Tagging.value?, if_neg hk, Option.none_or, hbefore]
    · have htags := h'.tags (htidy.next hn) (next_current hn hcurrent)
      rw [Tags, hf₁] at htags
      generalize d'.session.fn? r = o at htags ⊢
      cases htags with
      | kept _ hg =>
        refine ⟨_, rfl, fun i => ?_⟩
        rw [hg, hattrs, AttrTable.get_replay_measured hmeasured]

/-- A function of another type that measures by calling itself. -/
def selfMeasuring : Program where
  name := "m"
  steps := [
    .perform (.declare "__quantum__qis__mz__body" .void [] .external),
    .perform (.addAttr "__quantum__qis__mz__body" .function [255] [0]),
    .perform (.newBlock "__quantum__qis__mz__body" "entry"),
    .perform (.apply .mz [.qubit 0, .result 0]),
    .perform (.apply .mz [.qubit 0, .result 0])]

theorem marks_follow_measurements_selfMeasuring :
    ∃ events d d₁ d₂ f f₁ f₂, Trace (taggings ⟨0, 0⟩) selfMeasuring.start events d ∧
      d.next = some d₁ ∧ d₁.next = some d₂ ∧ d.session.fn? ⟨0, 0⟩ = some f ∧
      .writeOnly ∉ (f.attrs.get (.param 2)).marks ∧ d₁.session.fn? ⟨0, 0⟩ = some f₁ ∧
      f₁.isIrreversible = true ∧
      (f₁.attrs.get .function).get? [255] = (f.attrs.get .function).get? [255] ∧
      d₂.session.fn? ⟨0, 0⟩ = some f₂ ∧ ∀ i, f₂.attrs.get i = f₁.attrs.get i := by
  have hrun : ∃ events d d₁ d₂ f, Trace (taggings ⟨0, 0⟩) selfMeasuring.start events d ∧
      d.next = some d₁ ∧ d₁.next = some d₂ ∧ d.session.fn? ⟨0, 0⟩ = some f ∧
      .measured ∉ events ∧ d.taggings ⟨0, 0⟩ = [.measured] ∧ d₁.taggings ⟨0, 0⟩ = [.measured] ∧
      ¬ "llvm.".toList <+: f.name.toList := by
    refine ⟨_, _, _, _, _, .step (.step (.step .start rfl) rfl) rfl, rfl, rfl, rfl, ?_⟩
    decide +kernel
  obtain ⟨events, d, d₁, d₂, f, h, hd₁, hd₂, hf, hno, hyes, hyes', hname⟩ := hrun
  obtain ⟨hmarks, hagain⟩ := marks_follow_measurements h
  obtain ⟨f₁, hf₁, hother, hrepeat⟩ := hagain d₁ hyes hd₁
  obtain ⟨f₂, hf₂, hsame⟩ := hrepeat _ d₂ (.step .start hd₂) (by simp [hyes'])
  refine ⟨events, d, d₁, d₂, f, f₁, f₂, h, hd₁, hd₂, hf, ?_, hf₁, ?_, ?_, hf₂, hsame⟩
  · rw [(hmarks f hf).2.1, (hmarks f hf).2.2 hname]
    simp [hno, AttrTable.get]
  · rw [((marks_follow_measurements (h.step hd₁)).1 f₁ hf₁).1]
    simp [hyes]
  · rw [hother _ _ (by decide +kernel), hf, Option.bind_some]

def declaredRoot : Program where
  name := "m"
  steps := [.perform (.declare "llvm.sqrt" .double [.double] .external)]

/-- A function may have marks that no measurement has given it. -/
theorem not_marks_only_of_measurements :
    ∃ events d f, Trace (taggings ⟨0, 0⟩) declaredRoot.start events d ∧ .measured ∉ events ∧
      d.session.fn? ⟨0, 0⟩ = some f ∧ (f.attrs.get .function).marks ≠ [] := by
  refine ⟨_, _, _, .step .start rfl, ?_, rfl, ?_⟩
  · decide
  · decide +kernel

end Config

end QuantumIR
