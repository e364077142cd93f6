import QuantumIR.Proofs.AttributeOrder
import QuantumIR.Proofs.Measurement
import QuantumIR.Proofs.WellFormed

/-! # Attributes as text

The attributes at an index are read one after the other, the value of each before its key. They can
be read if and only if all of these texts are well formed, and then they are given back byte for
byte. Otherwise the first text that is not well formed is reported.
-/

namespace QuantumIR

open Session Attempt Utf8

namespace Utf8

/-- The error explains the first of the texts that is not well formed. -/
def FirstIllFormed (texts : List Bytes) (e : Error) : Prop :=
  ∃ before bad after, texts = before ++ bad :: after ∧ (∀ x ∈ before, WellFormed x) ∧
    ¬ WellFormed bad ∧ e.Explains bad

variable {texts rest : List Bytes} {e : Error}

theorem FirstIllFormed.append (h : FirstIllFormed texts e) (rest : List Bytes) :
    FirstIllFormed (texts ++ rest) e := by
  obtain ⟨before, bad, after, rfl, hbefore, hbad⟩ := h
  exact ⟨before, bad, after ++ rest, by simp, hbefore, hbad⟩

theorem FirstIllFormed.behind (h : FirstIllFormed rest e) (htexts : ∀ x ∈ texts, WellFormed x) :
    FirstIllFormed (texts ++ rest) e := by
  obtain ⟨before, bad, after, rfl, hbefore, hbad⟩ := h
  exact ⟨texts ++ before, bad, after, by simp, List.forall_mem_append.mpr ⟨htexts, hbefore⟩, hbad⟩

theorem FirstIllFormed.exists_mem (h : FirstIllFormed texts e) : ∃ x ∈ texts, ¬ WellFormed x := by
  obtain ⟨before, bad, after, rfl, -, hbad, -⟩ := h
  exact ⟨bad, by simp, hbad⟩

theorem decode_cases (bs : Bytes) : (∃ text, decode bs = .ok text ∧ Bytes.ofString text = bs) ∨
    ∃ e, decode bs = .error e ∧ FirstIllFormed [bs] e := by
  cases h : decode bs with
  | ok text => exact .inl ⟨text, rfl, decode_eq_ok_iff.mp h⟩
  | error e =>
    refine .inr ⟨e, rfl, [], bs, [], rfl, by simp, ?_, explains_of_decode h⟩
    rintro ⟨text, htext⟩
    rw [decode_eq_ok_iff.mpr htext] at h
    cases h

end Utf8

namespace Attr

def texts : Attr → List Bytes
  | .mark _ => []
  | .string key value => [value, key]

/-- What an attribute is read as: texts with the same bytes, or nothing for a mark. -/
inductive ReadAs : Attr → Option (String × String) → Prop
  | mark (m : Mark) : ReadAs (.mark m) none
  | string (key value : String) :
      ReadAs (.string (Bytes.ofString key) (Bytes.ofString value)) (some (key, value))

theorem ReadAs.wellFormed {a : Attr} {o : Option (String × String)} (h : a.ReadAs o) :
    ∀ x ∈ a.texts, WellFormed x := by
  cases h with
  | mark m => exact nofun
  | string key value =>
    intro x hx
    rcases List.mem_pair.mp hx with rfl | rfl
    · exact ⟨value, rfl⟩
    · exact ⟨key, rfl⟩

theorem read_cases (a : Attr) : (∃ o, a.read = .ok o ∧ a.ReadAs o) ∨
    ∃ e, a.read = .error e ∧ FirstIllFormed a.texts e := by
  cases a with
  | mark m => exact .inl ⟨none, rfl, .mark m⟩
  | string key value =>
    rcases decode_cases value with ⟨v, hv, rfl⟩ | ⟨e, he, hbad⟩
    · rcases decode_cases key with ⟨k, hk, rfl⟩ | ⟨e, he, hbad⟩
      · refine .inl ⟨some (k, v), ?_, .string k v⟩
        rw [read, hv, hk]
        rfl
      · have hvalue : ∀ x ∈ [Bytes.ofString v], WellFormed x := by simpa using ⟨v, rfl⟩
        refine .inr ⟨e, ?_, hbad.behind hvalue⟩
        rw [read, hv, he]
        rfl
    · refine .inr ⟨e, ?_, hbad.append [key]⟩
      rw [read, he]
      rfl

/-- Attributes are read up to the first text that is not well formed. -/
theorem mapM_read_cases (l : List Attr) :
    (∃ os, l.mapM read = .ok os ∧ List.Forall₂ ReadAs l os ∧
      ∀ x ∈ l.flatMap texts, WellFormed x) ∨
    ∃ e, l.mapM read = .error e ∧ FirstIllFormed (l.flatMap texts) e := by
  induction l with
  | nil => exact .inl ⟨[], rfl, .nil, nofun⟩
  | cons a l ih =>
    rw [List.mapM_cons, List.flatMap_cons]
    rcases a.read_cases with ⟨o, ho, hread⟩ | ⟨e, he, hbad⟩
    · rcases ih with ⟨os, hos, hreads, hwell⟩ | ⟨e, he, hbad⟩
      · refine .inl ⟨o :: os, ?_, .cons hread hreads, ?_⟩
        · rw [ho, hos]
          rfl
        · exact List.forall_mem_append.mpr ⟨hread.wellFormed, hwell⟩
      · refine .inr ⟨e, ?_, hbad.behind hread.wellFormed⟩
        rw [ho, he]
        rfl
    · refine .inr ⟨e, ?_, hbad.append _⟩
      rw [he]
      rfl

end Attr

namespace AttrSet

variable {s : AttrSet}

def texts (s : AttrSet) : List Bytes := s.toList.flatMap Attr.texts

theorem readAs_of_read {os : List (Option (String × String))} (h : s.read = .ok os) :
    List.Forall₂ Attr.ReadAs s.toList os ∧ ∀ x ∈ s.texts, WellFormed x := by
  rcases Attr.mapM_read_cases s.toList with ⟨os', hos, hreads⟩ | ⟨e, he, -⟩
  · obtain rfl : os = os' := Except.ok.inj (h.symm.trans hos)
    exact hreads
  · cases h.symm.trans he

theorem firstIllFormed_of_read {e : Error} (h : s.read = .error e) : FirstIllFormed s.texts e := by
  rcases Attr.mapM_read_cases s.toList with ⟨os, hos, -⟩ | ⟨e', he, hbad⟩
  · cases h.symm.trans hos
  · obtain rfl : e = e' := Except.error.inj (h.symm.trans he)
    exact hbad

theorem isOk_read_iff : (∃ os, s.read = .ok os) ↔ ∀ x ∈ s.texts, WellFormed x := by
  constructor
  · rintro ⟨os, hos⟩
    exact (readAs_of_read hos).2
  · intro h
    cases hread : s.read with
    | ok os => exact ⟨os, rfl⟩
    | error e =>
      obtain ⟨x, hx, hbad⟩ := (firstIllFormed_of_read hread).exists_mem
      exact absurd (h x hx) hbad

def answer (s : AttrSet) : Answer :=
  match s.read with
  | .ok attrs => .attributes attrs
  | .error e => .stopped (.panic (.notText e))

end AttrSet

theorem Step.run_listAttrs {s : Session} {fn : String} {f : Fn} {r : FnRef}
    (h : findFunction fn s = .ok (r, f) s) (i : AttrIndex) :
    (Step.perform (.listAttrs fn i)).run s = ((f.attrs.get i).answer, s) := by
  rw [run, answer, Command.act, bind_of_ok h, AttrSet.answer]
  dsimp only
  cases (f.attrs.get i).read <;> rfl

/-- At every point of a run, the attributes of a function at an index can be read if and only if
every key and value there is well formed, and then the texts have the bytes that were added last
under each key. Otherwise the first text that is not well formed is reported, where the value of an
attribute comes before its key. -/
theorem Config.attributes_read {p : Program} {d : Config} {r : FnRef} {events : List Tagging}
    {f : Fn} (h : Trace (taggings r) p.start events d) (hf : d.session.fn? r = some f)
    (i : AttrIndex) :
    (∀ k v, .string k v ∈ (f.attrs.get i).toList ↔
      events.reverse.findSome? (·.value? i k) = some v) ∧
    ((∃ os, (f.attrs.get i).read = .ok os) ↔ ∀ x ∈ (f.attrs.get i).texts, WellFormed x) ∧
    (∀ os, (f.attrs.get i).read = .ok os →
      List.Forall₂ Attr.ReadAs (f.attrs.get i).toList os) ∧
    (∀ e, (f.attrs.get i).read = .error e → FirstIllFormed (f.attrs.get i).texts e) ∧
    (d.session.current = r.module → f.name ≠ "" →
      (Step.perform (.listAttrs f.name i)).run d.session =
        ((f.attrs.get i).answer, d.session)) := by
  have hs : d.session.Reachable :=
    ⟨d, ⟨p.name, p.steps, h.reaches⟩, rfl⟩
  refine ⟨fun k v => ?_, AttrSet.isOk_read_iff, fun os hos => (AttrSet.readAs_of_read hos).1,
    fun e he => AttrSet.firstIllFormed_of_read he, fun hr hn => ?_⟩
  · rw [(hs.ordered hf i).mem_toList_iff, h.attrs_eq hf, AttrTable.get?_replay, f.get?_given,
      Option.or_none]
  · obtain ⟨m, hm, hk⟩ := fn?_eq_some_iff.mp hf
    rw [← hr] at hm
    have hplace := (hs.distinct hm).findFunction?_eq hk hn
    exact Step.run_listAttrs (findFunction_of_place hm hplace hk) i

/-- A function with an attribute of which neither the value nor the key is text, behind one with a
value that is. -/
def Config.brokenAttribute : Program where
  name := "m"
  steps := [
    .perform (.declare "f" .void [] .external),
    .perform (.addAttr "f" .function [0xFF] [0x68, 0xE2, 0x82]),
    .perform (.addAttr "f" .function [0x61] [0xFF]),
    .perform (.addAttr "f" .function [0x61] [0xC3, 0xA9])]

theorem Config.attributes_read_brokenAttribute :
    ∃ events d f, Trace (taggings ⟨0, 0⟩) brokenAttribute.start events d ∧
      d.session.fn? ⟨0, 0⟩ = some f ∧
      .string [0x61] [0xC3, 0xA9] ∈ (f.attrs.get .function).toList ∧
      (Step.perform (.listAttrs "f" .function)).run d.session =
        (.stopped (.panic (.notText ⟨1, none⟩)), d.session) ∧
      FirstIllFormed [[0xC3, 0xA9], [0x61], [0x68, 0xE2, 0x82], [0xFF]] ⟨1, none⟩ := by
  have hrun : ∃ events d f, Trace (taggings ⟨0, 0⟩) brokenAttribute.start events d ∧
      d.session.fn? ⟨0, 0⟩ = some f ∧ d.session.current = 0 ∧ f.name = "f" ∧
      events = [.added ⟨.function, [0xFF], [0x68, 0xE2, 0x82]⟩,
        .added ⟨.function, [0x61], [0xFF]⟩, .added ⟨.function, [0x61], [0xC3, 0xA9]⟩] := by
    refine ⟨_, _, _, .step (.step (.step (.step .start rfl) rfl) rfl) rfl, rfl, rfl, rfl, ?_⟩
    decide +kernel
  obtain ⟨events, d, f, h, hf, hcurrent, hname, hevents⟩ := hrun
  have hattrs : f.attrs = AttrTable.replay [] events := by
    rw [h.attrs_eq hf, h.given_eq_nil hf (by rw [hname]; decide +kernel)]
  have hlist : (f.attrs.get .function).toList =
      [.string [0x61] [0xC3, 0xA9], .string [0xFF] [0x68, 0xE2, 0x82]] := by
    rw [hattrs, hevents]
    decide +kernel
  have hread : (f.attrs.get .function).read = .error ⟨1, none⟩ := by
    rw [AttrSet.read, hlist]
    decide +kernel
  obtain ⟨-, -, -, hbad, hanswer⟩ := attributes_read h hf .function
  have htexts := hbad _ hread
  rw [AttrSet.texts, hlist] at htexts
  refine ⟨events, d, f, h, hf, by simp [hlist], ?_, htexts⟩
  rw [← hname, hanswer hcurrent (by simp [hname]), AttrSet.answer, hread]

end QuantumIR
