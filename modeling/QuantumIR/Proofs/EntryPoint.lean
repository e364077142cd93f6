import QuantumIR.Proofs.AttributeHistory
import QuantumIR.Proofs.FlagHistory
import QuantumIR.Proofs.Symbol

/-! # Entry points keep what they declare

An entry point is one new function whose attributes record what it declares. No later step takes the
attributes away, and the counts among them change only when an attribute is set under one of their
keys. Counts are written in decimal and read back.
-/

namespace QuantumIR

open Session Attempt

namespace Count

theorem digit?_of_isDigit {c : Char} (hc : c.isDigit = true) :
    digit? c.toNat.toUInt8 = some (c.toNat - 0x30) := by
  have hle : 0x30 ≤ c.toNat ∧ c.toNat ≤ 0x39 := by
    simpa [Char.isDigit, UInt32.le_iff_toNat_le] using hc
  have hbyte : c.toNat.toUInt8.toNat = c.toNat := by
    rw [Nat.toUInt8, UInt8.toNat_ofNat']
    omega
  have hrange : (0x30 : UInt8) ≤ c.toNat.toUInt8 ∧ c.toNat.toUInt8 ≤ 0x39 := by
    rw [UInt8.le_iff_toNat_le, UInt8.le_iff_toNat_le, hbyte]
    exact hle
  rw [digit?, if_pos hrange, hbyte]

theorem digitsFrom_map {cs : List Char} (hcs : ∀ c ∈ cs, c.isDigit = true) (acc : Nat) :
    digitsFrom acc (cs.map fun c => c.toNat.toUInt8) = some (Nat.ofDigitChars 10 cs acc) := by
  induction cs generalizing acc with
  | nil => rfl
  | cons c cs ih =>
    rw [List.map_cons, digitsFrom, digit?_of_isDigit (hcs c (by simp)), Nat.ofDigitChars_cons,
      Nat.mul_comm 10]
    exact ih (fun d hd => hcs d (List.mem_cons_of_mem _ hd)) _

theorem parse?_render {n : Nat} (hn : n < bound) : parse? (render n) = some n := by
  have hdigits : ∀ c ∈ Nat.toDigits 10 n, c.isDigit = true := by
    intro c hc
    exact Nat.isDigit_of_mem_toDigits (by omega) (by omega) hc
  have hread := digitsFrom_map hdigits 0
  rw [Nat.ofDigitChars_toDigits (by omega) (by omega)] at hread
  unfold parse? render
  obtain ⟨c, cs, hcs⟩ := List.exists_cons_of_ne_nil (Nat.toDigits_ne_nil (n := n) (b := 10))
  rw [hcs] at hread hdigits ⊢
  have hsign : c.toNat.toUInt8 ≠ 0x2B := by
    intro he
    have hdigit := digit?_of_isDigit (hdigits c (by simp))
    rw [he] at hdigit
    cases hdigit
  have hunsigned : unsigned ((c :: cs).map fun c => c.toNat.toUInt8) =
      (c :: cs).map fun c => c.toNat.toUInt8 := by
    rw [List.map_cons, unsigned]
    intro bs he
    exact hsign (List.cons.inj he).1
  rw [hunsigned]
  show Option.filter _ (digitsFrom 0 _) = _
  rw [hread]
  simp [hn]

end Count

/-- A count that stands under the second key is read if there is nothing under the first. -/
theorem Fn.count?_eq {f : Fn} {first second : String} {keys : List String} {n : Nat}
    (hfirst : f.attr? first = none) (hsecond : f.attr? second = some (Count.render n))
    (hn : n < 2 ^ 64) : f.count? (first :: second :: keys) = some n := by
  have hparse : Count.parse? (Count.render n) = some n := Count.parse?_render hn
  simp [Fn.count?, hfirst, hsecond, hparse]

namespace EntryPoint

theorem own?_mark_newFunction (e : EntryPoint) (m : Module) (k : Bytes) :
    (e.mark (m.newFunction e.name ⟨.void, []⟩ .external)).own? k =
      (e.attributes.reverse.find? fun x => k = Bytes.ofString x.1).map (·.2) := by
  rw [own?_mark, Fn.own?_newFunction, Option.or_none]

theorem isEntryPoint_mark (e : EntryPoint) (f : Fn) : (e.mark f).isEntryPoint = true := by
  have hown : ((e.mark f).own? (Bytes.ofString "entry_point")).isSome := by
    rw [own?_mark]
    simp [attributes, Bytes.ofString_inj]
  exact Bool.or_eq_true_iff.mpr (.inl hown)

end EntryPoint

theorem Session.module?_addEntryPoint {s : Session} {i : Nat} {m : Module}
    (hm : s.module? i = some m) (e : EntryPoint) :
    (∃ n, (s.addEntryPoint i e).2.module? i = some n ∧
      n.functions = m.functions ++ [e.mark (m.newFunction e.name ⟨.void, []⟩ .external)]) ∧
    ∀ j, j ≠ i → (s.addEntryPoint i e).2.module? j = s.module? j := by
  have hplace : (s.addFunction i e.name ⟨.void, []⟩).1 = ⟨i, m.functions.length⟩ := by
    have hm' : s.modules[i]? = some m := hm
    simp [addFunction, hm']
  rw [addEntryPoint_eq, hplace]
  constructor
  · refine ⟨(m.addFunction e.name ⟨.void, []⟩).updateFunction m.functions.length e.mark, ?_, ?_⟩
    · rw [updateFn, module?_updateModule, if_pos rfl, addFunction, module?_updateModule, if_pos rfl,
        hm, Option.map_some, Option.map_some]
    · simp [Module.updateFunction, Module.addFunction, Module.newFunction,
        List.modify_eq_take_drop]
  · intro j hj
    rw [updateFn, module?_updateModule, if_neg (Ne.symm hj), addFunction, module?_updateModule,
      if_neg (Ne.symm hj)]

namespace Module

def entryPlaces (m : Module) : List Nat :=
  (List.range m.functions.length).filter fun k => (m.functions[k]?).any Fn.isEntryPoint

theorem pairwise_entryPlaces (m : Module) : m.entryPlaces.Pairwise (· < ·) :=
  List.Pairwise.filter _ List.pairwise_lt_range

theorem entryPoints_eq (m : Module) :
    m.entryPoints = m.entryPlaces.filterMap fun k => (m.functions[k]?).map Fn.name := by
  unfold entryPoints entryPlaces
  induction m.functions using List.reverseRecOn with
  | nil => rfl
  | append_singleton fs f ih =>
    have hold : ∀ k ∈ List.range fs.length, (fs ++ [f])[k]? = fs[k]? := by
      intro k hk
      exact List.getElem?_append_left (List.mem_range.mp hk)
    rw [List.filter_append, List.map_append, ih, List.length_append, List.length_singleton,
      List.range_succ, List.filter_append, List.filterMap_append]
    congr 1
    · rw [List.filterMap_filter, List.filterMap_filter]
      apply List.filterMap_congr
      intro k hk
      rw [hold k hk]
    · by_cases hf : f.isEntryPoint <;> simp [hf]

/-- Entry points stay where they are, and more may follow. -/
theorem sublist_entryPlaces {m n : Module} (hl : m.functions.length ≤ n.functions.length)
    (h : ∀ (k : Nat) (f : Fn), m.functions[k]? = some f → f.isEntryPoint = true →
      ∃ g : Fn, n.functions[k]? = some g ∧ g.isEntryPoint = true) :
    m.entryPlaces.Sublist n.entryPlaces := by
  apply (List.monotone_filter_right _ ?_).trans ((List.range_sublist.mpr hl).filter _)
  intro k hk
  cases hf : m.functions[k]? with
  | none => simp [hf] at hk
  | some f =>
    rw [hf] at hk
    obtain ⟨g, hg, hentry⟩ := h k f hf hk
    rw [hg]
    exact hentry

theorem entryPlaces_append {m n : Module} {f : Fn} (h : n.functions = m.functions ++ [f])
    (hf : f.isEntryPoint = true) : n.entryPlaces = m.entryPlaces ++ [m.functions.length] := by
  unfold entryPlaces
  rw [h, List.length_append, List.length_singleton, List.range_succ, List.filter_append]
  congr 1
  · apply List.filter_congr
    intro k hk
    rw [List.getElem?_append_left (List.mem_range.mp hk)]
  · simp [hf]

end Module

namespace Session

def entryPlaces (s : Session) (i : Nat) : List Nat :=
  ((s.module? i).map Module.entryPlaces).getD []

theorem Retains.isEntryPoint {s t : Session} (h : s.Retains t) {r : FnRef} {f : Fn}
    (hf : s.fn? r = some f) (hentry : f.isEntryPoint = true) :
    ∃ g, t.fn? r = some g ∧ g.isEntryPoint = true := by
  obtain ⟨g, hg, -⟩ := h.grows.fn? hf
  have hkeys := (h.attrs r f g hf hg .function).keys
  refine ⟨g, hg, ?_⟩
  rw [Fn.isEntryPoint, Bool.or_eq_true] at hentry ⊢
  exact hentry.imp (hkeys _) (hkeys _)

theorem Retains.entryPlaces {s t : Session} (h : s.Retains t) (i : Nat) :
    (s.entryPlaces i).Sublist (t.entryPlaces i) := by
  unfold Session.entryPlaces
  cases hm : s.module? i with
  | none => exact List.nil_sublist _
  | some m =>
    obtain ⟨n, hn, hg⟩ := h.grows.module? hm
    rw [hn]
    apply Module.sublist_entryPlaces hg.functions.length_le
    intro k f hf hentry
    obtain ⟨g, hg, hentry⟩ := h.isEntryPoint (r := ⟨i, k⟩) (fn?_eq_some_iff.mpr ⟨m, hm, hf⟩) hentry
    obtain ⟨n', hn', hk⟩ := fn?_eq_some_iff.mp hg
    obtain rfl : n = n' := Option.some.inj (hn.symm.trans hn')
    exact ⟨g, hk, hentry⟩

end Session

namespace Config

variable {c d : Config} {i : Nat}

/-- The place of the function that the next step makes for an entry point of a module. -/
def enters (i : Nat) (c : Config) : List Nat :=
  match c.steps with
  | .perform (.entryPoint _) :: _ =>
    if c.session.current = i then
      ((c.session.module? i).map fun m => m.functions.length).toList
    else []
  | _ => []

theorem next_entryPlaces (h : c.next = some d) :
    (c.session.entryPlaces i ++ c.enters i).Sublist (d.session.entryPlaces i) := by
  have hkept := (next_retains h).entryPlaces i
  obtain ⟨steps, stack, s⟩ := c
  unfold enters
  split
  next e rest hsteps =>
    obtain rfl : steps = _ := hsteps
    obtain rfl := Option.some.inj h
    split
    next hi =>
      obtain rfl : s.current = i := hi
      cases hm : s.module? s.current with
      | none => simpa [hm] using hkept
      | some m =>
        obtain ⟨⟨n, hn, hf⟩, -⟩ := module?_addEntryPoint hm e
        have hplaces := Module.entryPlaces_append hf (e.isEntryPoint_mark _)
        have hd : (Command.entryPoint e).act.leaves s = (s.addEntryPoint s.current e).2 := rfl
        simp only [answer_snd, hd, Session.entryPlaces, hm, hn, hplaces, Option.map_some,
          Option.getD_some, Option.toList_some]
        exact List.Sublist.refl _
    · simpa using hkept
  · simpa using hkept

/-- The functions that were made for entry points are in the list, in the order in which they were
made. -/
theorem Trace.entryPlaces {made : List Nat} (h : Trace (enters i) c made d) :
    (c.session.entryPlaces i ++ made).Sublist (d.session.entryPlaces i) := by
  induction h with
  | start => simp
  | step _ hn ih =>
    rw [← List.append_assoc]
    exact (ih.append_right _).trans (next_entryPlaces hn)

end Config

namespace Program

/-- An entry point is one new function. At every later point of the run it is an entry point, no
other function or global has its name unless it has none, and the functions that were made for entry
points are in the list of the module once each, in the order in which they were made. It has the
counts that were declared as long as nothing has been set under the keys that they are read from. -/
theorem entryPoint_kept {p : Program} {e : EntryPoint} {rest : List Step} {stack : List Frame}
    {s : Session} (h : p.start.Reaches ⟨.perform (.entryPoint e) :: rest, stack, s⟩)
    (hqubits : e.qubits < 2 ^ 64) (hresults : e.results < 2 ^ 64) :
    ∃ m n f t, s.module? s.current = some m ∧
      Config.next ⟨.perform (.entryPoint e) :: rest, stack, s⟩ = some ⟨rest, stack, t⟩ ∧
      t.module? s.current = some n ∧ n.functions = m.functions ++ [f] ∧
      (∀ j, j ≠ s.current → t.module? j = s.module? j) ∧
      ∀ d, Config.Reaches ⟨rest, stack, t⟩ d →
        ∃ o g, d.session.module? s.current = some o ∧
          o.functions[m.functions.length]? = some g ∧ g.isEntryPoint = true ∧
          (g.name ≠ "" →
            (∀ k f', o.functions[k]? = some f' → f'.name = g.name → k = m.functions.length) ∧
            ∀ x ∈ o.globals, x.name ≠ g.name) ∧
          (o.entryPoints = o.entryPlaces.filterMap fun k => (o.functions[k]?).map Fn.name) ∧
          o.entryPlaces.Pairwise (· < ·) ∧
          (∀ made, Config.Trace (Config.enters s.current) p.start made d →
            made.Sublist o.entryPlaces) ∧
          ∀ keys, Config.Trace (Config.writes ⟨s.current, m.functions.length⟩) ⟨rest, stack, t⟩
              keys d →
            (Bytes.ofString "requiredQubits" ∉ keys → Bytes.ofString "required_num_qubits" ∉ keys →
              g.requiredQubits? = some e.qubits) ∧
            (Bytes.ofString "requiredResults" ∉ keys →
              Bytes.ofString "required_num_results" ∉ keys →
                g.requiredResults? = some e.results) := by
  obtain ⟨m, hm⟩ := Option.isSome_iff_exists.mp (h.isSome_current rfl)
  obtain ⟨⟨n, hn, hf⟩, hother⟩ := module?_addEntryPoint hm e
  set f := e.mark (m.newFunction e.name ⟨.void, []⟩ .external) with hmark
  set t := (s.addEntryPoint s.current e).2
  have hnext :
      Config.next ⟨.perform (.entryPoint e) :: rest, stack, s⟩ = some ⟨rest, stack, t⟩ := by
    simp only [Config.next, answer_snd]
    rfl
  refine ⟨m, n, f, t, hm, hnext, hn, hf, hother, fun d hd => ?_⟩
  have ht : t.fn? ⟨s.current, m.functions.length⟩ = some f :=
    fn?_eq_some_iff.mpr ⟨n, hn, by simp [hf]⟩
  obtain ⟨g, hg, hentry⟩ := hd.retains.isEntryPoint ht (e.isEntryPoint_mark _)
  obtain ⟨o, ho, hk⟩ := fn?_eq_some_iff.mp hg
  have hdistinct : o.Distinct :=
    Session.Reachable.distinct ⟨d, ⟨p.name, p.steps, h.trans (.of_next hnext hd)⟩, rfl⟩ ho
  refine ⟨o, g, ho, hk, hentry, ?_, o.entryPoints_eq, o.pairwise_entryPlaces, ?_, ?_⟩
  · intro hname
    constructor
    · intro k f' hf' hsame
      have hplace := hdistinct.findFunction?_eq hf' (hsame ▸ hname)
      rw [hsame, hdistinct.findFunction?_eq hk hname] at hplace
      exact (Option.some.inj hplace).symm
    · intro x hx
      exact hdistinct.global_ne hx (List.mem_of_getElem? hk) hname
  · intro made hmade
    have hplaces := (List.sublist_append_right _ _).trans hmade.entryPlaces
    rwa [Session.entryPlaces, ho] at hplaces
  · intro keys hkeys
    have hkept : ∀ key, key ≠ "irreversible" → Bytes.ofString key ∉ keys →
        g.attr? key = f.attr? key := by
      intro key hkey hnot
      have hne : Bytes.ofString key ≠ Bytes.ofString "irreversible" :=
        mt Bytes.ofString_inj.mp hkey
      obtain ⟨g', hg', hown⟩ := hkeys.keepsAttr hne hnot f ht
      obtain rfl := Option.some.inj (hg.symm.trans hg')
      exact hown
    have hdeclared : ∀ key, f.attr? key =
        (e.attributes.reverse.find? fun x => key = x.1).map (·.2) := by
      intro key
      have hown := e.own?_mark_newFunction m (Bytes.ofString key)
      simp only [Bytes.ofString_inj] at hown
      exact hown
    constructor
    · intro hnew hold
      apply Fn.count?_eq _ _ hqubits
      · rw [hkept _ (by decide) hnew, hdeclared]
        simp [EntryPoint.attributes]
      · rw [hkept _ (by decide) hold, hdeclared]
        simp [EntryPoint.attributes]
    · intro hnew hold
      apply Fn.count?_eq _ _ hresults
      · rw [hkept _ (by decide) hnew, hdeclared]
        simp [EntryPoint.attributes]
      · rw [hkept _ (by decide) hold, hdeclared]
        simp [EntryPoint.attributes]

/-- A global has the name that an entry point asks for, and one of its counts is set anew. -/
def takenName : Program where
  name := "m"
  steps := [
    .perform (.newGlobal "main" (.int 8)),
    .perform (.entryPoint ⟨"main", 2 ^ 64 - 1, 2, "custom", "labeled"⟩),
    .perform (.addAttr "main.1" .function (Bytes.ofString "requiredResults")
      (Bytes.ofString "+007"))]

theorem entryPoint_kept_takenName :
    ∃ d m g, takenName.start.Reaches d ∧ d.steps = [] ∧ d.session.module? 0 = some m ∧
      m.functions[0]? = some g ∧ g.isEntryPoint = true ∧
      g.requiredQubits? = some (2 ^ 64 - 1) := by
  set s := ((Command.newGlobal "main" (.int 8)).act.answer takenName.start.session).2
  have hstart : takenName.start.Reaches ⟨takenName.steps.tail, [], s⟩ := .of_next rfl .refl
  have hempty : ∀ m, s.module? s.current = some m → m.functions.length = 0 := by
    rintro m hm
    obtain rfl := Option.some.inj hm
    rfl
  obtain ⟨m, n, f, t, hm, hnext, -, -, -, hlater⟩ :=
    entryPoint_kept hstart (by decide) (by decide)
  obtain ⟨o, g, ho, hg, hentry, -, -, -, -, hcounts⟩ := hlater _ (.of_next rfl .refl)
  rw [hempty m hm] at hg hcounts
  obtain ⟨hqubits, -⟩ := hcounts _ (.step .start rfl)
  have hkeys : ∀ key ∈ Config.writes ⟨s.current, 0⟩ ⟨takenName.steps.tail.tail, [], t⟩,
      key = Bytes.ofString "requiredResults" := by
    intro key hkey
    simp only [Config.writes, takenName, List.tail_cons] at hkey
    split at hkey
    · exact List.mem_singleton.mp hkey
    · cases hkey
  refine ⟨_, o, g, hstart.trans (.of_next hnext (.of_next rfl .refl)), rfl, ho, hg, hentry, ?_⟩
  apply hqubits
  · exact fun hkey => absurd (hkeys _ hkey) (by decide)
  · exact fun hkey => absurd (hkeys _ hkey) (by decide)

end Program

end QuantumIR
