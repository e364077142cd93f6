import QuantumIR.Proofs.Structured
import QuantumIR.Proofs.Symbol

/-! # The function that an operation calls

An operation calls the function of its name in the module of the builder's block, whatever its
signature, and declares one if there is none. Only a global can keep the name from the function that
is declared; then every call declares another one.
-/

namespace QuantumIR

/-- The function that an operation calls: one that was there under its name, or a new one, whose
name is free. -/
inductive Module.Callee (m : Module) (op : Operation) (k : Nat) (f : Fn) : Prop
  | found {f₀ : Fn} : m.findFunction? op.symbol = some k → m.functions[k]? = some f₀ →
      f₀.Grows f → Callee m op k f
  | declared : m.findFunction? op.symbol = none → k = m.functions.length →
      f.name = (m.freshSymbol op.symbol).1 → f.sig = op.signature → Callee m op k f

namespace Module.Callee

variable {m n : Module} {op : Operation} {j k : Nat} {f g : Fn}

theorem grows (h : m.Callee op k f) (hg : f.Grows g) : m.Callee op k g := by
  cases h with
  | found hk hf hf₀ => exact .found hk hf (Fn.Grows.trans _ _ _ hf₀ hg)
  | declared hk hl hn hs => exact .declared hk hl (hg.name.trans hn) (hg.sig.trans hs)

theorem of_strings {strings : List Bytes}
    (h : ({ m with globals := m.globals ++ strings.map .ofString } : Module).Callee op k f) :
    m.Callee op k f := by
  have hsymbols : ({ m with globals := m.globals ++ strings.map .ofString } : Module).symbols =
      m.symbols := by
    have hstrings : (strings.map fun x => (Global.ofString x).name).filter (· ≠ "") = [] := by
      simp [Global.ofString]
    simp only [symbols, List.map_append, List.filter_append, List.map_map, Function.comp_def,
      hstrings, List.append_nil]
  cases h with
  | found hk hf hg => exact .found hk hf hg
  | declared hk hl hn hs =>
    rw [freshSymbol, hsymbols] at hn
    exact .declared hk hl hn hs

/-- The function has the name of the operation unless a global has it. -/
theorem name_eq_iff (h : m.Callee op k f) (hm : m.Distinct) :
    f.name = op.symbol ↔ ∀ g ∈ m.globals, g.name ≠ op.symbol := by
  cases h with
  | @found f₀ hk hf hg =>
    obtain ⟨f₁, hf₁, hn⟩ := findFunction?_eq_some hk
    obtain rfl : f₀ = f₁ := Option.some.inj (hf.symm.trans hf₁)
    refine iff_of_true (hg.name.trans hn) fun g hg => ?_
    rw [← hn]
    exact hm.global_ne hg (List.mem_of_getElem? hf) (hn ▸ op.symbol_ne_empty)
  | declared hk _ hn _ =>
    have hnone := findFunction?_eq_none hk
    rw [hn, freshSymbol_eq_iff, symbols]
    simp only [List.mem_filter, List.mem_append, hnone, or_false, op.symbol_ne_empty, ne_eq,
      not_false_eq_true, decide_true, and_true, List.mem_map, not_exists, not_and]

theorem sig_eq_iff (h : m.Callee op k f) (hm : m.Distinct) :
    f.sig = op.signature ↔ ∀ g ∈ m.functions, g.name = op.symbol → g.sig = op.signature := by
  cases h with
  | @found f₀ hk hf hg =>
    rw [hg.sig]
    constructor
    · intro hs g hgm hn
      obtain ⟨j, hj⟩ := List.mem_iff_getElem?.mp hgm
      have hfind := hm.findFunction?_eq hj (hn ▸ op.symbol_ne_empty)
      rw [hn, hk] at hfind
      obtain rfl := Option.some.inj hfind
      obtain rfl : f₀ = g := Option.some.inj (hf.symm.trans hj)
      exact hs
    · intro hall
      obtain ⟨f₁, hf₁, hn⟩ := findFunction?_eq_some hk
      obtain rfl : f₀ = f₁ := Option.some.inj (hf.symm.trans hf₁)
      exact hall f₀ (List.mem_of_getElem? hf) hn
  | declared hk _ _ hs =>
    refine iff_of_true hs fun g hg hn => absurd ?_ (findFunction?_eq_none hk)
    exact List.mem_map.mpr ⟨g, hg, hn⟩

/-- A call in a later module calls the same function unless a global has the name. -/
theorem eq_iff {g f' : Fn} (h : m.Callee op k f) (hm : m.Distinct) (hn : n.Distinct)
    (hglobals : m.globals <+: n.globals) (hg : n.functions[k]? = some g) (hname : g.name = f.name)
    (h' : n.Callee op j f') : j = k ↔ ∀ g ∈ m.globals, g.name ≠ op.symbol := by
  constructor
  · rintro rfl x hx hxn
    have hnone : n.findFunction? op.symbol = none := by
      by_contra hsome
      obtain ⟨i, hi⟩ := Option.ne_none_iff_exists'.mp hsome
      obtain ⟨f₁, hf₁, hn₁⟩ := findFunction?_eq_some hi
      refine hn.global_ne (hglobals.subset hx) (List.mem_of_getElem? hf₁) ?_ (hxn.trans hn₁.symm)
      exact hn₁ ▸ op.symbol_ne_empty
    cases h' with
    | found hk _ _ =>
      rw [hnone] at hk
      cases hk
    | declared _ hl _ _ =>
      have hlt := (List.getElem?_eq_some_iff.mp hg).1
      omega
  · intro hall
    have hgn : g.name = op.symbol := hname.trans ((h.name_eq_iff hm).mpr hall)
    have hfind := hn.findFunction?_eq hg (hgn ▸ op.symbol_ne_empty)
    rw [hgn] at hfind
    cases h' with
    | found hk _ _ => exact Option.some.inj (hk.symm.trans hfind)
    | declared hk _ _ _ =>
      rw [hk] at hfind
      cases hfind

end Module.Callee

namespace Session

variable {s t : Session} {b : BlockRef} {m : Module} {op : Operation} {args : List Value}
  {v : Value} {i : Nat}

theorem mark_grows (s : Session) (op : Operation) (r : FnRef) : s.Grows (s.mark op r) :=
  (mark_acts s op r).grows

theorem prepare_callee (op : Operation) (hm : s.module? i = some m) :
    ∃ k f, (s.prepare i op).1 = ⟨i, k⟩ ∧ (s.prepare i op).2.fn? ⟨i, k⟩ = some f ∧
      m.Callee op k f := by
  unfold prepare
  have hm' := (module?_congr (modules_foldl_ensureStruct op.structs s) i).trans hm
  generalize op.structs.foldl ensureStruct s = u at hm'
  unfold declare
  rw [hm', Option.bind_some]
  cases hk : m.findFunction? op.symbol with
  | some k =>
    obtain ⟨f₀, hf₀, -⟩ := Module.findFunction?_eq_some hk
    have hfn : u.fn? ⟨i, k⟩ = some f₀ := fn?_eq_some_iff.mpr ⟨m, hm', hf₀⟩
    obtain ⟨f, hf, hgrows⟩ := (mark_grows u op ⟨i, k⟩).fn? hfn
    exact ⟨k, f, rfl, hf, .found hk hf₀ hgrows⟩
  | none =>
    have hnew : (u.addFunction i op.symbol op.signature).2.fn? ⟨i, m.functions.length⟩ =
        some { name := (m.freshSymbol op.symbol).1, sig := op.signature } := by
      rw [addFunction, fn?_updateModule, if_pos rfl, hm']
      simp [Module.addFunction_unreserved m op.not_prefix_symbol]
    obtain ⟨f, hf, hgrows⟩ := (mark_grows _ op _).fn? hnew
    have hm'' : u.modules[i]? = some m := hm'
    refine ⟨m.functions.length, f, by simp [addFunction, hm''], ?_, ?_⟩
    · simpa [addFunction, hm''] using hf
    · exact .declared hk rfl hgrows.name hgrows.sig

theorem emit_callee {body : List Instr} (hm : s.module? b.fn.module = some m)
    (hp : s.position = .endOf b) (hb : s.body? b = some body) (h : s.emit op args = .ok (v, t)) :
    ∃ k f, t.fn? ⟨b.fn.module, k⟩ = some f ∧
      t.body? b = some (body ++ [.call ⟨b.fn.module, k⟩ f.sig args]) ∧ m.Callee op k f := by
  obtain ⟨k, f, hk, hf, hcallee⟩ := prepare_callee op hm
  obtain ⟨-, g, hg, hgrows, hbody, -⟩ := emit_at hp hb h hk hf
  exact ⟨k, g, hg, hbody, hcallee.grows hgrows⟩

end Session

open Session Attempt

namespace Step

variable {s : Session} {b : BlockRef} {m : Module} {op : Operation} {args : List ValueExpr}
  {values : List Value}

def Appends (step : Step) (s : Session) (i : Instr) : Prop :=
  ∃ b body, s.position = .endOf b ∧ s.body? b = some body ∧
    (step.run s).2.body? b = some (body ++ [i])

theorem apply_callee {u : Session} (hs : s.Stands b) (hm : s.module? b.fn.module = some m)
    (hlen : args.length = op.params.length) (hargs : ValueExpr.evalList args s = .ok values u) :
    ∃ k f, ((perform (.apply op args)).run s).2.fn? ⟨b.fn.module, k⟩ = some f ∧
      (perform (.apply op args)).Appends s (.call ⟨b.fn.module, k⟩ f.sig values) ∧
      m.Callee op k f := by
  have he := ValueExpr.evalList_evaluates args s
  rw [leaves_ok hargs] at he
  have hu := hs.of_evaluates he
  obtain ⟨v, hv⟩ := run_apply hlen hargs hu
  obtain ⟨strings, -, hmu⟩ := he.module? hm
  obtain ⟨body, hbody⟩ := Option.isSome_iff_exists.mp hu.exist
  obtain ⟨k, f, hf, hcall, hcallee⟩ := emit_callee hmu hu.position hbody hv
  exact ⟨k, f, hf, ⟨b, body, hs.position, he.body? b ▸ hbody, hcall⟩, hcallee.of_strings⟩

/-- An operation appends a call of a function of the module of the builder's block. The function has
the operation's name exactly when no global has it, and the operation's signature exactly when it
was not declared with another one before; and the same function is called each time the operation
is used again, unless a global has the name. -/
theorem apply_calls {rest : List Step} {stack : List Frame} {u : Session}
    (hc : Config.Reachable ⟨perform (.apply op args) :: rest, stack, s⟩)
    (hp : s.position = .endOf b) (hm : s.module? b.fn.module = some m)
    (hlen : args.length = op.params.length) (hargs : ValueExpr.evalList args s = .ok values u) :
    ∃ k f, ((perform (.apply op args)).run s).2.fn? ⟨b.fn.module, k⟩ = some f ∧
      (perform (.apply op args)).Appends s (.call ⟨b.fn.module, k⟩ f.sig values) ∧
      (f.name = op.symbol ↔ ∀ g ∈ m.globals, g.name ≠ op.symbol) ∧
      (f.sig = op.signature ↔ ∀ g ∈ m.functions, g.name = op.symbol → g.sig = op.signature) ∧
      ∀ d b' args' values' u',
        Config.Reaches ⟨rest, stack, ((perform (.apply op args)).run s).2⟩ d →
          d.session.position = .endOf b' → b'.fn.module = b.fn.module →
            args'.length = op.params.length →
              ValueExpr.evalList args' d.session = .ok values' u' →
                ∃ k' sig, (perform (.apply op args')).Appends d.session
                    (.call ⟨b.fn.module, k'⟩ sig values') ∧
                  (k' = k ↔ ∀ g ∈ m.globals, g.name ≠ op.symbol) := by
  have hs : s.Reachable := ⟨_, hc, rfl⟩
  obtain ⟨k, f, hf, happ, hcallee⟩ := apply_callee (hs.stands hp) hm hlen hargs
  have hdistinct := hs.distinct hm
  refine ⟨k, f, hf, happ, hcallee.name_eq_iff hdistinct, hcallee.sig_eq_iff hdistinct, ?_⟩
  intro d b' args' values' u' hd hp' hb' hlen' hargs'
  have hnext : Config.Reaches ⟨perform (.apply op args) :: rest, stack, s⟩ d :=
    (reaches_run (.perform (.apply op args)) rest stack s nofun).trans hd
  have hsd : d.session.Reachable := by
    obtain ⟨name, steps, h⟩ := hc
    exact ⟨d, ⟨name, steps, h.trans hnext⟩, rfl⟩
  obtain ⟨n, hn, hmn⟩ := hnext.retains.grows.module? hm
  obtain ⟨g, hg, hfg⟩ := hd.retains.grows.fn? hf
  obtain ⟨n', hn', hg'⟩ := fn?_eq_some_iff.mp hg
  obtain rfl : n = n' := Option.some.inj (hn.symm.trans hn')
  obtain ⟨k', f', -, happ', hcallee'⟩ := apply_callee (hsd.stands hp') (hb'.symm ▸ hn) hlen' hargs'
  rw [hb'] at happ'
  refine ⟨k', f'.sig, happ', ?_⟩
  exact hcallee.eq_iff hdistinct (hsd.distinct hn) hmn.globals hg' hfg.name hcallee'

/-- A global whose name only begins with the name of an operation. -/
def similarName : Program where
  name := "m"
  steps := [
    .perform (.newGlobal "__quantum__qis__h__body.1" (.int 8)),
    .perform (.declare "f" .void [] .external),
    .perform (.newBlock "f" "entry")]

theorem apply_calls_similarName :
    ∃ k f, ((perform (.apply .h [.qubit 0])).run similarName.run.session).2.fn? ⟨0, k⟩ = some f ∧
      f.name = Operation.h.symbol ∧ f.sig = Operation.h.signature ∧
      (perform (.apply .h [.qubit 0])).Appends similarName.run.session
        (.call ⟨0, k⟩ f.sig [.const (.null .qubit)]) ∧
      ∃ sig, (perform (.apply .h [.qubit 1])).Appends
        ((perform (.apply .h [.qubit 0])).run similarName.run.session).2
        (.call ⟨0, k⟩ sig [.const (.address 1 .qubit)]) := by
  have hc : Config.Reachable ⟨perform (.apply .h [.qubit 0]) :: [perform (.apply .h [.qubit 1])],
      [], similarName.run.session⟩ :=
    ⟨"m", similarName.steps ++ [_, _], .of_next rfl (.of_next rfl (.of_next rfl .refl))⟩
  obtain ⟨k, f, hf, happ, hname, hsig, hagain⟩ := apply_calls (b := ⟨⟨0, 0⟩, 0⟩) hc rfl rfl rfl rfl
  obtain ⟨k', sig, happ', hk⟩ :=
    hagain _ ⟨⟨0, 0⟩, 0⟩ [.qubit 1] [.const (.address 1 .qubit)] _ .refl rfl rfl rfl rfl
  have hglobals : ∀ g ∈ [({ name := "__quantum__qis__h__body.1", ty := .int 8 } : Global)],
      g.name ≠ Operation.h.symbol := by decide
  obtain rfl := hk.mpr hglobals
  exact ⟨k', f, hf, hname.mpr hglobals, hsig.mpr (by decide), happ, sig, happ'⟩

def otherType : Program where
  name := "m"
  steps := [
    .perform (.declare "__quantum__qis__h__body" (.int 1) [.qubit] .external),
    .perform (.declare "f" .void [] .external),
    .perform (.newBlock "f" "entry"),
    .perform (.apply .h [.qubit 0])]

def nameTaken : Program where
  name := "m"
  steps := [
    .perform (.newGlobal "__quantum__qis__h__body" (.int 8)),
    .perform (.declare "f" .void [] .external),
    .perform (.newBlock "f" "entry"),
    .perform (.apply .h [.qubit 0]),
    .perform (.apply .h [.qubit 0])]

/-- Operations do not always call a function of their own name and type, nor the same one. -/
theorem not_apply_calls_own :
    (∃ f, otherType.run.session.fn? ⟨0, 0⟩ = some f ∧ f.sig ≠ Operation.h.signature ∧
      otherType.run.session.body? ⟨⟨0, 1⟩, 0⟩ =
        some [.call ⟨0, 0⟩ f.sig [.const (.null .qubit)]]) ∧
    ∃ f g, nameTaken.run.session.fn? ⟨0, 1⟩ = some f ∧ f.name ≠ Operation.h.symbol ∧
      nameTaken.run.session.fn? ⟨0, 2⟩ = some g ∧ g.name ≠ Operation.h.symbol ∧
      nameTaken.run.session.body? ⟨⟨0, 0⟩, 0⟩ =
        some [.call ⟨0, 1⟩ f.sig [.const (.null .qubit)],
          .call ⟨0, 2⟩ g.sig [.const (.null .qubit)]] := by
  refine ⟨⟨_, rfl, ?_, ?_⟩, _, _, rfl, ?_, rfl, ?_, ?_⟩
  · decide +kernel
  · decide +kernel
  · decide +kernel
  · decide +kernel
  · decide +kernel

end Step

end QuantumIR
