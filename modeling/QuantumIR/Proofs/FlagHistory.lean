import Mathlib.Algebra.Group.Int.Defs
import Mathlib.Algebra.Group.Nat.Defs
import QuantumIR.Proofs.Retention

/-! # The history of module flags

The flags of a module are those that commands have added to it, in order and each once. So a version
or a truth value is read from the first flag that was ever added under its name, and a flag that has
been set for the first time keeps its value to the end of every run.
-/

namespace QuantumIR

open Relation

/-- The number that a flag's value stands for: an integer, or a node that holds nothing else. -/
def Metadata.number? : Metadata → Option Nat
  | .const (.int _ n) => some n
  | .node [.const (.int _ n)] => some n
  | _ => none

theorem Metadata.bind_constant? (m : Metadata) : m.constant?.bind Constant.toNat? = m.number? := by
  have hconst : ∀ c : Constant, c.toNat? = (Metadata.const c).number? := by
    intro c
    cases c <;> rfl
  have hnode : ∀ c : Constant, c.toNat? = (Metadata.node [.const c]).number? := by
    intro c
    cases c <;> rfl
  match m with
  | .str _ | .bound _ | .node [] => rfl
  | .const c => exact hconst c
  | .node [.const c] => exact hnode c
  | .node [.str _] | .node [.bound _] | .node [.node _] => rfl
  | .node (.const c :: _ :: _) => cases c <;> rfl
  | .node (.str _ :: _ :: _) | .node (.bound _ :: _ :: _) | .node (.node _ :: _ :: _) => rfl

theorem Metadata.number?_ofInt {value : Int} (hv : 0 ≤ value) (hlt : value < 2 ^ 31) :
    (Metadata.const (.ofInt 32 value)).number? = some value.toNat := by
  have hmod : value % ((2 ^ 32 : Nat) : Int) = value := Int.emod_eq_of_lt hv (by omega)
  exact congrArg (fun n => some (Int.toNat n)) hmod

def Flag.first? (id : String) (fs : List Flag) : Option Nat :=
  (fs.find? (·.id = id)).bind fun f => f.value.number?

theorem Flag.first?_of_prefix {fs gs : List Flag} {f : Flag} (h : ∀ g ∈ fs, g.id ≠ f.id)
    (hgs : fs ++ [f] <+: gs) : Flag.first? f.id gs = f.value.number? := by
  obtain ⟨hs, rfl⟩ := hgs
  have hnone : fs.find? (·.id = f.id) = none := by simpa using h
  rw [Flag.first?, List.find?_append, List.find?_append, hnone]
  simp

namespace Module

theorem flagNumber?_eq (m : Module) (id : String) : m.flagNumber? id = Flag.first? id m.flags := by
  unfold flagNumber? flag? Flag.first?
  simp only [Metadata.bind_constant?]
  cases m.flags.find? _ <;> rfl

theorem version?_eq (m : Module) (f : VersionFlag) :
    m.version? f = (Flag.first? f.id m.flags).filter (· ≤ 2 ^ 31 - 1) := by
  have hlt : ∀ n : Nat, decide (n < Nat.pow 2 31) = decide (n ≤ 2 ^ 31 - 1) := by
    intro n
    have hn : n < 2 ^ 31 ↔ n ≤ 2 ^ 31 - 1 := by omega
    exact decide_eq_decide.mpr hn
  rw [version?, flagNumber?_eq]
  simp only [hlt]

theorem management?_eq (m : Module) (f : ManagementFlag) :
    m.management? f = (Flag.first? f.id m.flags).map (fun n => decide (n ≠ 0)) := by
  rw [management?, flagNumber?_eq]

end Module

namespace Session

variable {s t : Session}

theorem Grows.isSome_current (hg : s.Grows t) (hc : t.current = s.current)
    (hs : (s.module? s.current).isSome) : (t.module? t.current).isSome := by
  obtain ⟨m, hm⟩ := Option.isSome_iff_exists.mp hs
  obtain ⟨n, hn, -⟩ := hg.module? hm
  simp [hc, hn]

def flags (s : Session) (i : Nat) : List Flag := ((s.module? i).map Module.flags).getD []

theorem flags_eq {i : Nat} {m : Module} (h : s.module? i = some m) : s.flags i = m.flags := by
  simp [flags, h]

theorem flags_congr (h : t.modules = s.modules) : t.flags = s.flags := by
  funext i
  rw [flags, flags, module?_congr h]

theorem flags_updateModule {g : Module → Module} (hg : ∀ m, (g m).flags = m.flags) (i : Nat) :
    (s.updateModule i g).flags = s.flags := by
  funext j
  rw [flags, flags, module?_updateModule]
  split
  · cases s.module? j <;> simp [hg]
  · rfl

@[simp] theorem flags_updateFn (s : Session) (r : FnRef) (g : Fn → Fn) :
    (s.updateFn r g).flags = s.flags :=
  flags_updateModule (g := fun m => m.updateFunction r.index g) (fun _ => rfl) r.module

@[simp] theorem flags_updateBlock (s : Session) (b : BlockRef) (g : Block → Block) :
    (s.updateBlock b g).flags = s.flags :=
  flags_updateFn s b.fn _

@[simp] theorem flags_addBlock (s : Session) (r : FnRef) (name : Bytes) :
    (s.addBlock r name).2.flags = s.flags :=
  flags_updateFn s r _

@[simp] theorem flags_addAttr (s : Session) (r : FnRef) (i : AttrIndex) (a : Attr) :
    (s.addAttr r i a).flags = s.flags :=
  flags_updateFn s r _

@[simp] theorem flags_addFunction (s : Session) (i : Nat) (name : String) (sig : Signature)
    (l : Linkage) : (s.addFunction i name sig l).2.flags = s.flags :=
  flags_updateModule (g := fun m => m.addFunction name sig l) (fun _ => rfl) i

@[simp] theorem flags_addGlobal (s : Session) (i : Nat) (name : String) (ty : Ty)
    (data : Option Bytes) : (s.addGlobal i name ty data).2.flags = s.flags :=
  flags_updateModule (g := fun m => m.addGlobal name ty data) (fun _ => rfl) i

@[simp] theorem flags_append (s : Session) (i : Instr) : (s.append i).flags = s.flags := by
  have hinsert : (s.insert i).flags = s.flags := by
    unfold insert
    split
    · exact flags_updateBlock s _ _
    · rfl
  cases i <;> simp only [append, Instr.targets, List.foldl, flags_updateBlock, hinsert]

@[simp] theorem flags_addModule (s : Session) (name : String) :
    (s.addModule name).flags = s.flags := by
  funext i
  unfold flags module? addModule
  rw [List.getElem?_append]
  split
  · rfl
  next h =>
    rw [List.getElem?_eq_none (Nat.not_lt.mp h)]
    cases i - s.modules.length <;> rfl

theorem flags_addFlag (s : Session) {i : Nat} (h : (s.module? i).isSome) (f : Flag) (j : Nat) :
    (s.updateModule i (·.addFlag f)).flags j = s.flags j ++ if i = j then [f] else [] := by
  rw [flags, flags, module?_updateModule]
  split
  next hj =>
    obtain ⟨m, hm⟩ := Option.isSome_iff_exists.mp (hj ▸ h)
    simp [hm, Module.addFlag]
  · simp

theorem first?_of_addFlag {i : Nat} {f : Flag} (hs : (s.module? i).isSome)
    (hf : ∀ g ∈ s.flags i, g.id ≠ f.id) (hg : (s.updateModule i (·.addFlag f)).Grows t) :
    ∃ n, t.module? i = some n ∧ Flag.first? f.id n.flags = f.value.number? := by
  obtain ⟨m, hm⟩ := Option.isSome_iff_exists.mp hs
  rw [flags_eq hm] at hf
  obtain ⟨n, hn, hmn⟩ := hg.module? (i := i) (m := m.addFlag f) (by simp [module?_updateModule, hm])
  exact ⟨n, hn, Flag.first?_of_prefix hf hmn.flags⟩

theorem Evaluates.flags (h : Evaluates s t) : t.flags = s.flags := by
  induction h with
  | refl => rfl
  | tail _ h ih =>
    refine Eq.trans ?_ ih
    cases h with
    | struct name => exact flags_congr (by simp)
    | cast c d => exact flags_congr (by simp)
    | string h =>
      obtain ⟨-, rfl⟩ := addString_ok h
      simp

theorem flags_prepare (s : Session) (i : Nat) (op : Operation) :
    (s.prepare i op).2.flags = s.flags :=
  prepare_induction (P := fun t => t.flags = s.flags) rfl
    (fun t name h => (flags_congr (modules_ensureStruct t name)).trans h)
    (fun t h => (flags_addFunction t i _ _ _).trans h)
    (fun t r x a _ h => (flags_addAttr t r x a).trans h)

theorem emit_flags {op : Operation} {args : List Value} {v : Value}
    (h : s.emit op args = .ok (v, t)) : t.flags = s.flags :=
  emit_induction (P := fun t => t.flags = s.flags) h
    (fun b _ => flags_prepare s b.fn.module op) fun u _ _ hu => (flags_append u _).trans hu

theorem flags_addEntryPoint (s : Session) (i : Nat) (e : EntryPoint) :
    (s.addEntryPoint i e).2.flags = s.flags :=
  addEntryPoint_induction (P := fun t => t.flags = s.flags) (flags_addFunction s i _ _ _)
    fun t r _ _ _ h => (flags_addAttr t r _ _).trans h

end Session

open Session Attempt

namespace Command

def flag? (s : Session) : Command → Option Flag
  | .setVersion f value =>
    if value < 0 then none else some ⟨f.behavior, f.id, .const (.ofInt 32 value)⟩
  | .setManagement f value => some ⟨.error, f.id, .const (.int 1 value.toNat)⟩
  | .addFlag behavior id value =>
    match value.eval s with
    | .ok value _ => some ⟨behavior, id, value⟩
    | .error _ _ => none
  | _ => none

theorem Does.flags {c : Command} {s t : Session} (h : c.Does s t) (hc : ¬ c.addsFlag) :
    t.flags = s.flags := by
  cases h with
  | side h => exact Evaluates.flags (.single h)
  | module _ name => exact flags_addModule s name
  | flag _ _ h => exact absurd h hc
  | struct h => exact h.flags
  | structBody ts h => exact h.flags
  | entryPoint _ e => exact flags_addEntryPoint s _ e
  | function _ sig => exact flags_addFunction s _ _ sig _
  | global _ ty => exact flags_addGlobal s _ _ ty none
  | attr _ => exact flags_addAttr s _ _ _
  | block _ _ => exact flags_addBlock s _ _
  | instr _ _ _ => exact flags_append s _
  | emit h => exact emit_flags h
  | use | register | move | unset | loose => rfl

theorem act_setVersion {s : Session} {m : Module} (hm : s.module? s.current = some m)
    (f : VersionFlag) (value : Int) :
    (Command.setVersion f value).act s =
      if value < 0 then .error (.panic .negativeVersion) s
      else .ok .done (s.updateModule s.current
        (·.addFlag ⟨f.behavior, f.id, .const (.ofInt 32 value)⟩)) := by
  have hcurrent : currentModule s = .ok m s := by
    refine (bind_of_ok (x := get) (a := s) (t := s) rfl).trans ?_
    rw [hm]
    rfl
  rw [Command.act, bind_of_ok hcurrent, Module.setVersion]
  split
  · rfl
  · rw [← updateModule_const hm]
    rfl

/-- A command adds its flag to the module in use, and no other. -/
theorem flags_act (c : Command) {s : Session} (hs : (s.module? s.current).isSome) (i : Nat) :
    (c.act.leaves s).flags i = s.flags i ++ if s.current = i then (c.flag? s).toList else [] := by
  by_cases hc : c.addsFlag
  · cases c with
    | setVersion f value =>
      obtain ⟨m, hm⟩ := Option.isSome_iff_exists.mp hs
      rw [leaves, act_setVersion hm, flag?]
      by_cases hv : value < 0
      · simp [hv]
      · rw [if_neg hv, if_neg hv]
        exact flags_addFlag s hs _ i
    | setManagement f value => exact flags_addFlag s hs _ i
    | addFlag behavior id value =>
      have heval := (value.eval_evaluates s)
      rw [Command.act, leaves_bind, flag?]
      cases h : value.eval s with
      | error e t =>
        rw [leaves_error h] at heval
        simp [heval.flags]
      | ok v t =>
        rw [leaves_ok h] at heval
        have ht := heval.grows.isSome_current heval.current hs
        have hadd := flags_addFlag t ht ⟨behavior, id, v⟩ i
        rw [heval.flags] at hadd
        rw [← heval.current]
        exact hadd
    | _ => cases hc
  · have hflags : (c.act.leaves s).flags = s.flags := by
      have hdoes := c.act_does s
      generalize c.act.leaves s = t at hdoes
      induction hdoes with
      | refl => rfl
      | tail _ h ih => exact (h.flags hc).trans ih
    have hnone : c.flag? s = none := by
      cases c with
      | setVersion | setManagement | addFlag => exact absurd rfl hc
      | _ => rfl
    simp [hflags, hnone]

end Command

theorem Test.flags_fork (test : Test) (s : Session) : (test.fork.leaves s).flags = s.flags :=
  test.fork_rel (R := fun s t => t.flags = s.flags) (fun _ => rfl) (fun h h' => h'.trans h)
    (fun h => Evaluates.flags (.single h)) emit_flags flags_addBlock flags_append s

theorem Frame.flags_leave (frame : Frame) (failure : Option String) (stack : List Frame)
    (s : Session) : (frame.leave failure stack s).session.flags = s.flags :=
  frame.leave_rel (R := fun s t => t.flags = s.flags) (fun _ => rfl) (fun h h' => h'.trans h)
    flags_append (fun _ _ => rfl) failure stack s

namespace Config

variable {c d e : Config} {i : Nat} {fs : List Flag}

/-- The flag that the next step of a run adds to a module. -/
def adds (i : Nat) (c : Config) : List Flag :=
  match c.steps with
  | .perform command :: _ => if c.session.current = i then (command.flag? c.session).toList else []
  | _ => []

theorem next_flags (h : c.next = some d) (hc : (c.session.module? c.session.current).isSome) :
    d.session.flags i = c.session.flags i ++ c.adds i := by
  rcases next_cases h with ⟨command, rest, hs, rfl⟩ | ⟨test, _, _, _, _, e, t, hs, hf, rfl⟩ |
    ⟨test, _, _, _, _, blocks, t, hs, hf, rfl⟩ | ⟨frame, stack, failure, hr, -, rfl⟩
  · rw [adds, hs]
    exact command.flags_act hc i
  · have hfork := test.flags_fork c.session
    rw [leaves_error hf] at hfork
    simp [adds, hs, hfork]
  · have hfork := test.flags_fork c.session
    rw [leaves_ok hf] at hfork
    rw [adds, hs, List.append_nil, ← hfork]
    rfl
  · have hadds : c.adds i = [] := by
      unfold adds
      cases failure with
      | none => rw [show c.steps = [] from hr]
      | some message =>
        obtain ⟨tail, ht⟩ := hr
        rw [ht]
    rw [hadds, List.append_nil, frame.flags_leave]

theorem next_current (h : c.next = some d) (hc : (c.session.module? c.session.current).isSome) :
    (d.session.module? d.session.current).isSome := by
  have hgrows := (next_retains h).grows
  rcases next_cases h with ⟨command, rest, hs, rfl⟩ | ⟨test, _, _, _, _, e, t, hs, hf, rfl⟩ |
    ⟨test, _, _, _, _, blocks, t, hs, hf, rfl⟩ | ⟨frame, stack, failure, hr, -, rfl⟩
  · have hdoes := command.act_does c.session
    clear hgrows h
    simp only
    generalize command.act.leaves c.session = t at hdoes
    induction hdoes with
    | refl => exact hc
    | tail _ h ih =>
      rcases h.current with he | ⟨-, he⟩
      · exact h.retains.grows.isSome_current he ih
      · exact he
  · refine hgrows.isSome_current ?_ hc
    rw [← test.fork_current c.session, leaves_error hf]
  · refine hgrows.isSome_current ?_ hc
    rw [← test.fork_current c.session, leaves_ok hf]
    rfl
  · exact hgrows.isSome_current (frame.current_leave failure stack c.session) hc

theorem Reaches.isSome_current (h : c.Reaches d)
    (hc : (c.session.module? c.session.current).isSome) :
    (d.session.module? d.session.current).isSome :=
  h.invariant (P := fun d => (d.session.module? d.session.current).isSome)
    (fun _ _ => next_current) hc

/-- What has been added is what is there. -/
theorem Trace.flags (h : Trace (adds i) c fs d)
    (hc : (c.session.module? c.session.current).isSome) :
    d.session.flags i = c.session.flags i ++ fs := by
  induction h with
  | start => simp
  | step hd hn ih => rw [next_flags hn (hd.reaches.isSome_current hc), ih, List.append_assoc]

end Config

namespace Program

def start (p : Program) : Config := ⟨p.steps, [], .start p.name⟩

theorem trace_adds_iff (p : Program) {d : Config} {i : Nat} {fs : List Flag}
    (h : p.start.Reaches d) :
    Config.Trace (Config.adds i) p.start fs d ↔ fs = d.session.flags i := by
  have hflags : ∀ gs, Config.Trace (Config.adds i) p.start gs d → gs = d.session.flags i := by
    intro gs hgs
    have hempty : p.start.session.flags i = [] := by
      cases i <;> rfl
    rw [hgs.flags rfl, hempty, List.nil_append]
  constructor
  · exact hflags fs
  · rintro rfl
    obtain ⟨gs, hgs⟩ := h.exists_trace (Config.adds i)
    rwa [hflags gs hgs] at hgs

end Program

namespace Step

theorem run_setVersion {s : Session} (hs : (s.module? s.current).isSome) (f : VersionFlag)
    (value : Int) : (perform (.setVersion f value)).run s =
      if value < 0 then (.stopped (.panic .negativeVersion), s)
      else (.done, s.updateModule s.current
        (·.addFlag ⟨f.behavior, f.id, .const (.ofInt 32 value)⟩)) := by
  obtain ⟨m, hm⟩ := Option.isSome_iff_exists.mp hs
  rw [run, Attempt.answer, Command.act_setVersion hm]
  by_cases hv : value < 0 <;> simp [hv]

/-- The flags with a meaning of their own are read from the first flag that a run has added under
their name, so a flag that is set for the first time keeps its value; a negative version is refused
and adds nothing. -/
theorem flags_follow_history {p : Program} {d : Config} {i : Nat} {m : Module}
    (h : p.start.Reaches d) (hm : d.session.module? i = some m) :
    ∃ fs, (∀ gs, Config.Trace (Config.adds i) p.start gs d ↔ gs = fs) ∧
      (∀ f : VersionFlag, m.version? f = (Flag.first? f.id fs).filter (· ≤ 2 ^ 31 - 1)) ∧
      (∀ f : ManagementFlag, m.management? f = (Flag.first? f.id fs).map fun n => decide (n ≠ 0)) ∧
      (d.session.current = i →
        (∀ (f : VersionFlag) (value : Int), 0 ≤ value → value < 2 ^ 31 →
          (∀ g ∈ fs, g.id ≠ f.id) → ∀ rest stack e,
            Config.Reaches ⟨rest, stack, ((perform (.setVersion f value)).run d.session).2⟩ e →
              ∃ n, e.session.module? i = some n ∧ n.version? f = some value.toNat) ∧
        (∀ (f : ManagementFlag) (value : Bool), (∀ g ∈ fs, g.id ≠ f.id) → ∀ rest stack e,
            Config.Reaches ⟨rest, stack, ((perform (.setManagement f value)).run d.session).2⟩ e →
              ∃ n, e.session.module? i = some n ∧ n.management? f = some value) ∧
        ∀ (f : VersionFlag) (value : Int), value < 0 →
          (perform (.setVersion f value)).run d.session =
            (.stopped (.panic .negativeVersion), d.session)) := by
  refine ⟨m.flags, ?_, m.version?_eq, m.management?_eq, ?_⟩
  · intro gs
    rw [p.trace_adds_iff h, flags_eq hm]
  rintro rfl
  have hs : (d.session.module? d.session.current).isSome := by simp [hm]
  rw [← flags_eq hm]
  refine ⟨?_, ?_, ?_⟩
  · intro f value hv hlt hf rest stack e he
    rw [run_setVersion hs, if_neg (by omega)] at he
    obtain ⟨n, hn, hfirst⟩ := first?_of_addFlag
      (f := ⟨f.behavior, f.id, .const (.ofInt 32 value)⟩) hs hf he.retains.grows
    refine ⟨n, hn, ?_⟩
    rw [Metadata.number?_ofInt hv hlt] at hfirst
    have hle : value.toNat ≤ 2 ^ 31 - 1 := by omega
    rw [n.version?_eq, hfirst]
    exact Option.filter_some_pos (decide_eq_true hle)
  · intro f value hf rest stack e he
    obtain ⟨n, hn, hfirst⟩ := first?_of_addFlag
      (f := ⟨.error, f.id, .const (.int 1 value.toNat)⟩) hs hf he.retains.grows
    refine ⟨n, hn, ?_⟩
    rw [n.management?_eq, hfirst]
    cases value <;> rfl
  · intro f value hv
    rw [run_setVersion hs, if_pos hv]

/-- A node under the name of the major version, then the version itself, and a minor version in
another module. -/
def conflictingFlags : Program where
  name := "first"
  steps := [
    .perform (.addFlag .warning "qir_major_version" (.node [.value (.int 8 (-56))])),
    .perform (.setVersion .major 1),
    .perform (.addFlag .max "dynamic_qubit_management" (.str (Bytes.ofString "no"))),
    .perform (.newModule "second"),
    .perform (.setVersion .minor 7),
    .perform (.useModule 0)]

theorem flags_follow_history_conflictingFlags :
    conflictingFlags.run.session.current = 0 ∧
    (∃ m, conflictingFlags.run.session.module? 0 = some m ∧ m.version? .major = some 200 ∧
      m.version? .minor = none ∧ m.management? .dynamicQubits = none) ∧
    (∀ rest stack e, Config.Reaches ⟨rest, stack,
        ((perform (.setVersion .minor 3)).run conflictingFlags.run.session).2⟩ e →
      ∃ n, e.session.module? 0 = some n ∧ n.version? .minor = some 3) ∧
    (perform (.setVersion .minor (-1))).run conflictingFlags.run.session =
      (.stopped (.panic .negativeVersion), conflictingFlags.run.session) := by
  obtain ⟨left, h, -⟩ := reaches_runAll conflictingFlags.steps [] (.start conflictingFlags.name)
  obtain ⟨m, hm⟩ : ∃ m, conflictingFlags.run.session.module? 0 = some m := ⟨_, rfl⟩
  obtain ⟨fs, hfs, hversion, hmanagement, hset⟩ := flags_follow_history h hm
  obtain rfl := ((hfs _).mp ((conflictingFlags.trace_adds_iff h).mpr rfl)).symm
  have hcurrent : conflictingFlags.run.session.current = 0 := rfl
  have hnone : ∀ g ∈ conflictingFlags.run.session.flags 0, g.id ≠ VersionFlag.minor.id := by decide
  obtain ⟨hminor, -, hnegative⟩ := hset hcurrent
  refine ⟨hcurrent, ⟨m, hm, hversion .major, hversion .minor, hmanagement .dynamicQubits⟩, ?_, ?_⟩
  · exact hminor .minor 3 (by decide) (by decide) hnone
  · exact hnegative .minor (-1) (by decide)

end Step

end QuantumIR
