import QuantumIR.Proofs.FlagHistory
import QuantumIR.Proofs.Verification

/-! # Setting flags of a valid module

A flag is set by adding one, whether or not its name is in use. So a module that is valid stays
valid under settings exactly as long as no name is set twice: neither by two settings, nor by a
setting and a flag that was there.
-/

namespace QuantumIR

/-- A flag with a meaning of its own, and the value that it is set to. -/
inductive Setting
  | version (flag : VersionFlag) (value : Nat)
  | management (flag : ManagementFlag) (value : Bool)

namespace Setting

def command : Setting → Command
  | .version flag value => .setVersion flag value
  | .management flag value => .setManagement flag value

def id : Setting → String
  | .version flag _ => flag.id
  | .management flag _ => flag.id

def flag : Setting → Flag
  | .version flag value => ⟨flag.behavior, flag.id, .const (.ofInt 32 value)⟩
  | .management flag value => ⟨.error, flag.id, .const (.int 1 value.toNat)⟩

@[simp] theorem id_flag (x : Setting) : x.flag.id = x.id := by
  cases x <;> rfl

theorem behavior_flag (x : Setting) : x.flag.behavior ≠ .require := by
  rcases x with ⟨_ | _, _⟩ | _ <;> nofun

/-- A setting is fit on its own, and asks nothing of other flags. -/
theorem fits_flag (x : Setting) (fs : List Flag) :
    (x.flag.value.isGlobal && x.flag.fitsBehavior && x.flag.fitsName && x.flag.metBy fs) =
      true := by
  rcases x with ⟨_ | _, _⟩ | ⟨_ | _, _⟩ <;> rfl

theorem ids_flag (xs : List Setting) : (xs.map flag).map Flag.id = xs.map id := by
  simp [Function.comp_def]

end Setting

theorem Flag.metBy_append {f : Flag} {fs : List Flag} (h : f.metBy fs = true) (gs : List Flag) :
    f.metBy (fs ++ gs) = true := by
  unfold Flag.metBy at h ⊢
  split
  · simp_all
  · rfl

namespace Module

variable {m : Module}

def addFlags (m : Module) (fs : List Flag) : Module := { m with flags := m.flags ++ fs }

/-- The names that count as set: a requirement sets nothing. -/
def setIds (m : Module) : List String := (m.flags.filter (·.behavior ≠ .require)).map Flag.id

theorem setIds_addFlags (m : Module) (xs : List Setting) :
    (m.addFlags (xs.map Setting.flag)).setIds = m.setIds ++ xs.map Setting.id := by
  have hall : (xs.map Setting.flag).filter (·.behavior ≠ .require) = xs.map Setting.flag := by
    apply List.filter_eq_self.mpr
    rintro f hf
    obtain ⟨x, -, rfl⟩ := List.mem_map.mp hf
    simpa using x.behavior_flag
  rw [setIds, addFlags, List.filter_append, hall, List.map_append, Setting.ids_flag, setIds]

theorem flagsValid_iff : m.flagsValid = true ↔
    (∀ f ∈ m.flags, (f.value.isGlobal && f.fitsBehavior && f.fitsName && f.metBy m.flags) = true) ∧
      m.setIds.Nodup := by
  rw [flagsValid, Bool.and_eq_true, List.all_eq_true, decide_eq_true_eq, setIds]

/-- Settings leave valid flags if and only if each name is set once. -/
theorem flagsValid_addFlags (hm : m.flagsValid = true) (xs : List Setting) :
    (m.addFlags (xs.map Setting.flag)).flagsValid = true ↔
      (m.setIds ++ xs.map Setting.id).Nodup := by
  obtain ⟨hfit, -⟩ := flagsValid_iff.mp hm
  rw [flagsValid_iff, setIds_addFlags]
  constructor
  · rintro ⟨-, hids⟩
    exact hids
  · intro hids
    constructor
    · intro f hf
      rcases List.mem_append.mp hf with hf | hf
      · have hf := hfit f hf
        rw [Bool.and_eq_true] at hf ⊢
        exact ⟨hf.1, Flag.metBy_append hf.2 _⟩
      · obtain ⟨x, -, rfl⟩ := List.mem_map.mp hf
        exact x.fits_flag _
    · exact hids

end Module

namespace Session

variable {s : Session} {i : Nat} {m : Module}

theorem verify_addFlags (fs : List Flag) (hs : s.verify i m = true) :
    (s.updateModule i (·.addFlags fs)).verify i (m.addFlags fs) = true ↔
      (m.addFlags fs).flagsValid = true := by
  have houtside : (s.updateModule i (·.addFlags fs)).outsideInstrs i = s.outsideInstrs i := by
    rw [outsideInstrs, outsideInstrs, updateModule, List.eraseIdx_modify_of_eq]
  simp only [verify, Module.valid, Bool.and_eq_true] at hs ⊢
  obtain ⟨⟨⟨⟨⟨-, hglobals⟩, hcalls⟩, hfunctions⟩, haddresses⟩, hout⟩ := hs
  rw [houtside]
  constructor
  · rintro ⟨⟨⟨⟨⟨hflags, -⟩, -⟩, -⟩, -⟩, -⟩
    exact hflags
  · intro hflags
    exact ⟨⟨⟨⟨⟨hflags, hglobals⟩, hcalls⟩, hfunctions⟩, haddresses⟩, hout⟩

end Session

open Session

namespace Step

def ofSettings (xs : List Setting) : List Step := xs.map fun x => .perform x.command

theorem run_setting {s : Session} (hs : (s.module? s.current).isSome) (x : Setting) :
    ((perform x.command).run s).2 = s.updateModule s.current (·.addFlag x.flag) := by
  cases x with
  | version flag value =>
    rw [Setting.command, run_setVersion hs, if_neg (by omega)]
    rfl
  | management flag value => rfl

theorem runAll_ofSettings (xs : List Setting) {s : Session} (hs : (s.module? s.current).isSome) :
    (runAll (ofSettings xs) s).session =
      s.updateModule s.current (·.addFlags (xs.map Setting.flag)) := by
  induction xs generalizing s with
  | nil =>
    have hnil : (fun m : Module => m.addFlags []) = id := by
      ext1 m
      simp [Module.addFlags]
    simp [ofSettings, runAll, updateModule, hnil]
  | cons x xs ih =>
    have hnext : ((s.updateModule s.current (·.addFlag x.flag)).module? s.current).isSome := by
      simpa [module?_updateModule] using hs
    have hjoin : (fun m : Module => m.addFlags (xs.map Setting.flag)) ∘
        (fun m : Module => m.addFlag x.flag) =
        fun m : Module => m.addFlags ((x :: xs).map Setting.flag) := by
      ext1 m
      simp [Module.addFlags, Module.addFlag]
    rw [ofSettings, List.map_cons, session_runAll_cons (by simp), run_setting hs]
    apply (ih hnext).trans
    simp only [updateModule, List.modify_modify_eq, hjoin]

/-- A valid module stays valid under settings exactly as long as none of them sets a name that is
set already; and that all its flags have different names then takes that they had different names
before, and that no setting has the name of any of them. -/
theorem verifies_runAll_ofSettings {s : Session} {m : Module} (hm : s.module? s.current = some m)
    (hs : s.Verifies s.current) (xs : List Setting) :
    ∃ n, (runAll (ofSettings xs) s).session.module? s.current = some n ∧
      n.flags = m.flags ++ xs.map Setting.flag ∧
      ((runAll (ofSettings xs) s).session.Verifies s.current ↔
        (m.setIds ++ xs.map Setting.id).Nodup) ∧
      ((runAll (ofSettings xs) s).session.Verifies s.current ∧ (n.flags.map Flag.id).Nodup ↔
        (m.flags.map Flag.id ++ xs.map Setting.id).Nodup) := by
  have hv : s.verify s.current m = true := by
    obtain ⟨m', hm', hv⟩ := hs
    rwa [Option.some.inj (hm.symm.trans hm')]
  have hn : (runAll (ofSettings xs) s).session.module? s.current =
      some (m.addFlags (xs.map Setting.flag)) := by
    rw [runAll_ofSettings xs (by simp [hm]), module?_updateModule, if_pos rfl, hm, Option.map_some]
  have hverifies : (runAll (ofSettings xs) s).session.Verifies s.current ↔
      (m.setIds ++ xs.map Setting.id).Nodup := by
    have hflags : m.flagsValid = true := ((verify_iff_sound hm).mp hv).flags
    rw [← Module.flagsValid_addFlags hflags, ← verify_addFlags _ hv,
      ← runAll_ofSettings xs (by simp [hm])]
    constructor
    · rintro ⟨n, hn', hv⟩
      rwa [Option.some.inj (hn.symm.trans hn')]
    · intro hv
      exact ⟨_, hn, hv⟩
  refine ⟨_, hn, rfl, hverifies, ?_⟩
  rw [hverifies, Module.addFlags, List.map_append, Setting.ids_flag]
  constructor
  · rintro ⟨-, hids⟩
    exact hids
  · intro hids
    constructor
    · apply List.Nodup.sublist _ hids
      exact (List.Sublist.map _ List.filter_sublist).append_right _
    · exact hids

/-- A module in which a requirement has the name of the minor version. -/
def requiredMinor : Program where
  name := "m"
  steps := [
    .perform (.setVersion .major 1),
    .perform (.addFlag .require "qir_minor_version"
      (.node [.str (Bytes.ofString "qir_major_version"), .value (.int 32 1)]))]

theorem verifies_runAll_ofSettings_requiredMinor :
    requiredMinor.run.session.Verifies 0 ∧
    (runAll (ofSettings [.version .minor 0, .management .dynamicResults true])
      requiredMinor.run.session).session.Verifies 0 ∧
    ¬ (runAll (ofSettings [.version .minor 0, .version .minor 0])
      requiredMinor.run.session).session.Verifies 0 := by
  have hs : requiredMinor.run.session.Verifies 0 := by decide +kernel
  obtain ⟨m, hm⟩ : ∃ m, requiredMinor.run.session.module? 0 = some m := ⟨_, rfl⟩
  have hids : m.setIds = ["qir_major_version"] := by
    obtain rfl := Option.some.inj hm
    rfl
  obtain ⟨-, -, -, hminor, -⟩ := verifies_runAll_ofSettings hm hs
    [.version .minor 0, .management .dynamicResults true]
  obtain ⟨-, -, -, htwice, -⟩ := verifies_runAll_ofSettings hm hs
    [.version .minor 0, .version .minor 0]
  rw [hids] at hminor htwice
  exact ⟨hs, hminor.mpr (by decide), fun h => absurd (htwice.mp h) (by decide)⟩

/-- The same version twice in an empty module. -/
theorem not_verifies_majorTwice :
    (Session.start "m").Verifies 0 ∧
    ¬ (runAll (ofSettings [.version .major 1, .version .major 1])
        (.start "m")).session.Verifies 0 := by
  decide +kernel

end Step

end QuantumIR
