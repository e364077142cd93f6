import QuantumIR.Proofs.Completion
import QuantumIR.Proofs.StringGlobal

/-! # The types of byte strings

The length of a byte string is checked before the zero byte is added, and the length of the type of
its global is counted after. So the type is that of the data for all strings but those of the
greatest length that is accepted: with the zero byte they are counted as nothing, and their module
does not pass verification any more.
-/

namespace QuantumIR

namespace Global

variable {data : Bytes} {n : Nat}

theorem ty_ofString_eq_iff :
    (ofString data).ty = .array .byte n ↔ data.length % lengthBound = n := by
  simp [ofString]

/-- The type of a string is that of its data if and only if the length can be counted. -/
theorem ty_ofString_eq_dataTy_iff :
    (ofString data).ty = dataTy data ↔ data.length < lengthBound := by
  have hpos : 0 < lengthBound := by decide
  rw [dataTy, ty_ofString_eq_iff]
  constructor
  · intro h
    rw [← h]
    exact Nat.mod_lt _ hpos
  · exact Nat.mod_eq_of_lt

theorem valid_ofString_iff : (ofString data).valid = true ↔ data.length < lengthBound := by
  constructor
  · intro h
    rw [← ty_ofString_eq_dataTy_iff]
    exact of_decide_eq_true (Bool.and_eq_true_iff.mp h).2
  · exact valid_ofString

end Global

namespace Session

variable {s t : Session} {i j : Nat} {m n : Module} {bytes : Bytes} {g : GlobalRef} {x : Constant}

theorem Sound.of_fn? (h : s.Sound i m) (hfn : t.fn? = s.fn?) (hcasts : t.castFns = s.castFns)
    (hstrays : t.strays = s.strays) (hflags : n.flags = m.flags)
    (hfunctions : n.functions = m.functions) (hglobals : ∀ g ∈ n.globals, g.valid = true) :
    t.Sound i n := by
  have hbody : ∀ d, t.body? d = s.body? d := by
    intro d
    rw [body?, body?, block?, block?, hfn]
  have haddress : ∀ q, s.Addressable i q → t.Addressable i q := by
    intro q hq
    rwa [Addressable, hfn]
  constructor
  case flags => rw [Module.flagsValid, hflags]; exact h.flags
  case globals => exact hglobals
  case heads => rw [hfunctions]; exact h.heads
  case closed =>
    intro d body hd hb
    exact h.closed d body hd (hbody d ▸ hb)
  case instrs =>
    intro d f body k y hd hf hb hy
    obtain ⟨hvalid, hrespects⟩ := h.instrs d f body k y hd (hfn ▸ hf) (hbody d ▸ hb) hy
    refine ⟨hvalid, ?_, fun v hv q hq => haddress q (hrespects.address v hv q hq)⟩
    intro callee sig args hcall hi f' hf'
    exact hrespects.call callee sig args hcall hi f' (hfn ▸ hf')
  case casts =>
    intro q hq
    exact haddress q (h.casts q (hcasts ▸ hq))
  case strays => rw [hstrays]; exact h.strays
  case others =>
    intro d body hd hb
    exact h.others d body hd (hbody d ▸ hb)

/-- With further globals, a module passes verification if and only if it did and the globals are
valid. -/
theorem verifies_iff_of_globals (hfn : t.fn? = s.fn?) (hcasts : t.castFns = s.castFns)
    (hstrays : t.strays = s.strays) {added : List Global}
    (hmodule : t.module? j = (s.module? j).map fun m => { m with globals := m.globals ++ added }) :
    t.Verifies j ↔ s.Verifies j ∧ ∀ g ∈ added, g.valid = true := by
  constructor
  · rintro ⟨n, hn, hv⟩
    have hsound := (verify_iff_sound hn).mp hv
    rw [hmodule] at hn
    obtain ⟨m, hm, rfl⟩ := Option.map_eq_some_iff.mp hn
    have hold : s.Sound j m := by
      apply hsound.of_fn? hfn.symm hcasts.symm hstrays.symm (n := m) rfl rfl
      intro g hg
      exact hsound.globals g (List.mem_append_left _ hg)
    refine ⟨⟨m, hm, (verify_iff_sound hm).mpr hold⟩, fun g hg => ?_⟩
    exact hsound.globals g (List.mem_append_right _ hg)
  · rintro ⟨⟨m, hm, hv⟩, hadded⟩
    have hsound := (verify_iff_sound hm).mp hv
    rw [hm, Option.map_some] at hmodule
    refine ⟨_, hmodule, (verify_iff_sound hmodule).mpr ?_⟩
    refine hsound.of_fn? hfn hcasts hstrays rfl rfl fun g hg => ?_
    rcases List.mem_append.mp hg with hg | hg
    · exact hsound.globals g hg
    · exact hadded g hg

theorem AddsString.module? (h : s.AddsString i bytes g x t) (j : Nat) :
    t.module? j = if i = j then
      (s.module? j).map fun m => { m with globals := m.globals ++ [.ofString (terminated bytes)] }
      else s.module? j := by
  obtain ⟨-, rfl⟩ := addString_ok h.ok
  rw [addGlobal, module?_updateModule]
  simp only [Module.addGlobal_ofString]

theorem AddsString.verifies_iff (h : s.AddsString i bytes g x t) :
    t.Verifies j ↔ s.Verifies j ∧ (j = i → bytes.length + 1 < lengthBound) := by
  set added := if i = j then [Global.ofString (terminated bytes)] else [] with hadded
  have hmodule : t.module? j =
      (s.module? j).map fun m => { m with globals := m.globals ++ added } := by
    rw [h.module? j, hadded]
    split <;> simp
  have hvalid : (∀ g ∈ added, g.valid = true) ↔ (j = i → bytes.length + 1 < lengthBound) := by
    rw [hadded]
    split
    next hij => simp [Global.valid_ofString_iff, length_terminated, hij]
    next hij => simp [Ne.symm hij]
  rw [← hvalid]
  obtain ⟨-, rfl⟩ := addString_ok h.ok
  exact verifies_iff_of_globals (funext fun _ => fn?_addGlobal ..) rfl rfl hmodule

theorem exists_addString_iff (hm : s.module? i = some m) :
    (∃ x t, s.addString i bytes = .ok (x, t)) ↔ bytes.length < lengthBound := by
  constructor
  · rintro ⟨x, t, h⟩
    exact (addString_ok h).1
  · intro hb
    obtain ⟨g, x, t, h⟩ := exists_addsString hm hb
    exact ⟨x, t, h.ok⟩

/-- A byte string is accepted if and only if its length can be counted. Its global then holds the
bytes and a zero byte. The type of the global has that many bytes, and is the type of the data, and
a module that passes verification still does so with the string, if and only if the length can be
counted with the zero byte as well. Other modules pass verification as they did. -/
theorem string_typed_iff (hm : s.module? i = some m) (bytes : Bytes) :
    ((∃ x t, s.addString i bytes = .ok (x, t)) ↔ bytes.length < lengthBound) ∧
      ∀ x t, s.addString i bytes = .ok (x, t) →
        ∃ global, (∀ j, t.module? j = if i = j then
            some { m with globals := m.globals ++ [global] } else s.module? j) ∧
          global.data = some (bytes ++ [0]) ∧
          global.ty = .array .byte ((bytes.length + 1) % lengthBound) ∧
          (global.ty = .array .byte (bytes.length + 1) ↔ bytes.length + 1 < lengthBound) ∧
          (global.ty = dataTy (bytes ++ [0]) ↔ bytes.length + 1 < lengthBound) ∧
          (t.Verifies i ↔ s.Verifies i ∧ bytes.length + 1 < lengthBound) ∧
          ∀ j, j ≠ i → (t.Verifies j ↔ s.Verifies j) := by
  refine ⟨exists_addString_iff hm, fun x t h => ?_⟩
  obtain ⟨g, x', t', hadds⟩ := exists_addsString hm (addString_ok h).1
  obtain ⟨rfl, rfl⟩ : x' = x ∧ t' = t := by simpa using hadds.ok.symm.trans h
  have hlength := length_terminated bytes
  have hty : (Global.ofString (terminated bytes)).ty = dataTy (terminated bytes) ↔ _ :=
    Global.ty_ofString_eq_dataTy_iff
  rw [dataTy, hlength] at hty
  refine ⟨.ofString (terminated bytes), fun j => ?_, rfl, ?_, hty, ?_, ?_, fun j hj => ?_⟩
  · rw [hadds.module? j]
    split
    next hij => rw [← hij, hm, Option.map_some]
    next => rfl
  · rw [Global.ty_ofString_eq_iff, hlength]
  · rw [← hlength]
    exact Global.ty_ofString_eq_dataTy_iff
  · simp [hadds.verifies_iff]
  · simp [hadds.verifies_iff, hj]

theorem string_typed_iff_start :
    ∃ x t global, (start "m").addString 0 [0x61, 0] = .ok (x, t) ∧
      t.global? ⟨0, 0⟩ = some global ∧ global.ty = .array .byte 3 ∧
      global.data.map dataTy = some (.array .byte 3) ∧ (start "m").Verifies 0 ∧ t.Verifies 0 := by
  have hm : (start "m").module? 0 = some { name := "m" } := rfl
  obtain ⟨haccepted, hadded⟩ := string_typed_iff hm [0x61, 0]
  obtain ⟨x, t, h⟩ := haccepted.mpr (by decide)
  obtain ⟨global, hmodule, hdata, hty, -, -, hverifies, -⟩ := hadded x t h
  refine ⟨x, t, global, h, ?_, hty, by rw [hdata]; rfl, by decide, hverifies.mpr (by decide)⟩
  exact global?_eq_some_iff.mpr ⟨_, hmodule 0, rfl⟩

/-- The longest string that is accepted has a type without elements, and its module does not pass
verification. -/
theorem not_string_typed :
    ∃ x t global, (start "m").addString 0 (List.replicate (lengthBound - 1) 0x61) = .ok (x, t) ∧
      t.global? ⟨0, 0⟩ = some global ∧ global.ty = .array .byte 0 ∧
      global.data.map dataTy = some (.array .byte lengthBound) ∧ (start "m").Verifies 0 ∧
      ¬ t.Verifies 0 := by
  have hm : (start "m").module? 0 = some { name := "m" } := rfl
  -- Only the length of the string matters, and the string itself is never computed.
  obtain ⟨bytes, hbytes, hlength⟩ : ∃ bytes : Bytes,
      bytes = List.replicate (lengthBound - 1) 0x61 ∧ bytes.length + 1 = lengthBound :=
    ⟨_, rfl, by rw [List.length_replicate]; rfl⟩
  rw [← hbytes]
  have hbound : bytes.length < lengthBound := by omega
  obtain ⟨g, x, t, h⟩ := exists_addsString hm hbound
  have hmodule := h.module? 0
  rw [if_pos rfl, hm, Option.map_some] at hmodule
  refine ⟨x, t, .ofString (terminated bytes), h.ok, ?_, ?_, ?_, by decide, ?_⟩
  · exact global?_eq_some_iff.mpr ⟨_, hmodule, rfl⟩
  · rw [Global.ty_ofString_eq_iff, length_terminated, hlength, Nat.mod_self]
  · rw [← hlength, ← length_terminated]
    rfl
  · simp [h.verifies_iff, hlength]

end Session

end QuantumIR
