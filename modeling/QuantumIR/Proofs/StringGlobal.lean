import QuantumIR.Proofs.Emission
import QuantumIR.Proofs.Retention

/-! # Byte strings in a run

A byte string is a new global that holds the bytes and a zero byte, and its value is the address of
the first byte. No step changes a global, so the bytes are read back at all later times, unless they
are zeros only. What is read begins where the first index of an address says. That index counts
whole arrays, so an address of a later byte of the same array leads to all the bytes again.
-/

namespace QuantumIR

open Relation Attempt

theorem length_terminated (bytes : Bytes) : (terminated bytes).length = bytes.length + 1 := by
  simp [terminated]

theorem Index.value_narrow_le (n : UInt32) : (narrow n).value ≤ n.toNat := by
  simp only [value, signed]
  split
  · have hlt := n.toNat_lt
    omega
  · exact Int.le_refl _

theorem Index.carryAll_array (structs : List StructDef) (elem : Ty) {len : Nat} (outer : Index)
    {inner : Index} (h : len = 0 ∨ inner.value < len) :
    carryAll structs (.array elem len) [outer, inner] = [outer, inner] := by
  have hinside : ¬ (0 < len ∧ (len : Int) ≤ inner.value) := by omega
  simp [carryAll, carry, hinside]

theorem Constant.elementAt_global (structs : List StructDef) (g : GlobalRef) (elem : Ty) {len : Nat}
    (outer : Index) {inner : Index} (h : len = 0 ∨ inner.value < len) :
    ∃ inBounds, (global g (.array elem len)).elementAt structs false [outer, inner] =
      .element inBounds (.global g (.array elem len)) [outer, inner] (.ptr elem 0) := by
  have hcarry := Index.carryAll_array structs elem outer h
  refine ⟨Index.inRange structs (.array elem len) [inner] && Index.inFirst [outer, inner], ?_⟩
  simp [elementAt, elementBy, pointee, ty, Ty.pointee?, hcarry, elementHere, elementTy, Ty.reach?,
    Ty.inside?]

/-- An address in the array of a byte string, up to the zero byte, is not computed any further. -/
theorem Constant.elementAt_string {bytes : Bytes} (hb : bytes.length < lengthBound)
    (structs : List StructDef) (g : GlobalRef) (outer : Index) (inner : UInt32)
    (hi : inner.toNat ≤ bytes.length) :
    ∃ inBounds, (global g (Global.ofString (terminated bytes)).ty).elementAt structs false
        [outer, .narrow inner] =
      .element inBounds (.global g (Global.ofString (terminated bytes)).ty) [outer, .narrow inner]
        (.ptr .byte 0) := by
  apply elementAt_global
  have hle := Index.value_narrow_le inner
  rw [length_terminated]
  -- The length of the longest string is counted as zero, which stands for an unknown length.
  rcases Nat.lt_or_ge (bytes.length + 1) lengthBound with hlt | hge
  · right
    rw [Nat.mod_eq_of_lt hlt]
    omega
  · left
    have hend : bytes.length + 1 = lengthBound := Nat.le_antisymm hb hge
    rw [hend, Nat.mod_self]

theorem Global.sequence?_ofString (bytes : Bytes) :
    (Global.ofString (terminated bytes)).sequence? =
      if bytes.any (· ≠ 0) then some (terminated bytes) else none := by
  simp [sequence?, ofString, terminated, Option.filter]

namespace Session

variable {s t u : Session} {i : Nat} {m : Module} {g : GlobalRef} {bytes : Bytes}

theorem extractString_element (hg : s.global? g = some (.ofString (terminated bytes)))
    (inBounds : Bool) (ty : Ty) (outer : Index) (is : List Index) :
    s.extractString (.const (.element inBounds (.global g ty) (outer :: is) (.ptr .byte 0))) =
      if bytes.any (· ≠ 0) then
        if outer.toNat ≤ bytes.length + 1 then .ok (some ((terminated bytes).drop outer.toNat))
        else .error (.startPastEnd outer.toNat (bytes.length + 1))
      else .ok none := by
  have hptr : (Ty.ptr .byte 0).isBytePtr = true := rfl
  rw [extractString, if_pos hptr, hg, Option.bind_some, Global.sequence?_ofString]
  by_cases hne : bytes.any (· ≠ 0) = true
  · rw [if_pos hne, if_pos hne]
    simp only [length_terminated]
  · rw [if_neg hne, if_neg hne]

theorem global?_eq_some_iff {x : Global} :
    s.global? g = some x ↔ ∃ m, s.module? g.module = some m ∧ m.globals[g.index]? = some x :=
  Option.bind_eq_some_iff

theorem Grows.global? (h : s.Grows t) {x : Global} (hg : s.global? g = some x) :
    t.global? g = some x := by
  obtain ⟨m, hm, hx⟩ := global?_eq_some_iff.mp hg
  obtain ⟨n, hn, hmn⟩ := h.module? hm
  obtain ⟨hlt, rfl⟩ := List.getElem?_eq_some_iff.mp hx
  exact global?_eq_some_iff.mpr ⟨n, hn, List.prefix_iff_getElem?.mp hmn.globals _ hlt⟩

/-- What a run does to a session: the changes of commands and evaluations, and the blocks, branches
and moves of conditionals. -/
inductive Motion : Session → Session → Prop
  | change {s t : Session} : Change s t → Motion s t
  | block (s : Session) (r : FnRef) (name : Bytes) : Motion s (s.addBlock r name).2
  | instr (s : Session) (i : Instr) : Motion s (s.append i)
  | place (s : Session) (b : BlockRef) : Motion s (s.moveTo b)

abbrev Becomes : Session → Session → Prop := ReflTransGen Motion

theorem Acts.becomes (h : Acts s t) : Becomes s t := h.lift id fun _ _ => .change

theorem Becomes.grows (h : Becomes s t) : s.Grows t := by
  induction h with
  | refl => exact .refl s
  | tail _ hmotion ih =>
    apply ih.trans
    cases hmotion with
    | change h => exact h.grows
    | block r name => exact .addBlock _ r name
    | instr i => exact .append _ i
    | place b => exact .of_modules_eq rfl

end Session

open Session

theorem Config.Reaches.becomes {c d : Config} (h : c.Reaches d) : Becomes c.session d.session := by
  apply h.invariant (P := fun d => Becomes c.session d.session) ?_ .refl
  intro d e hn hd
  apply hd.trans
  have hmove : ∀ (s : Session) b, Becomes s (s.moveTo b) := fun s b => .single (.place s b)
  apply next_rel (fun _ => .refl) ReflTransGen.trans ?_ (fun h => .single (.change (.side h)))
    (fun h => (emit_acts h).becomes) (fun s r name => .single (.block s r name))
    (fun s i => .single (.instr s i)) hmove hn
  intro command _ _
  exact command.act_rel (fun _ => .refl) ReflTransGen.trans (fun h => .single (.change h)) hmove
    d.session

namespace Session

variable {s t u : Session} {i : Nat} {m : Module} {bytes : Bytes} {g : GlobalRef} {x : Constant}

/-- Adding a byte string to a module appends one global, which holds the bytes and a zero byte, and
gives the address of its first byte. -/
structure AddsString (s : Session) (i : Nat) (bytes : Bytes) (g : GlobalRef) (x : Constant)
    (t : Session) : Prop where
  ok : s.addString i bytes = .ok (x, t)
  value : ∃ inBounds, x = .element inBounds (.global g (Global.ofString (terminated bytes)).ty)
    [.first, .first] (.ptr .byte 0)
  module : g.module = i
  fresh : s.global? g = none
  held : t.global? g = some (.ofString (terminated bytes))

theorem exists_addsString (hm : s.module? i = some m) (hb : bytes.length < lengthBound) :
    ∃ g x t, s.AddsString i bytes g x t := by
  set global := Global.ofString (terminated bytes)
  have hplace : (s.addGlobal i "" global.ty global.data).1 = ⟨i, m.globals.length⟩ := by
    have hm' : s.modules[i]? = some m := hm
    simp [addGlobal, hm']
  have hmodule : (s.addGlobal i "" global.ty global.data).2.module? i =
      some { m with globals := m.globals ++ [global] } := by
    rw [addGlobal, module?_updateModule, if_pos rfl, hm, Option.map_some]
    exact congrArg some (m.addGlobal_ofString (terminated bytes))
  obtain ⟨inBounds, hx⟩ :=
    Constant.elementAt_string hb s.structs ⟨i, m.globals.length⟩ .first 0 (Nat.zero_le _)
  refine ⟨⟨i, m.globals.length⟩, _, (s.addGlobal i "" global.ty global.data).2, ?_,
    ⟨inBounds, hx⟩, rfl, ?_, ?_⟩
  · rw [addString, if_neg (Nat.not_le.mpr hb), ← hplace]
    rfl
  · rw [Option.eq_none_iff_forall_ne_some]
    intro x hx
    obtain ⟨m', hm', hx⟩ := global?_eq_some_iff.mp hx
    obtain rfl := Option.some.inj (hm.symm.trans hm')
    simp at hx
  · exact global?_eq_some_iff.mpr ⟨_, hmodule, List.getElem?_concat_length⟩

/-- The bytes are read back as long as the global is there. -/
theorem AddsString.extractString (h : s.AddsString i bytes g x t) (ht : t.Grows u) :
    u.extractString (.const x) =
      .ok (if bytes.any (· ≠ 0) then some (terminated bytes) else none) := by
  obtain ⟨inBounds, rfl⟩ := h.value
  rw [extractString_element (ht.global? h.held)]
  by_cases hne : bytes.any (· ≠ 0) = true
  · have hfirst : Index.first.toNat = 0 := rfl
    rw [if_pos hne, if_pos hne, hfirst, if_pos (Nat.zero_le _), List.drop_zero]
  · rw [if_neg hne, if_neg hne]

theorem AddsString.ne {j : Nat} {more : Bytes} {k : GlobalRef} {y : Constant} {w : Session}
    (h : s.AddsString i bytes g x t) (ht : t.Grows u) (h' : u.AddsString j more k y w) :
    k ≠ g ∧ y ≠ x := by
  have hne : k ≠ g := by
    rintro rfl
    cases (ht.global? h.held).symm.trans h'.fresh
  refine ⟨hne, ?_⟩
  obtain ⟨_, rfl⟩ := h.value
  obtain ⟨_, rfl⟩ := h'.value
  intro hxy
  simp only [Constant.element.injEq, Constant.global.injEq] at hxy
  exact hne hxy.2.1.1

/-- A byte string that is added to a module is a new global. At every later point of a run its value
leads to the bytes with a zero byte behind them, unless there is no byte but zeros, and then to
nothing. A string that is added later is another global with another value, even if the bytes are
the same. -/
theorem string_kept (hm : s.module? i = some m) (hb : bytes.length < lengthBound) :
    ∃ g x t, s.AddsString i bytes g x t ∧
      ∀ u rest stack d, Becomes t u → Config.Reaches ⟨rest, stack, u⟩ d →
        ((∃ b ∈ bytes, b ≠ 0) → d.session.extractString (.const x) = .ok (some (bytes ++ [0]))) ∧
        ((∀ b ∈ bytes, b = 0) → d.session.extractString (.const x) = .ok none) ∧
        ∀ j n more, d.session.module? j = some n → more.length < lengthBound →
          ∃ k y w, d.session.AddsString j more k y w ∧ k ≠ g ∧ y ≠ x ∧
            w.global? g = t.global? g := by
  obtain ⟨g, x, t, hadds⟩ := exists_addsString hm hb
  refine ⟨g, x, t, hadds, ?_⟩
  intro u rest stack d hu hd
  have hgrows : t.Grows d.session := Becomes.grows (hu.trans hd.becomes)
  have hread := hadds.extractString hgrows
  refine ⟨?_, ?_, ?_⟩
  · intro hne
    have hany : bytes.any (· ≠ 0) = true := by simpa using hne
    rwa [if_pos hany] at hread
  · intro hzero
    have hany : ¬ bytes.any (· ≠ 0) = true := by simpa using hzero
    rwa [if_neg hany] at hread
  · intro j n more hn hmore
    obtain ⟨k, y, w, hagain⟩ := exists_addsString hn hmore
    obtain ⟨hk, hy⟩ := hadds.ne hgrows hagain
    have hw : d.session.Grows w := by
      obtain ⟨-, rfl⟩ := addString_ok hagain.ok
      exact .addGlobal _ _ _ _ _
    exact ⟨k, y, w, hagain, hk, hy, by rw [(hgrows.trans hw).global? hadds.held, hadds.held]⟩

def sameBytes : List Step :=
  [.perform (.newModule "n"), .perform (.bind "b" (.string [0x61, 0, 0x62]))]

theorem string_kept_sameBytes :
    ∃ x t, (Session.start "m").addString 0 [0x61, 0, 0x62] = .ok (x, t) ∧
      (Step.runAll sameBytes t).session.extractString (.const x) =
        .ok (some [0x61, 0, 0x62, 0]) ∧
      ∃ y w, t.addString 0 [0x61, 0, 0x62] = .ok (y, w) ∧ y ≠ x := by
  have hbytes : ([0x61, 0, 0x62] : Bytes).length < lengthBound := by decide
  obtain ⟨g, x, t, hadds, hlater⟩ :=
    string_kept (s := .start "m") (i := 0) (m := { name := "m" }) rfl hbytes
  obtain ⟨left, hreaches, -⟩ := Step.reaches_runAll sameBytes [] t
  obtain ⟨hread, -, -⟩ := hlater t _ _ _ .refl hreaches
  obtain ⟨-, -, hnext⟩ := hlater t [] [] _ .refl .refl
  obtain ⟨n, hn, -⟩ := global?_eq_some_iff.mp hadds.held
  obtain ⟨k, y, w, hagain, -, hy, -⟩ := hnext _ n _ (hadds.module ▸ hn) hbytes
  exact ⟨x, t, hadds.ok, hread ⟨0x61, by decide⟩, y, w, hagain.ok, hy⟩

theorem AddsString.extractString_elementAt (h : s.AddsString i bytes g x t) (ht : t.Grows u)
    (hb : bytes.length < lengthBound) (structs : List StructDef) (outer inner : UInt32)
    (hi : inner.toNat ≤ bytes.length) :
    u.extractString (.const (.elementAt structs
        (.global g (Global.ofString (terminated bytes)).ty) false [.narrow outer, .narrow inner])) =
      if bytes.any (· ≠ 0) then
        if outer.toNat ≤ bytes.length + 1 then .ok (some ((terminated bytes).drop outer.toNat))
        else .error (.startPastEnd outer.toNat (bytes.length + 1))
      else .ok none := by
  obtain ⟨inBounds, hx⟩ := Constant.elementAt_string hb structs g (.narrow outer) inner hi
  rw [hx]
  exact extractString_element (ht.global? h.held) _ _ _ _

end Session

theorem ValueExpr.eval_element {e : ValueExpr} {s w : Session} {c : Constant} {t : Ty}
    (he : e.eval s = .ok (.const c) w) (outer inner : UInt32)
    (ht : c.ty.pointee?.bind (·.inside? w.structs (Index.narrow inner).value) = some t) :
    (element e outer inner).eval s =
      .ok (.const (c.elementAt w.structs false [.narrow outer, .narrow inner])) w := by
  have hrequire : require .notArray
      (c.ty.pointee?.bind (·.inside? w.structs (Index.narrow inner).value)) w = .ok t w := by
    rw [ht]
    rfl
  unfold ValueExpr.eval
  rw [bind_of_ok he]
  exact (bind_of_ok (x := Attempt.constant (.const c)) rfl).trans (bind_of_ok hrequire)

theorem ValueExpr.eval_base {e : ValueExpr} {s w : Session} {x c : Constant}
    (he : e.eval s = .ok (.const x) w) (hx : x.base? = some c) :
    (base e).eval s = .ok (.const c) w := by
  have hrequire : require .notComputed x.base? w = .ok c w := by
    rw [hx]
    rfl
  unfold ValueExpr.eval
  rw [bind_of_ok he]
  exact (bind_of_ok (x := Attempt.constant (.const x)) rfl).trans (bind_of_ok hrequire)

namespace Session

variable {s : Session} {i : Nat} {m : Module} {bytes : Bytes}

/-- At every later point of a run, the address of any byte of a string, from the first one to the
zero byte, leads to all the bytes. So the bytes from that place on are what is read only at the
first byte. -/
theorem extractString_offset (hm : s.module? i = some m) (hb : bytes.length < lengthBound)
    (hne : ∃ b ∈ bytes, b ≠ 0) :
    ∃ g x t, s.AddsString i bytes g x t ∧
      ∀ u rest stack d, Becomes t u → Config.Reaches ⟨rest, stack, u⟩ d →
        ∀ (e : ValueExpr) (w : Session) (offset : UInt32), e.eval d.session = .ok (.const x) w →
          offset.toNat ≤ bytes.length →
          ∃ y, (ValueExpr.element (.base e) 0 offset).eval d.session = .ok (.const y) w ∧
            y.ty = .ptr .byte 0 ∧ w.extractString (.const y) = .ok (some (bytes ++ [0])) ∧
            (w.extractString (.const y) = .ok (some ((bytes ++ [0]).drop offset.toNat)) ↔
              offset = 0) := by
  obtain ⟨g, x, t, hadds⟩ := exists_addsString hm hb
  refine ⟨g, x, t, hadds, ?_⟩
  intro u rest stack d hu hd e w offset he hoffset
  have hw : d.session.Grows w := by
    have heval := e.eval_evaluates d.session
    rw [leaves_ok he] at heval
    exact heval.grows
  have hgrows : t.Grows w := (Becomes.grows (hu.trans hd.becomes)).trans hw
  have hbase : x.base? = some (.global g (Global.ofString (terminated bytes)).ty) := by
    obtain ⟨inBounds, rfl⟩ := hadds.value
    rfl
  have hread := hadds.extractString_elementAt hgrows hb w.structs 0 offset hoffset
  have hany : bytes.any (· ≠ 0) = true := by simpa using hne
  rw [if_pos hany, UInt32.toNat_zero, if_pos (Nat.zero_le _)] at hread
  refine ⟨_, ValueExpr.eval_element (ValueExpr.eval_base he hbase) 0 offset rfl, ?_, hread, ?_⟩
  · obtain ⟨inBounds, hy⟩ := Constant.elementAt_string hb w.structs g (.narrow 0) offset hoffset
    rw [hy]
    rfl
  · rw [hread]
    constructor
    · intro hsame
      have hlength := congrArg List.length (Option.some.inj (Except.ok.inj hsame))
      have hzero : offset.toNat = 0 := by
        simp [terminated] at hlength
        omega
      exact UInt32.toNat_inj.mp hzero
    · rintro rfl
      rfl

theorem extractString_offset_register :
    ∃ x t, (Session.start "m").addString 0 [0x61, 0x62] = .ok (x, t) ∧
      ∃ y, (ValueExpr.element (.base (.register "s")) 0 1).eval (t.setRegister "s" (.const x)) =
          .ok (.const y) (t.setRegister "s" (.const x)) ∧
        (t.setRegister "s" (.const x)).extractString (.const y) = .ok (some [0x61, 0x62, 0]) ∧
        (t.setRegister "s" (.const x)).extractString (.const y) ≠ .ok (some [0x62, 0]) := by
  have hbytes : ([0x61, 0x62] : Bytes).length < lengthBound := by decide
  obtain ⟨g, x, t, hadds, hlater⟩ :=
    extractString_offset (s := .start "m") (i := 0) (m := { name := "m" }) rfl hbytes
      ⟨0x61, by decide⟩
  have hregister : Becomes t (t.setRegister "s" (.const x)) := .single (.change (.register t "s" _))
  obtain ⟨y, hy, -, hread, hoffset⟩ :=
    hlater _ [] [] _ hregister .refl (.register "s") _ 1 rfl (by decide)
  refine ⟨x, t, hadds.ok, y, hy, hread, ?_⟩
  intro hrest
  exact absurd (hoffset.mp hrest) (by decide)

/-- The address of the second byte of a string leads to the first byte. -/
theorem not_extractString_offset :
    ((Step.perform (.extractString (.element (.base (.string [0x61, 0x62])) 0 1))).run
      (.start "m")).1 = .bytes (some [0x61, 0x62, 0]) ∧
    ([0x61, 0x62, 0] : Bytes) ≠ List.drop 1 ([0x61, 0x62] ++ [0]) :=
  ⟨rfl, by decide⟩

/-- An address in the array of a byte string leads to nothing if there is no byte but zeros.
Otherwise the first index, taken without a sign, is the number of bytes that are left out, and it
may not be greater than the number of bytes with the zero byte. The second index does not matter. -/
theorem extractString_panics_iff (hm : s.module? i = some m) (hb : bytes.length < lengthBound) :
    ∃ g x t, s.AddsString i bytes g x t ∧
      ∀ u rest stack d, Becomes t u → Config.Reaches ⟨rest, stack, u⟩ d →
        ∀ (e : ValueExpr) (w : Session) (outer inner : UInt32),
          e.eval d.session = .ok (.const (.global g (Global.ofString (terminated bytes)).ty)) w →
          inner.toNat ≤ bytes.length →
          ∃ y, (ValueExpr.element e outer inner).eval d.session = .ok (.const y) w ∧
            ∀ z, Becomes w z →
              ((∀ b ∈ bytes, b = 0) → z.extractString (.const y) = .ok none) ∧
              ((∃ b ∈ bytes, b ≠ 0) →
                (∀ p, z.extractString (.const y) = .error p ↔
                  bytes.length + 1 < outer.toNat ∧
                    p = .startPastEnd outer.toNat (bytes.length + 1)) ∧
                (outer.toNat ≤ bytes.length + 1 →
                  z.extractString (.const y) = .ok (some ((bytes ++ [0]).drop outer.toNat)))) := by
  obtain ⟨g, x, t, hadds⟩ := exists_addsString hm hb
  refine ⟨g, x, t, hadds, ?_⟩
  intro u rest stack d hu hd e w outer inner he hinner
  refine ⟨_, ValueExpr.eval_element he outer inner rfl, ?_⟩
  intro z hz
  have hw : d.session.Grows w := by
    have heval := e.eval_evaluates d.session
    rw [leaves_ok he] at heval
    exact heval.grows
  have hgrows : t.Grows z := ((Becomes.grows (hu.trans hd.becomes)).trans hw).trans hz.grows
  have hread := hadds.extractString_elementAt hgrows hb w.structs outer inner hinner
  constructor
  · intro hzero
    have hany : ¬ bytes.any (· ≠ 0) = true := by simpa using hzero
    rwa [if_neg hany] at hread
  · intro hne
    have hany : bytes.any (· ≠ 0) = true := by simpa using hne
    rw [if_pos hany] at hread
    rw [hread]
    constructor
    · intro p
      by_cases hle : outer.toNat ≤ bytes.length + 1
      · simp [hle, Nat.not_lt.mpr hle]
      · simp [hle, Nat.not_le.mp hle, eq_comm]
    · intro hle
      rw [if_pos hle]
      rfl

/-- The end of the data of a string is an address that leads to no bytes, and the next index, like
the index `-1`, is past the end. -/
theorem extractString_panics_iff_pastEnd :
    ∃ x t, (Session.start "m").addString 0 [0x61, 0] = .ok (x, t) ∧
      ∀ outer : UInt32, ∃ y, (ValueExpr.element (.base (.register "s")) outer 2).eval
          (t.setRegister "s" (.const x)) = .ok (.const y) (t.setRegister "s" (.const x)) ∧
        (outer = 3 → (t.setRegister "s" (.const x)).extractString (.const y) = .ok (some [])) ∧
        (outer = 4 → (t.setRegister "s" (.const x)).extractString (.const y) =
          .error (.startPastEnd 4 3)) ∧
        (outer = 0xffffffff → (t.setRegister "s" (.const x)).extractString (.const y) =
          .error (.startPastEnd 0xffffffff 3)) := by
  have hbytes : ([0x61, 0] : Bytes).length < lengthBound := by decide
  obtain ⟨g, x, t, hadds, hlater⟩ :=
    extractString_panics_iff (s := .start "m") (i := 0) (m := { name := "m" }) rfl hbytes
  refine ⟨x, t, hadds.ok, fun outer => ?_⟩
  have hregister : Becomes t (t.setRegister "s" (.const x)) := .single (.change (.register t "s" _))
  have hbase : x.base? = some (.global g (Global.ofString (terminated [0x61, 0])).ty) := by
    obtain ⟨inBounds, rfl⟩ := hadds.value
    rfl
  obtain ⟨y, hy, hread⟩ := hlater _ [] [] _ hregister .refl (.base (.register "s")) _ outer 2
    (ValueExpr.eval_base rfl hbase) (by decide)
  obtain ⟨-, hread⟩ := hread _ .refl
  obtain ⟨hpanics, hbytes⟩ := hread ⟨0x61, by decide⟩
  refine ⟨y, hy, ?_, ?_, ?_⟩
  · rintro rfl
    exact hbytes (by decide)
  · rintro rfl
    exact (hpanics _).mpr ⟨by decide, rfl⟩
  · rintro rfl
    exact (hpanics _).mpr ⟨by decide, rfl⟩

end Session

end QuantumIR
