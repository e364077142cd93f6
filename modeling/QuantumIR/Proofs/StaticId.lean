import QuantumIR.Proofs.Recognition

/-! # The numbers of static qubits and results

A number that is made into a pointer keeps its number under casts: zero stays the zero of its type,
and any other number stays an address. So a pointer of the type of qubits or results that is made of
a number is the one constant of that number and type.
-/

namespace QuantumIR

open Attempt

namespace Constant

variable {c : Constant} {t : Ty} {n : UInt64}

theorem ty_of_zeroOf? (h : zeroOf? t = some c) : c.ty = t := by
  cases t <;> cases h <;> rfl

theorem isNull_of_zeroOf? (h : zeroOf? t = some c) : c.isNull = true := by
  cases t <;> cases h <;> rfl

theorem ty_intToPtr (n : UInt64) (t : Ty) : (intToPtr n t).ty = t := by
  unfold intToPtr
  split <;> rfl

theorem number?_intToPtr (n : UInt64) (t : Ty) : (intToPtr n t).number? = some n.toNat := by
  unfold intToPtr
  split
  next hn =>
    rw [hn]
    rfl
  · rfl

/-- A cast of an address keeps the number, whatever the types are. -/
theorem bitcast_address (structs : List StructDef) (n : UInt64) (t u : Ty) :
    (address n t).bitcast structs u = .address n u := by
  have hcast : ∀ k, (address n t).castWithin structs (k + 1) .bits u = .address n u := by
    intro k
    unfold castWithin
    split
    next h => exact congrArg _ h.2
    · simp [isNull]
  exact hcast _

/-- A cast of a zero is the zero of the type. If the type has none, nothing is cast. -/
theorem bitcast_zero (structs : List StructDef) (h : zeroOf? t = some c) (u : Ty) :
    c.bitcast structs u = (zeroOf? u).getD c := by
  have hcast : ∀ k, c.castWithin structs (k + 1) .bits u = (zeroOf? u).getD c := by
    intro k
    unfold castWithin
    split
    next hu =>
      rw [← hu.2, ty_of_zeroOf? h, h]
      rfl
    · simp [isNull_of_zeroOf? h]
  exact hcast _

/-- The constant is a number: zero of some type, or an address. -/
inductive StandsFor : UInt64 → Constant → Prop
  | zero {t : Ty} {c : Constant} : zeroOf? t = some c → StandsFor 0 c
  | address {n : UInt64} (t : Ty) : n ≠ 0 → StandsFor n (.address n t)

theorem standsFor_intToPtr (n : UInt64) (ht : t.isPtr = true) : StandsFor n (intToPtr n t) := by
  unfold intToPtr
  split
  next hn =>
    rw [hn]
    cases t with
    | ptr pointee space => exact .zero (t := .ptr pointee space) rfl
    | _ => cases ht
  next hn => exact .address t hn

namespace StandsFor

theorem eq_intToPtr (hc : StandsFor n c) (ht : c.ty.isPtr = true) : c = intToPtr n c.ty := by
  cases hc with
  | @zero u _ hz =>
    rw [ty_of_zeroOf? hz] at ht ⊢
    cases u with
    | ptr pointee space => exact (Option.some.inj hz).symm
    | _ => cases ht
  | address t hn => rw [intToPtr, if_neg hn, Constant.ty]

theorem bitcast (hc : StandsFor n c) (structs : List StructDef) (u : Ty) :
    StandsFor n (c.bitcast structs u) := by
  cases hc with
  | zero hz =>
    rw [bitcast_zero structs hz]
    cases hu : zeroOf? u with
    | none => exact .zero hz
    | some z => exact .zero hu
  | address t hn =>
    rw [bitcast_address]
    exact .address u hn

theorem ty_bitcast (hc : StandsFor n c) (structs : List StructDef) {u : Ty}
    (hu : u.isPtr = true) : (c.bitcast structs u).ty = u := by
  cases hc with
  | zero hz =>
    rw [bitcast_zero structs hz]
    cases u with
    | ptr pointee space => rfl
    | _ => cases hu
  | address t hn => rw [bitcast_address, Constant.ty]

end StandsFor

end Constant

namespace Handle

def value : Handle → UInt64 → ValueExpr
  | .qubit, n => .qubit n
  | .result, n => .result n

def id? : Handle → Value → Option Nat
  | .qubit, v => v.qubitId?
  | .result, v => v.resultId?

theorem eval_value (h : Handle) (n : UInt64) (s : Session) :
    (h.value n).eval s = .ok (.const (.intToPtr n h.ty)) (s.ensureStruct h.name) := by
  cases h <;> rfl

theorem id?_eq (h : Handle) (v : Value) :
    h.id? v = if h.recognizes v.ty then v.number? else none := by
  cases h <;> rfl

theorem recognizes_ty (h k : Handle) : h.recognizes k.ty = true ↔ k = h := by
  cases h <;> cases k <;> decide

theorem id?_intToPtr (h k : Handle) (n : UInt64) :
    h.id? (.const (.intToPtr n k.ty)) = if k = h then some n.toNat else none := by
  have hty : Value.ty (.const (.intToPtr n k.ty)) = k.ty := Constant.ty_intToPtr n k.ty
  have hnumber : Value.number? (.const (.intToPtr n k.ty)) = some n.toNat :=
    Constant.number?_intToPtr n k.ty
  rw [id?_eq, hty, hnumber]
  simp only [recognizes_ty]

theorem id?_eq_none (h : Handle) {v : Value} (hv : ∀ space, v.ty ≠ .ptr (.struct h.name) space) :
    h.id? v = none := by
  rw [id?_eq, if_neg]
  intro hrecognized
  obtain ⟨space, hty, -⟩ := h.recognizes_iff.mp hrecognized
  exact hv space hty

end Handle

namespace ValueExpr

variable {e : ValueExpr} {x : TypeExpr} {s t u : Session} {v : Value}

theorem ok_null (h : (null x).eval s = .ok v t) :
    ∃ ty c, x.eval s = .ok ty t ∧ Constant.zeroOf? ty = some c ∧ v = .const c := by
  unfold ValueExpr.eval at h
  obtain ⟨ty, u, hty, hrest⟩ := ok_bind h
  obtain ⟨c, w, hc, hlast⟩ := ok_bind hrest
  cases hlast
  obtain ⟨hzero, rfl⟩ := ok_require hc
  exact ⟨ty, c, hty, hzero, rfl⟩

theorem ok_intToPtr {n : UInt64} (h : (intToPtr n x).eval s = .ok v t) :
    ∃ ty, x.eval s = .ok ty t ∧ ty.isPtr = true ∧ v = .const (.intToPtr n ty) := by
  unfold ValueExpr.eval at h
  obtain ⟨ty, u, hptr, hlast⟩ := ok_bind h
  cases hlast
  obtain ⟨ty', u, hty, hlast⟩ := ok_bind hptr
  split at hlast
  next hisPtr =>
    cases hlast
    exact ⟨ty, hty, hisPtr, rfl⟩
  · cases hlast

theorem ok_bitcast (h : (bitcast e x).eval s = .ok v u) :
    ∃ c ty t w, e.eval s = .ok (.const c) t ∧ x.eval t = .ok ty w ∧
      v = .const (c.bitcast w.structs ty) := by
  unfold ValueExpr.eval at h
  obtain ⟨y, t, hy, hrest⟩ := ok_bind h
  obtain ⟨c, t', hc, hrest⟩ := ok_bind hrest
  obtain ⟨ty, w, hty, hlast⟩ := ok_bind hrest
  cases y with
  | const d =>
    cases hc
    cases hlast
    exact ⟨c, ty, t, w, hy, hty, rfl⟩
  | bound | metadata => cases hc

end ValueExpr

/-- The value is made of a number, and the type is the one that was asked for last: it is a qubit, a
result, a null or a pointer, or the cast of such a value. Every expression may be evaluated in a
session of its own. -/
inductive Value.MadeOf (n : UInt64) : Ty → Value → Prop
  | handle {h : Handle} {s t : Session} {v : Value} :
      (h.value n).eval s = .ok v t → MadeOf n h.ty v
  | null {x : TypeExpr} {s t u : Session} {ty : Ty} {v : Value} : n = 0 →
      x.eval s = .ok ty t → (ValueExpr.null x).eval s = .ok v u → MadeOf n ty v
  | pointer {x : TypeExpr} {s t u : Session} {ty : Ty} {v : Value} :
      x.eval s = .ok ty t → (ValueExpr.intToPtr n x).eval s = .ok v u → MadeOf n ty v
  | cast {e : ValueExpr} {x : TypeExpr} {s t u w : Session} {ty ty' : Ty} {v v' : Value} :
      MadeOf n ty v → e.eval s = .ok v t → x.eval t = .ok ty' u →
        (ValueExpr.bitcast e x).eval s = .ok v' w → MadeOf n ty' v'

namespace Value

variable {n : UInt64} {ty : Ty} {v : Value}

/-- No cast changes the number, and a cast to a pointer type gives a pointer of that type. -/
theorem MadeOf.standsFor (hv : v.MadeOf n ty) :
    ∃ c, v = .const c ∧ Constant.StandsFor n c ∧ (ty.isPtr = true → c.ty = ty) := by
  induction hv with
  | @handle h _ _ _ heval =>
    rw [h.eval_value] at heval
    cases heval
    have hptr : h.ty.isPtr = true := rfl
    exact ⟨_, rfl, Constant.standsFor_intToPtr n hptr, fun _ => Constant.ty_intToPtr n h.ty⟩
  | null hn hty heval =>
    obtain ⟨ty', c, hty', hzero, rfl⟩ := ValueExpr.ok_null heval
    cases hty.symm.trans hty'
    exact ⟨c, rfl, hn ▸ .zero hzero, fun _ => Constant.ty_of_zeroOf? hzero⟩
  | pointer hty heval =>
    obtain ⟨ty', hty', hptr, rfl⟩ := ValueExpr.ok_intToPtr heval
    cases hty.symm.trans hty'
    exact ⟨_, rfl, Constant.standsFor_intToPtr n hptr, fun _ => Constant.ty_intToPtr n _⟩
  | cast _ he hty heval ih =>
    -- The type before the cast plays no part: a cast to a pointer type always gives that type.
    obtain ⟨c, rfl, hc, -⟩ := ih
    obtain ⟨d, ty', t, w, hd, hty', rfl⟩ := ValueExpr.ok_bitcast heval
    cases he.symm.trans hd
    cases hty.symm.trans hty'
    exact ⟨_, rfl, hc.bitcast _ _, hc.ty_bitcast _⟩

theorem MadeOf.eq_intToPtr (hv : v.MadeOf n ty) {h : Handle} (hty : v.ty = h.ty) :
    v = .const (.intToPtr n h.ty) := by
  obtain ⟨c, rfl, hc, -⟩ := hv.standsFor
  have hcty : c.ty = h.ty := hty
  rw [← hcty]
  exact congrArg _ (hc.eq_intToPtr (by rw [hcty]; rfl))

/-- A value that is made of a number, through casts to any types, has the type that was asked for if
that is a pointer type. If it has the type of qubits, the number is its number as a qubit, it has
none as a result, and the constant for the qubit of that number is the same value in every session;
and likewise for results. A pointer to anything else has no number. So values of one of these types
are equal if their numbers are. -/
theorem ids_kept (hv : v.MadeOf n ty) :
    (ty.isPtr = true → v.ty = ty) ∧
    (∀ h : Handle, v.ty = h.ty → h.id? v = some n.toNat ∧ (∀ k, k ≠ h → k.id? v = none) ∧
      ∀ s, ∃ t, (h.value n).eval s = .ok v t) ∧
    ((∀ (h : Handle) space, v.ty ≠ .ptr (.struct h.name) space) → ∀ h : Handle, h.id? v = none) ∧
    ∀ m ty' w, MadeOf m ty' w → ∀ h : Handle, v.ty = h.ty → w.ty = h.ty → h.id? v = h.id? w →
      v = w := by
  refine ⟨?_, ?_, ?_, ?_⟩
  · intro hptr
    obtain ⟨c, rfl, -, hty⟩ := hv.standsFor
    exact hty hptr
  · intro h hty
    obtain rfl := hv.eq_intToPtr hty
    refine ⟨?_, ?_, ?_⟩
    · rw [h.id?_intToPtr, if_pos rfl]
    · intro k hk
      rw [k.id?_intToPtr, if_neg (Ne.symm hk)]
    · exact fun s => ⟨_, h.eval_value n s⟩
  · exact fun hne h => h.id?_eq_none (hne h)
  · intro m ty' w hw h hvty hwty hid
    obtain rfl := hv.eq_intToPtr hvty
    obtain rfl := hw.eq_intToPtr hwty
    rw [h.id?_intToPtr, h.id?_intToPtr, if_pos rfl, if_pos rfl] at hid
    rw [UInt64.toNat_inj.mp (Option.some.inj hid)]

def highestResult : Program where
  name := "m"
  steps := [.perform (.bind "r" (.bitcast (.intToPtr (-1) (.ptr (.int 8) 0)) .result))]

theorem ids_kept_highestResult :
    ∃ v t, (ValueExpr.bitcast (.register "r") .qubit).eval highestResult.run.session = .ok v t ∧
      v.ty = .qubit ∧ v.qubitId? = some (2 ^ 64 - 1) ∧ v.resultId? = none ∧
      ∃ u, (ValueExpr.qubit (-1)).eval (.start "m") = .ok v u := by
  have hpointer : MadeOf (-1) (.ptr (.int 8) 0) (.const (.address (-1) (.ptr (.int 8) 0))) :=
    .pointer (s := .start "m") (x := .ptr (.int 8) 0) rfl rfl
  have hresult : MadeOf (-1) .result (.const (.address (-1) .result)) :=
    .cast (s := .start "m") (e := .intToPtr (-1) (.ptr (.int 8) 0)) (x := .result) hpointer rfl rfl
      rfl
  have hqubit : MadeOf (-1) .qubit (.const (.address (-1) .qubit)) :=
    .cast (s := highestResult.run.session) (e := .register "r") (x := .qubit) hresult rfl rfl rfl
  obtain ⟨hty, hids, -, -⟩ := ids_kept hqubit
  obtain ⟨hid, hother, hvalue⟩ := hids .qubit rfl
  exact ⟨_, _, rfl, hty rfl, hid, hother .result nofun, hvalue _⟩

end Value

end QuantumIR
