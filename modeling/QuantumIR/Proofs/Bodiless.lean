import QuantumIR.Constant.Cast
import QuantumIR.Survey

/-! # Structs without bodies

Where no struct has a body, nothing lies inside a struct, and then the table of structs has no say
in what is computed about types and constants: each result is the one for the empty table.
-/

namespace QuantumIR

def Bodiless (structs : List StructDef) : Prop := ∀ d ∈ structs, d.body = none

namespace Bodiless

variable {structs : List StructDef}

theorem body? (h : Bodiless structs) (name : String) : Ty.body? structs name = none := by
  unfold Ty.body?
  cases hd : structs.find? (·.name = name) with
  | none => rfl
  | some d => exact h d (List.mem_of_find?_eq_some hd)

theorem nil : Bodiless [] := nofun

theorem find?_eq (h : Bodiless structs) {name : String} (hn : name ∈ structs.map StructDef.name) :
    structs.find? (·.name = name) = some ⟨name, none⟩ := by
  obtain ⟨e, he, hen⟩ := List.mem_map.mp hn
  cases hd : structs.find? (·.name = name) with
  | none => simpa [hen] using List.find?_eq_none.mp hd e he
  | some d =>
    have hname : d.name = name := by simpa using List.find?_some hd
    have hbody := h d (List.mem_of_find?_eq_some hd)
    rw [← hname, ← hbody]

theorem inside? (h : Bodiless structs) : Ty.inside? structs = Ty.inside? [] := by
  funext t i
  cases t <;> simp only [Ty.inside?, h.body?, nil.body?]

theorem parts (h : Bodiless structs) : Ty.parts structs = Ty.parts [] := by
  funext t
  cases t <;> simp only [Ty.parts, h.body?, nil.body?]

theorem weight_le_stepBound (structs : List StructDef) (t : Ty) :
    t.weight ≤ t.stepBound structs := by
  have hfold : ∀ (ds : List StructDef) (n : Nat), n ≤ ds.foldl (fun n d => n + d.weight) n := by
    intro ds
    induction ds with
    | nil => exact fun n => Nat.le_refl n
    | cons d ds ih => exact fun n => Nat.le_trans (Nat.le_add_right n d.weight) (ih _)
  exact hfold structs t.weight

/-- A type is looked into no deeper than it is written. -/
theorem hasSize (h : Bodiless structs) {t : Ty} {m n : Nat} (hm : t.weight ≤ m)
    (hn : t.weight ≤ n) : t.hasSize structs m = t.hasSize [] n := by
  induction m generalizing t n with
  | zero => cases t <;> simp [Ty.weight] at hm
  | succ m ih =>
    cases n with
    | zero => cases t <;> simp [Ty.weight] at hn
    | succ n =>
      cases t with
      | array elem len =>
        simp only [Ty.weight, Nat.add_le_add_iff_right] at hm hn
        exact ih hm hn
      | struct name => simp only [Ty.hasSize, h.body?, nil.body?, Option.map_none]
      | _ => rfl

theorem isSized (h : Bodiless structs) (t : Ty) : t.isSized structs = t.isSized [] :=
  h.hasSize (weight_le_stepBound structs t) (weight_le_stepBound [] t)

theorem stepsToFirst? (h : Bodiless structs) {goal t : Ty} {m n : Nat} (hm : t.weight ≤ m)
    (hn : t.weight ≤ n) :
    Ty.stepsToFirst? structs goal m t = Ty.stepsToFirst? [] goal n t := by
  induction m generalizing t n with
  | zero => cases t <;> simp [Ty.weight] at hm
  | succ m ih =>
    cases n with
    | zero => cases t <;> simp [Ty.weight] at hn
    | succ n =>
      simp only [Ty.stepsToFirst?, h.inside?]
      split
      · rfl
      cases t with
      | array elem len =>
        simp only [Ty.weight, Nat.add_le_add_iff_right] at hm hn
        simp only [Ty.inside?, Option.bind_some, ih hm hn]
      | struct name => simp [Ty.inside?, nil.body?]
      | _ => rfl

theorem firstDepth? (h : Bodiless structs) (t goal : Ty) :
    t.firstDepth? structs goal = t.firstDepth? [] goal :=
  h.stepsToFirst? (weight_le_stepBound structs t) (weight_le_stepBound [] t)

theorem reach? (h : Bodiless structs) : Ty.reach? structs = Ty.reach? [] := by
  funext t is
  induction is generalizing t with
  | nil => simp [Ty.reach?]
  | cons i is ih => simp only [Ty.reach?, h.inside?, ih]

theorem carry (h : Bodiless structs) : Index.carry structs = Index.carry [] := by
  funext ofStruct t prev is
  induction is generalizing ofStruct t prev with
  | nil => simp [Index.carry]
  | cons i is ih => cases t <;> simp only [Index.carry, h.inside?, ih]

theorem carryAll (h : Bodiless structs) : Index.carryAll structs = Index.carryAll [] := by
  funext pointee is
  cases is <;> simp [Index.carryAll, h.carry]

theorem inRange (h : Bodiless structs) : Index.inRange structs = Index.inRange [] := by
  funext t is
  induction is generalizing t with
  | nil => simp [Index.inRange]
  | cons i is ih => simp only [Index.inRange, h.inside?, ih]

theorem endsInStruct (h : Bodiless structs) :
    Index.endsInStruct structs = Index.endsInStruct [] := by
  funext pointee is
  unfold Index.endsInStruct
  rw [h.reach?]

theorem join (h : Bodiless structs) : Index.join structs = Index.join [] := by
  funext pointee outer is
  cases is <;> simp only [Index.join, h.endsInStruct]

theorem elementTy (h : Bodiless structs) : Constant.elementTy structs = Constant.elementTy [] := by
  funext c is
  simp only [Constant.elementTy, h.reach?]

theorem elementHere (h : Bodiless structs) :
    Constant.elementHere structs = Constant.elementHere [] := by
  funext inBounds c is
  simp only [Constant.elementHere, h.inRange, h.elementTy]

theorem elementBy (h : Bodiless structs) : Constant.elementBy structs = Constant.elementBy [] := by
  funext inBounds c look n is
  induction n generalizing is with
  | zero => simp only [Constant.elementBy, h.elementHere]
  | succ n ih => simp only [Constant.elementBy, h.carryAll, h.elementHere, ih]

theorem elementAt (h : Bodiless structs) : Constant.elementAt structs = Constant.elementAt [] := by
  funext c inBounds is
  induction c generalizing inBounds is with
  | cast kind base t ih => simp only [Constant.elementAt, h.elementBy, ih]
  | element held base outer t ih => simp only [Constant.elementAt, h.elementBy, h.join, ih]
  | _ => simp only [Constant.elementAt, h.elementBy, h.elementTy]

theorem castHere (h : Bodiless structs) : Constant.castHere structs = Constant.castHere [] := by
  funext kind c t
  simp only [Constant.castHere, Constant.bitcastHere, h.isSized, h.firstDepth?, h.elementAt]

theorem castWithin (h : Bodiless structs) (n : Nat) :
    Constant.castWithin structs n = Constant.castWithin [] n := by
  induction n with
  | zero => rfl
  | succ n ih =>
    funext kind c t
    simp only [Constant.castWithin, ih, h.castHere]

theorem bitcast (h : Bodiless structs) (c : Constant) (t : Ty) :
    c.bitcast structs t = c.bitcast [] t := by
  rw [Constant.bitcast, Constant.bitcast, h.castWithin]

end Bodiless

end QuantumIR
