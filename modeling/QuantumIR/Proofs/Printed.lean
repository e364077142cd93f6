import Mathlib.Data.List.Basic
import QuantumIR.Printer.Module
import QuantumIR.Proofs.Home

/-! # The text of a module

The text of a module that refers to itself only depends on the module and on the structs that occur
in it. Two sessions with the same module at a place, and no bodies of structs, print the same text
for it.
-/

namespace QuantumIR

namespace Survey

variable {structs : List StructDef} {k : Home}

theorem weights_parts (t : Ty) : Ty.weights (t.parts []) + 1 ≤ t.weight := by
  cases t with
  | struct name => simp [Ty.parts, Bodiless.nil.body?, Ty.weights, Ty.weight]
  | _ => simp [Ty.parts, Ty.weights, Ty.weight]

theorem weights_foldr_push (ts stack seen : List Ty) :
    Ty.weights (ts.foldr push (stack, seen)).1 ≤ Ty.weights ts + Ty.weights stack := by
  induction ts with
  | nil => simp [Ty.weights]
  | cons t ts ih =>
    simp only [List.foldr_cons, push, Ty.weights]
    split
    · omega
    · simp only [Ty.weights]
      omega

/-- A walk takes no more steps than types are written on its stack. -/
theorem walk_eq (h : Bodiless structs) {m n : Nat} {stack : List Ty} {s : Survey}
    (hm : Ty.weights stack ≤ m) (hn : Ty.weights stack ≤ n) :
    walk structs m stack s = walk [] n stack s := by
  induction m generalizing n stack s with
  | zero =>
    cases stack with
    | nil => cases n <;> rfl
    | cons t stack =>
      have hw := weights_parts t
      simp only [Ty.weights] at hm
      omega
  | succ m ih =>
    cases stack with
    | nil => cases n <;> rfl
    | cons t stack =>
      have hw := weights_parts t
      simp only [Ty.weights] at hm hn
      cases n with
      | zero => omega
      | succ n =>
        have hpush := weights_foldr_push (t.parts []) stack s.seen
        simp only [walk, h.parts]
        exact ih (by omega) (by omega)

theorem add_eq (h : Bodiless structs) : add structs = add [] := by
  funext s t
  have hw : Ty.weights [t] = t.weight := by simp [Ty.weights]
  unfold add
  split
  · rfl
  · refine walk_eq h ?_ ?_
    · rw [hw]
      exact Bodiless.weight_le_stepBound structs t
    · rw [hw]
      exact Bodiless.weight_le_stepBound [] t

theorem in_parts {t u : Ty} (ht : t.In k) (hu : u ∈ t.parts []) : u.In k := by
  cases t with
  | ptr | array =>
    rw [List.mem_singleton.mp hu]
    exact ht
  | struct name => simp [Ty.parts, Bodiless.nil.body?] at hu
  | function ret params =>
    obtain ⟨hret, hparams⟩ := Ty.in_function.mp ht
    rcases List.mem_cons.mp hu with rfl | hu
    · exact hret
    · exact hparams u hu
  | _ => cases hu

theorem mem_foldr_push {ts stack seen : List Ty} {u : Ty}
    (hu : u ∈ (ts.foldr push (stack, seen)).1) : u ∈ ts ∨ u ∈ stack := by
  induction ts with
  | nil => exact .inr hu
  | cons t ts ih =>
    simp only [List.foldr_cons, push] at hu
    split at hu
    · exact (ih hu).imp_left (List.mem_cons_of_mem _)
    · rcases List.mem_cons.mp hu with rfl | hu
      · exact .inl (by simp)
      · exact (ih hu).imp_left (List.mem_cons_of_mem _)

theorem found_walk {n : Nat} {stack : List Ty} {s : Survey} (hs : s.found ⊆ k.structs)
    (hstack : ∀ t ∈ stack, t.In k) : (walk [] n stack s).found ⊆ k.structs := by
  induction n generalizing stack s with
  | zero => exact hs
  | succ n ih =>
    cases stack with
    | nil => exact hs
    | cons t stack =>
      have ht := hstack t (by simp)
      simp only [walk]
      apply ih
      · cases t with
        | struct name =>
          intro x hx
          rcases List.mem_append.mp hx with hx | hx
          · exact hs hx
          · rw [List.mem_singleton.mp hx]
            exact Ty.in_struct.mp ht
        | _ => exact hs
      · intro u hu
        rcases mem_foldr_push hu with hu | hu
        · exact in_parts ht hu
        · exact hstack u (List.mem_cons_of_mem _ hu)

theorem found_add {s : Survey} {t : Ty} (hs : s.found ⊆ k.structs) (ht : t.In k) :
    (add [] s t).found ⊆ k.structs := by
  unfold add
  split
  · exact hs
  · refine found_walk hs fun u hu => ?_
    rw [List.mem_singleton.mp hu]
    exact ht

theorem found_foldl_add {ts : List Ty} {s : Survey} (hs : s.found ⊆ k.structs)
    (hts : ∀ t ∈ ts, t.In k) : (ts.foldl (add []) s).found ⊆ k.structs := by
  induction ts generalizing s with
  | nil => exact hs
  | cons t ts ih =>
    exact ih (found_add hs (hts t (by simp))) fun u hu => hts u (List.mem_cons_of_mem _ hu)

end Survey

section Types

variable {k : Home}

theorem Constant.In.types {c : Constant} (hc : c.In k) : ∀ t ∈ c.types, t.In k := by
  induction c with
  | fn | global => nofun
  | cast _ _ _ ih | element _ _ _ _ ih =>
    exact List.forall_mem_cons.mpr ⟨hc.2, ih hc.1⟩
  | int | double | null | zero | address =>
    intro t ht
    rw [List.mem_singleton.mp ht]
    exact Constant.In.ty hc

mutual

theorem Metadata.In.types : ∀ {m : Metadata}, m.In k → ∀ t ∈ m.types, t.In k
  | .str _, _ => nofun
  | .const _, hm => Constant.In.types hm
  | .bound _, _ => nofun
  | .node _, hm => Metadata.InAll.types hm

theorem Metadata.InAll.types : ∀ {ms : List Metadata}, Metadata.InAll k ms →
    ∀ t ∈ Metadata.typesAll ms, t.In k
  | [], _ => nofun
  | _ :: _, hm => List.forall_mem_append.mpr ⟨Metadata.In.types hm.1, Metadata.InAll.types hm.2⟩

end

theorem Value.In.types {v : Value} (hv : v.In k) : ∀ t ∈ v.types, t.In k := by
  cases v with
  | const c => exact Constant.In.types hv
  | bound l => nofun
  | metadata m => exact Metadata.In.types hv

theorem Instr.In.types {i : Instr} (hi : i.In k) : ∀ t ∈ i.types, t.In k := by
  refine List.forall_mem_cons.mpr ⟨hi.ty, ?_⟩
  intro t ht
  obtain ⟨v, hv, ht⟩ := List.mem_flatMap.mp ht
  exact (hi.operands v hv).types t ht

theorem Flag.in_toMetadata {f : Flag} (hf : f.value.In k) : f.toMetadata.In k :=
  ⟨trivial, trivial, hf, trivial⟩

theorem Module.In.types {m : Module} (hm : m.In k) : ∀ t ∈ m.types, t.In k := by
  intro t ht
  rcases List.mem_append.mp ht with ht | ht
  · rcases List.mem_append.mp ht with ht | ht
    · obtain ⟨g, hg, rfl⟩ := List.mem_map.mp ht
      exact hm.globals g hg
    · obtain ⟨f, hf, ht⟩ := List.mem_flatMap.mp ht
      rcases List.mem_cons.mp ht with rfl | ht
      · exact (hm.functions f hf).sig
      · obtain ⟨b, hb, ht⟩ := List.mem_flatMap.mp ht
        obtain ⟨x, hx, ht⟩ := List.mem_flatMap.mp ht
        exact (((hm.functions f hf).blocks b hb).body x hx).types t ht
  · obtain ⟨x, hx, ht⟩ := List.mem_flatMap.mp ht
    exact (Flag.in_toMetadata (hm.flags x hx)).types t ht

theorem Module.In.usedStructs {m : Module} (hm : m.In k) {structs : List StructDef}
    (h : Bodiless structs) (hk : k.structs ⊆ structs.map StructDef.name) :
    m.usedStructs structs =
      (m.types.foldl (Survey.add []) {}).found.map fun name => ⟨name, none⟩ := by
  have hfound := Survey.found_foldl_add (s := {}) (List.nil_subset k.structs) hm.types
  rw [Module.usedStructs, Survey.add_eq h, List.filterMap_eq_map_iff_forall_eq_some]
  exact fun name hname => h.find?_eq (hk (hfound hname))

end Types

namespace Session

variable {s t : Session} {k : Home} {view : View} {scope : Scope}

mutual

theorem in_number : ∀ {seen : List Metadata} {m : Metadata}, (∀ x ∈ seen, x.In k) → m.In k →
    ∀ x ∈ Metadata.number seen m, x.In k
  | seen, .node ms, hs, hm => by
    rw [Metadata.number]
    split
    · exact hs
    · refine in_numberAll ?_ hm
      exact List.forall_mem_append.mpr ⟨hs, List.forall_mem_singleton.mpr hm⟩
  | _, .str _, hs, _ => hs
  | _, .const _, hs, _ => hs
  | _, .bound _, hs, _ => hs

theorem in_numberAll : ∀ {seen : List Metadata} {ms : List Metadata}, (∀ x ∈ seen, x.In k) →
    Metadata.InAll k ms → ∀ x ∈ Metadata.numberAll seen ms, x.In k
  | _, [], hs, _ => hs
  | seen, m :: ms, hs, hm => by
    rw [Metadata.numberAll]
    exact in_numberAll (in_number hs hm.1) hm.2

end

theorem in_numberedBy {i : Instr} (hi : i.In k) : ∀ x ∈ s.numberedBy i, x.In k := by
  intro x hx
  cases i with
  | call callee sig args =>
    rw [numberedBy] at hx
    split at hx
    · obtain ⟨v, hv, hvx⟩ := List.mem_filterMap.mp (List.mem_filter.mp hx).1
      have hin := hi.operands v hv
      cases v with
      | metadata m =>
        cases hvx
        exact hin
      | const | bound => cases hvx
    · cases hx
  | ret | br | condBr => cases hx

theorem in_nodesSeen {m : Module} (hm : m.In k) :
    ∀ x ∈ s.nodesSeen m m.functions, x.In k := by
  refine in_numberAll nofun (Metadata.inAll_iff.mpr (List.forall_mem_append.mpr ⟨?_, ?_⟩))
  · intro x hx
    obtain ⟨f, hf, rfl⟩ := List.mem_map.mp hx
    exact Flag.in_toMetadata (hm.flags f hf)
  · intro x hx
    obtain ⟨f, hf, hx⟩ := List.mem_flatMap.mp hx
    obtain ⟨b, hb, hx⟩ := List.mem_flatMap.mp hx
    obtain ⟨i, hi, hx⟩ := List.mem_flatMap.mp hx
    exact in_numberedBy (((hm.functions f hf).blocks b hb).body i hi) x hx

section Values

variable (h : t.module? k.module = s.module? k.module)

include h

theorem fn?_eq {r : FnRef} (hr : r.module = k.module) : t.fn? r = s.fn? r := by
  unfold module? at h
  rw [fn?, fn?, hr, h]

theorem global?_eq {r : GlobalRef} (hr : r.module = k.module) : t.global? r = s.global? r := by
  unfold module? at h
  rw [global?, global?, hr, h]

theorem block?_eq {b : BlockRef} (hb : b.fn.module = k.module) : t.block? b = s.block? b := by
  rw [block?, block?, fn?_eq h hb]

theorem fnText_eq {r : FnRef} (hr : r.module = k.module) : t.fnText scope r = s.fnText scope r := by
  rw [fnText, fnText, fn?_eq h hr, hr, h]

theorem globalText_eq {r : GlobalRef} (hr : r.module = k.module) :
    t.globalText scope r = s.globalText scope r := by
  rw [globalText, globalText, global?_eq h hr, hr, h]

theorem constantText_eq {c : Constant} (hc : c.In k) :
    t.constantText scope c = s.constantText scope c := by
  induction c with
  | fn r sig => exact fnText_eq h hc.1
  | global r ty => exact globalText_eq h hc.1
  | cast kind base ty ih =>
    exact congrArg (fun text => kind.text ++ " (" ++ base.ty.text ++ " " ++ text ++ " to " ++
      ty.text ++ ")") (ih hc.1)
  | element inBounds base is ty ih =>
    exact congrArg (fun text => "getelementptr " ++ (if inBounds then "inbounds " else "") ++ "(" ++
      base.pointee.text ++ ", " ++ base.ty.text ++ " " ++ text ++
      String.join (is.map fun i => ", " ++ i.text) ++ ")") (ih hc.1)
  | int bits n => cases bits with
    | zero => rfl
    | succ bits => cases bits <;> rfl
  | double | null | zero | address => rfl

theorem localText_eq {l : Local} (hl : l.In k) : t.localText l = s.localText l := by
  match l, hl with
  | .param _ _ _, _ => rfl
  | .result (.stray _) _, _ => rfl
  | .result (.placed r) ty, hl => simp only [localText, resultText, fn?_eq h hl]

end Values

mutual

theorem metadataText_eq (h : t.module? k.module = s.module? k.module) :
    ∀ {m : Metadata}, m.In k → t.metadataText view m = s.metadataText view m
  | .str _, _ => rfl
  | .const _, hm => by
    rw [metadataText, metadataText, typedConstantText, typedConstantText, constantText_eq h hm]
  | .bound _, hm => by rw [metadataText, metadataText, localText_eq h hm]
  | .node _, hm => by rw [metadataText, metadataText, metadataTexts_eq h hm]

theorem metadataTexts_eq (h : t.module? k.module = s.module? k.module) :
    ∀ {ms : List Metadata}, Metadata.InAll k ms →
      t.metadataTexts view ms = s.metadataTexts view ms
  | [], _ => rfl
  | _ :: _, hm => by
    rw [metadataTexts, metadataTexts, metadataText_eq h hm.1, metadataTexts_eq h hm.2]

end

section Code

variable (h : t.module? k.module = s.module? k.module)

include h

theorem typedValueText_eq {v : Value} (hv : v.In k) :
    t.typedValueText view v = s.typedValueText view v := by
  rw [typedValueText, typedValueText]
  cases v with
  | const c => rw [valueText, valueText, constantText_eq h hv]
  | bound l => rw [valueText, valueText, localText_eq h hv]
  | metadata m => rw [valueText, valueText, metadataText_eq h hv]

theorem blockText_eq {b : BlockRef} (hb : b.fn.module = k.module) :
    t.blockText b = s.blockText b := by
  rw [blockText, blockText, fn?_eq h hb, block?_eq h hb]

theorem sourceText_eq {x : Source} (hx : x.In k) : t.sourceText x = s.sourceText x := by
  cases x with
  | block r => exact blockText_eq h hx
  | loose | nowhere => rfl

theorem instrText_eq {i : Instr} (hi : i.In k) {r : InstrRef}
    (hr : r.block.fn.module = k.module) :
    t.instrText view (.placed r) i = s.instrText view (.placed r) i := by
  cases i with
  | call callee sig args =>
    have hargs : args.map (t.typedValueText view) = args.map (s.typedValueText view) :=
      List.map_congr_left fun v hv => typedValueText_eq h (hi.operands v hv)
    simp only [instrText, resultText, fn?_eq h hr, fnText_eq h (hi.callee callee rfl), hargs]
  | ret value =>
    cases value with
    | none => rfl
    | some v =>
      simp only [instrText, typedValueText_eq h (hi.operands v (by simp [Instr.operands]))]
  | br target =>
    simp only [instrText, blockText_eq h (hi.targets target (by simp [Instr.targets]))]
  | condBr v one zero =>
    simp only [instrText, typedValueText_eq h (hi.operands v (by simp [Instr.operands])),
      blockText_eq h (hi.targets one (by simp [Instr.targets])),
      blockText_eq h (hi.targets zero (by simp [Instr.targets]))]

theorem labelLines_eq {f : Fn} {n : Nat} {b : Block} (hb : b.In k) :
    t.labelLines f n b = s.labelLines f n b := by
  have hsources : b.sources.map t.sourceText = b.sources.map s.sourceText :=
    List.map_congr_left fun x hx => sourceText_eq h (hb.sources x hx)
  rw [labelLines, labelLines, hsources]

theorem blockLines_eq {r : FnRef} (hr : r.module = k.module) {f : Fn} {n : Nat} {b : Block}
    (hb : b.In k) : t.blockLines view r f n b = s.blockLines view r f n b := by
  rw [blockLines, blockLines, labelLines_eq h hb]
  refine congrArg _ (List.mapIdx_eq_mapIdx_iff.mpr fun j hj => ?_)
  exact congrArg _ (instrText_eq h (hb.body _ (List.getElem_mem hj)) hr)

theorem functionLines_eq {r : FnRef} (hr : r.module = k.module) {groups : List AttrSet} {f : Fn}
    (hf : f.In k) : t.functionLines view groups r f = s.functionLines view groups r f := by
  have hblocks : f.blocks.mapIdx (t.blockLines view r f) =
      f.blocks.mapIdx (s.blockLines view r f) := by
    refine List.mapIdx_eq_mapIdx_iff.mpr fun n hn => ?_
    exact blockLines_eq h hr (hf.blocks _ (List.getElem_mem hn))
  rw [functionLines, functionLines, signatureLine, signatureLine, fnText_eq h hr, hblocks]

theorem numberedBy_eq {i : Instr} (hi : i.In k) : t.numberedBy i = s.numberedBy i := by
  cases i with
  | call callee sig args =>
    rw [numberedBy, numberedBy, isReserved, isReserved, fn?_eq h (hi.callee callee rfl)]
  | ret | br | condBr => rfl

theorem nodesSeen_eq {m : Module} (hm : m.In k) :
    t.nodesSeen m m.functions = s.nodesSeen m m.functions := by
  have hblock : ∀ f ∈ m.functions, ∀ b ∈ f.blocks,
      b.body.flatMap t.numberedBy = b.body.flatMap s.numberedBy := fun f hf b hb =>
    List.flatMap_congr fun i hi => numberedBy_eq h (((hm.functions f hf).blocks b hb).body i hi)
  rw [nodesSeen, nodesSeen,
    List.flatMap_congr fun f hf => List.flatMap_congr fun b hb => hblock f hf b hb]

theorem moduleView_eq (hm : ∀ m, s.module? k.module = some m → m.In k) :
    t.moduleView k.module = s.moduleView k.module := by
  rw [moduleView, moduleView, h]
  cases hs : s.module? k.module with
  | none => rfl
  | some m => rw [Option.map_some, Option.map_some, nodesSeen_eq h (hm m hs)]

theorem nodeLine_eq {m : Metadata} (hm : m.In k) : t.nodeLine view m = s.nodeLine view m := by
  cases m with
  | node ms =>
    rw [nodeLine, nodeLine, metadataText_eq h hm, nodeText, nodeText, metadataTexts_eq h hm]
  | str | const | bound => exact metadataText_eq h hm

/-- The text of a module is found in the module and the structs that it may refer to. -/
theorem moduleText_eq {m : Module} (hm : s.module? k.module = some m) (hin : m.In k)
    (hs : Bodiless s.structs) (ht : Bodiless t.structs)
    (hsn : k.structs ⊆ s.structs.map StructDef.name)
    (htn : k.structs ⊆ t.structs.map StructDef.name) :
    t.moduleText k.module m = s.moduleText k.module m := by
  have hview : t.moduleView k.module = s.moduleView k.module := by
    refine moduleView_eq h fun m' hm' => ?_
    rw [← Option.some.inj (hm.symm.trans hm')]
    exact hin
  have hnodes : ∀ x ∈ (s.moduleView k.module).nodes, x.In k := by
    simp only [moduleView, hm, Option.map_some, Option.getD_some]
    exact in_nodesSeen hin
  have hglobals : ∀ scope, (m.globals.mapIdx fun n g => t.globalLine scope ⟨k.module, n⟩ g) =
      m.globals.mapIdx fun n g => s.globalLine scope ⟨k.module, n⟩ g := by
    intro scope
    refine List.mapIdx_eq_mapIdx_iff.mpr fun n hn => ?_
    rw [globalLine, globalLine, globalText_eq h rfl]
  have hfunctions : ∀ view groups,
      (m.functions.mapIdx fun n f => t.functionLines view groups ⟨k.module, n⟩ f) =
        m.functions.mapIdx fun n f => s.functionLines view groups ⟨k.module, n⟩ f := by
    intro view groups
    refine List.mapIdx_eq_mapIdx_iff.mpr fun n hn => ?_
    exact functionLines_eq h rfl (hin.functions _ (List.getElem_mem hn))
  have hflags : ∀ view, (m.flags.map fun f => t.metadataText view f.toMetadata) =
      m.flags.map fun f => s.metadataText view f.toMetadata := fun view =>
    List.map_congr_left fun f hf => metadataText_eq h (Flag.in_toMetadata (hin.flags f hf))
  have hlines : (s.moduleView k.module).nodes.map (t.nodeLine (s.moduleView k.module)) =
      (s.moduleView k.module).nodes.map (s.nodeLine (s.moduleView k.module)) :=
    List.map_congr_left fun x hx => nodeLine_eq h (hnodes x hx)
  rw [moduleText, moduleText, sections, sections, hin.usedStructs hs hsn, hin.usedStructs ht htn]
  simp only [hview, hglobals, hfunctions, metadataSections, hflags, hlines]

end Code

end Session

end QuantumIR
