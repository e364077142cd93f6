import QuantumIR.Proofs.Symbol
import QuantumIR.Proofs.Twins

/-! # The table of structs

All modules of a session share one table of structs. A struct keeps its name, and a new one gets a
name that is not in use. So the struct that qubits or results point to is found again at all later
times, and a struct that asked for its name too late never counts as one.
-/

namespace QuantumIR

open Relation

inductive Handle
  | qubit
  | result
  deriving DecidableEq

namespace Handle

def name : Handle → String
  | .qubit => Ty.qubitName
  | .result => Ty.resultName

def expr : Handle → TypeExpr
  | .qubit => .qubit
  | .result => .result

def ty (h : Handle) : Ty := .handle h.name

theorem eval_expr (h : Handle) (s : Session) :
    h.expr.eval s = .ok h.ty (s.ensureStruct h.name) := by
  cases h <;> rfl

theorem name_ne_empty (h : Handle) : h.name ≠ "" := by
  cases h <;> decide

theorem isQubit_ty (h : Handle) : h.ty.isQubit = true ↔ h = .qubit := by
  cases h <;> decide

theorem isResult_ty (h : Handle) : h.ty.isResult = true ↔ h = .result := by
  cases h <;> decide

theorem numbered_ne_name (h h' : Handle) (k : Nat) : h.name ++ "." ++ toString k ≠ h'.name := by
  intro he
  have hlist := congrArg String.toList he
  cases h <;> cases h' <;>
    simp [name, Ty.qubitName, Ty.resultName, String.toList_append] at hlist

end Handle

namespace Session

variable {s t u : Session} {name : String}

/-- The names in the table, in order; a struct without a name has the empty one. -/
def labels (s : Session) : List String := s.structs.map StructDef.name

theorem structNames_eq (s : Session) : s.structNames = s.labels.filter (· ≠ "") := rfl

theorem freshStruct_not_mem (s : Session) (name : String) :
    (s.freshStruct name).1 ∉ s.structNames :=
  Name.fresh_not_mem (Module.numbered_injective name)

/-- Who asks for a name that is in use gets it with a number. -/
theorem freshStruct_of_mem (hn : name ∈ s.structNames) :
    ∃ k : Nat, (s.freshStruct name).1 = name ++ "." ++ toString k := by
  have hfresh := s.freshStruct_not_mem name
  unfold freshStruct Name.fresh at hfresh ⊢
  rw [if_neg (not_not.mpr hn)] at hfresh ⊢
  split
  next k _ => exact ⟨k, rfl⟩
  next hnone =>
    rw [hnone] at hfresh
    exact absurd hn hfresh

theorem labels_addStruct (s : Session) (name : String) :
    (s.addStruct name).2.labels = s.labels ++ [(s.freshStruct name).1] := by
  simp [labels, addStruct]

theorem labels_setBody (s : Session) (i : Nat) (ts : List Ty) :
    (s.setBody i ts).labels = s.labels := by
  apply List.ext_getElem?
  intro k
  simp only [labels, setBody, List.getElem?_map, List.getElem?_modify]
  split <;> cases s.structs[k]? <;> rfl

/-- The table goes on: names stay where they are, and stay different. -/
structure KeepsNames (s t : Session) : Prop where
  labels : s.labels <+: t.labels
  nodup : s.structNames.Nodup → t.structNames.Nodup

namespace KeepsNames

theorem of_labels_eq (h : t.labels = s.labels) : s.KeepsNames t := by
  constructor
  · exact h ▸ List.prefix_refl _
  · rw [structNames_eq, structNames_eq, h]
    exact id

theorem of_structs_eq (h : t.structs = s.structs) : s.KeepsNames t :=
  of_labels_eq (congrArg (List.map StructDef.name) h)

theorem refl (s : Session) : s.KeepsNames s := of_labels_eq rfl

theorem trans (h : s.KeepsNames t) (h' : t.KeepsNames u) : s.KeepsNames u :=
  ⟨h.labels.trans h'.labels, h'.nodup ∘ h.nodup⟩

theorem subset (h : s.KeepsNames t) : s.structNames ⊆ t.structNames := by
  intro name hname
  obtain ⟨hmem, hne⟩ := List.mem_filter.mp hname
  exact List.mem_filter.mpr ⟨h.labels.subset hmem, hne⟩

theorem within (h : s.KeepsNames t) (i : Nat) : (s.home i).Within (t.home i) := ⟨rfl, h.subset⟩

theorem addStruct (s : Session) (name : String) : s.KeepsNames (s.addStruct name).2 := by
  constructor
  · rw [labels_addStruct]
    exact List.prefix_append _ _
  · intro hs
    rw [structNames_eq, labels_addStruct, List.filter_append]
    exact Name.nodup_append_fresh hs (Module.numbered_injective name)

theorem ensureStruct (s : Session) (name : String) : s.KeepsNames (s.ensureStruct name) := by
  unfold Session.ensureStruct
  split
  · exact refl s
  · exact addStruct s name

theorem append (s : Session) (i : Instr) : s.KeepsNames (s.append i) :=
  of_structs_eq (structs_append s i)

end KeepsNames

theorem SideEffect.keepsNames (h : SideEffect s t) : s.KeepsNames t := by
  cases h with
  | struct name => exact .ensureStruct s name
  | cast c d => exact .of_structs_eq (structs_noteCast s c d)
  | string h =>
    obtain ⟨-, rfl⟩ := addString_ok h
    exact .of_structs_eq rfl

theorem Change.keepsNames (h : Change s t) : s.KeepsNames t := by
  cases h with
  | side h => exact h.keepsNames
  | struct name => exact .addStruct s name
  | setBody i ts => exact .of_labels_eq (labels_setBody s i ts)
  | instr i _ => exact .append s i
  | module | use | flag | function | global | attr | measurement | register | block | unset
  | loose =>
    exact .of_structs_eq rfl

theorem Acts.keepsNames (h : Acts s t) : s.KeepsNames t := by
  induction h with
  | refl => exact .refl _
  | tail _ h ih => exact ih.trans h.keepsNames

theorem count_labels (hs : s.structNames.Nodup) (hn : name ∈ s.structNames) :
    s.labels.count name = 1 := by
  obtain ⟨-, hne⟩ := List.mem_filter.mp hn
  have hcount := List.count_eq_one_of_mem hs hn
  rwa [structNames_eq, List.count_filter (p := (· ≠ "")) hne] at hcount

theorem struct?_of_prefix (h : s.structs <+: t.structs) (hn : name ∈ s.structNames) :
    t.struct? name = s.struct? name := by
  obtain ⟨more, hmore⟩ := h
  obtain ⟨d, hd, hname⟩ := List.mem_map.mp (List.mem_filter.mp hn).1
  have hsome : (s.structs.find? (·.name = name)).isSome :=
    List.find?_isSome.mpr ⟨d, hd, by simpa using hname⟩
  rw [struct?, struct?, ← hmore, List.find?_append, Option.or_of_isSome hsome]

end Session

open Session Attempt

namespace Config

variable {c d : Config}

theorem next_keepsNames (h : c.next = some d) : c.session.KeepsNames d.session := by
  have hmove : ∀ (s : Session) b, s.KeepsNames (s.moveTo b) := fun _ _ => .of_structs_eq rfl
  apply next_rel KeepsNames.refl KeepsNames.trans ?_ SideEffect.keepsNames
    (fun h => (emit_acts h).keepsNames) (fun _ _ _ => .of_structs_eq rfl) KeepsNames.append hmove h
  intro command _ _
  exact command.act_rel KeepsNames.refl KeepsNames.trans Change.keepsNames hmove c.session

theorem Reaches.keepsNames (h : c.Reaches d) : c.session.KeepsNames d.session :=
  h.invariant (P := fun d => c.session.KeepsNames d.session)
    (fun _ _ hn hc => hc.trans (next_keepsNames hn)) (.refl _)

theorem Reachable.nodup_structNames (hc : c.Reachable) : c.session.structNames.Nodup := by
  obtain ⟨name, steps, h⟩ := hc
  exact h.keepsNames.nodup List.nodup_nil

/-- A command that asks for a struct appends one at once, whatever becomes of its body. -/
theorem next_newStruct {asked : String} {body : Option (List TypeExpr)} {rest : List Step}
    (hc : c.steps = .perform (.newStruct asked body) :: rest) (h : c.next = some d) :
    (c.session.addStruct asked).2.KeepsNames d.session := by
  obtain ⟨steps, stack, s⟩ := c
  obtain rfl : steps = _ := hc
  obtain rfl := Option.some.inj h
  rw [answer_snd]
  obtain ⟨t, ht, hleaves | ⟨ts, hleaves⟩⟩ := Command.newStruct_leaves asked body s
  · rw [hleaves]
    exact ht.acts.keepsNames
  · rw [hleaves]
    exact ht.acts.keepsNames.trans (.of_labels_eq (labels_setBody t _ ts))

/-- In every session that a run passes through, in the middle of a step too, the names of structs
are different. The type of a qubit or a result is a pointer to the one struct of its name. Once
there is such a struct, the type is the same at all later times and nothing is created for it. A
struct that asked for the name when it was in use is not one that a qubit or a result points to. -/
theorem handles_stable (hc : c.Reachable) (h : Handle) :
    (∀ u, Acts c.session u → u.structNames.Nodup ∧
      ∃ t, h.expr.eval u = .ok (.ptr (.struct h.name) 0) t ∧ t.labels.count h.name = 1 ∧
        (h.name ∈ u.structNames → t = u)) ∧
    (h.name ∈ c.session.structNames → ∀ d, c.Reaches d →
      d.session.struct? h.name = c.session.struct? h.name ∧
      ∀ u, Acts d.session u → h.expr.eval u = .ok (.ptr (.struct h.name) 0) u) ∧
    ((Ty.ptr (.struct h.name) 0).isQubit = true ↔ h = .qubit) ∧
    ((Ty.ptr (.struct h.name) 0).isResult = true ↔ h = .result) ∧
    ∀ body rest, c.steps = .perform (.newStruct h.name body) :: rest →
      h.name ∈ c.session.structNames →
        ∃ d n, c.next = some d ∧ ∀ e, d.Reaches e →
          e.session.labels[c.session.structs.length]? = some n ∧
          ∀ space, (Ty.ptr (.struct n) space).isQubit = false ∧
            (Ty.ptr (.struct n) space).isResult = false := by
  have heval : ∀ u : Session, h.name ∈ u.structNames → h.expr.eval u = .ok h.ty u := by
    intro u hu
    rw [h.eval_expr, Session.ensureStruct, if_pos hu]
  refine ⟨?_, ?_, h.isQubit_ty, h.isResult_ty, ?_⟩
  · intro u hu
    have hnodup := hu.keepsNames.nodup hc.nodup_structNames
    refine ⟨hnodup, u.ensureStruct h.name, h.eval_expr u, ?_, ?_⟩
    · apply count_labels ((KeepsNames.ensureStruct u h.name).nodup hnodup)
      exact (mem_structNames_ensureStruct h.name_ne_empty).mpr (.inr rfl)
    · exact fun hname => if_pos hname
  · intro hname d hd
    constructor
    · exact struct?_of_prefix hd.retains.structs hname
    · intro u hu
      exact heval u ((hd.keepsNames.trans hu.keepsNames).subset hname)
  · intro body rest hsteps hname
    obtain ⟨k, hk⟩ := freshStruct_of_mem hname
    obtain ⟨d, hd⟩ : ∃ d, c.next = some d := by
      obtain ⟨steps, stack, s⟩ := c
      obtain rfl : steps = _ := hsteps
      exact ⟨_, rfl⟩
    refine ⟨d, (c.session.freshStruct h.name).1, hd, ?_⟩
    intro e he
    constructor
    · have hlabels := ((next_newStruct hsteps hd).trans he.keepsNames).labels
      rw [labels_addStruct] at hlabels
      have hlength : c.session.structs.length = c.session.labels.length := by simp [labels]
      rw [List.prefix_iff_getElem?.mp hlabels _ (by simp [hlength])]
      simp [hlength]
    · intro space
      have hqubit : (c.session.freshStruct h.name).1 ≠ Ty.qubitName :=
        hk ▸ h.numbered_ne_name .qubit k
      have hresult : (c.session.freshStruct h.name).1 ≠ Ty.resultName :=
        hk ▸ h.numbered_ne_name .result k
      simp [Ty.isQubit, Ty.isResult, Ty.isHandle, hqubit, hresult]

/-- A struct with the name of qubits and a body is there, and another one is asked for. -/
def secondQubit : Config where
  steps := [.perform (.newStruct "Qubit" none), .perform (.describeType .qubit)]
  stack := []
  session :=
    { Session.start "m" with structs := [⟨"Qubit", some [.int 8, .result]⟩, ⟨"Result", none⟩] }

theorem handles_stable_secondQubit :
    secondQubit.Reachable ∧
    TypeExpr.eval .qubit secondQubit.session = .ok (.ptr (.struct "Qubit") 0) secondQubit.session ∧
    ∃ d n, secondQubit.next = some d ∧ d.session.labels[2]? = some n ∧
      (Ty.ptr (.struct n) 0).isQubit = false := by
  have hc : secondQubit.Reachable :=
    ⟨"m", .perform (.newStruct "Qubit" (some [.int 8, .result])) :: secondQubit.steps,
      .of_next rfl .refl⟩
  have hname : Handle.name .qubit ∈ secondQubit.session.structNames := by decide
  obtain ⟨-, hlater, -, -, hnew⟩ := handles_stable hc .qubit
  obtain ⟨d, n, hd, hn⟩ := hnew none _ rfl hname
  obtain ⟨hlabel, hneither⟩ := hn d .refl
  exact ⟨hc, (hlater hname _ .refl).2 _ .refl, d, n, hd, hlabel, (hneither 0).1⟩

end Config

theorem TypeExpr.eval_in {t : TypeExpr} {s u : Session} {ty : Ty} (h : t.eval s = .ok ty u) :
    ty.In (u.home 0) := by
  induction t generalizing s u ty with
  | void | double | int _ =>
    cases h
    exact List.nil_subset _
  | qubit | result =>
    cases h
    apply Ty.in_ptr.mpr
    exact Ty.in_struct.mpr ((mem_structNames_ensureStruct (by decide)).mpr (.inr rfl))
  | ptr t n ih =>
    obtain ⟨pointee, v, ht, h⟩ := ok_bind h
    cases h
    exact Ty.in_ptr.mpr (ih ht)
  | array t n ih =>
    obtain ⟨elem, v, ht, h⟩ := ok_bind h
    cases h
    exact Ty.in_array.mpr (ih ht)
  | struct name =>
    obtain ⟨v, w, hg, h⟩ := ok_bind h
    cases hg
    split at h
    next hname =>
      cases h
      exact Ty.in_struct.mpr hname.2
    · cases h

theorem TypeExpr.evalList_in {ts : List TypeExpr} {s u : Session} {tys : List Ty}
    (h : evalList ts s = .ok tys u) : ∀ ty ∈ tys, ty.In (u.home 0) := by
  induction ts generalizing s u tys with
  | nil =>
    cases h
    exact nofun
  | cons t ts ih =>
    obtain ⟨ty, v, ht, h⟩ := ok_bind h
    obtain ⟨tys', w, hts, h⟩ := ok_bind h
    cases h
    have hkept := (TypeExpr.evalList_evaluates ts v).acts.keepsNames
    rw [leaves_ok hts] at hkept
    rintro x (_ | ⟨_, hx⟩)
    · exact (TypeExpr.eval_in ht).mono (hkept.within 0)
    · exact ih hts x hx

namespace Session

variable {s t u : Session}

def TypesKnown (s : Session) : Prop := ∀ r f, s.fn? r = some f → f.sig.ty.In (s.home 0)

namespace TypesKnown

theorem of_sig (hs : s.TypesKnown) (h : ∀ r, (t.fn? r).map Fn.sig = (s.fn? r).map Fn.sig)
    (hn : s.KeepsNames t) : t.TypesKnown := by
  intro r f hf
  have hr := h r
  rw [hf] at hr
  obtain ⟨g, hg, hsig⟩ := Option.map_eq_some_iff.mp hr.symm
  rw [← hsig]
  exact (hs r g hg).mono (hn.within 0)

theorem of_fn? (hs : s.TypesKnown) (h : ∀ r, t.fn? r = s.fn? r) (hn : s.KeepsNames t) :
    t.TypesKnown :=
  hs.of_sig (fun r => congrArg _ (h r)) hn

theorem of_skeleton (hs : s.TypesKnown)
    (h : ∀ r, (t.fn? r).map Fn.skeleton = (s.fn? r).map Fn.skeleton) (hn : s.KeepsNames t) :
    t.TypesKnown := by
  apply hs.of_sig ?_ hn
  intro r
  simpa [Function.comp_def, Fn.skeleton] using congrArg (Option.map Fn.sig) (h r)

theorem addAttr (hs : s.TypesKnown) (q : FnRef) (i : AttrIndex) (a : Attr) :
    (s.addAttr q i a).TypesKnown := by
  have hnames : s.KeepsNames (s.addAttr q i a) := .of_structs_eq rfl
  apply hs.of_sig ?_ hnames
  intro r
  rw [Session.addAttr, fn?_updateFn]
  split
  · rw [Option.map_map]
    rfl
  · rfl

theorem addFunction (hs : s.TypesKnown) {sig : Signature} (hsig : sig.ty.In (s.home 0)) (i : Nat)
    (name : String) (l : Linkage) : (s.addFunction i name sig l).2.TypesKnown := by
  intro r f hf
  rcases fn?_addFunction s i name sig l hf with hf | ⟨m, -, -, hf⟩
  · exact hs r f hf
  · rw [← List.singleton_inj.mp (List.append_cancel_left hf)]
    exact hsig

theorem append (hs : s.TypesKnown) (i : Instr) : (s.append i).TypesKnown :=
  hs.of_skeleton (skeleton_append s i) (.append s i)

theorem addStruct (hs : s.TypesKnown) (name : String) : (s.addStruct name).2.TypesKnown := by
  have hnames := KeepsNames.addStruct s name
  exact hs.of_fn? (fun _ => rfl) hnames

theorem side (hs : s.TypesKnown) (h : SideEffect s t) : t.TypesKnown :=
  hs.of_fn? h.fn? h.keepsNames

theorem evaluates (hs : s.TypesKnown) (h : Evaluates s t) : t.TypesKnown :=
  hs.of_fn? h.fn? h.acts.keepsNames

theorem emit (hs : s.TypesKnown) {op : Operation} {args : List Value} {v : Value}
    (h : s.emit op args = .ok (v, t)) : t.TypesKnown := by
  have hstructs : (op.structs.foldl Session.ensureStruct s).TypesKnown :=
    hs.evaluates (foldl_ensureStruct_evaluates op.structs s)
  have hsig : op.signature.ty.In ((op.structs.foldl Session.ensureStruct s).home 0) := by
    apply Operation.in_signature
    intro name hname
    exact (mem_structNames_foldl_ensureStruct op.structs_ne_empty).mpr (.inr hname)
  have hdeclare : ∀ i, ((op.structs.foldl Session.ensureStruct s).declare i op).2.TypesKnown := by
    intro i
    unfold declare
    split
    · exact hstructs
    · exact hstructs.addFunction hsig i _ _
  have hmark : ∀ u : Session, u.TypesKnown → ∀ r, (u.mark op r).TypesKnown := by
    intro u hu r
    unfold mark
    split
    · rw [markMeasurement_eq]
      exact (hu.addAttr _ _ _).addAttr _ _ _
    · exact hu
  exact emit_induction h (fun b _ => hmark _ (hdeclare b.fn.module) _) fun _ _ _ hu => hu.append _

end TypesKnown

end Session

theorem Command.Does.typesKnown {c : Command} {s t : Session}
    (hc : ∀ name output params l, c ≠ .declare name output params l) (h : c.Does s t)
    (hs : s.TypesKnown) : t.TypesKnown := by
  cases h with
  | side h => exact hs.side h
  | module _ name => exact hs.of_fn? (fn?_addModule s name) (.of_structs_eq rfl)
  | flag _ f _ => exact hs.of_fn? (fn?_addFlag s _ f) (.of_structs_eq rfl)
  | struct h => exact (hs.addStruct _).evaluates h
  | structBody ts h =>
    have ht := (hs.addStruct _).evaluates h
    exact ht.of_fn? (fun _ => rfl) (.of_labels_eq (labels_setBody _ _ ts))
  | entryPoint _ e =>
    exact addEntryPoint_induction (hs.addFunction (by simp [Signature.ty]) _ _ _)
      fun t r _ _ _ ht => ht.addAttr r _ _
  | function _ sig => exact absurd rfl (hc _ _ _ _)
  | global _ ty => exact hs.of_fn? (fn?_addGlobal s _ _ ty none) (.of_structs_eq rfl)
  | attr _ => exact hs.addAttr _ _ _
  | block _ _ => exact hs.of_skeleton (skeleton_addBlock s _ _) (.of_structs_eq rfl)
  | instr _ _ _ => exact hs.append _
  | emit h => exact hs.emit h
  | use | register | move | unset | loose => exact hs.of_fn? (fun _ => rfl) (.of_structs_eq rfl)

theorem Command.declare_typesKnown (name : String) (output : TypeExpr) (params : List TypeExpr)
    (l : Linkage) {s : Session} (hs : s.TypesKnown) :
    ((Command.declare name output params l).act.leaves s).TypesKnown := by
  have ho := output.eval_evaluates s
  unfold Command.act
  rw [leaves_bind]
  cases houtput : output.eval s with
  | error e t =>
    rw [leaves_error houtput] at ho
    exact hs.evaluates ho
  | ok ret t =>
    rw [leaves_ok houtput] at ho
    have hp := TypeExpr.evalList_evaluates params t
    simp only
    rw [leaves_bind]
    cases hparams : TypeExpr.evalList params t with
    | error e u =>
      rw [leaves_error hparams] at hp
      exact hs.evaluates (ho.trans hp)
    | ok tys u =>
      rw [leaves_ok hparams] at hp
      have hret : ret.In (u.home 0) :=
        (TypeExpr.eval_in houtput).mono (hp.acts.keepsNames.within 0)
      apply (hs.evaluates (ho.trans hp)).addFunction
      exact Ty.in_function.mpr ⟨hret, TypeExpr.evalList_in hparams⟩

theorem Config.next_typesKnown {c d : Config} (h : c.next = some d) :
    c.session.TypesKnown → d.session.TypesKnown := by
  apply Config.next_rel (R := fun s t => s.TypesKnown → t.TypesKnown) (fun _ => id)
    (fun h h' => h' ∘ h) ?_ (fun h hs => hs.side h) (fun h hs => hs.emit h)
    (fun s r name hs => hs.of_skeleton (skeleton_addBlock s r name) (.of_structs_eq rfl))
    (fun _ i hs => hs.append i) (fun _ _ hs => hs.of_fn? (fun _ => rfl) (.of_structs_eq rfl)) h
  intro command _ _ hs
  by_cases hc : ∃ name output params l, command = .declare name output params l
  · obtain ⟨name, output, params, l, rfl⟩ := hc
    exact Command.declare_typesKnown name output params l hs
  · push Not at hc
    have hdoes := command.act_does c.session
    generalize command.act.leaves c.session = t at hdoes
    induction hdoes with
    | refl => exact hs
    | tail _ h ih => exact h.typesKnown hc ih

theorem Session.Reachable.typesKnown {s : Session} (hs : s.Reachable) : s.TypesKnown := by
  obtain ⟨c, ⟨name, steps, hc⟩, rfl⟩ := hs
  apply hc.invariant (P := fun c => c.session.TypesKnown) (fun _ _ => Config.next_typesKnown)
  rintro ⟨_ | i, k⟩ f hf <;> cases hf

end QuantumIR
