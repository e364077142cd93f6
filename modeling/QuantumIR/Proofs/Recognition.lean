import QuantumIR.Proofs.FlagHistory
import QuantumIR.Proofs.StructTable

/-! # Which types count as qubits and results

The test for the type of qubits or results looks at the name of the struct and at the address space,
and not at the body of the struct. A struct has a body if and only if the step that created it gave
it one. So the test finds the pointers to a struct without a body where the parity of the address
space agrees with the history of the struct, and nowhere else.
-/

namespace QuantumIR

open Attempt Session

/-- A handle is a pointer to the struct of its name in an even address space. -/
theorem Ty.isHandle_iff {t : Ty} {name : String} :
    t.isHandle name = true ↔ ∃ space, t = .ptr (.struct name) space ∧ space % 2 = 0 := by
  constructor
  · intro h
    unfold isHandle at h
    split at h
    next n space =>
      rw [Bool.and_eq_true, decide_eq_true_eq, decide_eq_true_eq] at h
      exact ⟨space, by rw [h.1], h.2⟩
    · cases h
  · rintro ⟨space, rfl, hspace⟩
    simp [isHandle, hspace]

def Handle.recognizes : Handle → Ty → Bool
  | .qubit => Ty.isQubit
  | .result => Ty.isResult

theorem Handle.recognizes_iff (h : Handle) {t : Ty} :
    h.recognizes t = true ↔ ∃ space, t = .ptr (.struct h.name) space ∧ space % 2 = 0 := by
  cases h <;> exact Ty.isHandle_iff

namespace Session

variable {s t u : Session} {h : Handle}

/-- The type is a pointer, in any address space, to a struct of the name that has no body. -/
def PointsToBodiless (s : Session) (name : String) (t : Ty) : Prop :=
  (∃ space, t = .ptr (.struct name) space) ∧ s.struct? name = some ⟨name, none⟩

theorem body?_continued (hs : s.structs <+: t.structs) {name : String} (hn : name ∈ s.structNames) :
    Ty.body? t.structs name = Ty.body? s.structs name := by
  have hstruct := struct?_of_prefix hs hn
  exact congrArg (·.bind StructDef.body) hstruct

theorem find?_eq_none (hn : h.name ∉ s.structNames) :
    s.structs.find? (·.name = h.name) = none := by
  rw [List.find?_eq_none]
  intro d hd hname
  apply hn
  rw [decide_eq_true_eq] at hname
  exact List.mem_filter.mpr
    ⟨hname ▸ List.mem_map_of_mem hd, decide_eq_true h.name_ne_empty⟩

theorem struct?_eq_iff {name : String} (hn : name ∈ s.structNames) :
    s.struct? name = some ⟨name, none⟩ ↔ Ty.body? s.structs name = none := by
  obtain ⟨d, hd, hname⟩ := List.mem_map.mp (List.mem_filter.mp hn).1
  have hsome : (s.struct? name).isSome :=
    List.find?_isSome.mpr ⟨d, hd, by simpa using hname⟩
  obtain ⟨e, he⟩ := Option.isSome_iff_exists.mp hsome
  have hename : e.name = name := by simpa using List.find?_some he
  have hbody : Ty.body? s.structs name = e.body := by
    change (s.struct? name).bind StructDef.body = e.body
    rw [he]
    rfl
  rw [he, hbody, ← hename]
  constructor
  · intro heq
    rw [Option.some.inj heq]
  · intro heq
    rw [← heq]

/-- The table of structs goes on, and a new struct with the name of the handle has no body. -/
structure GivesNoBody (h : Handle) (s t : Session) : Prop where
  structs : s.structs <+: t.structs
  body : h.name ∉ s.structNames → Ty.body? t.structs h.name = none

namespace GivesNoBody

theorem of_structs_eq (hs : t.structs = s.structs) : GivesNoBody h s t := by
  constructor
  · exact hs ▸ List.prefix_refl _
  · intro hn
    rw [Ty.body?, hs, find?_eq_none hn]
    rfl

theorem refl (s : Session) : GivesNoBody h s s := of_structs_eq rfl

theorem trans (hs : GivesNoBody h s t) (ht : GivesNoBody h t u) : GivesNoBody h s u := by
  refine ⟨hs.structs.trans ht.structs, fun hn => ?_⟩
  by_cases hmem : h.name ∈ t.structNames
  · rw [body?_continued ht.structs hmem]
    exact hs.body hn
  · exact ht.body hmem

theorem of_append {name : String} (ht : t.structs = s.structs ++ [⟨name, none⟩]) :
    GivesNoBody h s t := by
  refine ⟨ht ▸ List.prefix_append _ _, fun hn => ?_⟩
  rw [Ty.body?, ht, List.find?_append, find?_eq_none hn]
  by_cases hname : name = h.name <;> simp [hname]

theorem addStruct (s : Session) (name : String) : GivesNoBody h s (s.addStruct name).2 :=
  of_append rfl

theorem ensureStruct (s : Session) (name : String) : GivesNoBody h s (s.ensureStruct name) := by
  unfold Session.ensureStruct
  split
  · exact refl s
  · exact addStruct s name

theorem append (s : Session) (i : Instr) : GivesNoBody h s (s.append i) :=
  of_structs_eq (structs_append s i)

theorem emit {op : Operation} {args : List Value} {v : Value}
    (he : s.emit op args = .ok (v, t)) : GivesNoBody h s t := by
  have hprepare : ∀ i, GivesNoBody h s (s.prepare i op).2 := by
    intro i
    apply prepare_induction (.refl s)
    · exact fun t name ht => ht.trans (ensureStruct t name)
    · exact fun t ht => ht.trans (of_structs_eq rfl)
    · exact fun t r x a _ ht => ht.trans (of_structs_eq rfl)
  exact emit_induction he (fun b _ => hprepare b.fn.module) fun u _ _ hu => hu.trans (append u _)

end GivesNoBody

theorem SideEffect.givesNoBody (hs : SideEffect s t) : GivesNoBody h s t := by
  cases hs with
  | struct name => exact .ensureStruct s name
  | cast c d => exact .of_structs_eq (structs_noteCast s c d)
  | string hstring =>
    obtain ⟨-, rfl⟩ := addString_ok hstring
    exact .of_structs_eq rfl

theorem Evaluates.givesNoBody (hs : Evaluates s t) : GivesNoBody h s t := by
  induction hs with
  | refl => exact .refl _
  | tail _ hside ih => exact ih.trans hside.givesNoBody

end Session

theorem Command.Does.givesNoBody {c : Command} {s t : Session} {h : Handle}
    (hc : ∀ name body, c ≠ .newStruct name body) (hd : c.Does s t) : GivesNoBody h s t := by
  cases hd with
  | side hs => exact hs.givesNoBody
  | struct _ => exact absurd rfl (hc _ _)
  | structBody _ _ => exact absurd rfl (hc _ _)
  | entryPoint _ e =>
    exact addEntryPoint_induction (.of_structs_eq rfl)
      fun t r _ _ _ ht => ht.trans (.of_structs_eq rfl)
  | instr _ _ _ => exact .append s _
  | emit he => exact .emit he
  | module | use | flag | function | global | attr | register | block | move | unset | loose =>
    exact .of_structs_eq rfl

theorem Session.structs_setBody {s u : Session} {name : String} (ts : List Ty)
    (hu : s.structs ++ [⟨name, none⟩] <+: u.structs) :
    ∃ rest, u.structs = s.structs ++ ⟨name, none⟩ :: rest ∧
      (u.setBody s.structs.length ts).structs = s.structs ++ ⟨name, some ts⟩ :: rest := by
  obtain ⟨rest, hrest⟩ := hu
  rw [List.append_assoc, List.singleton_append] at hrest
  refine ⟨rest, hrest.symm, ?_⟩
  rw [setBody, ← hrest]
  simp [List.modify_eq_take_drop]

theorem Command.leaves_newStruct (name : String) (body : List TypeExpr) (s : Session) :
    (Command.newStruct name (some body)).act.leaves s =
      match TypeExpr.evalList body (s.addStruct name).2 with
      | .ok ts u => u.setBody s.structs.length ts
      | .error _ u => u := by
  unfold Command.act
  rw [leaves_update_bind, leaves_bind]
  cases TypeExpr.evalList body (s.addStruct name).2 <;> rfl

namespace Config

variable {c d : Config} {h : Handle} {bodies : List (List Ty)}

def bodied (h : Handle) (c : Config) : List (List Ty) :=
  match c.steps with
  | .perform (.newStruct name (some body)) :: _ =>
    if (c.session.freshStruct name).1 = h.name then
      match TypeExpr.evalList body (c.session.addStruct name).2 with
      | .ok ts _ => [ts]
      | .error _ _ => []
    else []
  | _ => []

theorem bodied_eq_nil (hn : h.name ∈ c.session.structNames) : c.bodied h = [] := by
  unfold bodied
  split
  next name body _ _ =>
    rw [if_neg]
    intro hname
    exact c.session.freshStruct_not_mem name (hname ▸ hn)
  · rfl

theorem body?_newStruct {name : String} {body : List TypeExpr} {rest : List Step}
    (hsteps : c.steps = .perform (.newStruct name (some body)) :: rest)
    (hn : h.name ∉ c.session.structNames) :
    Ty.body? ((Command.newStruct name (some body)).act.leaves c.session).structs h.name =
      (c.bodied h).head? := by
  have hadd : GivesNoBody h c.session (c.session.addStruct name).2 := .addStruct c.session name
  have heval := TypeExpr.evalList_evaluates body (c.session.addStruct name).2
  rw [Command.leaves_newStruct]
  unfold bodied
  rw [hsteps]
  cases hbody : TypeExpr.evalList body (c.session.addStruct name).2 with
  | error e u =>
    rw [leaves_error hbody] at heval
    have hnone := (hadd.trans heval.givesNoBody).body hn
    simpa [hbody] using hnone
  | ok ts u =>
    rw [leaves_ok hbody] at heval
    -- The evaluation of the body may add the struct of the handle, but after the new struct.
    have hnone := (hadd.trans heval.givesNoBody).body hn
    have hprefix : c.session.structs ++ [⟨(c.session.freshStruct name).1, none⟩] <+: u.structs :=
      (heval.givesNoBody (h := h)).structs
    obtain ⟨more, hu, hset⟩ := structs_setBody ts hprefix
    have hfind := find?_eq_none hn
    rw [Ty.body?, hu, List.find?_append, hfind, Option.none_or, List.find?_cons] at hnone
    simp only [hbody]
    rw [Ty.body?, hset, List.find?_append, hfind, Option.none_or, List.find?_cons]
    by_cases hname : (c.session.freshStruct name).1 = h.name
    · simp [hname]
    · simpa [hname] using hnone

theorem next_givesNoBody
    (hc : ∀ name body rest, c.steps ≠ .perform (.newStruct name (some body)) :: rest)
    (hd : c.next = some d) : GivesNoBody h c.session d.session := by
  apply next_rel GivesNoBody.refl GivesNoBody.trans ?_ SideEffect.givesNoBody .emit
    (fun _ _ _ => .of_structs_eq rfl) GivesNoBody.append (fun _ _ => .of_structs_eq rfl) hd
  intro command rest hsteps
  by_cases hnew : ∃ name body, command = .newStruct name body
  · obtain ⟨name, body, rfl⟩ := hnew
    cases body with
    | none => exact .addStruct c.session name
    | some body => exact absurd hsteps (hc name body rest)
  · push Not at hnew
    have hdoes := command.act_does c.session
    generalize command.act.leaves c.session = t at hdoes
    induction hdoes with
    | refl => exact .refl _
    | tail _ hstep ih => exact ih.trans (hstep.givesNoBody hnew)

/-- A struct of the name that a step creates has the body that the step gives to it. -/
theorem next_body? (hn : h.name ∉ c.session.structNames) (hd : c.next = some d) :
    Ty.body? d.session.structs h.name = (c.bodied h).head? := by
  by_cases hc : ∃ name body rest, c.steps = .perform (.newStruct name (some body)) :: rest
  · obtain ⟨name, body, rest, hsteps⟩ := hc
    rw [← body?_newStruct hsteps hn]
    obtain ⟨steps, stack, s⟩ := c
    obtain rfl : steps = _ := hsteps
    obtain rfl := Option.some.inj hd
    rw [answer_snd]
  · push Not at hc
    have hnil : c.bodied h = [] := by
      unfold bodied
      split
      next name body rest hsteps => exact absurd hsteps (hc name body rest)
      · rfl
    rw [hnil]
    exact (next_givesNoBody hc hd).body hn

/-- A struct has the body that a step of the run has given to it; no other step gives it one. -/
theorem Trace.body? (hc : h.name ∉ c.session.structNames) (hd : Trace (bodied h) c bodies d) :
    Ty.body? d.session.structs h.name = bodies.head? := by
  induction hd with
  | start => exact (GivesNoBody.refl c.session).body hc
  | @step d e bodies hd hn ih =>
    by_cases hmem : h.name ∈ d.session.structNames
    · rw [bodied_eq_nil hmem, List.append_nil, body?_continued (next_retains hn).structs hmem]
      exact ih
    · -- The struct is not there yet, so no step has given it a body, and this one may be the first.
      have hnil : bodies = [] := by
        rw [← List.head?_eq_none_iff, ← ih]
        exact (GivesNoBody.refl d.session).body hmem
      rw [hnil, List.nil_append]
      exact next_body? hmem hn

end Config

namespace Program

/-- A type counts as the type of qubits if and only if it is a pointer to the struct of that name in
an even address space, and likewise for results. It points to a struct of that name without a body
if and only if no step of the run has given a body to the struct. So the test is right about a type,
in any session that a run comes to, exactly if the type does not point to the struct, or if its
address space is even where the struct has no body and odd where it has one. -/
theorem recognition_exact_iff {p : Program} {d : Config} {h : Handle} {bodies : List (List Ty)}
    (hd : Config.Trace (Config.bodied h) p.start bodies d) {t : Ty}
    (ht : t.names ⊆ d.session.structNames) :
    (h.recognizes t = true ↔ ∃ space, t = .ptr (.struct h.name) space ∧ space % 2 = 0) ∧
    (d.session.PointsToBodiless h.name t ↔
      (∃ space, t = .ptr (.struct h.name) space) ∧ bodies = []) ∧
    ((h.recognizes t = true ↔ d.session.PointsToBodiless h.name t) ↔
      ∀ space, t = .ptr (.struct h.name) space → (space % 2 = 0 ↔ bodies = [])) := by
  have hpoints : d.session.PointsToBodiless h.name t ↔
      (∃ space, t = .ptr (.struct h.name) space) ∧ bodies = [] := by
    refine and_congr_right ?_
    rintro ⟨space, rfl⟩
    have hmem : h.name ∈ d.session.structNames := ht (by simp [Ty.names])
    rw [struct?_eq_iff hmem, hd.body? (List.not_mem_nil), List.head?_eq_none_iff]
  refine ⟨h.recognizes_iff, hpoints, ?_⟩
  rw [h.recognizes_iff, hpoints]
  constructor
  · rintro hexact space rfl
    simpa using hexact
  · intro hparity
    constructor
    · rintro ⟨space, rfl, hspace⟩
      exact ⟨⟨space, rfl⟩, (hparity space rfl).mp hspace⟩
    · rintro ⟨⟨space, rfl⟩, hnone⟩
      exact ⟨space, rfl, (hparity space rfl).mpr hnone⟩

def bodiedResult : Program where
  name := "m"
  steps := [.perform (.newStruct "Result" (some [.int 8, .qubit]))]

theorem recognition_exact_iff_bodiedResult :
    (Ty.isResult (.ptr (.struct "Result") 3) = true ↔
      bodiedResult.run.session.PointsToBodiless "Result" (.ptr (.struct "Result") 3)) ∧
    ¬ (Ty.isResult .result = true ↔
      bodiedResult.run.session.PointsToBodiless "Result" .result) ∧
    (Ty.isQubit .qubit = true ↔
      bodiedResult.run.session.PointsToBodiless "Qubit" .qubit) := by
  have hresult : Config.Trace (Config.bodied .result) bodiedResult.start [[.int 8, .qubit]]
      ⟨[], [], bodiedResult.run.session⟩ := .step .start rfl
  have hqubit : Config.Trace (Config.bodied .qubit) bodiedResult.start []
      ⟨[], [], bodiedResult.run.session⟩ := .step .start rfl
  have hnames : ∀ (h : Handle) space,
      (Ty.ptr (.struct h.name) space).names ⊆ bodiedResult.run.session.structNames := by
    intro h space
    cases h <;> exact List.cons_subset.mpr ⟨by decide, List.nil_subset _⟩
  obtain ⟨-, -, hodd⟩ := recognition_exact_iff hresult (hnames .result 3)
  obtain ⟨-, -, heven⟩ := recognition_exact_iff hresult (hnames .result 0)
  obtain ⟨-, -, hplain⟩ := recognition_exact_iff hqubit (hnames .qubit 0)
  refine ⟨hodd.mpr ?_, fun hexact => ?_, hplain.mpr ?_⟩
  · rintro space ⟨⟩
    decide
  · exact absurd (heven.mp hexact 0 rfl) (by decide)
  · rintro space ⟨⟩
    decide

/-- A pointer to a struct with a body counts as a result, and a pointer to a struct without one does
not count as a qubit. -/
theorem not_recognition_exact :
    (Ty.isResult .result = true ∧
      ¬ bodiedResult.run.session.PointsToBodiless "Result" .result) ∧
    (Ty.isQubit (.ptr (.struct "Qubit") 1) = false ∧
      bodiedResult.run.session.PointsToBodiless "Qubit" (.ptr (.struct "Qubit") 1)) := by
  refine ⟨⟨rfl, ?_⟩, rfl, ⟨1, rfl⟩, ?_⟩
  · rintro ⟨-, hnone⟩
    exact absurd hnone (by decide)
  · decide

end Program

end QuantumIR
