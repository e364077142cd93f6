import Mathlib.Data.Nat.Digits.Defs
import QuantumIR.Proofs.Effect

/-! # Numerals

A count is read from a numeral: one or more decimal digits, with a plus sign before them or without.
The keys of a count are tried in order, and the first that a function has decides. What stands there
is a numeral for a number of sixty-four bits, or the function has no count, whatever stands under
the keys behind it.
-/

namespace QuantumIR

open Attempt

namespace Count

def IsDigit (b : UInt8) : Prop := 0x30 ≤ b.toNat ∧ b.toNat ≤ 0x39

/-- The number that digits stand for; the last one counts least. -/
def value (ds : Bytes) : Nat := Nat.ofDigits 10 (ds.reverse.map fun d => d.toNat - 0x30)

/-- A text is a numeral: a plus sign or nothing, and one or more digits. -/
def Denotes (bs : Bytes) (n : Nat) : Prop :=
  ∃ sign ds, bs = sign ++ ds ∧ (sign = [] ∨ sign = [0x2B]) ∧ ds ≠ [] ∧ (∀ d ∈ ds, IsDigit d) ∧
    n = value ds

theorem value_cons (d : UInt8) (ds : Bytes) :
    value (d :: ds) = (d.toNat - 0x30) * 10 ^ ds.length + value ds := by
  simp only [value, List.reverse_cons, List.map_append, List.map_cons, List.map_nil,
    Nat.ofDigits_append, Nat.ofDigits_singleton, List.length_map, List.length_reverse]
  rw [Nat.mul_comm, Nat.add_comm]

theorem digit?_eq_some_iff {b : UInt8} {n : Nat} :
    digit? b = some n ↔ IsDigit b ∧ n = b.toNat - 0x30 := by
  have hrange : (0x30 ≤ b ∧ b ≤ 0x39) ↔ IsDigit b := by
    rw [UInt8.le_iff_toNat_le, UInt8.le_iff_toNat_le]
    rfl
  unfold digit?
  split
  next h => simp [hrange.mp h, eq_comm]
  next h => simp [mt hrange.mpr h]

theorem digitsFrom_eq_some_iff {ds : Bytes} {acc n : Nat} :
    digitsFrom acc ds = some n ↔
      (∀ d ∈ ds, IsDigit d) ∧ n = acc * 10 ^ ds.length + value ds := by
  induction ds generalizing acc with
  | nil => simp [digitsFrom, value, eq_comm]
  | cons d ds ih =>
    rw [digitsFrom]
    cases hd : digit? d with
    | none =>
      have hnot : ¬ IsDigit d := by
        intro hdigit
        rw [digit?_eq_some_iff.mpr ⟨hdigit, rfl⟩] at hd
        cases hd
      simp [hnot]
    | some k =>
      obtain ⟨hdigit, rfl⟩ := digit?_eq_some_iff.mp hd
      have hshift : (acc * 10 + (d.toNat - 0x30)) * 10 ^ ds.length + value ds =
          acc * 10 ^ (ds.length + 1) + value (d :: ds) := by
        rw [value_cons, Nat.add_mul, Nat.pow_succ, Nat.mul_assoc, Nat.mul_comm 10, Nat.add_assoc]
      simp [ih, hshift, hdigit]

theorem digits?_eq_some_iff {ds : Bytes} {n : Nat} :
    digits? ds = some n ↔ ds ≠ [] ∧ (∀ d ∈ ds, IsDigit d) ∧ n = value ds := by
  cases ds with
  | nil => simp [digits?]
  | cons d ds =>
    rw [digits?, digitsFrom_eq_some_iff]
    · simp
    · exact nofun

/-- Only a plus sign is taken away. -/
theorem unsigned_cases (bs : Bytes) :
    bs = 0x2B :: unsigned bs ∨ (unsigned bs = bs ∧ bs.head? ≠ some 0x2B) := by
  unfold unsigned
  split
  next ds => exact .inl rfl
  next hsign =>
    refine .inr ⟨rfl, ?_⟩
    cases bs with
    | nil => exact nofun
    | cons b ds =>
      intro hb
      exact hsign ds (congrArg (· :: ds) (Option.some.inj hb))

/-- A text is read as a count if and only if it is a numeral for a number that a count can be. -/
theorem parse?_eq_some_iff {bs : Bytes} {n : Nat} :
    parse? bs = some n ↔ Denotes bs n ∧ n < 2 ^ 64 := by
  have hparse : parse? bs = some n ↔ digits? (unsigned bs) = some n ∧ n < 2 ^ 64 := by
    unfold parse?
    rw [Option.filter_eq_some_iff, decide_eq_true_iff]
    rfl
  rw [hparse, digits?_eq_some_iff]
  refine and_congr_left fun _ => ?_
  constructor
  · rintro ⟨hne, hdigits, hn⟩
    rcases unsigned_cases bs with hbs | ⟨hbs, -⟩
    · exact ⟨[0x2B], _, hbs, .inr rfl, hne, hdigits, hn⟩
    · exact ⟨[], _, hbs.symm, .inl rfl, hne, hdigits, hn⟩
  · rintro ⟨sign, ds, rfl, hsign, hne, hdigits, hn⟩
    have hunsigned : unsigned (sign ++ ds) = ds := by
      rcases hsign with rfl | rfl
      · -- A numeral without a sign begins with a digit.
        rcases unsigned_cases ds with hds | ⟨hds, -⟩
        · have hplus : IsDigit 0x2B := hdigits _ (hds ▸ List.mem_cons_self)
          exact absurd hplus (by simp [IsDigit])
        · exact hds
      · rfl
    rw [hunsigned]
    exact ⟨hne, hdigits, hn⟩

example : parse? (Bytes.ofString "+00018446744073709551615") = some (2 ^ 64 - 1) ∧
    parse? (Bytes.ofString "18446744073709551616") = none ∧
    parse? (Bytes.ofString "++1") = none := by
  decide +kernel

end Count

namespace Fn

def First (f : Fn) (keys : List String) (value : Bytes) : Prop :=
  ∃ before key after, keys = before ++ key :: after ∧ f.attr? key = some value ∧
    ∀ k ∈ before, f.attr? k = none

theorem findSome?_attr?_iff {f : Fn} {keys : List String} {value : Bytes} :
    keys.findSome? f.attr? = some value ↔ f.First keys value :=
  List.findSome?_eq_some_iff

theorem count?_eq_some_iff {f : Fn} {keys : List String} {n : Nat} :
    f.count? keys = some n ↔ ∃ value, f.First keys value ∧ Count.Denotes value n ∧ n < 2 ^ 64 := by
  simp only [count?, Option.bind_eq_some_iff, findSome?_attr?_iff, Count.parse?_eq_some_iff]

/-- The first key decides, even if it holds no numeral. -/
theorem count?_eq_none {f : Fn} {keys : List String} {value : Bytes} (hfirst : f.First keys value)
    (hvalue : ∀ n, Count.Denotes value n → 2 ^ 64 ≤ n) : f.count? keys = none := by
  rw [Option.eq_none_iff_forall_ne_some]
  intro n hn
  rw [count?, findSome?_attr?_iff.mpr hfirst, Option.bind_some, Count.parse?_eq_some_iff] at hn
  exact absurd hn.2 (Nat.not_lt.mpr (hvalue n hn.1))

theorem count?_congr {f g : Fn} {keys : List String} (h : ∀ key ∈ keys, g.attr? key = f.attr? key) :
    g.count? keys = f.count? keys := by
  unfold count?
  induction keys with
  | nil => rfl
  | cons key keys ih =>
    have hkey := h key List.mem_cons_self
    have hkeys := ih fun k hk => h k (List.mem_cons_of_mem _ hk)
    rw [List.findSome?_cons, List.findSome?_cons, hkey]
    cases f.attr? key with
    | none => exact hkeys
    | some value => rfl

end Fn

theorem Step.run_inspect {f : Fn} {e : ValueExpr} {s t : Session} {r : FnRef} {sig : Signature}
    (he : e.eval s = .ok (.const (.fn r sig)) t) (hf : t.fn? r = some f) :
    (Step.perform (.inspect e)).run s = (.function f.report, t) := by
  have hact : (Command.inspect e).act s = .ok (.function f.report) t := by
    rw [Command.act, bind_of_ok he]
    refine (bind_of_ok (x := get) (a := t) (t := t) rfl).trans ?_
    simp only [Session.report, hf]
    rfl
  rw [Step.run, Attempt.answer, hact]

/-- A count of functions is read from keys: the first key that a function has is decisive, what
stands there has to be a numeral, and no other attribute is of any account. -/
structure Count.ReadFrom (keys : List String) (count : Fn → Option Nat) : Prop where
  some_iff : ∀ f n, count f = some n ↔ ∃ value, f.First keys value ∧ Denotes value n ∧ n < 2 ^ 64
  none_of_first : ∀ f value, f.First keys value → (∀ n, Denotes value n → 2 ^ 64 ≤ n) →
    count f = none
  independent : ∀ f g : Fn, (∀ key ∈ keys, g.attr? key = f.attr? key) → count g = count f

theorem Count.readFrom_count? (keys : List String) : ReadFrom keys fun f => f.count? keys where
  some_iff _ _ := Fn.count?_eq_some_iff
  none_of_first _ _ := Fn.count?_eq_none
  independent _ _ := Fn.count?_congr

/-- The numbers of qubits and results that a function requires are read from three keys each, and
inspecting a function tells them without fail. -/
theorem Fn.requiredCounts_readFrom :
    Count.ReadFrom ["requiredQubits", "required_num_qubits", "num_required_qubits"]
      Fn.requiredQubits? ∧
    Count.ReadFrom ["requiredResults", "required_num_results", "num_required_results"]
      Fn.requiredResults? ∧
    ∀ (f : Fn) (s t : Session) (e : ValueExpr) (r : FnRef) (sig : Signature),
      e.eval s = .ok (.const (.fn r sig)) t → t.fn? r = some f →
        ∃ report, (Step.perform (.inspect e)).run s = (.function report, t) ∧
          report.qubits = f.requiredQubits? ∧ report.results = f.requiredResults? := by
  refine ⟨Count.readFrom_count? _, Count.readFrom_count? _, ?_⟩
  intro f s t e r sig he hf
  exact ⟨f.report, Step.run_inspect he hf, rfl, rfl⟩

def Fn.oddCounts : Fn where
  name := "f"
  sig := ⟨.void, []⟩
  attrs := [(.function, { strings := [
    (Bytes.ofString "requiredQubits", Bytes.ofString " 3"),
    (Bytes.ofString "required_num_qubits", Bytes.ofString "3"),
    (Bytes.ofString "required_num_results", Bytes.ofString "+007")] })]

theorem Fn.requiredCounts_readFrom_oddCounts :
    oddCounts.requiredQubits? = none ∧ oddCounts.requiredResults? = some 7 := by
  obtain ⟨hqubits, hresults, -⟩ := requiredCounts_readFrom
  have hspace : ∀ n, ¬ Count.Denotes [0x20, 0x33] n := by
    rintro n ⟨sign, ds, hbs, rfl | rfl, -, hdigits, -⟩
    · rw [List.nil_append] at hbs
      subst hbs
      exact absurd (hdigits 0x20 (by simp)) (by simp [Count.IsDigit])
    · simp at hbs
  constructor
  · apply hqubits.none_of_first _ [0x20, 0x33]
    · exact ⟨[], "requiredQubits", _, rfl, by decide +kernel, nofun⟩
    · exact fun n hn => absurd hn (hspace n)
  · rw [hresults.some_iff]
    refine ⟨[0x2B, 0x30, 0x30, 0x37], ?_, ?_, by decide⟩
    · exact ⟨["requiredResults"], "required_num_results", _, rfl, by decide +kernel,
        by decide +kernel⟩
    · exact ⟨[0x2B], [0x30, 0x30, 0x37], rfl, .inr rfl, nofun, by simp [Count.IsDigit], rfl⟩

end QuantumIR
