import Mathlib.Algebra.Group.Nat.Defs
import Mathlib.Data.List.Basic
import QuantumIR.Text.Utf8

/-! # Reading bytes as text

A byte string is well formed if it is the encoding of a text. The machine that reads bytes accepts
exactly the well-formed ones, and gives back their text. Where it stops, it has read the longest
well-formed part, and it knows whether what is left could still become a character.

The encoding of a character is a first byte and as many digits in base 64 as the first byte says.
Since no encoding is the beginning of another one, a text is read in one way only.
-/

namespace QuantumIR

namespace Utf8

open String (utf8EncodeChar)

variable {b : UInt8} {c : Char} {w seen : Bytes} {p q : Pending}

def digit (k n : Nat) : UInt8 := UInt8.ofNat (n / 64 ^ k % 64 + 0x80)

def digits : Nat → Nat → Bytes
  | 0, _ => []
  | k + 1, n => digit k n :: digits k n

theorem toNat_digit (k n : Nat) : (digit k n).toNat = n / 64 ^ k % 64 + 0x80 := by
  rw [digit, UInt8.toNat_ofNat', Nat.mod_eq_of_lt (by omega)]

theorem digit_mem (k n : Nat) : (0x80 : UInt8) ≤ digit k n ∧ digit k n ≤ 0xBF := by
  rw [UInt8.le_iff_toNat_le, UInt8.le_iff_toNat_le, toNat_digit]
  change 0x80 ≤ _ ∧ _ ≤ 0xBF
  omega

theorem toNat_cases (c : Char) :
    c.toNat < 0xD800 ∨ 0xDFFF < c.toNat ∧ c.toNat < 0x110000 := c.valid

/-- A first byte, and as many digits as it says. -/
theorem encode_eq (c : Char) : utf8EncodeChar c =
    if c.toNat < 0x80 then UInt8.ofNat c.toNat :: digits 0 c.toNat
    else if c.toNat < 0x800 then UInt8.ofNat (c.toNat / 64 + 0xC0) :: digits 1 c.toNat
    else if c.toNat < 0x10000 then UInt8.ofNat (c.toNat / 4096 + 0xE0) :: digits 2 c.toNat
    else UInt8.ofNat (c.toNat / 262144 + 0xF0) :: digits 3 c.toNat := by
  have hc := toNat_cases c
  unfold utf8EncodeChar
  change (if c.toNat ≤ 0x7F then [UInt8.ofNat c.toNat] else _) = _
  generalize hn : c.val.toNat = n
  rw [show c.toNat = n from hn] at hc ⊢
  have h₁ : n < 0x80 ↔ n ≤ 0x7F := Nat.lt_succ_iff
  have h₂ : n < 0x800 ↔ n ≤ 0x7FF := Nat.lt_succ_iff
  have h₃ : n < 0x10000 ↔ n ≤ 0xFFFF := Nat.lt_succ_iff
  simp only [h₁, h₂, h₃]
  split_ifs
  · rfl
  · rw [Nat.mod_eq_of_lt (b := 32) (by omega)]
    simp [digits, digit]
  · rw [Nat.mod_eq_of_lt (b := 16) (by omega)]
    simp [digits, digit]
  · rw [Nat.mod_eq_of_lt (b := 8) (by omega)]
    simp [digits, digit]

theorem encode_eq_cons_iff : utf8EncodeChar c = b :: w ↔
    (c.toNat < 0x80 ∧ b.toNat = c.toNat ∧ w = digits 0 c.toNat) ∨
    (0x80 ≤ c.toNat ∧ c.toNat < 0x800 ∧ b.toNat = c.toNat / 64 + 0xC0 ∧ w = digits 1 c.toNat) ∨
    (0x800 ≤ c.toNat ∧ c.toNat < 0x10000 ∧ b.toNat = c.toNat / 4096 + 0xE0 ∧
      w = digits 2 c.toNat) ∨
    (0x10000 ≤ c.toNat ∧ b.toNat = c.toNat / 262144 + 0xF0 ∧ w = digits 3 c.toNat) := by
  have hc := toNat_cases c
  rw [encode_eq]
  generalize c.toNat = n at hc ⊢
  split_ifs <;> simp only [List.cons.injEq, UInt8.ofNat_eq_iff_mod_eq_toNat] <;> grind

/-- The longer forms: how many digits follow, from which first byte on, and from which number on so
many are needed. -/
inductive Form : Nat → Nat → Nat → Prop
  | two : Form 1 0xC0 0x80
  | three : Form 2 0xE0 0x800
  | four : Form 3 0xF0 0x10000

/-- The first byte of a form has the leading digits of a number that no shorter form can hold. -/
theorem Form.encode_eq_iff {k first floor n : Nat} (h : Form k first floor)
    (hn : n + first = b.toNat) (hb : n < 64 / 2 ^ k) : utf8EncodeChar c = b :: w ↔
      c.toNat / 64 ^ k = n ∧ w = digits k c.toNat ∧ floor ≤ c.toNat := by
  have hc := toNat_cases c
  rw [encode_eq_cons_iff]
  cases h with
  | two | three | four =>
    constructor
    · -- the ranges of the first bytes do not meet, so the form is the one that is asked for
      rintro (⟨_, _, hw⟩ | ⟨_, _, _, hw⟩ | ⟨_, _, _, hw⟩ | ⟨_, _, hw⟩) <;>
        first | omega | exact ⟨by omega, hw, by omega⟩
    · rintro ⟨_, hw, _⟩
      grind

theorem encode_ne_cons (h : 0x80 ≤ b.toNat) (hb : b.toNat < 0xC2 ∨ 0xF5 ≤ b.toNat) (w : Bytes)
    (c : Char) : utf8EncodeChar c ≠ b :: w := by
  have hc := toNat_cases c
  rw [Ne, encode_eq_cons_iff]
  rintro (⟨_, _, _⟩ | ⟨_, _, _, _⟩ | ⟨_, _, _, _⟩ | ⟨_, _, _⟩) <;> omega

def Pending.Completes : Pending → Bytes → Char → Prop
  | p, [], c => p.owed = 0 ∧ p.code = c.toNat
  | p, b :: w, c => p.owed ≠ 0 ∧ ∃ q, p.feed b = some q ∧ q.Completes w c

theorem Pending.feed_eq_some_iff : p.feed b = some q ↔ (p.low ≤ b ∧ b ≤ p.high) ∧
    q = ⟨p.owed - 1, 0x80, 0xBF, p.code * 64 + b.toNat % 64, p.read + 1⟩ := by
  unfold feed
  split
  next h => simp [h, eq_comm]
  next h => simp [h]

theorem Pending.completes_iff (hlow : 0x80 ≤ p.low) (hhigh : p.high ≤ 0xBF) :
    p.Completes w c ↔ c.toNat / 64 ^ p.owed = p.code ∧ w = digits p.owed c.toNat ∧
      ∀ k, p.owed = k + 1 → p.low ≤ digit k c.toNat ∧ digit k c.toNat ≤ p.high := by
  induction w generalizing p with
  | nil =>
    obtain ⟨owed, low, high, code, read⟩ := p
    cases owed with
    | zero => simp [Completes, digits, @eq_comm _ code]
    | succ => simp [Completes, digits]
  | cons b w ih =>
    obtain ⟨owed, low, high, code, read⟩ := p
    cases owed with
    | zero => simp [Completes, digits]
    | succ k =>
      have hdiv : c.toNat / 64 ^ (k + 1) = c.toNat / 64 ^ k / 64 := by
        rw [Nat.pow_succ, Nat.div_div_eq_div_mul]
      -- the byte is a digit of the number, and the digits before it are the code
      have hbyte : low ≤ b ∧ b ≤ high → (c.toNat / 64 ^ k = code * 64 + b.toNat % 64 ↔
          c.toNat / 64 ^ k / 64 = code ∧ b = digit k c.toNat) := by
        rw [← UInt8.toNat_inj, toNat_digit]
        simp only [UInt8.le_iff_toNat_le] at hlow hhigh ⊢
        change 0x80 ≤ _ at hlow
        change _ ≤ 0xBF at hhigh
        omega
      simp only [Completes, feed_eq_some_iff, digits, hdiv, List.cons.injEq,
        Nat.add_right_cancel_iff, forall_eq', Nat.add_sub_cancel, and_assoc, exists_and_left,
        exists_eq_left]
      rw [ih (UInt8.le_refl _) (UInt8.le_refl _)]
      simp only [digit_mem, and_self, implies_true, and_true]
      grind

/-- Whatever byte in range comes next, and whatever digits follow it, a character is completed. -/
structure Pending.Sound (p : Pending) : Prop where
  owed : p.owed ≠ 0
  low : 0x80 ≤ p.low
  range : p.low ≤ p.high
  high : p.high ≤ 0xBF
  chars : ∀ n, n / 64 ^ p.owed = p.code → p.low ≤ digit (p.owed - 1) n →
    digit (p.owed - 1) n ≤ p.high → n.isValidChar

namespace Pending.Sound

theorem completes_iff (hp : p.Sound) : p.Completes w c ↔ c.toNat / 64 ^ p.owed = p.code ∧
    w = digits p.owed c.toNat ∧ p.low ≤ digit (p.owed - 1) c.toNat ∧
      digit (p.owed - 1) c.toNat ≤ p.high := by
  obtain ⟨k, hk⟩ := Nat.exists_eq_succ_of_ne_zero hp.owed
  rw [Pending.completes_iff hp.low hp.high, hk]
  simp

theorem next (hp : p.Sound) (hl : p.low ≤ b) (hh : b ≤ p.high) {n : Nat}
    (hn : n / 64 ^ (p.owed - 1) = p.code * 64 + b.toNat % 64) :
    n / 64 ^ p.owed = p.code ∧ digit (p.owed - 1) n = b ∧ n.isValidChar := by
  obtain ⟨k, hk⟩ := Nat.exists_eq_succ_of_ne_zero hp.owed
  have hb : 0x80 ≤ b.toNat ∧ b.toNat ≤ 0xBF :=
    ⟨UInt8.le_iff_toNat_le.mp (UInt8.le_trans hp.low hl),
      UInt8.le_iff_toNat_le.mp (UInt8.le_trans hh hp.high)⟩
  have hcode : n / 64 ^ p.owed = p.code := by
    rw [hk, Nat.succ_sub_one] at hn
    rw [hk, Nat.pow_succ, ← Nat.div_div_eq_div_mul, hn]
    omega
  have hdigit : digit (p.owed - 1) n = b := by
    rw [← UInt8.toNat_inj, toNat_digit, hn]
    omega
  exact ⟨hcode, hdigit, hp.chars n hcode (hdigit ▸ hl) (hdigit ▸ hh)⟩

theorem exists_completes (hp : p.Sound) (hl : p.low ≤ b) (hh : b ≤ p.high) :
    ∃ w c, p.Completes (b :: w) c := by
  obtain ⟨k, hk⟩ := Nat.exists_eq_succ_of_ne_zero hp.owed
  obtain ⟨n, hn⟩ : ∃ n, n / 64 ^ (p.owed - 1) = p.code * 64 + b.toNat % 64 :=
    ⟨_, Nat.mul_div_cancel _ (Nat.pow_pos (by decide))⟩
  obtain ⟨hcode, hdigit, hvalid⟩ := hp.next hl hh hn
  have hdigits : digits p.owed n = b :: digits k n := by
    rw [← hdigit, hk]
    rfl
  refine ⟨digits k n, Char.ofNatAux n hvalid, hp.completes_iff.mpr ⟨hcode, hdigits.symm, ?_⟩⟩
  change p.low ≤ digit _ n ∧ digit _ n ≤ p.high
  rw [hdigit]
  exact ⟨hl, hh⟩

theorem feed (hp : p.Sound) (h : p.feed b = some q) (hq : q.owed ≠ 0) : q.Sound := by
  obtain ⟨⟨hl, hh⟩, rfl⟩ := Pending.feed_eq_some_iff.mp h
  refine ⟨hq, UInt8.le_refl _, show (0x80 : UInt8) ≤ 0xBF by decide, UInt8.le_refl _, ?_⟩
  intro n hn _ _
  exact (hp.next hl hh hn).2.2

end Pending.Sound

/-- The bytes are the beginning of the encoding of a character, and more bytes can complete it. -/
def Begins (bs : Bytes) : Prop := bs ≠ [] ∧ ∃ w c, w ≠ [] ∧ utf8EncodeChar c = bs ++ w

structure Pending.Holds (p : Pending) (seen : Bytes) : Prop where
  sound : p.Sound
  ne_nil : seen ≠ []
  read : p.read = seen.length
  encode : ∀ w c, utf8EncodeChar c = seen ++ w ↔ p.Completes w c

namespace Pending.Holds

/-- A first byte fixes the range of the first digit, which keeps out shorter forms, surrogates and
numbers that are too large. -/
theorem of_range {low high : UInt8} {k code : Nat} (floor : Nat) (hlow : 0x80 ≤ low)
    (hrange : low ≤ high) (hhigh : high ≤ 0xBF)
    (hencode : ∀ w c, utf8EncodeChar c = b :: w ↔ c.toNat / 64 ^ (k + 1) = code ∧
      w = digits (k + 1) c.toNat ∧ floor ≤ c.toNat)
    (hchars : ∀ n, n / 64 ^ (k + 1) = code → (floor ≤ n ∧ n.isValidChar ↔
      low.toNat ≤ n / 64 ^ k % 64 + 0x80 ∧ n / 64 ^ k % 64 + 0x80 ≤ high.toNat)) :
    Pending.Holds ⟨k + 1, low, high, code, 1⟩ [b] := by
  have hsound : Pending.Sound ⟨k + 1, low, high, code, 1⟩ := by
    refine ⟨Nat.succ_ne_zero k, hlow, hrange, hhigh, fun n hn hl hh => ?_⟩
    simp only [UInt8.le_iff_toNat_le, toNat_digit] at hl hh
    exact ((hchars n hn).mpr ⟨hl, hh⟩).2
  refine ⟨hsound, List.cons_ne_nil _ _, rfl, fun w c => (hencode w c).trans ?_⟩
  rw [hsound.completes_iff, UInt8.le_iff_toNat_le, UInt8.le_iff_toNat_le, toNat_digit]
  refine and_congr_right fun hc => and_congr_right fun _ => ?_
  exact (and_iff_left c.valid).symm.trans (hchars c.toNat hc)

theorem begins (hp : p.Holds seen) : Begins seen := by
  obtain ⟨w, c, hc⟩ := hp.sound.exists_completes (UInt8.le_refl _) hp.sound.range
  exact ⟨hp.ne_nil, _ :: w, c, List.cons_ne_nil _ _, (hp.encode _ c).mpr hc⟩

theorem refuse (hp : p.Holds seen) (h : p.feed b = none) (w : Bytes) (c : Char) :
    utf8EncodeChar c ≠ seen ++ b :: w := by
  rw [Ne, hp.encode]
  rintro ⟨-, q, hq, -⟩
  rw [h] at hq
  cases hq

theorem completes_feed (hp : p.Holds seen) (h : p.feed b = some q) (w : Bytes) (c : Char) :
    utf8EncodeChar c = seen ++ [b] ++ w ↔ q.Completes w c := by
  rw [List.append_assoc, List.singleton_append, hp.encode]
  constructor
  · rintro ⟨-, q', hq', hc⟩
    rw [h] at hq'
    exact Option.some.inj hq' ▸ hc
  · intro hc
    exact ⟨hp.sound.owed, q, h, hc⟩

theorem read_feed (hp : p.Holds seen) (h : p.feed b = some q) :
    q.read = (seen ++ [b]).length := by
  obtain ⟨-, rfl⟩ := Pending.feed_eq_some_iff.mp h
  simp [hp.read]

theorem feed (hp : p.Holds seen) (h : p.feed b = some q) (hq : q.owed ≠ 0) :
    q.Holds (seen ++ [b]) :=
  ⟨hp.sound.feed h hq, by simp, hp.read_feed h, hp.completes_feed h⟩

theorem last (hp : p.Holds seen) (h : p.feed b = some q) (hq : q.owed = 0) :
    utf8EncodeChar (Char.ofNat q.code) = seen ++ [b] := by
  obtain ⟨⟨hl, hh⟩, -⟩ := Pending.feed_eq_some_iff.mp h
  obtain ⟨w, c, -, q', hq', hc⟩ := hp.sound.exists_completes hl hh
  obtain rfl : q = q' := Option.some.inj (h.symm.trans hq')
  cases w with
  | nil =>
    rw [hc.2, Char.ofNat_toNat, ← List.append_nil (seen ++ [b])]
    exact (hp.completes_feed h [] c).mpr hc
  | cons => exact absurd hq hc.1

end Pending.Holds

/-- What the role of a byte says about the encodings that begin with it. -/
def Lead.Describes (b : UInt8) : Lead → Prop
  | .char n => utf8EncodeChar (Char.ofNat n) = [b]
  | .opens p => p.Holds [b]
  | .refused => ∀ w c, utf8EncodeChar c ≠ b :: w

theorem lead_describes (b : UInt8) : (lead b).Describes b := by
  have hb := b.toNat_lt
  fun_cases lead b with
  | case1 n h =>
    obtain ⟨c, hc⟩ : ∃ c : Char, c.toNat = b.toNat := ⟨Char.ofNatAux b.toNat (by omega), rfl⟩
    change utf8EncodeChar (Char.ofNat b.toNat) = [b]
    rw [← hc, Char.ofNat_toNat, encode_eq_cons_iff]
    exact .inl ⟨by omega, hc.symm, rfl⟩
  | case2 n h h' => exact encode_ne_cons (by omega) (by omega)
  | case3 n =>
    refine .of_range 0x80 (by decide) (by decide) (by decide)
      (fun w c => Form.two.encode_eq_iff (by omega) (by omega)) fun m hm => ?_
    simp only [UInt8.reduceToNat]
    omega
  | case4 n | case5 n | case6 n =>
    refine .of_range 0x800 (by decide) (by decide) (by decide)
      (fun w c => Form.three.encode_eq_iff (by omega) (by omega)) fun m hm => ?_
    simp only [UInt8.reduceToNat]
    omega
  | case7 n | case8 n | case9 n =>
    refine .of_range 0x10000 (by decide) (by decide) (by decide)
      (fun w c => Form.four.encode_eq_iff (by omega) (by omega)) fun m hm => ?_
    simp only [UInt8.reduceToNat]
    omega
  | case10 n => exact encode_ne_cons (by omega) (by omega)

theorem describes_of_lead {l : Lead} (h : lead b = l) : l.Describes b := h ▸ lead_describes b

def encode (cs : List Char) : Bytes := cs.flatMap utf8EncodeChar

@[simp] theorem encode_nil : encode [] = [] := rfl

@[simp] theorem encode_cons (c : Char) (cs : List Char) :
    encode (c :: cs) = utf8EncodeChar c ++ encode cs := rfl

/-- An encoding is not the beginning of another one. -/
theorem encodeChar_append_inj {d : Char} {x y : Bytes}
    (h : utf8EncodeChar c ++ x = utf8EncodeChar d ++ y) : c = d ∧ x = y := by
  have hdecode := congrArg (fun l : Bytes => l.toByteArray.utf8DecodeChar? 0) h
  simp only [List.toByteArray_append, ByteArray.utf8DecodeChar?_utf8EncodeChar_append] at hdecode
  obtain rfl := Option.some.inj hdecode
  exact ⟨rfl, List.append_cancel_left h⟩

theorem encode_eq_append {cs ds : List Char} {x : Bytes} (h : encode ds = encode cs ++ x) :
    ∃ es, ds = cs ++ es ∧ x = encode es := by
  induction cs generalizing ds with
  | nil => exact ⟨ds, rfl, h.symm⟩
  | cons c cs ih =>
    cases ds with
    | nil => simp at h
    | cons d ds =>
      rw [encode_cons, encode_cons, List.append_assoc] at h
      obtain ⟨rfl, hrest⟩ := encodeChar_append_inj h
      obtain ⟨es, rfl, rfl⟩ := ih hrest
      exact ⟨es, rfl, rfl⟩

theorem encode_injective : Function.Injective encode := by
  intro ds cs h
  rw [← List.append_nil (encode cs)] at h
  obtain ⟨es, rfl, hes⟩ := encode_eq_append h
  cases es with
  | nil => exact List.append_nil cs
  | cons e es => simp at hes

theorem Begins.ne_append {bs : Bytes} (h : Begins bs) (w : Bytes) (c : Char) :
    bs ≠ utf8EncodeChar c ++ w := by
  rintro rfl
  obtain ⟨-, x, d, hx, hd⟩ := h
  rw [← List.append_nil (utf8EncodeChar d), List.append_assoc] at hd
  have hnil := (encodeChar_append_inj hd).2
  simp [hx] at hnil

/-- No character stands next, and the error has no length if and only if one could still come. -/
structure Stuck (errorLen : Option Nat) (rest : Bytes) : Prop where
  ne_nil : rest ≠ []
  ne_append : ∀ w c, rest ≠ utf8EncodeChar c ++ w
  errorLen : errorLen = none ↔ Begins rest

theorem Begins.stuck {bs : Bytes} (h : Begins bs) : Stuck none bs :=
  ⟨h.1, h.ne_append, iff_of_true rfl h⟩

theorem Stuck.of_ne {bs : Bytes} (n : Nat) (hseen : ∀ w c, seen ≠ utf8EncodeChar c ++ w)
    (h : ∀ w c, utf8EncodeChar c ≠ seen ++ b :: w) : Stuck (some n) (seen ++ b :: bs) := by
  constructor
  · simp
  · intro w c he
    rcases List.append_eq_append_iff.mp he with ⟨x, hc, hx⟩ | ⟨x, hc, -⟩
    · cases x with
      | nil => exact hseen [] c (by rw [hc]; simp)
      | cons b' x =>
        obtain ⟨rfl, -⟩ := List.cons.inj hx
        exact h x c hc
    · exact hseen x c hc
  · constructor
    · nofun
    · rintro ⟨-, w, c, -, hc⟩
      rw [List.append_assoc] at hc
      exact absurd hc (h (bs ++ w) c)

inductive Decoded (valid : Nat) (bs : Bytes) : Except Error (List Char) → Prop
  | text {cs : List Char} : bs = encode cs → Decoded valid bs (.ok cs)
  | stuck (cs : List Char) {rest : Bytes} {errorLen : Option Nat} {n : Nat} :
      bs = encode cs ++ rest → Stuck errorLen rest → n = valid + (encode cs).length →
        Decoded valid bs (.error ⟨n, errorLen⟩)

namespace Decoded

variable {valid : Nat} {bs : Bytes}

theorem error {errorLen : Option Nat} (h : Stuck errorLen bs) :
    Decoded valid bs (.error ⟨valid, errorLen⟩) := .stuck [] rfl h rfl

theorem cons {r : Except Error (List Char)} (hc : utf8EncodeChar c = w)
    (h : Decoded (valid + w.length) bs r) : Decoded valid (w ++ bs) ((c :: ·) <$> r) := by
  subst hc
  cases h with
  | text h => exact .text (by rw [h, encode_cons])
  | stuck cs h hstuck hn =>
    refine .stuck (c :: cs) ?_ hstuck (hn.trans ?_)
    · rw [h, encode_cons, List.append_assoc]
    · rw [encode_cons, List.length_append, Nat.add_assoc]

def Held : Option Pending → Bytes → Prop
  | none, seen => seen = []
  | some p, seen => p.Holds seen

/-- One character after the other is read, and each of them byte by byte. -/
theorem of_held (valid : Nat) (o : Option Pending) (bs : Bytes) (h : Held o seen) :
    Decoded valid (seen ++ bs) (decodeFrom valid o bs) := by
  fun_induction decodeFrom valid o bs generalizing seen with
  | case1 valid =>
    obtain rfl : seen = [] := h
    exact .text rfl
  | case2 valid p =>
    rw [List.append_nil]
    exact .error (Pending.Holds.begins h).stuck
  | case3 valid b bs n hlead ih =>
    obtain rfl : seen = [] := h
    have hchar : utf8EncodeChar (Char.ofNat n) = [b] := describes_of_lead hlead
    exact cons (w := [b]) hchar (ih rfl)
  | case4 valid b bs p hlead ih =>
    obtain rfl : seen = [] := h
    exact ih (describes_of_lead hlead)
  | case5 valid b bs hlead =>
    obtain rfl : seen = [] := h
    exact error (.of_ne 1 (by simp) (describes_of_lead hlead))
  | case6 valid p b bs hfeed =>
    have hp : p.Holds seen := h
    exact error (.of_ne p.read hp.begins.ne_append (hp.refuse hfeed))
  | case7 valid p b bs q hfeed hq ih =>
    have hp : p.Holds seen := h
    rw [hp.read_feed hfeed] at ih ⊢
    rw [List.append_cons]
    exact cons (hp.last hfeed hq) (ih rfl)
  | case8 valid p b bs q hfeed hq ih =>
    have hp : p.Holds seen := h
    rw [List.append_cons]
    exact ih (hp.feed hfeed hq)

end Decoded

/-- A byte string is well formed if it is the encoding of a text. -/
def WellFormed (bs : Bytes) : Prop := ∃ text, Bytes.ofString text = bs

/-- The error says where a byte string stops being text: after the longest part that is well
formed. It has no length if and only if what is left could still become a character. -/
structure Error.Explains (e : Error) (bs : Bytes) : Prop where
  wellFormed : WellFormed (bs.take e.validUpTo)
  longest : ∀ n, WellFormed (bs.take n) → n ≤ e.validUpTo
  errorLen : e.errorLen = none ↔ Begins (bs.drop e.validUpTo)

theorem ofString_ofList (cs : List Char) : Bytes.ofString (String.ofList cs) = encode cs := by
  rw [Bytes.ofString, String.toList_ofList, encode]

theorem Stuck.eq_nil {errorLen : Option Nat} {rest w : Bytes} {cs : List Char}
    (h : Stuck errorLen rest) (he : rest = encode cs ++ w) : cs = [] := by
  cases cs with
  | nil => rfl
  | cons c cs =>
    rw [encode_cons, List.append_assoc] at he
    exact absurd he (h.ne_append _ c)

theorem decoded_decode (bs : Bytes) : Decoded 0 bs (decodeFrom 0 none bs) :=
  Decoded.of_held 0 none bs rfl

/-- A byte string is read as the text that it is the encoding of. -/
theorem decode_eq_ok_iff {bs : Bytes} {text : String} :
    decode bs = .ok text ↔ Bytes.ofString text = bs := by
  have hread := decoded_decode bs
  unfold decode
  generalize decodeFrom 0 none bs = r at hread ⊢
  cases hread with
  | @text cs h =>
    subst h
    change Except.ok (String.ofList cs) = .ok text ↔ encode text.toList = encode cs
    rw [encode_injective.eq_iff, Except.ok.injEq]
    constructor
    · rintro rfl
      exact String.toList_ofList
    · rintro rfl
      exact String.ofList_toList
  | stuck cs h hstuck hn =>
    constructor
    · nofun
    · intro htext
      obtain ⟨es, -, hes⟩ := encode_eq_append (htext.trans h)
      have hnil : es = [] := hstuck.eq_nil (hes.trans (List.append_nil _).symm)
      rw [hnil] at hes
      exact absurd hes hstuck.ne_nil

/-- A byte string that is not text is refused where it stops being text. -/
theorem explains_of_decode {bs : Bytes} {e : Error} (h : decode bs = .error e) : e.Explains bs := by
  have hread := decoded_decode bs
  unfold decode at h
  generalize decodeFrom 0 none bs = r at hread h
  cases hread with
  | text => cases h
  | @stuck cs rest errorLen n hbs hstuck hn =>
    cases h
    obtain rfl : n = (encode cs).length := hn.trans (Nat.zero_add _)
    subst hbs
    constructor
    · rw [List.take_left]
      exact ⟨_, ofString_ofList cs⟩
    · rintro m ⟨text, htext⟩
      by_contra hm
      rw [List.take_append, List.take_of_length_le (Nat.le_of_not_le hm)] at htext
      obtain ⟨es, -, hes⟩ := encode_eq_append htext
      have hsplit := List.take_append_drop (m - (encode cs).length) rest
      rw [hes] at hsplit
      rw [hstuck.eq_nil hsplit.symm, encode_nil, List.take_eq_nil_iff] at hes
      rcases hes with hes | hes
      · simp only at hm
        omega
      · exact hstuck.ne_nil hes
    · rw [List.drop_left]
      exact hstuck.errorLen

end Utf8

end QuantumIR
