import Mathlib.Data.Nat.Bitwise
import Mathlib.Data.Nat.Digits.Defs
import Mathlib.Tactic.Linarith

/-! The conversion of a string to an unsigned 64-bit number. A string is the list
of its bytes before the terminating NUL. -/
namespace TinyKernel.Kstrtox

open Nat List

abbrev Byte := BitVec 8

def ch (c : Char) : Byte := BitVec.ofNat 8 c.toNat

def byteAt (s : List Byte) (i : Nat) : Byte := s.getD i 0

def tolower (c : Byte) : Byte := c ||| 0x20

def isxdigit (c : Byte) : Bool :=
  ch '0' ≤ c ∧ c ≤ ch '9' ∨ ch 'A' ≤ c ∧ c ≤ ch 'F' ∨ ch 'a' ≤ c ∧ c ≤ ch 'f'

/-- The base after `_parse_integer_fixup_radix`. -/
def fixedBase (s : List Byte) (base : Nat) : Nat :=
  if base = 0 then
    if byteAt s 0 = ch '0' then
      if tolower (byteAt s 1) = ch 'x' ∧ isxdigit (byteAt s 2) then 16 else 8
    else 10
  else base

def parseIntegerFixupRadix (s : List Byte) (base : Nat) : List Byte × Nat :=
  let base := fixedBase s base
  if base = 16 ∧ byteAt s 0 = ch '0' ∧ tolower (byteAt s 1) = ch 'x' then (s.drop 2, base)
  else (s, base)

/-- The value read in one byte, `none` where the loop breaks off. A byte from 128 on
is a negative `char`; it fails the same comparisons. -/
def readVal (c : Byte) : Option Nat :=
  if ch '0' ≤ c ∧ c ≤ ch '9' then some (c - ch '0').toNat
  else if ch 'a' ≤ tolower c ∧ tolower c ≤ ch 'f' then some ((tolower c - ch 'a').toNat + 10)
  else none

/-- The loop over the digits, with `res`, `rv` and `overflow`. -/
def parseLoop (base : Nat) : List Byte → Nat → Nat → Bool → Nat × Nat × Bool
  | [], res, rv, overflow => (res, rv, overflow)
  | c :: s, res, rv, overflow =>
    match (readVal c).filter (· < base) with
    | none => (res, rv, overflow)
    | some val =>
      -- `res & (~0ull << 60)` asks for one of the top four bits
      parseLoop base s ((res * base + val) % 2 ^ 64) (rv + 1)
        (overflow || (res >>> 60 ≠ 0 && (2 ^ 64 - 1 - val) / base < res))

def kstrtoxOverflow : Nat := 2 ^ 31

def parseInteger (s : List Byte) (base : Nat) : Nat × Nat :=
  let (res, rv, overflow) := parseLoop base s 0 0 false
  (if overflow then rv ||| kstrtoxOverflow else rv, res)

inductive Errno where
  | ok | einval | erange
  deriving DecidableEq

/-- The return value, and what `*res` holds afterwards if it held `old`. -/
def kstrtoullUnsigned (s : List Byte) (base old : Nat) : Errno × Nat :=
  let (s, base) := parseIntegerFixupRadix s base
  let (rv, res) := parseInteger s base
  if rv &&& kstrtoxOverflow ≠ 0 then (.erange, old)
  else if rv = 0 then (.einval, old)
  else
    let s := s.drop rv
    let s := if byteAt s 0 = ch '\n' then s.drop 1 else s
    if byteAt s 0 ≠ 0 then (.einval, old) else (.ok, res)

def kstrtoull (s : List Byte) (base old : Nat) : Errno × Nat :=
  kstrtoullUnsigned (if byteAt s 0 = ch '+' then s.drop 1 else s) base old

/-- The digit a byte is written for, in either case. -/
def digit (c : Byte) : Option Nat :=
  (range 16).find? fun d => c = ch d.digitChar ∨ c = ch d.digitChar.toUpper

/-- The bytes are digits of `base` with these values. -/
def Digits (base : Nat) : List Byte → List Nat → Prop :=
  Forall₂ fun c d => digit c = some d ∧ d < base

/-- The radix for a base, with its prefix `start` and the first digit `c`. -/
inductive Radix : (base : Nat) → (start : List Byte) → (c : Byte) → (radix : Nat) → Prop
  | given {base c} : base ≠ 0 → Radix base [] c base
  | hex {base c x} : base = 0 ∨ base = 16 → x = ch 'x' ∨ x = ch 'X' → Radix base [ch '0', x] c 16
  | octal : Radix 0 [] (ch '0') 8
  | decimal {c} : c ≠ ch '0' → Radix 0 [] c 10

/-- The text is an optional plus, the prefix of a radix and digits for `value`; then comes
`rest`. -/
def Spells (base : Nat) (s : List Byte) (value : Nat) (rest : List Byte) : Prop :=
  ∃ sign start c digits radix values, s = sign ++ (start ++ (c :: digits ++ rest)) ∧
    (sign = [] ∨ sign = [ch '+']) ∧ Radix base start c radix ∧
    Digits radix (c :: digits) values ∧ value = ofDigits radix values.reverse

/-- What may come behind the digits. -/
def Last (rest : List Byte) : Prop := rest = [] ∨ rest = [ch '\n']

instance (rest : List Byte) : Decidable (Last rest) := inferInstanceAs (Decidable (_ ∨ _))

/-- The loop reads no digit here. -/
def Stops (base : Nat) (rest : List Byte) : Prop :=
  ∀ c ∈ rest.head?, (readVal c).filter (· < base) = none

theorem readVal_eq : ∀ c, readVal c = digit c := by decide +kernel

theorem of_digit : ∀ c, (digit c).isSome → isxdigit c ∧ tolower c ≠ ch 'x' ∧ c ≠ ch '+' := by
  decide +kernel

theorem tolower_x : ∀ c, tolower c = ch 'x' ↔ c = ch 'x' ∨ c = ch 'X' := by decide +kernel

section
variable {base : Nat}

/-- The test on the top four bits misses no overflow: below it sixteen times as much fits. -/
theorem overflow_step (low : 2 ≤ base) (high : base ≤ 16) (small : val < base) :
    (decide (2 ^ 64 ≤ v) || ((v % 2 ^ 64) >>> 60 ≠ 0 && (2 ^ 64 - 1 - val) / base < v % 2 ^ 64)) =
      decide (2 ^ 64 ≤ v * base + val) := by
  by_cases big : 2 ^ 64 ≤ v
  · have grown : v * 1 ≤ v * base := mul_le_mul_left v (by omega)
    simp only [big, show 2 ^ 64 ≤ v * base + val by omega, decide_true, Bool.true_or]
  rw [mod_eq_of_lt (by omega), shiftRight_eq_div_pow]
  have exact_test : (2 ^ 64 - 1 - val) / base < v ↔ 2 ^ 64 ≤ v * base + val := by
    rw [div_lt_iff_lt_mul (by omega)]
    omega
  by_cases top : v / 2 ^ 60 = 0
  · have fits : v * base ≤ (2 ^ 60 - 1) * 16 := Nat.mul_le_mul (by omega) high
    simp [-Nat.reducePow, big, top, show ¬ 2 ^ 64 ≤ v * base + val by omega]
  simp [-reducePow, big, top, exact_test]

theorem parseLoop_digits (low : 2 ≤ base) (high : base ≤ 16) {digits : List Byte}
    (spelled : Digits base digits values) (rest : List Byte) (v rv : Nat) :
    parseLoop base (digits ++ rest) (v % 2 ^ 64) rv (decide (2 ^ 64 ≤ v)) =
      let w := values.foldl (fun v d => d + base * v) v
      parseLoop base rest (w % 2 ^ 64) (rv + digits.length) (decide (2 ^ 64 ≤ w)) := by
  induction spelled generalizing v rv with
  | nil => rfl
  | @cons c val digits values read _ ih => ?_
  have kept : (readVal c).filter (· < base) = some val := by
    simp [readVal_eq, read.1, Option.filter, read.2]
  have wrapped : (v % 2 ^ 64 * base + val) % 2 ^ 64 = (val + base * v) % 2 ^ 64 := by
    rw [add_mod, mod_mul_mod, ← add_mod, mul_comm, add_comm]
  have carry := overflow_step (v := v) low high read.2
  rw [show v * base + val = val + base * v by ring] at carry
  simp only [cons_append, parseLoop, kept, wrapped, carry, ih]
  rw [add_assoc, add_comm 1]
  rfl

theorem parseLoop_stop (stop : Stops base rest) (res rv : Nat) (overflow : Bool) :
    parseLoop base rest res rv overflow = (res, rv, overflow) := by
  cases rest with
  | nil => rfl
  | cons c rest => simp [parseLoop, stop c rfl]

theorem exists_digits (base : Nat) (text : List Byte) :
    ∃ digits values rest, text = digits ++ rest ∧ Digits base digits values ∧ Stops base rest := by
  induction text with
  | nil => exact ⟨[], [], [], rfl, .nil, by simp [Stops]⟩
  | cons c text ih => ?_
  cases read : (readVal c).filter (· < base) with
  | none => exact ⟨[], [], c :: text, rfl, .nil, by simpa [Stops] using read⟩
  | some val => ?_
  obtain ⟨digits, values, rest, rfl, spelled, stop⟩ := ih
  obtain ⟨found, small⟩ := Option.filter_eq_some_iff.mp read
  exact ⟨c :: digits, val ::
    values, rest, rfl, .cons ⟨readVal_eq c ▸ found, by simpa using small⟩ spelled, stop⟩

end

section
variable {base radix : Nat} {start digits rest : List Byte} {values : List Nat}

/-- What is skipped is the prefix of the radix that is used. -/
theorem fixup_radix (base : Nat) (body : List Byte) :
    ∃ start, body = start ++ (parseIntegerFixupRadix body base).1 ∧
      ∀ c text, (parseIntegerFixupRadix body base).1 = c :: text →
        Radix base start c (parseIntegerFixupRadix body base).2 := by
  simp only [parseIntegerFixupRadix]
  split
  case isTrue skip =>
    obtain ⟨hex, zero, lower⟩ := skip
    obtain _ | ⟨a, _ | ⟨x, tail⟩⟩ := body
    · exact absurd zero (by decide)
    · exact absurd lower (by simp [byteAt, tolower, ch])
    obtain rfl : a = ch '0' := zero
    refine ⟨[ch '0', x], rfl, fun _ _ _ => ?_⟩
    rw [hex]
    refine .hex (Classical.or_iff_not_imp_left.mpr fun given => ?_) ((tolower_x x).mp lower)
    simpa [fixedBase, given] using hex
  case isFalse skip =>
    refine ⟨[], rfl, fun c text starts => ?_⟩
    subst starts
    unfold fixedBase at skip ⊢
    split_ifs at skip ⊢ with none zero hex
    · exact absurd ⟨rfl, zero, hex.1⟩ skip
    · obtain rfl : c = ch '0' := zero
      exact none ▸ .octal
    · exact none ▸ .decimal zero
    exact .given none

theorem fixup_of_radix (announced : Radix base start c radix)
    (spelled : Digits radix (c :: digits) values) (plain : tolower (byteAt rest 0) ≠ ch 'x') :
    parseIntegerFixupRadix (start ++ (c :: digits ++ rest)) base =
      (c :: digits ++ rest, radix) := by
  obtain _ | ⟨read, more⟩ := spelled
  have second : tolower (byteAt (c :: digits ++ rest) 1) ≠ ch 'x' := by
    obtain _ | ⟨next, _⟩ := more
    · exact plain
    exact (of_digit _ (Option.isSome_of_mem next.1)).2.1
  have first := (of_digit _ (Option.isSome_of_mem read.1)).1
  cases announced with
  | given some_base => simp_all [parseIntegerFixupRadix, fixedBase]
  | @hex _ _ x chosen named =>
    have lower := (tolower_x x).mpr named
    rcases chosen with rfl | rfl <;> simp_all [parseIntegerFixupRadix, fixedBase, byteAt]
  | octal => simp_all [parseIntegerFixupRadix, fixedBase, byteAt]
  | decimal other => simp_all [parseIntegerFixupRadix, fixedBase, byteAt]

theorem fixup_bounds (base_ok : base = 0 ∨ 2 ≤ base ∧ base ≤ 16) (body : List Byte) :
    2 ≤ (parseIntegerFixupRadix body base).2 ∧ (parseIntegerFixupRadix body base).2 ≤ 16 := by
  have within : 2 ≤ fixedBase body base ∧ fixedBase body base ≤ 16 := by
    unfold fixedBase
    split_ifs <;> omega
  simp only [parseIntegerFixupRadix]
  split <;> exact within

theorem byteAt_zero (ended : 0 ∉ s) : byteAt s 0 = 0 ↔ s = [] := by
  cases s with
  | nil => simp [byteAt]
  | cons c s => simpa [byteAt] using fun zero : c = 0 => ended (zero ▸ mem_cons_self)

/-- The result from the digits that are read and the text behind them. -/
theorem unsigned_eq (old : Nat) {body : List Byte} (base_ok : base = 0 ∨ 2 ≤ base ∧ base ≤ 16)
    (spelled : Digits radix digits values)
      (fixed : parseIntegerFixupRadix body base = (digits ++ rest, radix))
    (short : digits.length < 2 ^ 31) (stop : Stops radix rest) (ended : 0 ∉ rest) :
    kstrtoullUnsigned body base old =
      let value := ofDigits radix values.reverse
      if 2 ^ 64 ≤ value then (.erange, old)
      else if digits ≠ [] ∧ Last rest then (.ok, value) else (.einval, old) := by
  have value : values.foldl (fun v d => d + radix * v) 0 = ofDigits radix values.reverse := by
    simp [ofDigits_eq_foldr]
  obtain ⟨low, high⟩ := fixup_bounds base_ok body
  rw [fixed] at low high
  have loop := parseLoop_digits low high spelled rest 0 0
  rw [value, parseLoop_stop stop] at loop
  have parsed : parseLoop radix (digits ++ rest) 0 0 false = _ := loop
  simp only [kstrtoullUnsigned, fixed, parseInteger, parsed, kstrtoxOverflow, and_two_pow]
  by_cases big : 2 ^ 64 ≤ ofDigits radix values.reverse
  · simp [-Nat.reducePow, big, Nat.testBit_or, Nat.testBit_two_pow_self]
  simp only [big, Nat.testBit_lt_two_pow short, Nat.mod_eq_of_lt (Nat.lt_of_not_le big),
    Nat.zero_add, Bool.toNat_false, Nat.zero_mul, length_eq_zero_iff, drop_left, ne_eq,
    not_true_eq_false, decide_false, Bool.false_eq_true, if_false]
  by_cases none : digits = []
  · simp [none]
  obtain _ | ⟨c, rest⟩ := rest
  · simp [none, byteAt, ch, Last]
  have tail := byteAt_zero (not_mem_of_not_mem_cons ended)
  have other : c ≠ 0 := fun zero => ended (zero ▸ mem_cons_self)
  by_cases newline : c = ch '\n'
  · simp [none, newline, byteAt, ← tail, Last]
  simp_all [byteAt, Last]

end

section
variable (old : Nat) {base value : Nat} {s rest : List Byte}
    (base_ok : base = 0 ∨ 2 ≤ base ∧ base ≤ 16)
  (short : s.length < 2 ^ 31) (ended : 0 ∉ s)
include base_ok short ended

theorem kstrtoull_of_spells (last : Last rest) (spells : Spells base s value rest) :
    kstrtoull s base old = if 2 ^ 64 ≤ value then (.erange, old) else (.ok, value) := by
  obtain ⟨sign, start, c, digits, radix, values, rfl, signed, announced, spelled, rfl⟩ := spells
  have unsigned : byteAt (start ++ (c :: digits ++ rest)) 0 ≠ ch '+' := by
    obtain _ | ⟨read, _⟩ := id spelled
    cases announced with
    | hex => exact (by decide : ch '0' ≠ ch '+')
    | _ => exact (of_digit _ (Option.isSome_of_mem read.1)).2.2
  have body : kstrtoull (sign ++ (start ++ (c :: digits ++ rest))) base old =
      kstrtoullUnsigned (start ++ (c :: digits ++ rest)) base old := by
    rcases signed with rfl | rfl
    · rw [kstrtoull, nil_append, if_neg unsigned]
    rfl
  have plain : tolower (byteAt rest 0) ≠ ch 'x' := by rcases last with rfl | rfl <;> decide
  have stop : Stops radix rest := by
    rcases last with rfl | rfl <;> simp [Stops, show readVal (ch '\n') = none by decide]
  simp only [length_append] at short
  rw [body,
    unsigned_eq old base_ok spelled (fixup_of_radix announced spelled plain) (by omega) stop
      (by simp_all)]
  simp [last]

theorem kstrtoull_cases :
    kstrtoull s base old = (.einval, old) ∨
      ∃ value rest, Spells base s value rest ∧
        kstrtoull s base old =
          if 2 ^ 64 ≤ value then (.erange, old)
          else if Last rest then (.ok, value) else (.einval, old) := by
  obtain ⟨sign, body, signed, split, called⟩ : ∃ sign body, (sign = [] ∨ sign = [ch '+']) ∧
      s = sign ++ body ∧ kstrtoull s base old = kstrtoullUnsigned body base old := by
    by_cases plus : byteAt s 0 = ch '+'
    · obtain _ | ⟨c, body⟩ := s
      · exact absurd plus (by decide)
      obtain rfl : c = ch '+' := plus
      exact ⟨_, body, .inr rfl, rfl, rfl⟩
    exact ⟨[], s, .inl rfl, rfl, by rw [kstrtoull, if_neg plus]⟩
  obtain ⟨start, body_eq, announced⟩ := fixup_radix base body
  generalize fixed : parseIntegerFixupRadix body base = text at body_eq announced
  obtain ⟨text, radix⟩ := text
  obtain ⟨digits, values, rest, rfl, spelled, stop⟩ := exists_digits radix text
  subst split body_eq
  simp only [length_append] at short
  have out := unsigned_eq old base_ok spelled fixed (by omega) stop (by simp_all)
  rw [called, out]
  obtain _ | ⟨c, digits⟩ := digits
  · cases spelled
    exact .inl rfl
  refine .inr ⟨_, rest,
    ⟨sign, start, c, digits, radix, values, rfl, signed, announced c _ rfl, spelled, rfl⟩, ?_⟩
  simp

end

/-- A call succeeds exactly on the spellings of the numbers that fit, reports a range
error only for digits of a greater number, and stores nothing when it fails. -/
theorem kstrtoull_exact {base : Nat} (old : Nat) {s : List Byte}
    (base_ok : base = 0 ∨ 2 ≤ base ∧ base ≤ 16) (short : s.length < 2 ^ 31) (ended : 0 ∉ s) :
    (∀ value, kstrtoull s base old = (.ok, value) →
        value < 2 ^ 64 ∧ ∃ rest, Last rest ∧ Spells base s value rest) ∧
      (∀ value rest, Last rest → Spells base s value rest →
        kstrtoull s base old = if 2 ^ 64 ≤ value then (.erange, old) else (.ok, value)) ∧
      ((kstrtoull s base old).1 = .erange →
        ∃ value rest, 2 ^ 64 ≤ value ∧ Spells base s value rest) ∧
      ((kstrtoull s base old).1 ≠ .ok → (kstrtoull s base old).2 = old) := by
  have spelled (value) (rest) (last : Last rest) (spells : Spells base s value rest) :=
    kstrtoull_of_spells old base_ok short ended last spells
  obtain error | ⟨value, rest, spells, out⟩ := kstrtoull_cases old base_ok short ended
  · exact ⟨by simp [error], spelled, by simp [error], by simp [error]⟩
  refine ⟨fun _ done => ?_, spelled, fun range => ?_, fun fail => ?_⟩
  · rw [out] at done
    split_ifs at done with big last <;> cases done
    exact ⟨by omega, rest, last, spells⟩
  · rw [out] at range
    split_ifs at range with big
    exact ⟨value, rest, big, spells⟩
  rw [out] at fail ⊢
  split_ifs at fail ⊢ <;> first | rfl | exact absurd rfl fail

theorem kstrtoull_exact_hex :
    ∃ rest, Last rest ∧ Spells 0 [ch '+', ch '0', ch 'X', ch 'f', ch '\n'] 15 rest :=
  ((kstrtoull_exact 7 (.inl rfl) (by decide) (by decide)).1 15 (by decide +kernel)).2

end TinyKernel.Kstrtox
