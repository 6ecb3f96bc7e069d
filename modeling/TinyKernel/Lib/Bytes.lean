import Mathlib.Data.Nat.Digits.Defs

/-! Bytes in memory, and numbers as bytes in either order. -/

namespace TinyKernel.Lib

open List

abbrev Memory := Nat → UInt8

namespace Memory

variable {memory memory' : Memory} {start start' length : Nat}

def write (memory : Memory) (start : Nat) (bytes : List UInt8) : Memory := fun i =>
  if start ≤ i then (bytes[i - start]?).getD (memory i) else memory i

def read (memory : Memory) (start length : Nat) : List UInt8 :=
  (range length).map fun i => memory (start + i)

@[simp] theorem length_read : (memory.read start length).length = length := by simp [read]

theorem write_outside (out : i < start ∨ start + bytes.length ≤ i) :
    memory.write start bytes i = memory i := by
  rw [write]
  split
  · next above => rw [getElem?_eq_none (by omega), Option.getD_none]
  rfl

theorem read_congr (same : ∀ i, start ≤ i → i < start + length → memory i = memory' i) :
    memory.read start length = memory'.read start length := by
  refine map_congr_left fun i inside => same _ (Nat.le_add_right ..) ?_
  have := mem_range.mp inside
  omega

theorem read_write_self : (memory.write start bytes).read start bytes.length = bytes := by
  apply ext_getElem
  · exact length_read
  intro i _ inside
  simp [read, write, inside]

theorem read_write_apart (apart : start' + length ≤ start ∨ start + bytes.length ≤ start') :
    (memory.write start bytes).read start' length = memory.read start' length := by
  refine read_congr fun i lower upper => write_outside ?_
  omega

theorem read_add (memory : Memory) (start length more : Nat) :
    memory.read start (length + more) =
      memory.read start length ++ memory.read (start + length) more := by
  simp [read, range_add, Nat.add_assoc]

end Memory

/-- The last bytes of a number, in the order of the machine. -/
def encode (bigEndian : Bool) (width value : Nat) : List UInt8 :=
  let little := (range width).map fun i => UInt8.ofNat (value / 256 ^ i)
  if bigEndian then little.reverse else little

def decode (bigEndian : Bool) (bytes : List UInt8) : Nat :=
  let little := if bigEndian then bytes.reverse else bytes
  Nat.ofDigits 256 (little.map UInt8.toNat)

@[simp] theorem length_encode (bigEndian : Bool) (width value : Nat) :
    (encode bigEndian width value).length = width := by
  cases bigEndian <;> simp [encode]

private theorem ofDigits_bytes (width value : Nat) :
    Nat.ofDigits 256 ((range width).map fun i => value / 256 ^ i % 256) = value % 256 ^ width := by
  induction width generalizing value with
  | zero => simp [Nat.mod_one]
  | succ width ih => ?_
  have shifted : ((range width).map Nat.succ).map (fun i => value / 256 ^ i % 256) =
      (range width).map fun i => value / 256 / 256 ^ i % 256 := by
    rw [map_map]
    refine map_congr_left fun i _ => ?_
    simp [Nat.pow_succ', Nat.div_div_eq_div_mul]
  rw [range_succ_eq_map, map_cons, shifted, Nat.ofDigits_cons, ih, Nat.pow_zero, Nat.div_one,
    Nat.pow_succ', Nat.mod_mul]

theorem decode_encode (bigEndian : Bool) (width value : Nat) :
    decode bigEndian (encode bigEndian width value) = value % 256 ^ width := by
  have digits : ((range width).map fun i => UInt8.ofNat (value / 256 ^ i)).map UInt8.toNat =
      (range width).map fun i => value / 256 ^ i % 256 := by
    rw [map_map]
    exact map_congr_left fun i _ => by simp
  cases bigEndian <;> simp [decode, encode, ← ofDigits_bytes, ← digits]

theorem decode_lt (bigEndian : Bool) (bytes : List UInt8) :
    decode bigEndian bytes < 256 ^ bytes.length := by
  have digits : ∀ digit ∈ (if bigEndian then bytes.reverse else bytes).map UInt8.toNat,
      digit < 254 + 2 := by
    intro digit mem
    obtain ⟨byte, -, rfl⟩ := mem_map.mp mem
    exact UInt8.toNat_lt byte
  have bound := Nat.ofDigits_lt_base_pow_length' digits
  cases bigEndian <;> simpa [decode] using bound

end TinyKernel.Lib
