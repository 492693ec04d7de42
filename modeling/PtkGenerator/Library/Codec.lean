import Mathlib.Data.Nat.Basic
import Mathlib.Data.UInt
import Mathlib.Tactic.Common

/-!
# Self-delimiting codes over bytes

A `Codec` is an encoder with a decoder that reads an encoded value off the front of a list of
bytes and leaves what is behind it (`dec_enc`).  Codes with this property compose: the code of a
pair is the one code after the other (`pair`), and the code of a list is the number of its
elements followed by their codes (`list`).  The base cases are words of a fixed number of bytes,
the lowest first (`fixed`), and natural numbers in groups of seven bits, the lowest first, every
group but the last with the high bit set (`varint`).
-/

set_option autoImplicit false

/-- An encoder and a decoder that reads what was encoded off the front of any bytes. -/
structure Codec (α : Type*) where
  enc : α → List UInt8
  dec : List UInt8 → Option (α × List UInt8)
  dec_enc : ∀ a rest, dec (enc a ++ rest) = some (a, rest)

namespace Codec

variable {α β : Type*}

/-! ## Words of a fixed length -/

/-- The lowest `k` bytes of a number, the lowest first. -/
def leBytes : ℕ → ℕ → List UInt8
  | 0, _ => []
  | k + 1, n => UInt8.ofNat (n % 256) :: leBytes k (n / 256)

/-- Reads `k` bytes, the lowest first. -/
def leRead : ℕ → List UInt8 → Option (ℕ × List UInt8)
  | 0, bytes => some (0, bytes)
  | _ + 1, [] => none
  | k + 1, b :: bytes => (leRead k bytes).map fun r => (b.toNat + 256 * r.1, r.2)

/-- A number below 256 is the value of its byte. -/
theorem toNat_ofNat_of_lt {n : ℕ} (h : n < 256) : (UInt8.ofNat n).toNat = n := by
  rw [UInt8.toNat_ofNat']
  exact Nat.mod_eq_of_lt h

/-- A little-endian number is read back, up to its width. -/
theorem leRead_leBytes (k n : ℕ) (rest : List UInt8) :
    leRead k (leBytes k n ++ rest) = some (n % 256 ^ k, rest) := by
  induction k generalizing n with
  | zero => simp [leRead, leBytes, Nat.mod_one]
  | succ k ih =>
    have hlow := toNat_ofNat_of_lt (Nat.mod_lt n (by omega : 256 > 0))
    have hsplit : n % 256 + 256 * (n / 256 % 256 ^ k) = n % 256 ^ (k + 1) := by
      rw [Nat.pow_succ', Nat.mod_mul]
    rw [leBytes, List.cons_append, leRead, ih, Option.map_some, hlow, hsplit]

/-- A little-endian number of `k` bytes has `k` bytes. -/
@[simp] theorem length_leBytes (k n : ℕ) : (leBytes k n).length = k := by
  induction k generalizing n with
  | zero => rfl
  | succ k ih => simp [leBytes, ih]

/-- A type of words of `k` bytes. -/
def fixed (k : ℕ) (toNat : α → ℕ) (ofNat : ℕ → α)
    (hlt : ∀ a, toNat a < 256 ^ k) (h : ∀ a, ofNat (toNat a) = a) : Codec α where
  enc a := leBytes k (toNat a)
  dec bytes := (leRead k bytes).map fun r => (ofNat r.1, r.2)
  dec_enc a rest := by
    rw [leRead_leBytes, Option.map_some, Nat.mod_eq_of_lt (hlt a), h]

/-! ## Numbers in groups of seven bits -/

/-- The groups of a number, at most `fuel` before the last. -/
def varintBytes : ℕ → ℕ → List UInt8
  | 0, n => [UInt8.ofNat n]
  | fuel + 1, n =>
    if n < 128 then [UInt8.ofNat n]
    else UInt8.ofNat (n % 128 + 128) :: varintBytes fuel (n / 128)

/-- Reads groups up to the first one without the high bit. -/
def varintRead : List UInt8 → Option (ℕ × List UInt8)
  | [] => none
  | b :: bytes =>
    if b.toNat < 128 then some (b.toNat, bytes)
    else (varintRead bytes).map fun r => (b.toNat % 128 + 128 * r.1, r.2)

/-- A byte below 128 ends a varint. -/
theorem varintRead_last {n : ℕ} (h : n < 128) (rest : List UInt8) :
    varintRead (UInt8.ofNat n :: rest) = some (n, rest) := by
  have hn := toNat_ofNat_of_lt (n := n) (by omega)
  rw [varintRead, hn, if_pos h]

/-- INTERNAL: enough groups are read back, whatever follows them. -/
theorem varintRead_varintBytes (fuel n : ℕ) (rest : List UInt8) (h : n ≤ fuel) :
    varintRead (varintBytes fuel n ++ rest) = some (n, rest) := by
  induction fuel generalizing n with
  | zero =>
    obtain rfl : n = 0 := by omega
    exact varintRead_last (by omega) rest
  | succ fuel ih =>
    rw [varintBytes]
    split
    · next hlt => exact varintRead_last hlt rest
    · next hge =>
      have hgroup := toNat_ofNat_of_lt (n := n % 128 + 128) (by omega)
      have hmore : ¬ n % 128 + 128 < 128 := by omega
      have hvalue : (n % 128 + 128) % 128 + 128 * (n / 128) = n := by omega
      rw [List.cons_append, varintRead, hgroup, if_neg hmore, ih (n / 128) (by omega),
        Option.map_some, hvalue]

/-- The codec of varints. -/
def varint : Codec ℕ where
  enc n := varintBytes n n
  dec := varintRead
  dec_enc n rest := varintRead_varintBytes n n rest le_rfl

/-! ## Composite values -/

/-- The one value after the other. -/
def pair (c : Codec α) (d : Codec β) : Codec (α × β) where
  enc p := c.enc p.1 ++ d.enc p.2
  dec bytes :=
    (c.dec bytes).bind fun r => (d.dec r.2).map fun s => ((r.1, s.1), s.2)
  dec_enc p rest := by
    rw [List.append_assoc, c.dec_enc, Option.bind_some, d.dec_enc, Option.map_some]

/-- A value in place of another that stands for it. -/
def iso (c : Codec α) (f : α → β) (g : β → α) (h : ∀ b, f (g b) = b) : Codec β where
  enc b := c.enc (g b)
  dec bytes := (c.dec bytes).map fun r => (f r.1, r.2)
  dec_enc b rest := by rw [c.dec_enc, Option.map_some, h]

/-- Reads `n` values. -/
def readN (c : Codec α) : ℕ → List UInt8 → Option (List α × List UInt8)
  | 0, bytes => some ([], bytes)
  | n + 1, bytes =>
    (c.dec bytes).bind fun r => (readN c n r.2).map fun s => (r.1 :: s.1, s.2)

/-- A sequence of encodings is read back element by element. -/
theorem readN_flatMap (c : Codec α) (l : List α) (rest : List UInt8) :
    c.readN l.length (l.flatMap c.enc ++ rest) = some (l, rest) := by
  induction l with
  | nil => rfl
  | cons a l ih =>
    rw [List.length_cons, List.flatMap_cons, List.append_assoc, readN, c.dec_enc,
      Option.bind_some, ih, Option.map_some]

/-- The number of the elements, then the elements. -/
def list (c : Codec α) : Codec (List α) where
  enc l := varint.enc l.length ++ l.flatMap c.enc
  dec bytes := (varint.dec bytes).bind fun r => c.readN r.1 r.2
  dec_enc l rest := by
    rw [List.append_assoc, varint.dec_enc, Option.bind_some, readN_flatMap]

end Codec
