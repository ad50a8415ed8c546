/-!
# Little-endian numbers

Numbers cross the border between words and bytes with the least significant byte first.

* `littleEndian_length`, `ofLittleEndian_littleEndian`, `littleEndian_ofLittleEndian`: `k` bytes are written, and
  writing and reading undo each other for numbers that fit into `k` bytes and for lists of `k` bytes.
* `ofLittleEndian_lt`, `eq_of_ofLittleEndian`: the bytes that are read spell a number that fits, and no others of the same
  count spell it.
-/

namespace TrapKernel

/-- The lowest `k` bytes of a number, the least significant one first. -/
def littleEndian : Nat → Nat → List UInt8
  | 0, _ => []
  | k + 1, n => UInt8.ofNat n :: littleEndian k (n / 256)

/-- The number that a list of bytes spells, the least significant one first. -/
def ofLittleEndian : List UInt8 → Nat
  | [] => 0
  | b :: rest => b.toNat + 256 * ofLittleEndian rest

/-- The numbers that fit into `k` bytes are smaller than this one. -/
def byteLimit : Nat → Nat
  | 0 => 1
  | k + 1 => 256 * byteLimit k

theorem littleEndian_length (k n : Nat) : (littleEndian k n).length = k := by
  induction k generalizing n with
  | zero => rfl
  | succ k ih => simp [littleEndian, ih]

theorem ofLittleEndian_littleEndian {k n : Nat} (h : n < byteLimit k) :
    ofLittleEndian (littleEndian k n) = n := by
  induction k generalizing n with
  | zero =>
    simp only [byteLimit] at h
    simp only [littleEndian, ofLittleEndian]
    omega
  | succ k ih =>
    simp only [byteLimit] at h
    rw [littleEndian, ofLittleEndian, ih (by omega), UInt8.toNat_ofNat']
    omega

theorem littleEndian_ofLittleEndian (l : List UInt8) : littleEndian l.length (ofLittleEndian l) = l := by
  induction l with
  | nil => rfl
  | cons b rest ih =>
    have hb : b.toNat < 256 := b.toNat_lt
    have hdiv : (b.toNat + 256 * ofLittleEndian rest) / 256 = ofLittleEndian rest := by omega
    simp only [List.length_cons, littleEndian, ofLittleEndian, hdiv, ih, List.cons.injEq, and_true]
    apply UInt8.toNat_inj.mp
    rw [UInt8.toNat_ofNat']
    omega

theorem ofLittleEndian_lt (l : List UInt8) : ofLittleEndian l < byteLimit l.length := by
  induction l with
  | nil => exact Nat.one_pos
  | cons b rest ih =>
    have hb : b.toNat < 256 := b.toNat_lt
    rw [ofLittleEndian, List.length_cons, byteLimit]
    omega

theorem eq_of_ofLittleEndian {l l' : List UInt8} (hlength : l.length = l'.length)
    (h : ofLittleEndian l = ofLittleEndian l') : l = l' := by
  rw [← littleEndian_ofLittleEndian l, ← littleEndian_ofLittleEndian l', hlength, h]

end TrapKernel
