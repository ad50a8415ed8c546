import TrapKernel.Layout

/-!
# Frames

A frame is a page of physical memory: 512 words, or 4096 bytes with the least significant byte of a word first.
Nothing tells whether a frame holds entries of a page table or the data of a process.

* `Frame.byte_setByte`: a byte that is written reads back, and the others do not change.
-/

namespace TrapKernel

/-- The content of a page of physical memory. -/
abbrev Frame : Type := Vector UInt64 512

/-- The byte of a word at place `k`, counted from the least significant one. -/
def byteOfWord (w : UInt64) (k : Nat) : UInt8 := UInt8.ofBitVec (w.toBitVec.extractLsb' (8 * k) 8)

/-- A word with the byte at place `k` replaced. -/
def setByteOfWord (w : UInt64) (k : Nat) (b : UInt8) : UInt64 :=
  UInt64.ofBitVec ((w.toBitVec &&& ~~~(255#64 <<< (8 * k))) ||| (b.toBitVec.setWidth 64 <<< (8 * k)))

namespace Frame

/-- The frame of zeros. -/
def zero : Frame := Vector.replicate 512 0

/-- The word at an index; zero past the end. -/
def word (f : Frame) (i : Nat) : UInt64 := f[i]?.getD 0

/-- The frame with one word replaced. -/
def setWord (f : Frame) (i : Nat) (w : UInt64) : Frame := f.setIfInBounds i w

/-- The byte at an offset; zero past the end. -/
def byte (f : Frame) (offset : Nat) : UInt8 := byteOfWord (f.word (offset / 8)) (offset % 8)

/-- The frame with one byte replaced. -/
def setByte (f : Frame) (offset : Nat) (b : UInt8) : Frame :=
  f.setWord (offset / 8) (setByteOfWord (f.word (offset / 8)) (offset % 8) b)

/-- The `n` bytes from an offset on. -/
def bytes (f : Frame) (offset n : Nat) : List UInt8 := (List.range' offset n).map f.byte

/-- The frame with the bytes from an offset on replaced. -/
def setBytes (f : Frame) : Nat → List UInt8 → Frame
  | _, [] => f
  | offset, b :: rest => (f.setByte offset b).setBytes (offset + 1) rest

end Frame

/-- The mask of the lowest byte has ones in the eight lowest places only. -/
private theorem getElem_byteMask (i : Fin 64) : (255#64)[i.val] = decide (i.val < 8) := by
  revert i
  decide

theorem byteOfWord_setByteOfWord (w : UInt64) {j k : Nat} (hj : j < 8) (hk : k < 8) (b : UInt8) :
    byteOfWord (setByteOfWord w k b) j = if j = k then b else byteOfWord w j := by
  apply UInt8.toBitVec_inj.mp
  apply BitVec.eq_of_getLsbD_eq
  intro i hi
  have hbound : 8 * j + i < 64 := by omega
  by_cases h : j = k
  · subst h
    have hge : ¬8 * j + i < 8 * j := by omega
    simp [byteOfWord, setByteOfWord, hi, hbound, hge, getElem_byteMask ⟨i, by omega⟩]
  · by_cases hlt : 8 * j + i < 8 * k
    · simp [byteOfWord, setByteOfWord, h, hi, hbound, hlt]
    · have hge : ¬8 * j + i - 8 * k < 8 := by omega
      have hb : b.toBitVec.getLsbD (8 * j + i - 8 * k) = false := BitVec.getLsbD_of_ge _ _ (by omega)
      simp [byteOfWord, setByteOfWord, h, hi, hbound, hlt, hge, hb,
        getElem_byteMask ⟨8 * j + i - 8 * k, by omega⟩]

namespace Frame

theorem word_setWord (f : Frame) {i : Nat} (hi : i < 512) (j : Nat) (w : UInt64) :
    (f.setWord i w).word j = if j = i then w else f.word j := by
  unfold word setWord
  by_cases h : j = i
  · subst h
    simp [hi]
  · simp [h, Ne.symm h]

theorem word_zero (i : Nat) : zero.word i = 0 := by
  unfold word zero
  by_cases h : i < 512 <;> simp [h]

theorem byte_setByte (f : Frame) {i : Nat} (hi : i < pageSize) (j : Nat) (b : UInt8) :
    (f.setByte i b).byte j = if j = i then b else f.byte j := by
  have hi' : i / 8 < 512 := by simp only [pageSize] at hi; omega
  unfold byte setByte
  rw [word_setWord f hi']
  by_cases hw : j / 8 = i / 8
  · rw [if_pos hw, byteOfWord_setByteOfWord _ (Nat.mod_lt _ (by decide)) (Nat.mod_lt _ (by decide)), hw]
    have : (j % 8 = i % 8) ↔ j = i := by omega
    simp only [this]
  · have : j ≠ i := by rintro rfl; exact hw rfl
    rw [if_neg hw, if_neg this]

theorem byte_zero (i : Nat) : zero.byte i = 0 := by
  unfold byte
  rw [word_zero]
  unfold byteOfWord
  simp

end Frame

end TrapKernel
