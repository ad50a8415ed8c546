import Mathlib.Tactic.ByContra
import TrapKernel.Signal.Action

/-!
# The bytes of a signal action

User space passes an action as the bytes of two words and some padding, and is told one in the same way. Every action has
bytes of its own, but most bytes are not those of an action: of what a process passes, the bit of no signal and the padding
are lost.

* `SignalAction.encodes_iff`, `SignalAction.decodes_iff`: the bytes of an action, and the action that bytes spell.
* `SignalAction.Decodes.encodes`: what is told after the bytes of an action have been installed.
-/

namespace TrapKernel

private theorem SignalSet.contains_ofWord (w : UInt32) (n : Nat) :
    (SignalSet.ofWord w).contains n = (decide (1 ≤ n) && w.toNat.testBit n) := by
  cases n with
  | zero => rfl
  | succ n =>
    have hw : w.toNat < 2 ^ 32 := w.toNat_lt
    have hbit : w.toNat.testBit (n + 1) = true → n < lastSignal := fun hbit => by
      by_contra hle
      have hpow : 32 ≤ n + 1 := by
        simp only [lastSignal] at hle
        omega
      have hlt : w.toNat < 2 ^ (n + 1) := Nat.lt_of_lt_of_le hw (Nat.pow_le_pow_right (by decide) hpow)
      exact absurd hbit (by rw [Nat.testBit_lt_two_pow hlt]; decide)
    rw [ofWord, contains, Nat.add_sub_cancel, BitVec.getLsbD_ofNat, ← Nat.testBit_succ]
    cases hn : w.toNat.testBit (n + 1) with
    | false => simp
    | true => simp [hbit hn]

private theorem SignalSet.testBit_toWord (s : SignalSet) (n : Nat) : s.toWord.toNat.testBit n = s.contains n := by
  have hset := contains_ofWord s.toWord n
  rw [ofWord_toWord] at hset
  rw [hset]
  cases n with
  | zero =>
    have heven : s.toWord.toNat % 2 = 0 := by
      rw [toWord, UInt32.toNat_ofNat']
      omega
    rw [Nat.testBit_zero, heven]
    rfl
  | succ n => simp

namespace SignalAction

/-- Whether some bytes are those of an action: the word of its handler, a word with the bit of every signal of its mask,
and the padding, which is zero. -/
structure Encodes (action : SignalAction) (bytes : List UInt8) : Prop where
  length : bytes.length = RawAction.byteCount
  handler : ofLittleEndian (bytes.take 8) = action.handler.toWord.toNat
  mask : ∀ n, (ofLittleEndian ((bytes.drop 8).take 4)).testBit n = action.mask.contains n
  padding : bytes.drop 12 = [0, 0, 0, 0]

/-- Whether an action is what some bytes spell: zero is the default handler, one is to ignore, and everything else is where
the handler starts. The bit of number zero belongs to no signal, and the padding does not matter. -/
structure Decodes (bytes : List UInt8) (action : SignalAction) : Prop where
  default : ofLittleEndian (bytes.take 8) = 0 → action.handler = .default
  ignore : ofLittleEndian (bytes.take 8) = 1 → action.handler = .ignore
  user : ∀ entry : UInt64, 1 < entry.toNat → ofLittleEndian (bytes.take 8) = entry.toNat → action.handler = .user entry
  mask : ∀ n, action.mask.contains n = (decide (1 ≤ n) && (ofLittleEndian ((bytes.drop 8).take 4)).testBit n)

variable {action : SignalAction} {bytes : List UInt8}

theorem encodes_iff : action.Encodes bytes ↔ bytes = action.toRaw.toBytes := by
  have h8 : (littleEndian 8 action.handler.toWord.toNat).length = 8 := littleEndian_length _ _
  have h4 : (littleEndian 4 action.mask.toWord.toNat).length = 4 := littleEndian_length _ _
  have hencodes : action.Encodes action.toRaw.toBytes := by
    refine ⟨RawAction.toBytes_length _, ?_, fun n => ?_, ?_⟩ <;> rw [toRaw, RawAction.toBytes]
    · rw [List.take_left' h8, ofLittleEndian_littleEndian action.handler.toWord.toNat_lt]
    · rw [List.drop_left' h8, List.take_left' h4, ofLittleEndian_littleEndian action.mask.toWord.toNat_lt,
        SignalSet.testBit_toWord]
    · rw [← List.append_assoc, List.drop_left' (by rw [List.length_append, h8, h4])]
  refine ⟨fun h => ?_, fun h => h ▸ hencodes⟩
  have hlength : bytes.length = action.toRaw.toBytes.length := h.length.trans hencodes.length.symm
  have hsplit (l : List UInt8) : l = l.take 8 ++ ((l.drop 8).take 4 ++ l.drop 12) := by
    rw [← List.drop_drop (i := 4) (j := 8), List.take_append_drop, List.take_append_drop]
  rw [hsplit bytes, hsplit action.toRaw.toBytes, h.padding, hencodes.padding,
    eq_of_ofLittleEndian (by simp [hlength]) (h.handler.trans hencodes.handler.symm),
    eq_of_ofLittleEndian (by simp [hlength]) (Nat.eq_of_testBit_eq fun n => (h.mask n).trans (hencodes.mask n).symm)]

private theorem handler_ofBytes (hlength : bytes.length = RawAction.byteCount) :
    (RawAction.ofBytes bytes).handler.toNat = ofLittleEndian (bytes.take 8) := by
  refine UInt64.toNat_ofNat_of_lt' (Nat.lt_of_lt_of_eq (ofLittleEndian_lt _) ?_)
  rw [List.length_take, hlength]
  rfl

private theorem mask_ofBytes (hlength : bytes.length = RawAction.byteCount) :
    (RawAction.ofBytes bytes).mask.toNat = ofLittleEndian ((bytes.drop 8).take 4) := by
  refine UInt32.toNat_ofNat_of_lt' (Nat.lt_of_lt_of_eq (ofLittleEndian_lt _) ?_)
  rw [List.length_take, List.length_drop, hlength]
  rfl

theorem decodes_iff (hlength : bytes.length = RawAction.byteCount) :
    Decodes bytes action ↔ action = .ofRaw (.ofBytes bytes) := by
  have hdecodes : Decodes bytes (.ofRaw (.ofBytes bytes)) := by
    refine ⟨fun hzero => ?_, fun hone => ?_, fun entry hentry hword => ?_, fun n => ?_⟩
    · rw [ofRaw, RawAction.ofBytes, hzero]
      rfl
    · rw [ofRaw, RawAction.ofBytes, hone]
      rfl
    · have h0 : entry ≠ 0 := fun h0 => by simp [h0] at hentry
      have h1 : entry ≠ 1 := fun h1 => by simp [h1] at hentry
      rw [ofRaw, RawAction.ofBytes, hword, UInt64.ofNat_toNat, SignalHandler.ofWord, if_neg h0, if_neg h1]
    · rw [ofRaw, SignalSet.contains_ofWord, mask_ofBytes hlength]
  refine ⟨fun h => ?_, fun h => h ▸ hdecodes⟩
  have hsame : action.handler = (ofRaw (.ofBytes bytes)).handler := by
    rcases Nat.lt_trichotomy (ofLittleEndian (bytes.take 8)) 1 with hlt | hone | hgt
    · rw [h.default (by omega), hdecodes.default (by omega)]
    · rw [h.ignore hone, hdecodes.ignore hone]
    · have hword := handler_ofBytes hlength
      rw [h.user _ (by rwa [hword]) hword.symm, hdecodes.user _ (by rwa [hword]) hword.symm]
  have hset : action.mask = (ofRaw (.ofBytes bytes)).mask :=
    SignalSet.ext_contains fun n => (h.mask n).trans (hdecodes.mask n).symm
  obtain ⟨handler, mask⟩ := action
  exact congrArg₂ SignalAction.mk hsame hset

/-- Bytes with the bit of no signal cleared, and the padding too. -/
def clearBytes (bytes : List UInt8) : List UInt8 :=
  (bytes.take 12).modify 8 (fun b => b &&& 0xFE) ++ [0, 0, 0, 0]

/-- To clear the lowest bit of the first byte is to clear that of the number. -/
private theorem ofLittleEndian_clear (b : UInt8) (rest : List UInt8) :
    ofLittleEndian ((b &&& 0xFE) :: rest) = 2 * (ofLittleEndian (b :: rest) / 2) := by
  have hand : ∀ n : Fin 256, n.val &&& 0xFE = 2 * (n.val / 2) := by decide +kernel
  have hb : (b &&& 0xFE).toNat = 2 * (b.toNat / 2) := (UInt8.toNat_and b 0xFE).trans (hand ⟨b.toNat, b.toNat_lt⟩)
  rw [ofLittleEndian, ofLittleEndian, hb]
  omega

private theorem Decodes.toWord (h : Decodes bytes action) (hlength : bytes.length = RawAction.byteCount) :
    ofLittleEndian (bytes.take 8) = action.handler.toWord.toNat := by
  rw [(decodes_iff hlength).mp h, ofRaw, SignalHandler.toWord_ofWord, handler_ofBytes hlength]

/-- The bytes of the action that some bytes spell are the same ones, with the bit of no signal and the padding cleared. -/
theorem Decodes.encodes (h : Decodes bytes action) (hlength : bytes.length = RawAction.byteCount) :
    action.Encodes (clearBytes bytes) := by
  have hword := h.toWord hlength
  obtain ⟨-, -, -, hmask⟩ := h
  match bytes, hlength with
  | [b0, b1, b2, b3, b4, b5, b6, b7, b8, b9, b10, b11, b12, b13, b14, b15], _ =>
    have hclear : clearBytes [b0, b1, b2, b3, b4, b5, b6, b7, b8, b9, b10, b11, b12, b13, b14, b15] =
      [b0, b1, b2, b3, b4, b5, b6, b7, b8 &&& 0xFE, b9, b10, b11, 0, 0, 0, 0] := rfl
    refine ⟨rfl, hclear ▸ hword, fun n => ?_, rfl⟩
    rw [hmask, hclear]
    simp only [List.drop_succ_cons, List.drop_zero, List.take_succ_cons, List.take_zero, ofLittleEndian_clear]
    cases n with
    | zero => simp
    | succ n =>
      rw [Nat.testBit_succ, Nat.mul_div_cancel_left _ (by decide), ← Nat.testBit_succ]
      simp

end SignalAction

end TrapKernel
