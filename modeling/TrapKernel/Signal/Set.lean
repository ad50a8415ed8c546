import TrapKernel.Layout
import TrapKernel.Text.Names

/-!
# Signals and sets of signals

Signals have the numbers from 1 to `lastSignal`. In the word of a set the bit of a signal is the one with its
number, so the lowest bit of the word belongs to no signal.

* `SignalSet.contains_union`, `SignalSet.contains_diff`, `SignalSet.contains_single`: what the operations mean.
-/

namespace TrapKernel

/-- The signal that ends a process and cannot be caught or held off. -/
def sigKill : Nat := 9

/-- The signal that a process gets when one of its children has exited. -/
def sigChild : Nat := 17

/-- The signal that stops a process and cannot be caught or held off. -/
def sigStop : Nat := 19

/-- Whether a signal has this number. -/
def isSignal (n : Nat) : Bool := 1 ≤ n && n ≤ lastSignal

/-- Whether a process may install an action for the signal. -/
def isCatchable (n : Nat) : Bool := n != sigKill && n != sigStop

/-- The names of the signals by ascending number. -/
def signalNames : List String :=
  ["SIGHUP", "SIGINT", "SIGQUIT", "SIGILL", "SIGTRAP", "SIGABRT", "SIGBUS", "SIGFPE", "SIGKILL", "SIGUSR1",
    "SIGSEGV", "SIGUSR2", "SIGPIPE", "SIGALRM", "SIGTERM", "SIGSTKFLT", "SIGCHLD", "SIGCONT", "SIGSTOP", "SIGTSTP",
    "SIGTTIN", "SIGTTOU", "SIGURG", "SIGXCPU", "SIGXFSZ", "SIGVTALRM", "SIGPROF", "SIGWINCH", "SIGIO", "SIGPWR",
    "SIGSYS"]

/-- What happens to a process that has not said what a signal shall do. -/
inductive DefaultAction where
  | terminate
  | ignore
  deriving DecidableEq, Repr

/-- The default action of a signal. Signals about children, urgent data and window sizes are ignored, and so are
those that stop and continue a process, since there is no job control. -/
def defaultAction (n : Nat) : DefaultAction :=
  if n ∈ [17, 18, 19, 20, 21, 22, 23, 28] then .ignore else .terminate

/-- A set of signals: bit `n` of `members` stands for signal `n + 1`. -/
structure SignalSet where
  members : BitVec lastSignal
  deriving DecidableEq, Repr

namespace SignalSet

/-- The set without signals. -/
def empty : SignalSet := ⟨0⟩

/-- Whether a signal is in the set. -/
def contains (s : SignalSet) (n : Nat) : Bool := 1 ≤ n && s.members.getLsbD (n - 1)

/-- The set of one signal; empty if the number is not that of a signal. -/
def single (n : Nat) : SignalSet := if 1 ≤ n then ⟨BitVec.twoPow lastSignal (n - 1)⟩ else empty

/-- The set of one signal, if the number is that of a signal. -/
def ofSignal? (n : Nat) : Option SignalSet := if isSignal n then some (single n) else none

/-- The signals in either set. -/
def union (s t : SignalSet) : SignalSet := ⟨s.members ||| t.members⟩

/-- The signals of the first set that are not in the second. -/
def diff (s t : SignalSet) : SignalSet := ⟨s.members &&& ~~~t.members⟩

/-- The signals of the set by ascending number. -/
def toList (s : SignalSet) : List Nat := (List.range' 1 lastSignal).filter s.contains

/-- The least signal of the set. -/
def lowest? (s : SignalSet) : Option Nat := (List.range' 1 lastSignal).find? s.contains

/-- Whether all signals of the second set are in the first. -/
def includes (s t : SignalSet) : Bool := s.members &&& t.members = t.members

/-- The word of the set. -/
def toWord (s : SignalSet) : UInt32 := UInt32.ofNat (2 * s.members.toNat)

/-- The set that a word spells; the lowest bit is dropped. -/
def ofWord (w : UInt32) : SignalSet := ⟨BitVec.ofNat lastSignal (w.toNat / 2)⟩

/-- The set that a word spells, if its lowest bit is clear. -/
def ofWord? (w : UInt32) : Option SignalSet := if w.toNat % 2 = 0 then some (ofWord w) else none

/-- The names of the signals of the set. -/
def text (s : SignalSet) : String :=
  joinNames (s.toList.filterMap fun n => signalNames[n - 1]?)

@[ext] theorem ext_contains {s t : SignalSet} (h : ∀ n, s.contains n = t.contains n) : s = t := by
  cases s with
  | mk a =>
    cases t with
    | mk b =>
      congr 1
      apply BitVec.eq_of_getLsbD_eq
      intro i _
      simpa [contains] using h (i + 1)

@[simp] theorem contains_empty (n : Nat) : empty.contains n = false := by simp [contains, empty]

@[simp] theorem contains_union (s t : SignalSet) (n : Nat) :
    (s.union t).contains n = (s.contains n || t.contains n) := by
  by_cases h : 1 ≤ n <;> simp [contains, union, h]

theorem isSignal_of_contains {s : SignalSet} {n : Nat} (h : s.contains n = true) : isSignal n = true := by
  simp only [contains, Bool.and_eq_true, decide_eq_true_eq] at h
  have hlt := BitVec.lt_of_getLsbD h.2
  simp only [isSignal, Bool.and_eq_true, decide_eq_true_eq]
  exact ⟨h.1, by omega⟩

@[simp] theorem contains_diff (s t : SignalSet) (n : Nat) :
    (s.diff t).contains n = (s.contains n && !t.contains n) := by
  by_cases h : 1 ≤ n
  · by_cases hs : s.members.getLsbD (n - 1) = true
    · have hlt := BitVec.lt_of_getLsbD hs
      simp [contains, diff, h, hlt]
    · simp [contains, diff, hs]
  · simp [contains, h]

@[simp] theorem contains_single (n k : Nat) : (single n).contains k = (isSignal n && k = n) := by
  by_cases h : 1 ≤ n
  · by_cases hk : k = n
    · subst hk
      by_cases hlast : k ≤ lastSignal
      · have : k - 1 < lastSignal := by omega
        simp [single, contains, isSignal, h, hlast, this]
      · have : ¬k - 1 < lastSignal := by omega
        simp [single, contains, isSignal, hlast, h, this, BitVec.getLsbD_twoPow]
    · by_cases hk1 : 1 ≤ k
      · have : n - 1 ≠ k - 1 := by omega
        simp [single, contains, h, hk, this, BitVec.getLsbD_twoPow]
      · simp [single, contains, h, hk, hk1]
  · simp [single, h, isSignal]

end SignalSet

end TrapKernel
