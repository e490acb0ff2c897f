/-
Standard signals and `sigsuspend`. Library: nothing here names a program.

A signal that is sent while it is blocked is pending; it does not matter how often it has been sent. A call of
`sigsuspend` waits for a pending signal that is not in its mask and runs the handler. It returns when there is no such
signal left, after at least one handler has run; the signals that arrive in the meantime are handled in the same call.

Results: `sigsuspend_handled`, `sigsuspend_returned`: what a step of the call does; `waits_iff`: when it goes on waiting.
-/
import Mathlib.Tactic

namespace OsPractice.Signals

variable {Sig : Type} [DecidableEq Sig] {mask pending pending' : Finset Sig} {sig : Sig}

/-- a call of `sigsuspend`: no handler has run yet, or one has -/
inductive Phase where
  | waiting
  | handling
deriving DecidableEq, Repr

/-- a step of the call: the handler of a signal runs, or the call returns -/
def sigsuspend (mask : Finset Sig) (ph : Phase) (pending : Finset Sig) : Option Sig → Option (Finset Sig × Option Phase)
  | some sig => if sig ∈ pending \ mask then some (pending.erase sig, some .handling) else none
  | none => if ph = .handling ∧ pending ⊆ mask then some (pending, none) else none

theorem sigsuspend_handled {ph ph' : Phase} {c : Option Sig}
    (h : sigsuspend mask ph pending c = some (pending', some ph')) :
    ∃ sig ∈ pending, sig ∉ mask ∧ c = some sig ∧ pending' = pending.erase sig ∧ ph' = .handling := by
  cases c with
  | none =>
    rw [sigsuspend] at h
    split_ifs at h
    cases h
  | some sig =>
    rw [sigsuspend] at h
    split_ifs at h with hmem
    cases h
    obtain ⟨hp, hm⟩ := Finset.mem_sdiff.1 hmem
    exact ⟨sig, hp, hm, rfl, rfl, rfl⟩

theorem sigsuspend_returned {ph : Phase} {c : Option Sig} (h : sigsuspend mask ph pending c = some (pending', none)) :
    c = none ∧ ph = .handling ∧ pending ⊆ mask ∧ pending' = pending := by
  cases c with
  | some sig =>
    rw [sigsuspend] at h
    split_ifs at h
    cases h
  | none =>
    rw [sigsuspend] at h
    split_ifs at h with hret
    cases h
    exact ⟨rfl, hret.1, hret.2, rfl⟩

/-- the call waits as long as every pending signal is in the mask -/
theorem waits_iff : (∀ c, sigsuspend mask .waiting pending c = none) ↔ pending ⊆ mask := by
  constructor
  · intro h sig hsig
    by_contra hm
    have hstep := h (some sig)
    rw [sigsuspend, if_pos (Finset.mem_sdiff.2 ⟨hsig, hm⟩)] at hstep
    cases hstep
  · rintro h (_ | sig)
    · rw [sigsuspend]
      simp
    · rw [sigsuspend, if_neg]
      intro hmem
      obtain ⟨hp, hm⟩ := Finset.mem_sdiff.1 hmem
      exact hm (h hp)

end OsPractice.Signals
