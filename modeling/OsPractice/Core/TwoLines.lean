/-
What programs print whose threads print a line each, meet, and print another line each, between two lines of the main
thread. Library: nothing here names a program.

Where nobody prints its second line before all have printed their first (`Printed.first`, `Printed.second`), the output is
the first lines in some order and then the second lines in some order.

Result: `Printed.orders`.
-/
import Mathlib.Tactic
import Mathlib.Data.Fintype.Basic
import Mathlib.Data.List.FinRange

namespace OsPractice.TwoLines

inductive Line (T : Type) where
  | parentBegin
  | before (t : T)
  | after (t : T)
  | parentEnd
  deriving DecidableEq, Repr

/-- what a thread has printed -/
inductive Stage where
  | nothing
  | first
  | both
  deriving DecidableEq, Repr

variable {T : Type}

def befores (tr : List (Line T)) : List T := tr.filterMap fun
  | .before t => some t
  | _ => none

def afters (tr : List (Line T)) : List T := tr.filterMap fun
  | .after t => some t
  | _ => none

theorem befores_append (tr es : List (Line T)) : befores (tr ++ es) = befores tr ++ befores es := List.filterMap_append

theorem afters_append (tr es : List (Line T)) : afters (tr ++ es) = afters tr ++ afters es := List.filterMap_append

variable [DecidableEq T]

/-- the threads have printed `tr`, each of them what its stage says -/
structure Printed (tr : List (Line T)) (stage : T → Stage) : Prop where
  order : tr = (befores tr).map .before ++ (afters tr).map .after
  before : ∀ t, (befores tr).count t = if stage t = .nothing then 0 else 1
  after : ∀ t, (afters tr).count t = if stage t = .both then 1 else 0

variable {tr : List (Line T)} {stage stage' : T → Stage} {t : T}

theorem Printed.start : Printed ([] : List (Line T)) fun _ => .nothing :=
  ⟨rfl, fun _ => rfl, fun _ => rfl⟩

/-- the first line: nobody has printed its second one yet -/
theorem Printed.first (h : Printed tr stage) (ht : stage t = .nothing) (hno : ∀ u, stage u ≠ .both)
    (h1 : stage' t = .first) (h2 : ∀ u, u ≠ t → stage' u = stage u) : Printed (tr ++ [.before t]) stage' := by
  have hnil : afters tr = [] := by
    refine List.eq_nil_iff_forall_not_mem.2 fun u hu => ?_
    have hc := h.after u
    rw [if_neg (hno u)] at hc
    exact List.count_eq_zero.1 hc hu
  have ha : afters (tr ++ [.before t]) = [] := by
    rw [afters_append, hnil]
    rfl
  have hb : befores (tr ++ [.before t]) = befores tr ++ [t] := befores_append _ _
  refine ⟨?_, fun u => ?_, fun u => ?_⟩
  · have ho := h.order
    rw [hnil, List.map_nil, List.append_nil] at ho
    rw [hb, ha, List.map_append, ← ho]
    simp
  · rw [hb, List.count_append, h.before u]
    by_cases hu : u = t
    · simp [hu, ht, h1]
    · simp [h2 u hu, Ne.symm hu]
  · rw [ha]
    by_cases hu : u = t
    · simp [hu, h1]
    · simp [h2 u hu, hno u]

/-- the second line -/
theorem Printed.second (h : Printed tr stage) (ht : stage t = .first) (h1 : stage' t = .both)
    (h2 : ∀ u, u ≠ t → stage' u = stage u) : Printed (tr ++ [.after t]) stage' := by
  have hb : befores (tr ++ [.after t]) = befores tr := by
    rw [befores_append]
    exact List.append_nil _
  have ha : afters (tr ++ [.after t]) = afters tr ++ [t] := afters_append _ _
  refine ⟨?_, fun u => ?_, fun u => ?_⟩
  · have ho := h.order
    rw [hb, ha, List.map_append, ← List.append_assoc, ← ho]
    rfl
  · rw [hb, h.before u]
    by_cases hu : u = t
    · simp [hu, ht, h1]
    · rw [h2 u hu]
  · rw [ha, List.count_append, h.after u]
    by_cases hu : u = t
    · simp [hu, ht, h1]
    · simp [h2 u hu, Ne.symm hu]

/-- **The whole output**, as the orders in which the threads have printed their lines. -/
theorem Printed.orders {n : ℕ} {tr : List (Line (Fin n))} {stage : Fin n → Stage} (h : Printed tr stage)
    (hall : ∀ t, stage t = .both) :
    ∃ P Q : List (Fin n), P.Perm (List.finRange n) ∧ Q.Perm (List.finRange n) ∧
      tr = P.map .before ++ Q.map .after := by
  have hone : ∀ t : Fin n, (List.finRange n).count t = 1 := fun t =>
    List.count_eq_one_of_mem (List.nodup_finRange n) (List.mem_finRange t)
  refine ⟨befores tr, afters tr, List.perm_iff_count.2 fun t => ?_, List.perm_iff_count.2 fun t => ?_, h.order⟩
  · rw [h.before t, if_neg (by rw [hall t]; simp), hone t]
  · rw [h.after t, if_pos (hall t), hone t]

end OsPractice.TwoLines
