/-
A list with operations on their way through it. Library: nothing here names a program.

The nodes `L` carry values; at a node an operation may be pending that still has to act on everything behind the node
(`pend`). `resolve` is the list of values that results when all pending operations have acted, an operation further back
having come first. An operation may enter at the first node, pass on to the next node when it leaves the value there as
it is, take that node out, put a node in, or come to the end; only the first of these changes what the list resolves to.
-/
import Mathlib.Tactic

namespace OsPractice.PendingList

variable {A V O : Type} {apply : O → List V → List V} {pend pend' : A → Option O} {val val' : A → V}
  {L L₁ L₂ L₂' : List A} {p c : A} {o : O}

def through (apply : O → List V → List V) : Option O → List V → List V
  | none, vs => vs
  | some o, vs => apply o vs

def resolve (apply : O → List V → List V) (pend : A → Option O) (val : A → V) : List A → List V
  | [] => []
  | a :: L => val a :: through apply (pend a) (resolve apply pend val L)

/-- the part of the list before a change does not matter -/
theorem resolve_append (h₁ : ∀ a ∈ L₁, pend' a = pend a ∧ val' a = val a)
    (h₂ : resolve apply pend' val' L₂' = resolve apply pend val L₂) :
    resolve apply pend' val' (L₁ ++ L₂') = resolve apply pend val (L₁ ++ L₂) := by
  induction L₁ with
  | nil => exact h₂
  | cons a L₁ ih =>
    obtain ⟨hp, hv⟩ := h₁ a List.mem_cons_self
    simp only [List.cons_append, resolve, hp, hv]
    rw [ih fun b hb => h₁ b (List.mem_cons_of_mem _ hb)]

theorem resolve_congr (h : ∀ a ∈ L, pend' a = pend a ∧ val' a = val a) :
    resolve apply pend' val' L = resolve apply pend val L := by
  rw [← List.append_nil L]
  exact resolve_append h rfl

theorem resolve_idle (h : ∀ a ∈ L, pend a = none) : resolve apply pend val L = L.map val := by
  induction L with
  | nil => rfl
  | cons a L ih =>
    rw [resolve, h a List.mem_cons_self, ih fun b hb => h b (List.mem_cons_of_mem _ hb)]
    rfl

variable [DecidableEq A]

/-- an operation enters at the first node -/
theorem resolve_enter (hL : p ∉ L) (hp : pend p = none) :
    resolve apply (Function.update pend p (some o)) val (p :: L) =
      val p :: apply o (resolve apply pend val (p :: L)).tail := by
  have h : resolve apply (Function.update pend p (some o)) val L = resolve apply pend val L :=
    resolve_congr fun a ha => ⟨Function.update_of_ne (ne_of_mem_of_not_mem ha hL) _ _, rfl⟩
  simp [resolve, hp, h, through]

/-- an operation passes on to the next node -/
theorem resolve_pass (hn : (L₁ ++ p :: c :: L₂).Nodup) (hp : pend p = some o) (hc : pend c = none)
    (ho : ∀ vs, apply o (val c :: vs) = val c :: apply o vs) :
    resolve apply (Function.update (Function.update pend p none) c (some o)) val (L₁ ++ p :: c :: L₂) =
      resolve apply pend val (L₁ ++ p :: c :: L₂) := by
  simp only [List.nodup_append, List.nodup_cons, List.mem_cons, not_or] at hn
  obtain ⟨-, ⟨⟨hpc, hpL⟩, hcL, -⟩, hd⟩ := hn
  have hout : ∀ a, a ≠ p → a ≠ c → Function.update (Function.update pend p none) c (some o) a = pend a :=
    fun a hap hac => by rw [Function.update_of_ne hac, Function.update_of_ne hap]
  refine resolve_append (fun a ha => ⟨hout a (hd a ha p (.inl rfl)) (hd a ha c (.inr (.inl rfl))), rfl⟩) ?_
  have h : resolve apply (Function.update (Function.update pend p none) c (some o)) val L₂ =
      resolve apply pend val L₂ :=
    resolve_congr fun a ha => ⟨hout a (ne_of_mem_of_not_mem ha hpL) (ne_of_mem_of_not_mem ha hcL), rfl⟩
  simp [resolve, hp, hc, h, through, hpc, ho]

/-- an operation takes the next node out -/
theorem resolve_unlink (hn : (L₁ ++ p :: c :: L₂).Nodup) (hp : pend p = some o) (hc : pend c = none)
    (ho : ∀ vs, apply o (val c :: vs) = vs) :
    resolve apply (Function.update pend p none) val (L₁ ++ p :: L₂) =
      resolve apply pend val (L₁ ++ p :: c :: L₂) := by
  simp only [List.nodup_append, List.nodup_cons, List.mem_cons, not_or] at hn
  obtain ⟨-, ⟨⟨-, hpL⟩, -⟩, hd⟩ := hn
  refine resolve_append (fun a ha => ⟨Function.update_of_ne (hd a ha p (.inl rfl)) _ _, rfl⟩) ?_
  have h : resolve apply (Function.update pend p none) val L₂ = resolve apply pend val L₂ :=
    resolve_congr fun a ha => ⟨Function.update_of_ne (ne_of_mem_of_not_mem ha hpL) _ _, rfl⟩
  simp [resolve, hp, hc, h, through, ho]

/-- an operation comes to the end -/
theorem resolve_end (hn : (L₁ ++ [p]).Nodup) (hp : pend p = some o) (ho : apply o [] = []) :
    resolve apply (Function.update pend p none) val (L₁ ++ [p]) = resolve apply pend val (L₁ ++ [p]) := by
  have hd := (List.nodup_append.1 hn).2.2
  refine resolve_append (fun a ha => ⟨Function.update_of_ne (hd a ha p List.mem_cons_self) _ _, rfl⟩) ?_
  simp [resolve, hp, through, ho]

/-- an operation puts the node `c` in after the first one -/
theorem resolve_push (hpL : p ∉ L) (hpc : c ≠ p) (hp : pend p = some o) (hc : pend c = none)
    (ho : ∀ vs, apply o vs = val c :: vs) :
    resolve apply (Function.update pend p none) val (p :: c :: L) = resolve apply pend val (p :: L) := by
  have h : resolve apply (Function.update pend p none) val L = resolve apply pend val L :=
    resolve_congr fun a ha => ⟨Function.update_of_ne (ne_of_mem_of_not_mem ha hpL) _ _, rfl⟩
  simp [resolve, hp, hc, h, through, hpc, ho]

end OsPractice.PendingList
