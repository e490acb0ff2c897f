/-
A heap of nodes, and the chains that `next` pointers form in it. Library: nothing here names a program.

What the allocator does is a choice of the environment (`Alloc`): the address that `malloc` returns, `none` for NULL,
and the contents that `free` leaves behind. A freed cell can still be read and written, as on the machine: the model
does not exclude a use after free, so a program that is correct because it has none proves that it has none.

Results:
- `Chain.unique`, `Chain.nodup`: a chain that ends at NULL is determined by its first pointer and has no node twice;
- `Chain.splice`: replacing what follows a node of the chain;
- `Chain.last`: the last node with some property;
- `Chain.unlink`, `Chain.push`: the two splices of a linked list;
- `Chain.concat`: a new node at the end of a list with a dummy first node.
-/
import Mathlib.Tactic

namespace OsPractice.Heap

abbrev Addr := ℕ

structure Memory (N : Type) where
  cell : Addr → N
  live : Addr → Bool

/-- an answer of the allocator -/
structure Alloc (N : Type) where
  addr : Option Addr
  junk : N

variable {N : Type}

/-- a heap with nothing allocated; `cell` is what the memory happens to contain -/
def empty (cell : Addr → N) : Memory N := ⟨cell, fun _ => false⟩

def alloc (h : Memory N) (a : Addr) : Memory N := { h with live := Function.update h.live a true }

/-- `malloc`; no step if the answer is an address in use -/
def malloc (c : Alloc N) (h : Memory N) : Option (Memory N × Option Addr) :=
  match c.addr with
  | none => some (h, none)
  | some a => if h.live a then none else some (alloc h a, some a)

def free (c : Alloc N) (h : Memory N) (a : Addr) : Memory N :=
  ⟨Function.update h.cell a c.junk, Function.update h.live a false⟩

/-- a write to the cell at `a` -/
def modify (h : Memory N) (a : Addr) (f : N → N) : Memory N :=
  { h with cell := Function.update h.cell a (f (h.cell a)) }

@[simp] theorem alloc_live_other (h : Memory N) {a b : Addr} (hb : b ≠ a) : (alloc h a).live b = h.live b := by
  simp [alloc, hb]

@[simp] theorem modify_live (h : Memory N) (a : Addr) (f : N → N) : (modify h a f).live = h.live := rfl

@[simp] theorem modify_self (h : Memory N) (a : Addr) (f : N → N) : (modify h a f).cell a = f (h.cell a) := by
  simp [modify]

@[simp] theorem modify_other (h : Memory N) {a b : Addr} (f : N → N) (hb : b ≠ a) :
    (modify h a f).cell b = h.cell b := by
  simp [modify, hb]

@[simp] theorem free_other (c : Alloc N) (h : Memory N) {a b : Addr} (hb : b ≠ a) :
    (free c h a).cell b = h.cell b := by
  simp [free, hb]

@[simp] theorem free_live_other (c : Alloc N) (h : Memory N) {a b : Addr} (hb : b ≠ a) :
    (free c h a).live b = h.live b := by
  simp [free, hb]

theorem malloc_some {c : Alloc N} {h h' : Memory N} {a : Addr} (hm : malloc c h = some (h', some a)) :
    h.live a = false ∧ h' = alloc h a := by
  unfold malloc at hm
  split at hm
  · cases hm
  · split_ifs at hm with hl
    cases hm
    exact ⟨Bool.eq_false_iff.2 hl, rfl⟩

/-! ## Chains -/

variable {A : Type} {nxt nxt' : A → Option A} {o : Option A} {L L₁ L₂ L₂' : List A} {p c : A}

/-- `L` are the nodes reached from the pointer `o` up to NULL -/
def Chain (nxt : A → Option A) : Option A → List A → Prop
  | o, [] => o = none
  | o, a :: L => o = some a ∧ Chain nxt (nxt a) L

theorem Chain.congr (h : Chain nxt o L) (hn : ∀ a ∈ L, nxt' a = nxt a) : Chain nxt' o L := by
  induction L generalizing o with
  | nil => exact h
  | cons a L ih =>
    refine ⟨h.1, ?_⟩
    rw [hn a List.mem_cons_self]
    exact ih h.2 fun b hb => hn b (List.mem_cons_of_mem _ hb)

theorem Chain.unique (h : Chain nxt o L₁) (h' : Chain nxt o L₂) : L₁ = L₂ := by
  induction L₁ generalizing o L₂ with
  | nil =>
    cases L₂ with
    | nil => rfl
    | cons b L₂ => exact absurd (h'.1.symm.trans h) (by simp)
  | cons a L₁ ih =>
    cases L₂ with
    | nil => exact absurd (h.1.symm.trans h') (by simp)
    | cons b L₂ =>
      obtain rfl : a = b := Option.some.inj (h.1.symm.trans h'.1)
      rw [ih h.2 h'.2]

/-- the part of a chain that starts at one of its nodes -/
theorem Chain.suffix (h : Chain nxt o (L₁ ++ p :: L₂)) : Chain nxt (nxt p) L₂ := by
  induction L₁ generalizing o with
  | nil => exact h.2
  | cons a L₁ ih => exact ih h.2

/-- **Acyclicity.** -/
theorem Chain.nodup (h : Chain nxt o L) : L.Nodup := by
  induction L generalizing o with
  | nil => exact List.nodup_nil
  | cons a L ih =>
    refine List.nodup_cons.2 ⟨?_, ih h.2⟩
    intro ha
    obtain ⟨l₁, l₂, hl⟩ := List.append_of_mem ha
    -- the rest of the chain after the second `a` is the rest after the first one
    have h1 : Chain nxt (nxt a) (l₁ ++ a :: l₂) := by
      rw [← hl]
      exact h.2
    have h2 := congrArg List.length (h1.unique h1.suffix)
    simp only [List.length_append, List.length_cons] at h2
    omega

/-- replace what follows the node `p` -/
theorem Chain.splice (h : Chain nxt o (L₁ ++ p :: L₂)) (h₁ : ∀ a ∈ L₁, nxt' a = nxt a) (h₂ : Chain nxt' (nxt' p) L₂') :
    Chain nxt' o (L₁ ++ p :: L₂') := by
  induction L₁ generalizing o with
  | nil => exact ⟨h.1, h₂⟩
  | cons a L₁ ih =>
    refine ⟨h.1, ?_⟩
    rw [h₁ a List.mem_cons_self]
    exact ih h.2 fun b hb => h₁ b (List.mem_cons_of_mem _ hb)

theorem Chain.split_some (h : Chain nxt o L) (hp : p ∈ L) (hc : nxt p = some c) : ∃ l₁ l₂, L = l₁ ++ p :: c :: l₂ := by
  obtain ⟨l₁, l, rfl⟩ := List.append_of_mem hp
  have hs := h.suffix
  rw [hc] at hs
  cases l with
  | nil => exact absurd hs (by simp [Chain])
  | cons b l₂ =>
    obtain rfl : c = b := Option.some.inj hs.1
    exact ⟨l₁, l₂, rfl⟩

theorem Chain.split_none (h : Chain nxt o L) (hp : p ∈ L) (hc : nxt p = none) : ∃ l₁, L = l₁ ++ [p] := by
  obtain ⟨l₁, l, rfl⟩ := List.append_of_mem hp
  have hs := h.suffix
  rw [hc] at hs
  cases l with
  | nil => exact ⟨l₁, rfl⟩
  | cons b l => exact absurd hs.1 (by simp)

theorem Chain.mem_next (h : Chain nxt o L) (hp : p ∈ L) (hc : nxt p = some c) : c ∈ L := by
  obtain ⟨l₁, l₂, rfl⟩ := h.split_some hp hc
  simp

theorem Chain.next_ne (h : Chain nxt o L) (hp : p ∈ L) (hc : nxt p = some c) : c ≠ p := by
  obtain ⟨l₁, l₂, rfl⟩ := h.split_some hp hc
  have hn := (List.nodup_append.1 h.nodup).2.1
  rintro rfl
  simp at hn

/-- the last node of a chain with some property -/
theorem Chain.last (h : Chain nxt o L) {q : A → Prop} (hq : ∃ a ∈ L, q a) :
    ∃ a ∈ L, q a ∧ ∀ c, nxt a = some c → ¬ q c := by
  induction L generalizing o with
  | nil => simp at hq
  | cons a L ih =>
    by_cases hL : ∃ b ∈ L, q b
    · obtain ⟨b, hb, hqb, hlast⟩ := ih h.2 hL
      exact ⟨b, List.mem_cons_of_mem _ hb, hqb, hlast⟩
    · obtain ⟨b, hb, hqb⟩ := hq
      have hba : b = a := by
        rcases List.mem_cons.1 hb with h1 | h1
        · exact h1
        · exact absurd ⟨b, h1, hqb⟩ hL
      subst hba
      refine ⟨b, List.mem_cons_self, hqb, ?_⟩
      intro c hc hqc
      exact hL ⟨c, (List.mem_cons.1 (h.mem_next List.mem_cons_self hc)).resolve_left
        (h.next_ne List.mem_cons_self hc), hqc⟩

variable [DecidableEq A]

/-- take the node after `p` out -/
theorem Chain.unlink (h : Chain nxt o (L₁ ++ p :: c :: L₂)) :
    Chain (Function.update nxt p (nxt c)) o (L₁ ++ p :: L₂) := by
  have hn := h.nodup
  have h2 : Chain nxt (nxt c) L₂ := h.suffix.2
  simp only [List.nodup_append, List.nodup_cons, List.mem_cons] at hn
  refine h.splice (fun a ha => Function.update_of_ne ?_ _ _) ?_
  · exact hn.2.2 a ha p (.inl rfl)
  · rw [Function.update_self]
    refine h2.congr fun a ha => Function.update_of_ne ?_ _ _
    rintro rfl
    exact hn.2.1.1 (.inr ha)

/-- put a new node `c` after the first one -/
theorem Chain.push (h : Chain nxt o (p :: L)) (hc : c ∉ p :: L) :
    Chain (Function.update (Function.update nxt c (nxt p)) p (some c)) o (p :: c :: L) := by
  have hp : p ∉ L := (List.nodup_cons.1 h.nodup).1
  obtain ⟨hcp, hcL⟩ := List.ne_and_not_mem_of_not_mem_cons hc
  refine ⟨h.1, Function.update_self _ _ _, ?_⟩
  rw [Function.update_of_ne hcp, Function.update_self]
  refine h.2.congr ?_
  intro a ha
  rw [Function.update_of_ne (ne_of_mem_of_not_mem ha hp), Function.update_of_ne (ne_of_mem_of_not_mem ha hcL)]

/-- put a new node `c` at the end; `p` is a dummy node before the list -/
theorem Chain.concat (h : Chain nxt (nxt p) L) (hp : p ∉ L) (hc : c ∉ p :: L) (hn : nxt c = none) :
    Chain (Function.update nxt (L.getLastD p) (some c)) (Function.update nxt (L.getLastD p) (some c) p)
      (L ++ [c]) := by
  have hall : Chain nxt (some p) (p :: L) := ⟨rfl, h⟩
  -- the last node of the list, or the dummy
  obtain ⟨L₁, q, hL, hq⟩ : ∃ L₁ q, p :: L = L₁ ++ [q] ∧ L.getLastD p = q := by
    rcases List.eq_nil_or_concat L with rfl | ⟨l, q, rfl⟩
    · exact ⟨[], p, rfl, rfl⟩
    · exact ⟨p :: l, q, by simp, by simp⟩
  rw [hq]
  have hnd : (L₁ ++ [q]).Nodup := by
    rw [← hL]
    exact hall.nodup
  rw [hL] at hall hc
  have hcq : c ≠ q := fun he => hc (by simp [he])
  have hbefore : ∀ b ∈ L₁, b ≠ q := by
    rintro b hb rfl
    simp only [List.nodup_append, List.mem_singleton] at hnd
    exact hnd.2.2 b hb b rfl rfl
  have hnew : Chain (Function.update nxt q (some c)) (some p) (L₁ ++ q :: [c]) :=
    hall.splice (fun b hb => Function.update_of_ne (hbefore b hb) _ _) (by simp [Chain, hcq, hn])
  have hlist : L₁ ++ q :: [c] = p :: (L ++ [c]) := by
    rw [← List.cons_append, hL]
    simp
  rw [hlist] at hnew
  exact hnew.2

end OsPractice.Heap
