/-
The memory of the list with hand-over-hand locking: `list_insert` and `list_delete` lose no node.

An allocated node is on the chain, or it is the own node of one operation in progress: one that is not linked yet, or
one that is unlinked and not freed yet (`Accounted`). A step keeps that with the chain of `LockCouplingInv` that comes
with it, as only `free` takes a node away from those that others may have a pointer to (`Keeps`).

Results:
- `run_accounted`: every allocated node is accounted for in every reachable state;
- `allocated_iff_linked`: with no operation in progress, the allocated nodes are the head node and one node for each
  value of the sequential list.
-/
import OsPractice.Concurrency.LockCouplingSerial

namespace OsPractice.LockCoupling

open Interleave Heap PendingList

variable {T : Type} [DecidableEq T] {g : Ghost} {vs : List ℤ} {tr : List (Event T)} {x x' : State T}
  {rs : T → Option Running} {t : T} {r₀ : Running} {r : Option Running} {a : Addr}

/-- every allocated node is on the chain, or the own node of an operation -/
def Accounted (g : Ghost) (x : State T) (rs : T → Option Running) : Prop :=
  ∀ a, x.mem.live a = true → a ∈ g.nodes ∨ ∃ t, mine (rs t) = some a

/-! ## One step -/

omit [DecidableEq T] in
/-- an own node stays the operation's, unless others may already have a pointer to it -/
theorem mine_step {c : Alloc (Node T)} {es : List (Event T)} (hs : runStep t c x r₀ = some (x', r, es))
    (ha : mine (some r₀) = some a) : mine r = some a ∨ visible (some r₀) = some a := by
  cases r₀ with
  | insert v p =>
    obtain ⟨q, hq, he⟩ := Option.map_eq_some_iff.1 hs
    cases he
    cases p with
    | lockPrev new prev =>
      obtain ⟨y, -, he⟩ := Option.map_eq_some_iff.1 hq
      cases he
      exact .inl ha
    | loadCurr new prev =>
      simp only [listInsert] at hq
      split at hq <;> cases hq <;> exact .inl ha
    | lockCurr new prev curr =>
      obtain ⟨y, -, he⟩ := Option.map_eq_some_iff.1 hq
      cases he
      exact .inl ha
    | storeNewNext new prev curr => exact .inr ha
    | malloc => cases ha
    | unlockCurr prev curr => cases ha
    | unlockPrev prev => cases ha
    | _ =>
      cases hq
      exact .inl ha
  | delete v p =>
    refine .inr ?_
    cases p <;> exact ha

omit [DecidableEq T] in
/-- `malloc` is the one step that allocates: the new node is the operation's own -/
theorem live_step {c : Alloc (Node T)} {es : List (Event T)} (hs : runStep t c x r₀ = some (x', r, es))
    (ha : x'.mem.live a = true) : (x.mem.live a = true ∧ freeing (some r₀) ≠ some a) ∨ mine r = some a := by
  have hlock : ∀ {y z : State T} {b : Addr}, y.lock t b = some z → z.mem.live = y.mem.live := by
    intro y z b hyz
    obtain ⟨-, rfl⟩ := lock_eq_some.1 hyz
    rfl
  cases r₀ with
  | insert v p =>
    obtain ⟨q, hq, he⟩ := Option.map_eq_some_iff.1 hs
    cases he
    cases p with
    | malloc =>
      simp only [listInsert] at hq
      split at hq
      · cases hq
      · cases hq
        exact .inl ⟨ha, by simp [freeing]⟩
      · rename_i new hm
        cases hq
        obtain ⟨-, rfl⟩ := malloc_some hm
        by_cases hb : a = new
        · exact .inr (by rw [hb]; rfl)
        · exact .inl ⟨by simpa [alloc_live_other _ hb] using ha, by simp [freeing]⟩
    | lockPrev new prev =>
      obtain ⟨y, hy, he⟩ := Option.map_eq_some_iff.1 hq
      cases he
      exact .inl ⟨by rw [← hlock hy]; exact ha, by simp [freeing]⟩
    | loadCurr new prev =>
      simp only [listInsert] at hq
      split at hq <;> cases hq <;> exact .inl ⟨ha, by simp [freeing]⟩
    | lockCurr new prev curr =>
      obtain ⟨y, hy, he⟩ := Option.map_eq_some_iff.1 hq
      cases he
      exact .inl ⟨by rw [← hlock hy]; exact ha, by simp [freeing]⟩
    | storeNewNext new prev curr => cases curr <;> cases hq <;> exact .inl ⟨ha, by simp [freeing]⟩
    | _ =>
      cases hq
      exact .inl ⟨ha, by simp [freeing]⟩
  | delete v p =>
    obtain ⟨q, hq, he⟩ := Option.map_eq_some_iff.1 hs
    cases he
    cases p with
    | lockPrev prev =>
      obtain ⟨y, hy, he⟩ := Option.map_eq_some_iff.1 hq
      cases he
      exact .inl ⟨by rw [← hlock hy]; exact ha, by simp [freeing]⟩
    | loadCurr prev =>
      simp only [listDelete] at hq
      split at hq <;> cases hq <;> exact .inl ⟨ha, by simp [freeing]⟩
    | lockCurr prev curr =>
      obtain ⟨y, hy, he⟩ := Option.map_eq_some_iff.1 hq
      cases he
      exact .inl ⟨by rw [← hlock hy]; exact ha, by simp [freeing]⟩
    | testVal prev curr =>
      simp only [listDelete] at hq
      split_ifs at hq <;> cases hq <;> exact .inl ⟨ha, by simp [freeing]⟩
    | free curr =>
      cases hq
      by_cases hb : a = curr
      · subst hb
        simp [Heap.free] at ha
      · refine .inl ⟨by simpa [free_live_other _ _ hb] using ha, ?_⟩
        intro he
        exact hb (Option.some.inj he).symm
    | _ =>
      cases hq
      exact .inl ⟨ha, by simp [freeing]⟩

theorem Accounted.run_step {g' : Ghost} (h : Accounted g x rs) (hr : rs t = some r₀) {c : Alloc (Node T)}
    {es : List (Event T)} (hs : runStep t c x r₀ = some (x', r, es)) (hkeep : Keeps g g' (some r₀) r) :
    Accounted g' x' (Function.update rs t r) := by
  have hself : ∀ {b}, mine r = some b → ∃ u, mine (Function.update rs t r u) = some b :=
    fun hb => ⟨t, by rw [Function.update_self, hb]⟩
  intro b hb
  rcases live_step hs hb with ⟨hlive, hfree⟩ | hmine
  · -- a node that others may have a pointer to stays one of these, as it is not freed
    have hshared : b ∈ g.nodes ∨ visible (some r₀) = some b →
        b ∈ g'.nodes ∨ ∃ u, mine (Function.update rs t r u) = some b := by
      intro h1
      rcases hkeep b h1 with h2 | h2 | h2
      · exact .inl h2
      · exact .inr (hself (mine_of_visible h2))
      · exact absurd h2 hfree
    rcases h b hlive with h1 | ⟨u, hu⟩
    · exact hshared (.inl h1)
    · by_cases hut : u = t
      · subst hut
        rw [hr] at hu
        rcases mine_step hs hu with h1 | h1
        · exact .inr (hself h1)
        · exact hshared (.inr h1)
      · exact .inr ⟨u, by rw [Function.update_of_ne hut, hu]⟩
  · exact .inr (hself hmine)

/-! ## Runs -/

theorem prog_accounted {s : Global T} {c : Alloc (Node T)} {l : Local} {es : List (Event T)}
    (h : Inv g vs s.sh (running s)) (hacc : Accounted g s.sh (running s))
    (hs : prog t c s.sh (s.loc t) = some (x', l, es)) :
    ∃ g', Inv g' (es.foldl (fun vs e => e.apply vs) vs) x' (running (s.move t x' l)) ∧
      Accounted g' x' (running (s.move t x' l)) := by
  rw [running_move]
  simp only [prog] at hs
  split at hs
  · rename_i r₁ hr
    obtain ⟨q, hq, he⟩ := Option.map_eq_some_iff.1 hs
    cases he
    obtain ⟨g', hi, hkeep⟩ := LockCoupling.run_step h hr hq
    exact ⟨g', hi, hacc.run_step hr hq hkeep⟩
  · rename_i hr
    split at hs
    · cases hs
    · rename_i op ops hops
      cases hs
      refine ⟨g, ?_, ?_⟩
      · refine h.quiet hr ?_ ?_ ?_ rfl ?_ <;> cases op <;> first | rfl | trivial
      · intro b hb
        refine (hacc b hb).imp_right ?_
        rintro ⟨u, hu⟩
        have hut : u ≠ t := by
          rintro rfl
          rw [show running s u = none from hr] at hu
          cases hu
        exact ⟨u, by rw [Function.update_of_ne hut, hu]⟩

omit [DecidableEq T] in
theorem accounted_init (cell : Addr → Node T) (a : Addr) (ops : T → List Op) :
    Accounted ⟨[a], fun _ => none, fun _ => none⟩ (listInit cell a) (running (start cell a ops)) := by
  intro b hb
  by_contra hno
  have hne : b ≠ a := fun he => hno (.inl (by simp [he]))
  simp [listInit, alloc, empty, hne] at hb

theorem run_accounted {cell : Addr → Node T} {a : Addr} {ops : T → List Op} {as : List (T × Alloc (Node T))}
    {s : Global T} (h : Run prog (start cell a ops) as tr s) :
    ∃ g, Inv g (sequential tr) s.sh (running s) ∧ Accounted g s.sh (running s) := by
  refine h.inv_trace (I := fun tr s => ∃ g, Inv g (sequential tr) s.sh (running s) ∧ Accounted g s.sh (running s))
    ⟨_, inv_init cell a ops, accounted_init cell a ops⟩ ?_
  rintro tr s t c x l es ⟨g, hi, hacc⟩ hs
  rw [sequential_append]
  exact prog_accounted hi hacc hs

/-! ## Between operations -/

omit [DecidableEq T] in
theorem Accounted.idle (h : Accounted g x fun _ : T => none) : ∀ b, x.mem.live b = true → b ∈ g.nodes := by
  intro b hb
  rcases h b hb with h1 | ⟨u, hu⟩
  · exact h1
  · cases hu

omit [DecidableEq T] in
/-- the nodes of the chain, with nothing in progress: the head node, then one node for each value -/
theorem Inv.idle_nodes (h : Inv g vs x fun _ : T => none) :
    ∃ L, g.nodes = x.head :: L ∧ Chain (fun b => (x.node b).next) (some x.head) (x.head :: L) ∧
      L.map (fun b => (x.node b).val) = vs := by
  obtain ⟨L, hL⟩ := h.nodes_eq
  obtain ⟨L', hchain, hvals⟩ := h.linked
  have hidle := h.idle_chain
  rw [hL] at hidle
  obtain rfl : L' = L := hchain.unique hidle.2
  exact ⟨L', hL, hidle, hvals⟩

/-- **No leak.** With no operation in progress, the allocated nodes are those linked from the head node on, the head
node itself and one node for each value of the sequential list. -/
theorem allocated_iff_linked {cell : Addr → Node T} {a : Addr} {ops : T → List Op} {as : List (T × Alloc (Node T))}
    {s : Global T} (h : Run prog (start cell a ops) as tr s) (hidle : ∀ t, (s.loc t).run = none) :
    ∃ L, Chain (fun b => (s.sh.node b).next) (some s.sh.head) (s.sh.head :: L) ∧
      L.map (fun b => (s.sh.node b).val) = sequential tr ∧ (s.sh.head :: L).Nodup ∧
      ∀ b, s.sh.mem.live b = true ↔ b ∈ s.sh.head :: L := by
  obtain ⟨g, hi, hacc⟩ := run_accounted h
  rw [show running s = fun _ => none from funext hidle] at hi hacc
  obtain ⟨L, hL, hchain, hvals⟩ := hi.idle_nodes
  refine ⟨L, hchain, hvals, hchain.nodup, fun b => ?_⟩
  rw [← hL]
  exact ⟨hacc.idle b, hi.live b⟩

/-- a node is inserted and deleted by one thread while the other one inserts: two of the three nodes are left -/
theorem allocated_iff_linked_two :
    ∃ as tr s, Run prog
      (start (fun _ => ⟨none, 0, none⟩) 0 fun t : Fin 2 => if t = 0 then [.insert 5, .delete 5] else [.insert 7])
      as tr s ∧ sequential tr = [7] ∧
      ∃ b, s.sh.mem.live b = true ∧ b ≠ s.sh.head ∧ ∀ b', s.sh.mem.live b' = true → b' = s.sh.head ∨ b' = b := by
  obtain ⟨s, tr, h, htr, hidle⟩ := exec_any_run prog
    (start (fun _ => ⟨none, 0, none⟩) 0 fun t : Fin 2 => if t = 0 then [.insert 5, .delete 5] else [.insert 7])
    (List.replicate 18 (0, answer 1) ++ List.replicate 6 (1, answer 2) ++ List.replicate 4 (0, answer 0) ++
      List.replicate 5 (1, answer 0))
    (fun s tr => sequential tr = [7] ∧ ∀ t, (s.loc t).run = none) (by decide +kernel)
  obtain ⟨L, -, hvals, hnd, hlive⟩ := allocated_iff_linked h hidle
  rw [htr] at hvals
  obtain ⟨b, rfl⟩ : ∃ b, L = [b] := List.length_eq_one_iff.1 (by simpa using congrArg List.length hvals)
  refine ⟨_, tr, s, h, htr, b, (hlive b).2 (by simp), ?_, fun b' hb' => by simpa using (hlive b').1 hb'⟩
  rintro rfl
  simp at hnd

end OsPractice.LockCoupling
