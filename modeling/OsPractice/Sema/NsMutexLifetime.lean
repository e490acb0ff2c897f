/-
The nodes of the queue lock (`sema/ns_mutex.c`) while their owners wait. A caller of `ns_mutex_acquire` waits on a
semaphore inside its node, and `ns_mutex_release` destroys the semaphore of the first node and frees the node. As every
node's semaphore is 1 from the start, a caller whose node is not the first comes through, and its release takes away
the first node, whose owner may still be before its wait.

Results:
- `release_alone`: a release comes to the destruction of the first node, whoever owns it;
- `destroyed`: of two threads that call, one can come to destroy the node that the other has appended and waits on;
- `lifetime_iff`: in every run a node outlives the wait of its owner exactly when at most one thread ever calls.
-/
import OsPractice.Sema.NsMutexFifo

namespace OsPractice.NsMutex

open Interleave LockClient Semaphore Heap

variable {T : Type}

/-- the owner has appended the node `n` and has not returned from `sem_wait(&new_node->sem)` -/
def WaitsOn (n : Addr) : Phase Unit EnqueuePc DequeuePc → Prop
  | .acquiring (.postGlock m) => m = n
  | .acquiring (.waitSem m) => m = n
  | _ => False

/-- inside `node_free(n)` -/
def Destroys (n : Addr) : Phase Unit EnqueuePc DequeuePc → Prop
  | .releasing (.semDestroy m) => m = n
  | .releasing (.free m) => m = n
  | _ => False

def Outlives (s : Global T) : Prop := ∀ t u n, WaitsOn n (phases s t) → ¬ Destroys n (phases s u)

/-- a release, while the queue is not in use, comes to `node_free` of the first node -/
theorem release_alone (cell : Addr → Node) (a : Addr) {n : Addr} {x : State} (hg : x.queue.glock = 1)
    (hn : (x.mem.cell x.queue.head).next = some n) (u : T) (b : List Unit) :
    ∃ x', Alone (watched T cell a) u ⟨x, ()⟩ ⟨.holding (), b⟩ [.lock (.releasing u ())] ⟨x', ()⟩
      ⟨.releasing (.semDestroy n), b⟩ := by
  obtain ⟨⟨g, ⟨gl, hd, tl⟩⟩, mem⟩ := x
  obtain rfl : gl = 1 := hg
  have hn : (mem.cell hd).next = some n := hn
  let c : Alloc Node := ⟨none, ⟨0, none⟩⟩
  let x₁ : State := ⟨⟨g, ⟨0, hd, tl⟩⟩, mem⟩
  have htest : watched T cell a u c ⟨x₁, ()⟩ ⟨.releasing (.testNext hd), b⟩ =
      some (⟨x₁, ()⟩, ⟨.releasing .loadHeadCurr, b⟩, []) := by
    simp [watched, pairs, prog, nsMutex, lockQueueDequeue, hn, x₁, returns, showsAppend]
  have hcurr : watched T cell a u c ⟨x₁, ()⟩ ⟨.releasing (.loadCurr hd), b⟩ =
      some (⟨x₁, ()⟩, ⟨.releasing (.loadNext n), b⟩, []) := by
    simp [watched, pairs, prog, nsMutex, lockQueueDequeue, hn, x₁, returns, showsAppend]
  let x₂ := x₁.store hd fun node => { node with next := (mem.cell n).next }
  refine ⟨x₂.store n fun node => { node with sem := semPost node.sem }, ?_⟩
  change Alone _ u _ _ ([Output.lock (.releasing u ())] ++ []) _ _
  exact Alone.head (c := c) rfl <| Alone.silent (c := c) rfl <| Alone.silent (c := c) rfl <| Alone.silent htest <|
    Alone.silent (c := c) rfl <| Alone.silent hcurr <| Alone.silent (c := c) rfl <| Alone.silent (c := c) rfl <|
    Alone.silent (c := c) rfl <| Alone.silent (c := c) rfl <| .refl _ _

variable [DecidableEq T]

/-- **A waiter's node destroyed.** Of any two threads that call, the first can wait on its node while the release of
the second is about to destroy it. -/
theorem destroyed (cell : Addr → Node) (a : Addr) {calls : T → ℕ} {t u : T} (htu : t ≠ u) (ht : 0 < calls t)
    (hu : 0 < calls u) :
    ∃ as tr s n, Run (pairs T cell a) (startPairs cell a calls) as tr s ∧ WaitsOn n (phases s t) ∧
      Destroys n (phases s u) := by
  obtain ⟨as, x₁, x₂, j, k, hx₁, hx₂, hrun⟩ := run_appends cell a htu ht hu
  -- the first node is that of `t`: the dummy node has pointed to it since its append
  have hhead : x₂.queue.head = a := hx₂.head.trans hx₁.head
  have htail : x₁.queue.tail = a + 1 := hx₁.tail
  have hfirst : (x₂.mem.cell a).next = some (a + 1) := by
    rw [hx₂.other a (by simp) (by simp [htail])]
    exact hx₁.next
  obtain ⟨x₃, hrel⟩ := release_alone cell a (n := a + 1) (x := x₂.store (a + 2) fun node => { node with sem := 0 })
    hx₂.glock (by simpa [State.store, State.queue, ← hhead] using hfirst) u (List.replicate k ())
  obtain ⟨bs, hdestroy⟩ := Alone.run
    (s := ((startPairs cell a calls).move t ⟨x₁, ()⟩ ⟨.acquiring (.waitSem (a + 1)), List.replicate j ()⟩).move u
      ⟨x₂.store (a + 2) fun node => { node with sem := 0 }, ()⟩ ⟨.holding (), List.replicate k ()⟩)
    (by rw [St.move_loc, Function.update_self]; exact hrel)
  obtain ⟨tr, hr⟩ := run_pairs (hrun.append hdestroy)
  refine ⟨_, tr, _, a + 1, hr, ?_, ?_⟩
  · simp [phases, htu, WaitsOn]
  · simp [phases, Destroys]

/-- **When waiters' nodes are safe.** No run comes to destroy a node whose owner has appended it and has not returned
from its wait exactly when at most one thread calls. -/
theorem lifetime_iff (cell : Addr → Node) (a : Addr) (calls : T → ℕ) :
    (∀ as tr s, Run (pairs T cell a) (startPairs cell a calls) as tr s → Outlives s) ↔
    ∀ t u, 0 < calls t → 0 < calls u → t = u := by
  refine ⟨?_, ?_⟩
  · intro h t u ht hu
    by_contra htu
    obtain ⟨as, tr, s, n, hr, hw, hd⟩ := destroyed cell a htu ht hu
    exact h as tr s hr t u n hw hd
  · intro h as tr s hr t u n hw hd
    -- a thread in a call has calls to make
    have hpos : ∀ v, phases s v ≠ .out → 0 < calls v := by
      intro v hv
      by_contra hc
      exact hv (by simp [phases, idle hr (Nat.le_zero.1 (Nat.not_lt.1 hc))])
    have htu : t = u := by
      refine h t u (hpos t ?_) (hpos u ?_)
      · intro ho
        rw [ho] at hw
        exact hw
      · intro ho
        rw [ho] at hd
        exact hd
    subst htu
    cases hph : phases s t with
    | releasing p =>
      rw [hph] at hw
      exact hw
    | _ =>
      rw [hph] at hd
      exact hd

/-- thread 0 is before its wait on node 1, which thread 1 frees -/
theorem freed_two :
    ∃ as tr s, Run (pairs (Fin 2) (fun _ => ⟨0, none⟩) 0) (startPairs (fun _ => ⟨0, none⟩) 0 fun _ => 1) as tr s ∧
      phases s 0 = .acquiring (.waitSem 1) ∧ phases s 1 = .releasing (.free 1) ∧ ¬ Outlives s := by
  obtain ⟨s, tr, h, h0, h1⟩ := exec_any_run (pairs (Fin 2) (fun _ => ⟨0, none⟩) 0)
    (startPairs (fun _ => ⟨0, none⟩) 0 fun _ => 1)
    (List.replicate 9 (0, ⟨some 1, ⟨0, none⟩⟩) ++ List.replicate 21 (1, ⟨some 2, ⟨0, none⟩⟩))
    (fun s _ => phases s 0 = .acquiring (.waitSem 1) ∧ phases s 1 = .releasing (.free 1)) (by decide +kernel)
  refine ⟨_, tr, s, h, h0, h1, ?_⟩
  intro hno
  refine hno 0 1 1 ?_ ?_
  · rw [h0]
    rfl
  · rw [h1]
    rfl

end OsPractice.NsMutex
