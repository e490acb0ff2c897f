/-
The list with hand-over-hand locking is serialisable: every step of `list_insert` and `list_delete` keeps the invariant
of `LockCouplingInv`, so with no operation in progress the linked values are those of the sequential run.

Results:
- `run_inv`: the invariant holds in every reachable state;
- `ops_logged`: the events of a thread are its operations, in order and each once;
- `idle_nodes`: with no operation in progress, every linked node is allocated and its mutex is free;
- `serialisable`: with no operation in progress the linked values are those that the operations produce one after
  another in the order of their locks on the head node.
-/
import OsPractice.Concurrency.LockCouplingInv

namespace OsPractice.LockCoupling

open Interleave Heap PendingList

variable {T : Type} [DecidableEq T] {g : Ghost} {vs : List ℤ} {tr : List (Event T)} {x x' : State T}
  {rs : T → Option Running} {t : T} {r₀ r : Option Running} {a : Addr}

omit [DecidableEq T] in
theorem sequential_append (tr es : List (Event T)) :
    sequential (tr ++ es) = es.foldl (fun vs e => e.apply vs) (sequential tr) :=
  List.foldl_append

/-! ## Locks and unlocks -/

/-- an operation locks the head node: it is pending there, and next in the sequential order -/
theorem Inv.enter (h : Inv g vs x rs) (hr : rs t = r₀) (hlock : x.lock t x.head = some x') {o : Op}
    (h₀ : holds r₀ = []) (hp₀ : pending r₀ = none) (hl : linking r₀ = none) (hh : holds r = [x.head])
    (hp : pending r = some (x.head, o)) (hm : mine r = mine r₀) (hf : Facts g x r) :
    Inv { g with pend := Function.update g.pend x.head (some o) } (o.apply vs) x' (Function.update rs t r) := by
  obtain ⟨hfree, rfl⟩ := lock_eq_some.1 hlock
  have hpend := h.pend_free hfree
  obtain ⟨L, hL⟩ := h.nodes_eq
  have hnd := h.chain.nodup
  have hcont := h.content
  rw [hL] at hnd hcont
  refine h.relock hr (repend_enter hp₀ hp hpend) h.head_mem (h.unused_of_free h.head_mem hfree)
    (.inl ⟨rfl, by simp [hh]⟩) (fun b hb => by simp [hh, h₀, hb]) hm hl hf ?_
  rw [hL, resolve_enter (List.nodup_cons.1 hnd).1 hpend, hcont]
  rfl

theorem Inv.acquire (h : Inv g vs x rs) (hr : rs t = r₀) (hlock : x.lock t a = some x') (ha : a ∈ g.nodes)
    (hh : holds r = holds r₀ ++ [a]) (hp : pending r = pending r₀) (hm : mine r = mine r₀) (hl : linking r₀ = none)
    (hf : Facts g x r) : Inv g vs x' (Function.update rs t r) := by
  obtain ⟨hfree, rfl⟩ := lock_eq_some.1 hlock
  exact h.relock hr (h.repend_same hr hp) ha (h.unused_of_free ha hfree) (.inl ⟨rfl, by simp [hh]⟩)
    (fun b hb => by simp [hh, hb]) hm hl hf h.content

theorem Inv.release (h : Inv g vs x rs) (hr : rs t = r₀) (ha : a ∈ g.nodes) (hheld : a ∈ holds r₀)
    (hh : ∀ b, b ∈ holds r ↔ b ∈ holds r₀ ∧ b ≠ a) (hp : pending r = pending r₀) (hm : mine r = mine r₀)
    (hl : linking r₀ = none) (hf : Facts g x r) : Inv g vs (x.unlock a) (Function.update rs t r) :=
  h.relock hr (h.repend_same hr hp) ha (h.unused_of_holds (by rw [hr]; exact hheld) ha)
    (.inr ⟨rfl, fun h1 => ((hh a).1 h1).2 rfl⟩) (fun b hb => by rw [hh b]; exact and_iff_left hb) hm hl hf h.content

/-- a write to a node that is not linked yet -/
theorem Inv.fill (h : Inv g vs x rs) (hr : rs t = r₀) {f : Node T → Node T} (ha : mine r₀ = some a) (h₀ : holds r₀ = [])
    (hp₀ : pending r₀ = none) (hl : linking r₀ = none) (hh : holds r = []) (hp : pending r = none)
    (hm : mine r = some a) (hf : Facts g (x.store a f) r) : Inv g vs (x.store a f) (Function.update rs t r) := by
  subst hr
  refine h.privately rfl (h.unused_of_mine ha) (h.priv t a ha).2 rfl (fun b hb => node_store_other x f hb)
    (fun _ _ => rfl) hh (by simp [h₀]) hp₀ hp hl ?_ hf
  intro b hb
  exact ⟨Option.some.inj (hb.symm.trans hm), (h.priv t a ha).1⟩

/-! ## The steps of the code -/

theorem insert_step (h : Inv g vs x rs) {v : ℤ} {p : InsertPc} (hr : rs t = some (.insert v p)) {c : Alloc (Node T)}
    {q : Option InsertPc} {es : List (Event T)} (hs : listInsert t v c x p = some (x', q, es)) :
    ∃ g', Inv g' (es.foldl (fun vs e => e.apply vs) vs) x' (Function.update rs t (q.map (.insert v))) ∧
      Keeps g g' (some (.insert v p)) (q.map (.insert v)) := by
  have hf := h.facts t
  rw [hr] at hf
  cases p with
  | malloc =>
    simp only [listInsert] at hs
    split at hs
    · cases hs
    · cases hs
      exact ⟨g, h.quiet hr rfl rfl rfl rfl trivial, .same rfl rfl⟩
    · rename_i mem new hm
      cases hs
      obtain ⟨hdead, rfl⟩ := malloc_some hm
      have hnew : new ∉ g.nodes := fun hn => absurd (h.live new hn) (by simp [hdead])
      exact ⟨g, h.privately hr (h.unused_of_dead hdead) hnew rfl (fun _ _ => rfl)
        (fun b hb => alloc_live_other _ hb) rfl (by simp [holds]) rfl rfl rfl
        (fun b hb => ⟨(Option.some.inj hb).symm, by simp [alloc]⟩) trivial, .same rfl rfl⟩
  | storeVal new =>
    cases hs
    exact ⟨g, h.fill hr rfl rfl rfl rfl rfl rfl rfl (by simp [Facts]), .same rfl rfl⟩
  | storeNull new =>
    cases hs
    exact ⟨g, h.fill hr rfl rfl rfl rfl rfl rfl rfl (by simpa [Facts] using hf), .same rfl rfl⟩
  | mutexInit new =>
    cases hs
    exact ⟨g, h.fill hr rfl rfl rfl rfl rfl rfl rfl (by simpa [Facts] using hf), .same rfl rfl⟩
  | loadHead new =>
    cases hs
    exact ⟨g, h.quiet hr rfl rfl rfl rfl ⟨hf.1, hf.2, rfl⟩, .same rfl rfl⟩
  | lockPrev new prev =>
    obtain ⟨hv, hm, rfl⟩ := hf
    obtain ⟨y, hlock, he⟩ := Option.map_eq_some_iff.1 hs
    cases he
    exact ⟨_, h.enter (o := .insert v) hr hlock rfl rfl rfl rfl rfl rfl ⟨hv, hm, rfl⟩, .same rfl rfl⟩
  | loadCurr new prev =>
    obtain ⟨hv, hm, rfl⟩ := hf
    have hnext := h.next_eq h.head_mem (t := t) (by rw [hr]; simp [holds]) (by rw [hr]; simp [linking])
    simp only [listInsert] at hs
    split at hs
    · rename_i curr hcurr
      cases hs
      exact ⟨g, h.quiet hr rfl rfl rfl rfl ⟨hv, hm, rfl, hnext.trans hcurr⟩, .same rfl rfl⟩
    · rename_i hcurr
      cases hs
      exact ⟨g, h.quiet hr rfl rfl rfl rfl ⟨hv, hm, rfl, hnext.trans hcurr⟩, .same rfl rfl⟩
  | lockCurr new prev curr =>
    obtain ⟨hv, hm, rfl, hcurr⟩ := hf
    obtain ⟨y, hlock, he⟩ := Option.map_eq_some_iff.1 hs
    cases he
    exact ⟨g, h.acquire hr hlock (h.chain.mem_next h.head_mem hcurr) rfl rfl rfl rfl ⟨hv, hm, rfl, hcurr⟩,
      .same rfl rfl⟩
  | storePrevNext new prev curr =>
    cases hs
    exact ⟨g, h.linkPrev hr, fun a ha => .inl (ha.resolve_right (by simp [visible]))⟩
  | storeNewNext new prev curr =>
    obtain ⟨-, -, rfl, hcurr, -⟩ := hf
    cases curr with
    | some a =>
      cases hs
      exact h.linkNew hr rfl rfl rfl fun g' hg => ⟨hg _ h.head_mem, hg a (h.chain.mem_next h.head_mem hcurr),
        h.chain.next_ne h.head_mem hcurr⟩
    | none =>
      cases hs
      exact h.linkNew hr rfl rfl rfl fun g' hg => hg _ h.head_mem
  | unlockCurr prev curr =>
    obtain ⟨hprev, hcurr, hne⟩ := hf
    cases hs
    exact ⟨g, h.release hr hcurr (by simp [holds]) (by simp [holds]; grind) rfl rfl rfl hprev, .same rfl rfl⟩
  | unlockPrev prev =>
    cases hs
    exact ⟨g, h.release hr hf (by simp [holds]) (by simp [holds]) rfl rfl rfl trivial, .same rfl rfl⟩

theorem delete_step (h : Inv g vs x rs) {v : ℤ} {p : DeletePc} (hr : rs t = some (.delete v p)) {c : Alloc (Node T)}
    {q : Option DeletePc} {es : List (Event T)} (hs : listDelete t v c x p = some (x', q, es)) :
    ∃ g', Inv g' (es.foldl (fun vs e => e.apply vs) vs) x' (Function.update rs t (q.map (.delete v))) ∧
      Keeps g g' (some (.delete v p)) (q.map (.delete v)) := by
  have hf := h.facts t
  rw [hr] at hf
  cases p with
  | loadHead =>
    cases hs
    exact ⟨g, h.quiet hr rfl rfl rfl rfl rfl, .same rfl rfl⟩
  | lockPrev prev =>
    obtain rfl : prev = x.head := hf
    obtain ⟨y, hlock, he⟩ := Option.map_eq_some_iff.1 hs
    cases he
    exact ⟨_, h.enter (o := .delete v) hr hlock rfl rfl rfl rfl rfl rfl h.head_mem, .same rfl rfl⟩
  | loadCurr prev =>
    have hnext := h.next_eq hf (t := t) (by rw [hr]; simp [holds]) (by rw [hr]; simp [linking])
    simp only [listDelete] at hs
    split at hs
    · rename_i curr hcurr
      cases hs
      exact ⟨g, h.quiet hr rfl rfl rfl rfl ⟨hf, hnext.trans hcurr⟩, .same rfl rfl⟩
    · -- the end of the list: the value does not occur behind `prev`
      rename_i hcurr
      cases hs
      obtain ⟨L₁, hL⟩ := h.chain.split_none hf (hnext.trans hcurr)
      have hnd := h.chain.nodup
      have hpend : g.pend prev = some (.delete v) := (h.pend prev _).2 ⟨t, by rw [hr]; rfl⟩
      refine ⟨_, h.repend hr (repend_drop (o := .delete v) rfl rfl) rfl rfl rfl hf ?_, .same rfl rfl⟩
      refine Eq.trans ?_ h.content
      rw [hL] at hnd ⊢
      exact resolve_end hnd hpend rfl
  | lockCurr prev curr =>
    obtain ⟨y, hlock, he⟩ := Option.map_eq_some_iff.1 hs
    cases he
    exact ⟨g, h.acquire hr hlock (h.chain.mem_next hf.1 hf.2) rfl rfl rfl rfl hf, .same rfl rfl⟩
  | testVal prev curr =>
    obtain ⟨hmem, hcurr⟩ := hf
    simp only [listDelete] at hs
    split_ifs at hs with hv
    · cases hs
      exact ⟨g, h.quiet hr rfl rfl rfl rfl ⟨hmem, hcurr, hv⟩, .same rfl rfl⟩
    · -- the value at `curr` stays, and the delete goes on behind it
      cases hs
      obtain ⟨L₁, L₂, hL⟩ := h.chain.split_some hmem hcurr
      have hnd := h.chain.nodup
      have hpend : g.pend prev = some (.delete v) := (h.pend prev _).2 ⟨t, by rw [hr]; rfl⟩
      have hpc : g.pend curr = none := h.pend_curr (t := t) hmem hcurr (by rw [hr]; simp [holds]) (by rw [hr]; rfl)
      refine ⟨_, h.repend hr (repend_pass (o := .delete v) rfl rfl hpc) rfl rfl rfl ⟨hmem, hcurr⟩ ?_, .same rfl rfl⟩
      refine Eq.trans ?_ h.content
      rw [hL] at hnd ⊢
      exact resolve_pass hnd hpend hpc fun vs => by simp [Op.apply, hv]
  | loadNext prev curr =>
    obtain ⟨hmem, hcurr, hv⟩ := hf
    have hnext := h.next_eq (h.chain.mem_next hmem hcurr) (t := t) (by rw [hr]; simp [holds])
      (by rw [hr]; simp [linking])
    cases hs
    exact ⟨g, h.quiet hr rfl rfl rfl rfl ⟨hmem, hcurr, hv, hnext⟩, .same rfl rfl⟩
  | storePrevNext prev curr next =>
    cases hs
    exact h.unlinkCurr hr
  | unlockPrev prev curr =>
    have hne : curr ≠ prev := fun he => (h.priv t curr (by rw [hr]; rfl)).2 (by rw [he]; exact hf)
    cases hs
    exact ⟨g, h.release hr hf (by simp [holds]) (by simp [holds]; grind) rfl rfl rfl trivial, .same rfl rfl⟩
  | destroy curr =>
    cases hs
    exact ⟨g, h.quiet hr rfl rfl rfl rfl trivial, .same rfl rfl⟩
  | free curr =>
    have hmine : mine (rs t) = some curr := by rw [hr]; rfl
    cases hs
    exact ⟨g, h.privately hr (h.unused_of_mine hmine) (h.priv t curr hmine).2 rfl (fun b hb => free_other c x.mem hb)
      (fun b hb => free_live_other c x.mem hb) rfl (by simp [holds]) rfl rfl rfl (fun b hb => by cases hb) trivial,
      fun a ha => ha.imp_right .inr⟩
  | passPrev prev curr =>
    obtain ⟨hmem, hcurr⟩ := hf
    have hne := h.chain.next_ne hmem hcurr
    cases hs
    exact ⟨g, h.release hr hmem (by simp [holds]) (by simp [holds]; grind) rfl rfl rfl (h.chain.mem_next hmem hcurr),
      .same rfl rfl⟩
  | unlockEnd prev =>
    cases hs
    exact ⟨g, h.release hr hf (by simp [holds]) (by simp [holds]) rfl rfl rfl trivial, .same rfl rfl⟩

theorem run_step (h : Inv g vs x rs) {r₁ : Running} (hr : rs t = some r₁) {c : Alloc (Node T)} {es : List (Event T)}
    (hs : runStep t c x r₁ = some (x', r, es)) :
    ∃ g', Inv g' (es.foldl (fun vs e => e.apply vs) vs) x' (Function.update rs t r) ∧ Keeps g g' (some r₁) r := by
  cases r₁ with
  | insert v p =>
    obtain ⟨q, hq, he⟩ := Option.map_eq_some_iff.1 hs
    cases he
    exact insert_step h hr hq
  | delete v p =>
    obtain ⟨q, hq, he⟩ := Option.map_eq_some_iff.1 hs
    cases he
    exact delete_step h hr hq

/-! ## Runs -/

/-- the operations in progress -/
def running (s : Global T) : T → Option Running := fun t => (s.loc t).run

theorem running_move (s : Global T) (t : T) (x : State T) (l : Local) :
    running (s.move t x l) = Function.update (running s) t l.run := by
  funext u
  by_cases h : u = t
  · subst h; simp [running]
  · simp [running, h]

omit [DecidableEq T] in
theorem inv_init (cell : Addr → Node T) (a : Addr) (ops : T → List Op) :
    Inv ⟨[a], fun _ => none, fun _ => none⟩ [] (listInit cell a) (running (start cell a ops)) := by
  refine ⟨⟨rfl, rfl⟩, ?_, fun b hb => .inl ?_, by simp [running, start, holds], ?_, by simp [running, start, pending],
    by simp [running, start, mine], by simp [running, start, mine], fun t => by simp [running, start, Facts],
    by simp [resolve, through, listInit]⟩
  · intro b hb
    obtain rfl := List.mem_singleton.1 hb
    simp [listInit, alloc]
  · obtain rfl := List.mem_singleton.1 hb
    simp [listInit, State.node]
  · intro b hb t ht
    obtain rfl := List.mem_singleton.1 hb
    simp [listInit, State.node] at ht

theorem prog_step {s : Global T} {c : Alloc (Node T)} {l : Local} {es : List (Event T)} (h : Inv g vs s.sh (running s))
    (hs : prog t c s.sh (s.loc t) = some (x', l, es)) :
    ∃ g', Inv g' (es.foldl (fun vs e => e.apply vs) vs) x' (running (s.move t x' l)) := by
  rw [running_move]
  simp only [prog] at hs
  split at hs
  · rename_i r₁ hr
    obtain ⟨q, hq, he⟩ := Option.map_eq_some_iff.1 hs
    cases he
    obtain ⟨g', hi, -⟩ := run_step h hr hq
    exact ⟨g', hi⟩
  · rename_i hr
    split at hs
    · cases hs
    · rename_i op ops hops
      cases hs
      refine ⟨g, h.quiet hr ?_ ?_ ?_ rfl ?_⟩ <;> cases op <;> first | rfl | trivial

theorem run_inv {cell : Addr → Node T} {a : Addr} {ops : T → List Op} {as : List (T × Alloc (Node T))} {s : Global T}
    (h : Run prog (start cell a ops) as tr s) : ∃ g, Inv g (sequential tr) s.sh (running s) := by
  refine h.inv_trace (I := fun tr s => ∃ g, Inv g (sequential tr) s.sh (running s)) ⟨_, inv_init cell a ops⟩ ?_
  rintro tr s t c x l es ⟨g, hi⟩ hs
  rw [sequential_append]
  exact prog_step hi hs

/-! ## Each operation counts once -/

/-- the operation in progress, as long as it has no event -/
def unlogged : Option Running → List Op
  | some (.insert v .malloc) => [.insert v]
  | some (.insert v (.storeVal _)) => [.insert v]
  | some (.insert v (.storeNull _)) => [.insert v]
  | some (.insert v (.mutexInit _)) => [.insert v]
  | some (.insert v (.loadHead _)) => [.insert v]
  | some (.insert v (.lockPrev _ _)) => [.insert v]
  | some (.delete v .loadHead) => [.delete v]
  | some (.delete v (.lockPrev _)) => [.delete v]
  | _ => []

theorem opsBy_append (u : T) (tr tr' : List (Event T)) : opsBy u (tr ++ tr') = opsBy u tr ++ opsBy u tr' := by
  simp [opsBy]

@[simp] theorem opsBy_nil (u : T) : opsBy u ([] : List (Event T)) = [] := rfl

theorem opsBy_locked (u t : T) (op : Op) : opsBy u [.locked t op] = if t = u then [op] else [] := by
  by_cases h : t = u <;> simp [opsBy, h]

theorem opsBy_failed (u t : T) (v : ℤ) : opsBy u [.failed t v] = if t = u then [.insert v] else [] := by
  by_cases h : t = u <;> simp [opsBy, h]

/-- the operations of thread `u` that a step of thread `t` accounts for -/
def accounts (u t : T) (r : Option Running) (es : List (Event T)) : List Op :=
  opsBy u es ++ if t = u then unlogged r else []

theorem insert_accounts {v : ℤ} {p : InsertPc} {c : Alloc (Node T)} {q : Option InsertPc} {es : List (Event T)}
    (hs : listInsert t v c x p = some (x', q, es)) (u : T) :
    accounts u t (q.map (.insert v)) es = accounts u t (some (.insert v p)) [] := by
  unfold accounts
  cases p with
  | malloc =>
    simp only [listInsert] at hs
    split at hs
    · cases hs
    · cases hs
      rw [opsBy_failed]
      split_ifs <;> rfl
    · cases hs
      rfl
  | lockPrev new prev =>
    obtain ⟨y, -, he⟩ := Option.map_eq_some_iff.1 hs
    cases he
    rw [opsBy_locked]
    split_ifs <;> rfl
  | loadCurr new prev =>
    simp only [listInsert] at hs
    split at hs <;> cases hs <;> rfl
  | lockCurr new prev curr =>
    obtain ⟨y, -, he⟩ := Option.map_eq_some_iff.1 hs
    cases he
    rfl
  | storeNewNext new prev curr => cases curr <;> cases hs <;> rfl
  | _ => cases hs; rfl

theorem delete_accounts {v : ℤ} {p : DeletePc} {c : Alloc (Node T)} {q : Option DeletePc} {es : List (Event T)}
    (hs : listDelete t v c x p = some (x', q, es)) (u : T) :
    accounts u t (q.map (.delete v)) es = accounts u t (some (.delete v p)) [] := by
  unfold accounts
  cases p with
  | lockPrev prev =>
    obtain ⟨y, -, he⟩ := Option.map_eq_some_iff.1 hs
    cases he
    rw [opsBy_locked]
    split_ifs <;> rfl
  | loadCurr prev =>
    simp only [listDelete] at hs
    split at hs <;> cases hs <;> rfl
  | lockCurr prev curr =>
    obtain ⟨y, -, he⟩ := Option.map_eq_some_iff.1 hs
    cases he
    rfl
  | testVal prev curr =>
    simp only [listDelete] at hs
    split_ifs at hs <;> cases hs <;> rfl
  | _ => cases hs; rfl

/-- **Order of the operations.** The events of a thread, then the operation it has begun if that has no event yet, then
the ones it has still to run, are its operations. -/
theorem ops_logged {cell : Addr → Node T} {a : Addr} {ops : T → List Op} {as : List (T × Alloc (Node T))} {s : Global T}
    (h : Run prog (start cell a ops) as tr s) (u : T) :
    opsBy u tr ++ unlogged (s.loc u).run ++ (s.loc u).todo = ops u := by
  refine h.inv_trace (I := fun tr s => opsBy u tr ++ unlogged (s.loc u).run ++ (s.loc u).todo = ops u) rfl ?_
  intro tr s t c x l es hi hs
  have hacc : opsBy u es ++ (if t = u then unlogged l.run ++ l.todo else []) =
      if t = u then unlogged (s.loc t).run ++ (s.loc t).todo else [] := by
    simp only [prog] at hs
    split at hs
    · rename_i r₁ hr
      obtain ⟨⟨y, q, es'⟩, hq, he⟩ := Option.map_eq_some_iff.1 hs
      cases he
      have h1 : accounts u t q es' = accounts u t (some r₁) [] := by
        cases r₁ with
        | insert v p =>
          obtain ⟨⟨y', q', es'⟩, hq', he⟩ := Option.map_eq_some_iff.1 hq
          cases he
          exact insert_accounts hq' u
        | delete v p =>
          obtain ⟨⟨y', q', es'⟩, hq', he⟩ := Option.map_eq_some_iff.1 hq
          cases he
          exact delete_accounts hq' u
      unfold accounts at h1
      split_ifs at h1 ⊢ with htu
      · rw [hr, ← List.append_assoc, h1]
        rfl
      · simpa using h1
    · rename_i hr
      split at hs
      · cases hs
      · rename_i op ops hops
        cases hs
        rw [hr, hops]
        split_ifs <;> cases op <;> rfl
  by_cases htu : t = u
  · subst htu
    rw [if_pos rfl, if_pos rfl] at hacc
    rw [opsBy_append, St.move_loc, Function.update_self, List.append_assoc, List.append_assoc, hacc,
      ← List.append_assoc]
    exact hi
  · rw [if_neg htu, if_neg htu, List.append_nil] at hacc
    rw [opsBy_append, hacc, List.append_nil, St.move_loc, Function.update_of_ne (Ne.symm htu)]
    exact hi

/-! ## The list between operations -/

omit [DecidableEq T] in
theorem Inv.idle_chain (h : Inv g vs x fun _ : T => none) : Chain (fun a => (x.node a).next) (some x.head) g.nodes := by
  refine h.chain.congr ?_
  intro a ha
  rcases h.real a ha with h1 | ⟨t, ht⟩
  · exact h1.symm
  · cases ht

omit [DecidableEq T] in
theorem Inv.linked (h : Inv g vs x fun _ : T => none) : Linked x vs := by
  obtain ⟨L, hL⟩ := h.nodes_eq
  have hidle : ∀ a ∈ g.nodes, g.pend a = none := fun a _ => by
    by_contra hno
    obtain ⟨op, hop⟩ := Option.ne_none_iff_exists'.1 hno
    obtain ⟨t, ht⟩ := (h.pend a op).1 hop
    cases ht
  have hcont := h.content
  have hchain := h.idle_chain
  rw [resolve_idle hidle] at hcont
  rw [hL] at hcont hchain
  exact ⟨L, hchain.2, (List.cons.inj hcont).2⟩

omit [DecidableEq T] in
theorem Inv.unlocked (h : Inv g vs x fun _ : T => none) : ∀ a ∈ g.nodes, (x.node a).mutex = none := by
  intro a ha
  by_contra hno
  obtain ⟨t, ht⟩ := Option.ne_none_iff_exists'.1 hno
  have h1 := h.owned a ha t ht
  simp [holds] at h1

/-- with no operation in progress, every node from the head node on is allocated and its mutex is free -/
theorem idle_nodes {cell : Addr → Node T} {a : Addr} {ops : T → List Op} {as : List (T × Alloc (Node T))} {s : Global T}
    (h : Run prog (start cell a ops) as tr s) (hidle : ∀ t, (s.loc t).run = none) :
    ∃ L, Chain (fun a => (s.sh.node a).next) (some s.sh.head) L ∧
      ∀ a ∈ L, s.sh.mem.live a = true ∧ (s.sh.node a).mutex = none := by
  obtain ⟨g, hi⟩ := run_inv h
  rw [show running s = fun _ => none from funext hidle] at hi
  exact ⟨g.nodes, hi.idle_chain, fun a ha => ⟨hi.live a ha, hi.unlocked a ha⟩⟩

/-- **Serialisability.** When no operation is in progress, the values linked from the head node are those of the
operations run one after another in the order in which they locked the head node, and each thread's operations count
there once and in their order. -/
theorem serialisable {cell : Addr → Node T} {a : Addr} {ops : T → List Op} {as : List (T × Alloc (Node T))}
    {s : Global T} (h : Run prog (start cell a ops) as tr s) (hidle : ∀ t, (s.loc t).run = none) :
    Linked s.sh (sequential tr) ∧ ∀ t, opsBy t tr ++ (s.loc t).todo = ops t := by
  obtain ⟨g, hi⟩ := run_inv h
  refine ⟨?_, ?_⟩
  · rw [show running s = fun _ => none from funext hidle] at hi
    exact hi.linked
  · intro t
    have h1 := ops_logged h t
    rwa [hidle t, show unlogged none = [] from rfl, List.append_nil] at h1

/-- what `malloc` and `free` answer in the run below -/
def answer (a : Addr) : Alloc (Node (Fin 2)) := ⟨some a, ⟨none, 0, none⟩⟩

/-- an insert that begins while a delete is on its way -/
theorem serialisable_two :
    ∃ as tr s, Run prog
      (start (fun _ => ⟨none, 0, none⟩) 0 fun t : Fin 2 => if t = 0 then [.insert 5, .insert 7] else [.delete 5])
      as tr s ∧ tr = [.locked 0 (.insert 5), .locked 1 (.delete 5), .locked 0 (.insert 7)] ∧ Linked s.sh [7] := by
  obtain ⟨s, tr, h, htr, hidle⟩ := exec_any_run prog
    (start (fun _ => ⟨none, 0, none⟩) 0 fun t : Fin 2 => if t = 0 then [.insert 5, .insert 7] else [.delete 5])
    (List.replicate 11 (0, answer 1) ++ List.replicate 6 (0, answer 2) ++ List.replicate 9 (1, answer 0) ++
      List.replicate 3 (0, answer 0) ++ List.replicate 2 (1, answer 0) ++ List.replicate 2 (0, answer 0))
    (fun s tr => tr = [.locked 0 (.insert 5), .locked 1 (.delete 5), .locked 0 (.insert 7)] ∧ ∀ t, (s.loc t).run = none)
    (by decide +kernel)
  have h1 := (serialisable h hidle).1
  rw [htr] at h1
  exact ⟨_, _, s, h, htr, h1⟩

end OsPractice.LockCoupling
