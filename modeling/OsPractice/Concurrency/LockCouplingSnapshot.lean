/-
What `list_print` (`lock_coupling.c`) prints beside inserts.

`list_insert` stores the new node in `head->next` before it stores the rest of the list in `new->next`. `list_print`
takes none of the locks that `list_insert` holds meanwhile: it can come to the new node between the two stores, read
NULL there, and end.

The threads run only `list_insert` and `list_print`. The nodes that are linked are then never unlinked, and what is
behind a node that is quite linked does not change.

Results:
- `run_adds`: the linked nodes, up to the one whose second store is still to come;
- `print_snapshot`: every `list_print` prints the list as it is at some moment while it runs, or only the value of an
  insert that it has met between its two stores.
-/
import OsPractice.Concurrency.LockCouplingPrint
import OsPractice.Core.Monitor

namespace OsPractice.LockCouplingPrint

open Interleave Heap LockCoupling Monitor

variable {T : Type}

/-! ## Statement -/

/-- a call of `list_insert` or `list_print` -/
def Call.adds : Call → Prop
  | .op (.delete _) => False
  | _ => True

def Output.event : Output T → Option (LockCoupling.Event T)
  | .list e => some e
  | .printed _ _ => none

/-- the events of the list operations -/
def listEvents (tr : List (Output T)) : List (LockCoupling.Event T) := tr.filterMap Output.event

def Output.valueFor [DecidableEq T] (t : T) : Output T → Option ℤ
  | .list _ => none
  | .printed u v => if u = t then some v else none

/-- the values that thread `t` has printed -/
def printedBy [DecidableEq T] (t : T) (tr : List (Output T)) : List ℤ := tr.filterMap (Output.valueFor t)

/-- the value of an insert that has locked the head node and has not stored its node there yet -/
def waiting : Option Activity → Option ℤ
  | some (.op (.insert v (.loadCurr _ _))) => some v
  | some (.op (.insert v (.lockCurr _ _ _))) => some v
  | some (.op (.insert v (.storePrevNext _ _ _))) => some v
  | _ => none

/-- `vs` are the values that have been linked: those of the operations that have locked the head node, without the one
that is still to be stored there -/
def Published (tr : List (Output T)) (s : Global T) (vs : List ℤ) : Prop :=
  (∃ t v, waiting (s.loc t).run = some v ∧ sequential (listEvents tr) = v :: vs) ∨
  (∀ t, waiting (s.loc t).run = none) ∧ sequential (listEvents tr) = vs

/-- an insert of `v` has stored its node in `head->next`, and not yet the rest of the list behind it -/
def BetweenStores (s : Global T) (v : ℤ) : Prop :=
  ∃ t new prev curr, (s.loc t).run = some (.op (.insert v (.storeNewNext new prev curr)))

/-! ## The linked nodes -/

/-- the thread has locked the head node -/
def inside (l : Local) : Prop :=
  match l.run with
  | some (.op (.insert _ (.loadCurr _ _))) => True
  | some (.op (.insert _ (.lockCurr _ _ _))) => True
  | some (.op (.insert _ (.storePrevNext _ _ _))) => True
  | some (.op (.insert _ (.storeNewNext _ _ _))) => True
  | some (.op (.insert _ (.unlockCurr _ _))) => True
  | some (.op (.insert _ (.unlockPrev _))) => True
  | _ => False

/-- the new node of an insert, as long as no other thread can reach it -/
def own : Option Activity → Option Addr
  | some (.op (.insert _ (.storeVal new))) => some new
  | some (.op (.insert _ (.storeNull new))) => some new
  | some (.op (.insert _ (.mutexInit new))) => some new
  | some (.op (.insert _ (.loadHead new))) => some new
  | some (.op (.insert _ (.lockPrev new _))) => some new
  | some (.op (.insert _ (.loadCurr new _))) => some new
  | some (.op (.insert _ (.lockCurr new _ _))) => some new
  | some (.op (.insert _ (.storePrevNext new _ _))) => some new
  | _ => none

/-- no `list_delete`, neither in progress nor to come -/
def AddsOnly (l : Local) : Prop := (∀ call ∈ l.todo, call.adds) ∧ ∀ v p, l.run ≠ some (.op (.delete v p))

/-- a new node that is ready to be linked -/
def Ready (x : State T) (v : ℤ) (new : Addr) : Prop := (x.node new).val = v ∧ (x.node new).next = none

/-- what the local variables say, where `ns` are the linked nodes -/
def Knows (x : State T) (ns : List Addr) : Option Activity → Prop
  | some (.op (.insert v (.storeNull new))) => (x.node new).val = v
  | some (.op (.insert v (.mutexInit new))) => Ready x v new
  | some (.op (.insert v (.loadHead new))) => Ready x v new
  | some (.op (.insert v (.lockPrev new prev))) => Ready x v new ∧ prev = x.head
  | some (.op (.insert v (.loadCurr new prev))) => Ready x v new ∧ prev = x.head
  | some (.op (.insert v (.lockCurr new prev curr))) => Ready x v new ∧ prev = x.head ∧ ns.head? = some curr
  | some (.op (.insert v (.storePrevNext new prev curr))) => Ready x v new ∧ prev = x.head ∧ ns.head? = curr
  | some (.op (.insert v (.storeNewNext new prev curr))) =>
    (x.node new).val = v ∧ prev = x.head ∧ ∃ rest, ns = new :: rest ∧ rest.head? = curr
  | some (.op (.insert _ (.unlockCurr prev curr))) => prev = x.head ∧ curr ∈ ns
  | some (.op (.insert _ (.unlockPrev prev))) => prev = x.head
  | some (.print (.loadFirst head)) => head = x.head
  | some (.print (.lock curr)) => curr ∈ ns
  | some (.print (.printVal curr)) => curr ∈ ns
  | some (.print (.loadNext curr)) => curr ∈ ns
  | some (.print (.unlock temp curr)) => temp ∈ ns ∧ ∀ c ∈ curr, c ∈ ns
  | _ => True

/-- the node is linked, and the insert has still to store what is behind it -/
def Linking (s : Global T) (b : Addr) : Prop :=
  ∃ t v prev curr, (s.loc t).run = some (.op (.insert v (.storeNewNext b prev curr)))

/-- `ns` are the linked nodes, the last one linked first -/
structure Adds (ns : List Addr) (tr : List (Output T)) (s : Global T) : Prop where
  only : ∀ t, AddsOnly (s.loc t)
  mutex : Guards inside (s.sh.node s.sh.head).mutex s.loc
  nodup : (s.sh.head :: ns).Nodup
  live : ∀ b ∈ s.sh.head :: ns, s.sh.mem.live b = true
  chain : ∀ pre b post, s.sh.head :: ns = pre ++ b :: post →
    (s.sh.node b).next = post.head? ∨ (s.sh.node b).next = none ∧ Linking s b
  own_live : ∀ t b, own (s.loc t).run = some b → s.sh.mem.live b = true ∧ b ∉ s.sh.head :: ns
  own_disj : ∀ t u b, own (s.loc t).run = some b → own (s.loc u).run = some b → t = u
  knows : ∀ t, Knows s.sh ns (s.loc t).run
  values : Published tr s (ns.map fun b => (s.sh.node b).val)

/-! ## Steps that link no node -/

variable {ns : List Addr} {tr es : List (Output T)} {s : Global T} {t : T} {x x' : State T} {l : Local}

theorem Knows.congr {r : Option Activity} (h : Knows x ns r) (hhead : x'.head = x.head)
    (hown : ∀ b, own r = some b → (x'.node b).val = (x.node b).val ∧ (x'.node b).next = (x.node b).next)
    (hval : ∀ b ∈ ns, (x'.node b).val = (x.node b).val) : Knows x' ns r := by
  have hready : ∀ v new, own r = some new → Ready x v new → Ready x' v new := by
    intro v new hnew hr
    obtain ⟨hv, hn⟩ := hown new hnew
    exact ⟨hv.trans hr.1, hn.trans hr.2⟩
  rcases r with _ | (⟨v, p⟩ | ⟨v, p⟩) | p
  · trivial
  · cases p with
    | malloc | storeVal new => trivial
    | storeNull new => exact (hown new rfl).1.trans h
    | mutexInit new => exact hready v new rfl h
    | loadHead new => exact hready v new rfl h
    | lockPrev new prev => exact ⟨hready v new rfl h.1, h.2.trans hhead.symm⟩
    | loadCurr new prev => exact ⟨hready v new rfl h.1, h.2.trans hhead.symm⟩
    | lockCurr new prev curr => exact ⟨hready v new rfl h.1, h.2.1.trans hhead.symm, h.2.2⟩
    | storePrevNext new prev curr => exact ⟨hready v new rfl h.1, h.2.1.trans hhead.symm, h.2.2⟩
    | storeNewNext new prev curr =>
      obtain ⟨hv, hprev, rest, hns, hrest⟩ := h
      have hnew : new ∈ ns := by rw [hns]; exact List.mem_cons_self
      exact ⟨(hval new hnew).trans hv, hprev.trans hhead.symm, rest, hns, hrest⟩
    | unlockCurr prev curr => exact ⟨h.1.trans hhead.symm, h.2⟩
    | unlockPrev prev => exact Eq.trans h hhead.symm
  · trivial
  · cases p with
    | loadFirst head => exact Eq.trans h hhead.symm
    | _ => exact h

/-- a further node is linked by another thread -/
theorem Knows.grow {l : Local} (h : Knows x ns l.run) (hl : ¬ inside l) (new : Addr) : Knows x (new :: ns) l.run := by
  unfold inside at hl
  generalize l.run = r at h hl
  rcases r with _ | (⟨v, p⟩ | ⟨v, p⟩) | p
  · trivial
  · cases p with
    | loadCurr | lockCurr | storePrevNext | storeNewNext | unlockCurr | unlockPrev => exact absurd trivial hl
    | _ => exact h
  · trivial
  · cases p with
    | lock curr | printVal curr | loadNext curr => exact List.mem_cons_of_mem _ h
    | unlock temp curr => exact ⟨List.mem_cons_of_mem _ h.1, fun c hc => List.mem_cons_of_mem _ (h.2 c hc)⟩
    | _ => exact h

theorem inside_of_waiting {l : Local} {v : ℤ} (h : waiting l.run = some v) : inside l := by
  unfold inside
  generalize l.run = r at h
  rcases r with _ | (⟨w, p⟩ | ⟨w, p⟩) | p
  · cases h
  · cases p <;> trivial
  · cases h
  · cases h

variable [DecidableEq T]

/-- the insert of another thread is still between its two stores after a step -/
theorem Linking.other {b : Addr} (h : Linking s b)
    (ht : ∀ v prev curr, (s.loc t).run ≠ some (.op (.insert v (.storeNewNext b prev curr)))) :
    Linking (s.move t x l) b := by
  obtain ⟨u, v, prev, curr, hu⟩ := h
  have hut : u ≠ t := by
    rintro rfl
    exact ht v prev curr hu
  exact ⟨u, v, prev, curr, by rw [St.move_loc, Function.update_of_ne hut]; exact hu⟩

/-- a step of a thread that waits to store its node, or does not, and goes on to do so -/
theorem Published.move {vs : List ℤ} (h : Published tr s vs)
    (hes : sequential (listEvents (tr ++ es)) = sequential (listEvents tr))
    (hwait : waiting l.run = waiting (s.loc t).run) : Published (tr ++ es) (s.move t x l) vs := by
  have hsame : ∀ u, waiting ((s.move t x l).loc u).run = waiting (s.loc u).run := by
    intro u
    by_cases hu : u = t
    · subst hu
      rw [St.move_loc, Function.update_self, hwait]
    · rw [St.move_loc, Function.update_of_ne hu]
  rw [Published, hes]
  rcases h with ⟨u, v, hu, hseq⟩ | ⟨hnone, hseq⟩
  · exact .inl ⟨u, v, (hsame u).trans hu, hseq⟩
  · exact .inr ⟨fun u => (hsame u).trans (hnone u), hseq⟩

/-- a step that leaves the linked nodes and those of other threads as they are -/
theorem Adds.move (h : Adds ns tr s) (honly : AddsOnly l) (hhead : x.head = s.sh.head)
    (hmutex : Guards inside (x.node s.sh.head).mutex (Function.update s.loc t l))
    (hlive : ∀ b, s.sh.mem.live b = true → x.mem.live b = true)
    (hsame : ∀ b, b ∈ s.sh.head :: ns ∨ (∃ u, u ≠ t ∧ own (s.loc u).run = some b) →
      (x.node b).val = (s.sh.node b).val ∧ (x.node b).next = (s.sh.node b).next)
    (hlink : ∀ v new prev curr, (s.loc t).run ≠ some (.op (.insert v (.storeNewNext new prev curr))))
    (hown : ∀ b, own l.run = some b →
      x.mem.live b = true ∧ b ∉ s.sh.head :: ns ∧ ∀ u, u ≠ t → own (s.loc u).run ≠ some b)
    (hknows : Knows x ns l.run)
    (hvalues : Published (tr ++ es) (s.move t x l) (ns.map fun b => (s.sh.node b).val)) :
    Adds ns (tr ++ es) (s.move t x l) where
  only := s.forall_move (p := fun _ l => AddsOnly l) x honly fun u _ => h.only u
  mutex := by rw [St.move_sh, hhead]; exact hmutex
  nodup := by rw [St.move_sh, hhead]; exact h.nodup
  live b hb := by
    rw [St.move_sh, hhead] at hb
    exact hlive b (h.live b hb)
  chain pre b post hsplit := by
    rw [St.move_sh, hhead] at hsplit
    have hb : b ∈ s.sh.head :: ns := by rw [hsplit]; exact List.mem_append_right _ List.mem_cons_self
    rw [St.move_sh, (hsame b (.inl hb)).2]
    exact (h.chain pre b post hsplit).imp_right (And.imp_right fun hl => hl.other fun v => hlink v b)
  own_live := by
    rw [St.move_sh, hhead]
    refine s.forall_move (p := fun _ l => ∀ b, own l.run = some b → x.mem.live b = true ∧ b ∉ s.sh.head :: ns) x ?_ ?_
    · intro b hb
      exact ⟨(hown b hb).1, (hown b hb).2.1⟩
    · intro u _ b hb
      exact ⟨hlive b (h.own_live u b hb).1, (h.own_live u b hb).2⟩
  own_disj u w b hu hw := by
    rw [St.move_loc] at hu hw
    by_cases hut : u = t
    · by_cases hwt : w = t
      · rw [hut, hwt]
      · rw [hut, Function.update_self] at hu
        rw [Function.update_of_ne hwt] at hw
        exact absurd hw ((hown b hu).2.2 w hwt)
    · rw [Function.update_of_ne hut] at hu
      by_cases hwt : w = t
      · rw [hwt, Function.update_self] at hw
        exact absurd hu ((hown b hw).2.2 u hut)
      · rw [Function.update_of_ne hwt] at hw
        exact h.own_disj u w b hu hw
  knows := by
    refine s.forall_move (p := fun _ l => Knows x ns l.run) x hknows fun u hu => (h.knows u).congr hhead ?_ ?_
    · exact fun b hb => hsame b (.inr ⟨u, hu, hb⟩)
    · exact fun b hb => (hsame b (.inl (List.mem_cons_of_mem _ hb))).1
  values := by
    have hvals : (ns.map fun b => (x.node b).val) = ns.map fun b => (s.sh.node b).val :=
      List.map_congr_left fun b hb => (hsame b (.inl (List.mem_cons_of_mem _ hb))).1
    rw [St.move_sh, hvals]
    exact hvalues

/-- a step that writes at most one node, which is on its way to be linked or gets only another mutex -/
theorem Adds.write (h : Adds ns tr s) {b : Addr} {f : Node T → Node T} (honly : AddsOnly l)
    (hf : own (s.loc t).run = some b ∨ (∀ n, (f n).val = n.val ∧ (f n).next = n.next) ∧ b ∈ ns)
    (hinside : inside l ↔ inside (s.loc t))
    (hlink : ∀ v new prev curr, (s.loc t).run ≠ some (.op (.insert v (.storeNewNext new prev curr))))
    (hown : own l.run = own (s.loc t).run) (hknows : Knows (s.sh.store b f) ns l.run)
    (hes : sequential (listEvents (tr ++ es)) = sequential (listEvents tr))
    (hwait : waiting l.run = waiting (s.loc t).run) : Adds ns (tr ++ es) (s.move t (s.sh.store b f) l) := by
  have hne : s.sh.head ≠ b := by
    rintro rfl
    rcases hf with hf | ⟨-, hf⟩
    · exact (h.own_live t _ hf).2 List.mem_cons_self
    · exact (List.nodup_cons.1 h.nodup).1 hf
  refine h.move honly rfl ?_ (fun _ hb => hb) ?_ hlink ?_ hknows (h.values.move hes hwait)
  · rw [node_store_other _ _ hne]
    exact h.mutex.stay hinside
  · intro c hc
    by_cases hcb : c = b
    · subst hcb
      rcases hf with hf | ⟨hf, -⟩
      · rcases hc with hc | ⟨u, hu, hc⟩
        · exact absurd hc (h.own_live t c hf).2
        · exact absurd (h.own_disj u t c hc hf) hu
      · rw [node_store_self]
        exact hf _
    · rw [node_store_other _ _ hcb]
      exact ⟨rfl, rfl⟩
  · intro c hc
    rw [hown] at hc
    exact ⟨(h.own_live t c hc).1, (h.own_live t c hc).2, fun u hu hcu => hu (h.own_disj u t c hcu hc)⟩

/-- a step that writes nothing -/
theorem Adds.quiet (h : Adds ns tr s) (honly : AddsOnly l) (hinside : inside l ↔ inside (s.loc t))
    (hlink : ∀ v new prev curr, (s.loc t).run ≠ some (.op (.insert v (.storeNewNext new prev curr))))
    (hown : ∀ b, own l.run = some b → own (s.loc t).run = some b) (hknows : Knows s.sh ns l.run)
    (hes : sequential (listEvents (tr ++ es)) = sequential (listEvents tr))
    (hwait : waiting l.run = waiting (s.loc t).run) : Adds ns (tr ++ es) (s.move t s.sh l) := by
  refine h.move honly rfl (h.mutex.stay hinside) (fun _ hb => hb) (fun _ _ => ⟨rfl, rfl⟩) hlink ?_ hknows
    (h.values.move hes hwait)
  intro c hc
  have hc' := hown c hc
  exact ⟨(h.own_live t c hc').1, (h.own_live t c hc').2, fun u hu hcu => hu (h.own_disj u t c hcu hc')⟩

/-! ## Steps on the head node -/

/-- an insert locks the head node -/
theorem Adds.lockHead (h : Adds ns tr s) {v : ℤ} {new : Addr} (hfree : (s.sh.node s.sh.head).mutex = none)
    (ht : (s.loc t).run = some (.op (.insert v (.lockPrev new s.sh.head))))
    (hl : l.run = some (.op (.insert v (.loadCurr new s.sh.head)))) (honly : AddsOnly l) :
    Adds ns (tr ++ [.list (.locked t (.insert v))])
      (s.move t (s.sh.store s.sh.head fun n => { n with mutex := some t }) l) := by
  have hmutex := h.mutex
  rw [hfree] at hmutex
  have hready : Ready s.sh v new ∧ s.sh.head = s.sh.head := by simpa [ht, Knows] using h.knows t
  have hnew := h.own_live t new (by rw [ht]; rfl)
  have hother : new ≠ s.sh.head := fun he => hnew.2 (by rw [he]; exact List.mem_cons_self)
  have hin : inside l := by rw [inside, hl]; trivial
  refine h.move honly rfl ?_ (fun _ hb => hb) (fun b _ => store_mutex _ _ _ _) (by simp [ht]) ?_ ?_ ?_
  · rw [node_store_self]
    exact hmutex.enter hin
  · intro b hb
    rw [hl] at hb
    obtain rfl : new = b := Option.some.inj hb
    exact ⟨hnew.1, hnew.2, fun u hu hub => hu (h.own_disj u t new hub (by rw [ht]; rfl))⟩
  · rw [hl]
    exact ⟨by rw [Ready, node_store_other _ _ hother]; exact hready.1, rfl⟩
  · -- no insert has been waiting, and now this one is
    have hseq : sequential (listEvents tr) = ns.map fun b => (s.sh.node b).val := by
      rcases h.values with ⟨u, w, hu, -⟩ | ⟨-, hseq⟩
      · exact absurd (inside_of_waiting hu) (hmutex.free u)
      · exact hseq
    refine .inl ⟨t, v, by rw [St.move_loc, Function.update_self, hl]; rfl, ?_⟩
    rw [listEvents, List.filterMap_append]
    change sequential (listEvents tr ++ [.locked t (.insert v)]) = _
    rw [sequential_append, hseq]
    rfl

/-- an insert unlocks the head node -/
theorem Adds.unlockHead (h : Adds ns tr s) {v : ℤ}
    (ht : (s.loc t).run = some (.op (.insert v (.unlockPrev s.sh.head)))) (hl : l.run = none) (honly : AddsOnly l) :
    Adds ns tr (s.move t (s.sh.unlock s.sh.head) l) := by
  have hin : inside (s.loc t) := by rw [inside, ht]; trivial
  have hout : ¬ inside l := by rw [inside, hl]; exact id
  have hvalues : Published (tr ++ []) (s.move t (s.sh.unlock s.sh.head) l) (ns.map fun b => (s.sh.node b).val) :=
    h.values.move (by rw [List.append_nil]) (by rw [hl, ht]; rfl)
  have hmove := h.move (t := t) (x := s.sh.unlock s.sh.head) (l := l) honly rfl ?_ (fun _ hb => hb)
    (fun b _ => store_mutex _ _ _ _) (by simp [ht]) (fun b hb => by rw [hl] at hb; cases hb) (by rw [hl]; trivial) hvalues
  · rwa [List.append_nil] at hmove
  · rw [State.unlock, node_store_self]
    exact h.mutex.leave hin hout

/-- an insert stores its node in `head->next` -/
theorem Adds.storeHead (h : Adds ns tr s) {v : ℤ} {new : Addr} {curr : Option Addr}
    (ht : (s.loc t).run = some (.op (.insert v (.storePrevNext new s.sh.head curr))))
    (hl : l.run = some (.op (.insert v (.storeNewNext new s.sh.head curr)))) (honly : AddsOnly l) :
    Adds (new :: ns) tr (s.move t (s.sh.store s.sh.head fun n => { n with next := some new }) l) := by
  have hin : inside (s.loc t) := by rw [inside, ht]; trivial
  have hin' : inside l := by rw [inside, hl]; trivial
  have hknows : Ready s.sh v new ∧ s.sh.head = s.sh.head ∧ ns.head? = curr := by simpa [ht, Knows] using h.knows t
  obtain ⟨⟨hval, hnext⟩, -, hcurr⟩ := hknows
  obtain ⟨hnewlive, hnew⟩ := h.own_live t new (by rw [ht]; rfl)
  have hother : ∀ b ∈ new :: ns, b ≠ s.sh.head := by
    rintro b hb rfl
    rcases List.mem_cons.1 hb with rfl | hb
    · exact hnew List.mem_cons_self
    · exact (List.nodup_cons.1 h.nodup).1 hb
  have hno : ∀ w b prev curr, (s.loc t).run ≠ some (.op (.insert w (.storeNewNext b prev curr))) := by simp [ht]
  have hvals : ∀ b, ((s.sh.store s.sh.head fun n => { n with next := some new }).node b).val = (s.sh.node b).val :=
    fun b => (store_next _ _ _ _).1
  have hmap : ((new :: ns).map fun b => ((s.sh.store s.sh.head fun n => { n with next := some new }).node b).val) =
      v :: ns.map fun b => (s.sh.node b).val := by
    rw [List.map_congr_left fun b _ => hvals b, List.map_cons, hval]
  refine ⟨s.forall_move (p := fun _ l => AddsOnly l) _ honly fun u _ => h.only u, ?_, ?_, ?_, ?_, ?_, ?_, ?_, ?_⟩
  · rw [St.move_sh, store_head, (store_next _ _ _ _).2]
    exact h.mutex.stay (iff_of_true hin' hin)
  · have hnd := List.nodup_cons.1 h.nodup
    rw [List.mem_cons, not_or] at hnew
    exact List.nodup_cons.2 ⟨fun hm => hother _ hm rfl, List.nodup_cons.2 ⟨hnew.2, hnd.2⟩⟩
  · intro b hb
    rcases List.mem_cons.1 hb with rfl | hb
    · exact h.live _ List.mem_cons_self
    · rcases List.mem_cons.1 hb with rfl | hb
      · exact hnewlive
      · exact h.live b (List.mem_cons_of_mem _ hb)
  · intro pre b post hsplit
    rw [St.move_sh, store_head] at hsplit
    rcases pre with _ | ⟨a, pre⟩
    · -- the head node leads to the new one
      obtain ⟨rfl, rfl⟩ := List.cons_eq_cons.1 hsplit
      exact .inl (by rw [St.move_sh, node_store_self]; rfl)
    · obtain ⟨-, hsplit⟩ := List.cons_eq_cons.1 hsplit
      rcases pre with _ | ⟨a', pre⟩
      · -- the new node does not lead on yet
        obtain ⟨rfl, rfl⟩ := List.cons_eq_cons.1 hsplit
        refine .inr ⟨?_, t, v, s.sh.head, curr, by rw [St.move_loc, Function.update_self]; exact hl⟩
        rw [St.move_sh, node_store_other _ _ (hother _ List.mem_cons_self)]
        exact hnext
      · obtain ⟨rfl, rfl⟩ := List.cons_eq_cons.1 hsplit
        have hb : b ≠ s.sh.head := hother b (by simp)
        rw [St.move_sh, node_store_other _ _ hb]
        exact (h.chain (s.sh.head :: pre) b post rfl).imp_right (And.imp_right fun hlink => hlink.other fun w => hno w b)
  · refine s.forall_move (p := fun _ l => ∀ b, own l.run = some b → s.sh.mem.live b = true ∧ b ∉ s.sh.head :: new :: ns)
      _ (fun b hb => by rw [hl] at hb; cases hb) fun u hu b hb => ?_
    obtain ⟨hlive, hmem⟩ := h.own_live u b hb
    have hne : b ≠ new := by
      rintro rfl
      exact hu (h.own_disj u t b hb (by rw [ht]; rfl))
    simp only [List.mem_cons, not_or] at hmem ⊢
    exact ⟨hlive, hmem.1, hne, hmem.2⟩
  · intro u w b hu hw
    have hown : ∀ u, own ((s.move t (s.sh.store s.sh.head fun n => { n with next := some new }) l).loc u).run = some b →
        u ≠ t ∧ own (s.loc u).run = some b := by
      intro u hu
      by_cases hut : u = t
      · subst hut
        rw [St.move_loc, Function.update_self, hl] at hu
        cases hu
      · rw [St.move_loc, Function.update_of_ne hut] at hu
        exact ⟨hut, hu⟩
    exact h.own_disj u w b (hown u hu).2 (hown w hw).2
  · refine s.forall_move (p := fun _ l => Knows _ (new :: ns) l.run) _ ?_ fun u hu => ?_
    · rw [hl]
      exact ⟨(hvals new).trans hval, rfl, ns, rfl, hcurr⟩
    · have hsame : Knows (s.sh.store s.sh.head fun n => { n with next := some new }) ns (s.loc u).run := by
        refine (h.knows u).congr rfl (fun b hb => ?_) fun b _ => hvals b
        have hne : b ≠ s.sh.head := fun he => (h.own_live u b hb).2 (by rw [he]; exact List.mem_cons_self)
        rw [node_store_other _ _ hne]
        exact ⟨rfl, rfl⟩
      exact hsame.grow (h.mutex.outside hin hu) new
  · -- what was to be stored is stored
    rw [St.move_sh, hmap]
    refine .inr ⟨?_, ?_⟩
    · refine s.forall_move (p := fun _ l => waiting l.run = none) _ (by rw [hl]; rfl) fun u hu => ?_
      refine Option.eq_none_iff_forall_ne_some.2 fun w hw => ?_
      exact h.mutex.outside hin hu (inside_of_waiting hw)
    · rcases h.values with ⟨u, w, hu, hseq⟩ | ⟨hnone, -⟩
      · obtain rfl := h.mutex.unique hin (inside_of_waiting hu)
        rw [ht] at hu
        obtain rfl : v = w := Option.some.inj hu
        exact hseq
      · have hwt := hnone t
        rw [ht] at hwt
        cases hwt

/-- an insert stores the rest of the list behind its node -/
theorem Adds.storeRest (h : Adds ns tr s) {v : ℤ} {new prev : Addr} {curr : Option Addr}
    (ht : (s.loc t).run = some (.op (.insert v (.storeNewNext new prev curr)))) (honly : AddsOnly l)
    (hin' : inside l) (hown : own l.run = none) (hwait : waiting l.run = none)
    (hknows : Knows (s.sh.store new fun n => { n with next := curr }) ns l.run) :
    Adds ns tr (s.move t (s.sh.store new fun n => { n with next := curr }) l) := by
  have hin : inside (s.loc t) := by rw [inside, ht]; trivial
  have hmine : (s.sh.node new).val = v ∧ prev = s.sh.head ∧ ∃ rest, ns = new :: rest ∧ rest.head? = curr := by
    simpa [ht, Knows] using h.knows t
  obtain ⟨-, -, rest, hns, hrest⟩ := hmine
  have hnew : new ∈ ns := by rw [hns]; exact List.mem_cons_self
  have hhead : s.sh.head ≠ new := by
    rintro he
    exact (List.nodup_cons.1 h.nodup).1 (he ▸ hnew)
  have hvals : ∀ b, ((s.sh.store new fun n => { n with next := curr }).node b).val = (s.sh.node b).val :=
    fun b => (store_next _ _ _ _).1
  have hotherOwn : ∀ u b, own (s.loc u).run = some b → b ≠ new := by
    rintro u b hb rfl
    exact (h.own_live u b hb).2 (List.mem_cons_of_mem _ hnew)
  refine ⟨s.forall_move (p := fun _ l => AddsOnly l) _ honly fun u _ => h.only u, ?_, h.nodup, h.live, ?_, ?_, ?_, ?_,
    ?_⟩
  · rw [St.move_sh, store_head, node_store_other _ _ hhead]
    exact h.mutex.stay (iff_of_true hin' hin)
  · intro pre b post hsplit
    rw [St.move_sh, store_head] at hsplit
    left
    by_cases hb : b = new
    · subst hb
      rw [St.move_sh, node_store_self]
      -- the node stands only once in the list
      have hnd := h.nodup
      rw [hns] at hsplit hnd
      rcases pre with _ | ⟨a, pre⟩
      · exact absurd (List.cons_eq_cons.1 hsplit).1 hhead
      · obtain ⟨-, hsplit⟩ := List.cons_eq_cons.1 hsplit
        rcases pre with _ | ⟨a', pre⟩
        · obtain ⟨-, rfl⟩ := List.cons_eq_cons.1 hsplit
          exact hrest.symm
        · obtain ⟨rfl, rfl⟩ := List.cons_eq_cons.1 hsplit
          exact absurd (List.mem_append_right pre List.mem_cons_self) (List.nodup_cons.1 (List.nodup_cons.1 hnd).2).1
    · rw [St.move_sh, node_store_other _ _ hb]
      rcases h.chain pre b post hsplit with hnext | ⟨-, u, w, prev', curr', hu⟩
      · exact hnext
      · obtain rfl := h.mutex.unique hin (show inside (s.loc u) by rw [inside, hu]; trivial)
        rw [ht] at hu
        cases hu
        exact absurd rfl hb
  · refine s.forall_move (p := fun _ l => ∀ b, own l.run = some b → s.sh.mem.live b = true ∧ b ∉ s.sh.head :: ns) _ ?_
      fun u _ => h.own_live u
    intro b hb
    rw [hown] at hb
    cases hb
  · intro u w b hu hw
    have hsame : ∀ u, own ((s.move t (s.sh.store new fun n => { n with next := curr }) l).loc u).run = some b →
        own (s.loc u).run = some b := by
      intro u hu
      by_cases hut : u = t
      · subst hut
        rw [St.move_loc, Function.update_self, hown] at hu
        cases hu
      · rwa [St.move_loc, Function.update_of_ne hut] at hu
    exact h.own_disj u w b (hsame u hu) (hsame w hw)
  · refine s.forall_move (p := fun _ l => Knows _ ns l.run) _ hknows fun u _ => ?_
    refine (h.knows u).congr rfl (fun b hb => ?_) fun b _ => hvals b
    rw [node_store_other _ _ (hotherOwn u b hb)]
    exact ⟨rfl, rfl⟩
  · rw [St.move_sh, List.map_congr_left fun b _ => hvals b]
    have hmove : Published (tr ++ []) (s.move t (s.sh.store new fun n => { n with next := curr }) l)
        (ns.map fun b => (s.sh.node b).val) := h.values.move (by rw [List.append_nil]) (by rw [hwait, ht]; rfl)
    rwa [List.append_nil] at hmove

/-! ## Every step -/

omit [DecidableEq T] in
theorem AddsOnly.insert (h : AddsOnly l) (q : Option InsertPc) (v : ℤ) :
    AddsOnly { l with run := q.map fun p => .op (.insert v p) } := by
  refine ⟨h.1, fun w p hp => ?_⟩
  cases q with
  | none => cases hp
  | some q => cases hp

omit [DecidableEq T] in
theorem AddsOnly.print (h : AddsOnly l) (q : Option PrintPc) : AddsOnly { l with run := q.map .print } := by
  refine ⟨h.1, fun w p hp => ?_⟩
  cases q with
  | none => cases hp
  | some q => cases hp

omit [DecidableEq T] in
theorem listEvents_append (tr es : List (Output T)) : listEvents (tr ++ es) = listEvents tr ++ listEvents es :=
  List.filterMap_append

/-- what a step does to the linked nodes -/
def Grows (ns : List Addr) (tr : List (Output T)) (x : State T) (s' : Global T) : Prop :=
  ∃ ns', ns <:+ ns' ∧ Adds ns' tr s' ∧ ∀ b ∈ ns, (s'.sh.node b).val = (x.node b).val

omit [DecidableEq T] in
theorem Adds.head_ne (h : Adds ns tr s) {b : Addr} (hb : b ∈ ns) : b ≠ s.sh.head := by
  rintro rfl
  exact (List.nodup_cons.1 h.nodup).1 hb

omit [DecidableEq T] in
/-- the head node leads to the node linked last -/
theorem Adds.first (h : Adds ns tr s) : (s.sh.node s.sh.head).next = ns.head? := by
  rcases h.chain [] s.sh.head ns rfl with hnext | ⟨-, u, v, prev, curr, hu⟩
  · exact hnext
  · have hmine : (s.sh.node s.sh.head).val = v ∧ prev = s.sh.head ∧ ∃ rest, ns = s.sh.head :: rest ∧ rest.head? = curr :=
      by simpa [hu, Knows] using h.knows u
    obtain ⟨-, -, rest, hns, -⟩ := hmine
    exact absurd rfl (h.head_ne (by rw [hns]; exact List.mem_cons_self))

omit [DecidableEq T] in
theorem Adds.stay {tr' : List (Output T)} {s' : Global T} (h : Adds ns tr' s')
    (hval : ∀ b ∈ ns, (s'.sh.node b).val = (x.node b).val) : Grows ns tr' x s' :=
  ⟨ns, List.suffix_rfl, h, hval⟩

/-- a step of `list_insert` -/
theorem insert_grows (h : Adds ns tr s) {v : ℤ} {p : InsertPc} (ht : (s.loc t).run = some (.op (.insert v p)))
    {c : Alloc (Node T)} {q : Option InsertPc} {es : List (LockCoupling.Event T)}
    (hs : listInsert t v c s.sh p = some (x, q, es))
    (hl : l = { s.loc t with run := q.map fun p => .op (.insert v p) }) :
    Grows ns (tr ++ es.map .list) s.sh (s.move t x l) := by
  have honly : AddsOnly l := by rw [hl]; exact (h.only t).insert q v
  have hnil : sequential (listEvents (tr ++ [])) = sequential (listEvents tr) := by rw [List.append_nil]
  have hk := h.knows t
  rw [ht] at hk
  cases p with
  | malloc =>
    simp only [listInsert] at hs
    split at hs
    · cases hs
    · cases hs
      refine Adds.stay (h.quiet honly ?_ ?_ ?_ ?_ ?_ ?_) fun _ _ => rfl
      · simp [inside, hl, ht]
      · simp [ht]
      · simp [hl, own]
      · simp [hl, Knows]
      · simp [listEvents, Output.event, sequential, Event.apply]
      · simp [hl, ht, waiting]
    · rename_i mem new hm
      cases hs
      obtain ⟨hdead, rfl⟩ := malloc_some hm
      have hlive : ∀ b, s.sh.mem.live b = true → b ≠ new := by
        rintro b hb rfl
        rw [hdead] at hb
        cases hb
      refine Adds.stay ?_ fun _ _ => rfl
      refine h.move honly rfl (h.mutex.stay ?_) ?_ (fun _ _ => ⟨rfl, rfl⟩) ?_ ?_ ?_ (h.values.move hnil ?_)
      · simp [inside, hl, ht]
      · intro b hb
        rw [alloc_live_other _ (hlive b hb)]
        exact hb
      · simp [ht]
      · intro b hb
        rw [hl] at hb
        obtain rfl : new = b := Option.some.inj hb
        refine ⟨by simp [alloc], fun hm => hlive new (h.live new hm) rfl, fun u _ hu => ?_⟩
        exact hlive new (h.own_live u new hu).1 rfl
      · simp [hl, Knows]
      · simp [hl, ht, waiting]
  | storeVal new =>
    cases hs
    have hne : ∀ b ∈ ns, b ≠ new := by
      rintro b hb rfl
      exact (h.own_live t b (by rw [ht]; rfl)).2 (List.mem_cons_of_mem _ hb)
    refine Adds.stay (h.write honly (.inl (by rw [ht]; rfl)) ?_ ?_ ?_ ?_ hnil ?_) fun b hb => ?_
    · simp [inside, hl, ht]
    · simp [ht]
    · simp [hl, ht, own]
    · simp [hl, Knows]
    · simp [hl, ht, waiting]
    · rw [St.move_sh, node_store_other _ _ (hne b hb)]
  | storeNull new =>
    cases hs
    refine Adds.stay (h.write honly (.inl (by rw [ht]; rfl)) ?_ ?_ ?_ ?_ hnil ?_) fun b _ => (store_next _ _ _ _).1
    · simp [inside, hl, ht]
    · simp [ht]
    · simp [hl, ht, own]
    · simpa [hl, Knows, Ready] using hk
    · simp [hl, ht, waiting]
  | mutexInit new =>
    cases hs
    refine Adds.stay (h.write honly (.inl (by rw [ht]; rfl)) ?_ ?_ ?_ ?_ hnil ?_) fun b _ => (store_mutex _ _ _ _).1
    · simp [inside, hl, ht]
    · simp [ht]
    · simp [hl, ht, own]
    · simpa [hl, Knows, Ready] using hk
    · simp [hl, ht, waiting]
  | loadHead new =>
    cases hs
    refine Adds.stay (h.quiet honly ?_ ?_ ?_ ?_ hnil ?_) fun _ _ => rfl
    · simp [inside, hl, ht]
    · simp [ht]
    · simp [hl, ht, own]
    · simpa [hl, Knows] using hk
    · simp [hl, ht, waiting]
  | lockPrev new prev =>
    obtain ⟨y, hlock, he⟩ := Option.map_eq_some_iff.1 hs
    cases he
    obtain ⟨hfree, rfl⟩ := lock_eq_some.1 hlock
    obtain ⟨-, rfl⟩ := hk
    exact (h.lockHead hfree ht (by rw [hl]; rfl) honly).stay fun b _ => (store_mutex _ _ _ _).1
  | loadCurr new prev =>
    obtain ⟨hready, rfl⟩ := hk
    have hfirst := h.first
    simp only [listInsert] at hs
    split at hs
    · rename_i curr hcurr
      cases hs
      rw [hcurr] at hfirst
      refine Adds.stay (h.quiet honly ?_ ?_ ?_ ?_ hnil ?_) fun _ _ => rfl
      · simp [inside, hl, ht]
      · simp [ht]
      · simp [hl, ht, own]
      · simpa [hl, Knows] using ⟨hready, hfirst.symm⟩
      · simp [hl, ht, waiting]
    · rename_i hcurr
      cases hs
      rw [hcurr] at hfirst
      refine Adds.stay (h.quiet honly ?_ ?_ ?_ ?_ hnil ?_) fun _ _ => rfl
      · simp [inside, hl, ht]
      · simp [ht]
      · simp [hl, ht, own]
      · simpa [hl, Knows] using ⟨hready, List.head?_eq_none_iff.1 hfirst.symm⟩
      · simp [hl, ht, waiting]
  | lockCurr new prev curr =>
    obtain ⟨y, hlock, he⟩ := Option.map_eq_some_iff.1 hs
    cases he
    obtain ⟨-, rfl⟩ := lock_eq_some.1 hlock
    obtain ⟨hready, rfl, hcurr⟩ := hk
    have hmem : curr ∈ ns := List.mem_of_head? hcurr
    have hne : new ≠ curr := by
      rintro rfl
      exact (h.own_live t new (by rw [ht]; rfl)).2 (List.mem_cons_of_mem _ hmem)
    refine Adds.stay (h.write honly (.inr ⟨fun _ => ⟨rfl, rfl⟩, hmem⟩) ?_ ?_ ?_ ?_ hnil ?_) fun b _ =>
      (store_mutex _ _ _ _).1
    · simp [inside, hl, ht]
    · simp [ht]
    · simp [hl, ht, own]
    · simpa [hl, Knows, Ready, hne] using ⟨hready, hcurr⟩
    · simp [hl, ht, waiting]
  | storePrevNext new prev curr =>
    cases hs
    obtain ⟨-, rfl, -⟩ := hk
    rw [List.map_nil, List.append_nil]
    exact ⟨new :: ns, List.suffix_cons _ _, h.storeHead ht (by rw [hl]; rfl) honly, fun b _ => (store_next _ _ _ _).1⟩
  | storeNewNext new prev curr =>
    obtain ⟨-, rfl, rest, rfl, hrest⟩ := hk
    cases curr with
    | some a =>
      cases hs
      rw [List.map_nil, List.append_nil]
      refine (h.storeRest ht honly ?_ ?_ ?_ ?_).stay fun b _ => (store_next _ _ _ _).1
      · simp [inside, hl]
      · simp [hl, own]
      · simp [hl, waiting]
      · simpa [hl, Knows] using .inr (List.mem_of_head? hrest)
    | none =>
      cases hs
      rw [List.map_nil, List.append_nil]
      refine (h.storeRest ht honly ?_ ?_ ?_ ?_).stay fun b _ => (store_next _ _ _ _).1
      · simp [inside, hl]
      · simp [hl, own]
      · simp [hl, waiting]
      · simp [hl, Knows]
  | unlockCurr prev curr =>
    cases hs
    obtain ⟨rfl, hcurr⟩ := hk
    refine Adds.stay (h.write honly (.inr ⟨fun _ => ⟨rfl, rfl⟩, hcurr⟩) ?_ ?_ ?_ ?_ hnil ?_) fun b _ =>
      (store_mutex _ _ _ _).1
    · simp [inside, hl, ht]
    · simp [ht]
    · simp [hl, ht, own]
    · simp [hl, Knows]
    · simp [hl, ht, waiting]
  | unlockPrev prev =>
    cases hs
    obtain rfl : prev = s.sh.head := hk
    rw [List.map_nil, List.append_nil]
    exact (h.unlockHead ht (by rw [hl]; rfl) honly).stay fun b _ => (store_mutex _ _ _ _).1

omit [DecidableEq T] in
/-- what is behind a linked node -/
theorem Adds.next_mem (h : Adds ns tr s) {b c : Addr} (hb : b ∈ ns) (hc : (s.sh.node b).next = some c) : c ∈ ns := by
  obtain ⟨pre, post, rfl⟩ := List.append_of_mem hb
  rcases h.chain (s.sh.head :: pre) b post rfl with hnext | ⟨hnext, -⟩
  · rw [hc] at hnext
    exact List.mem_append_right _ (List.mem_cons_of_mem _ (List.mem_of_head? hnext.symm))
  · rw [hc] at hnext
    cases hnext

/-- a step of `list_print` -/
theorem print_grows (h : Adds ns tr s) {p : PrintPc} (ht : (s.loc t).run = some (.print p)) {q : Option PrintPc}
    (hs : listPrint t s.sh p = some (x, q, es)) (hl : l = { s.loc t with run := q.map .print }) :
    Grows ns (tr ++ es) s.sh (s.move t x l) := by
  have honly : AddsOnly l := by rw [hl]; exact (h.only t).print q
  have hout : ¬ inside (s.loc t) := by simp [inside, ht]
  have hout' : ¬ inside l := by cases q <;> simp [inside, hl]
  have hown : own l.run = own (s.loc t).run := by cases q <;> simp [hl, ht, own]
  have hwait : waiting l.run = waiting (s.loc t).run := by cases q <;> simp [hl, ht, waiting]
  have hno : ∀ v new prev curr, (s.loc t).run ≠ some (.op (.insert v (.storeNewNext new prev curr))) := by simp [ht]
  have hnil : sequential (listEvents (tr ++ [])) = sequential (listEvents tr) := by rw [List.append_nil]
  have hquiet : ∀ es, sequential (listEvents (tr ++ es)) = sequential (listEvents tr) → Knows s.sh ns l.run →
      Grows ns (tr ++ es) s.sh (s.move t s.sh l) := fun es hes hknows =>
    (h.quiet honly (iff_of_false hout' hout) hno (fun b hb => by rwa [hown] at hb) hknows hes hwait).stay fun _ _ => rfl
  have hmutex : ∀ b m, b ∈ ns → Knows (s.sh.store b fun n => { n with mutex := m }) ns l.run →
      Grows ns (tr ++ []) s.sh (s.move t (s.sh.store b fun n => { n with mutex := m }) l) := fun b m hb hknows =>
    (h.write (f := fun n => { n with mutex := m }) honly (.inr ⟨fun _ => ⟨rfl, rfl⟩, hb⟩) (iff_of_false hout' hout) hno
      hown hknows hnil hwait).stay fun _ _ => (store_mutex _ _ _ _).1
  have hk := h.knows t
  rw [ht] at hk
  cases p with
  | loadHead =>
    cases hs
    exact hquiet [] hnil (by simp [hl, Knows])
  | loadFirst head =>
    cases hs
    obtain rfl : head = s.sh.head := hk
    refine hquiet [] hnil ?_
    rw [h.first] at hl
    cases hcurr : ns.head? with
    | none => simp [hl, hcurr, Knows]
    | some curr =>
      rw [hl, hcurr]
      exact List.mem_of_head? hcurr
  | lock curr =>
    obtain ⟨y, hlock, he⟩ := Option.map_eq_some_iff.1 hs
    cases he
    obtain ⟨-, rfl⟩ := lock_eq_some.1 hlock
    exact hmutex curr (some t) hk (by rw [hl]; exact hk)
  | printVal curr =>
    cases hs
    refine hquiet _ ?_ (by rw [hl]; exact hk)
    rw [listEvents_append]
    exact congrArg sequential (List.append_nil _)
  | loadNext curr =>
    cases hs
    refine hquiet [] hnil ?_
    rw [hl]
    exact ⟨hk, fun c hc => h.next_mem hk hc⟩
  | unlock temp curr =>
    cases hs
    refine hmutex temp none hk.1 ?_
    cases curr with
    | none => simp [hl, Knows]
    | some c =>
      rw [hl]
      exact hk.2 c rfl

/-- a call begins -/
theorem begin_grows (h : Adds ns tr s) (ht : (s.loc t).run = none) {call : Call} {calls : List Call}
    (htodo : (s.loc t).todo = call :: calls) :
    Grows ns (tr ++ []) s.sh (s.move t s.sh ⟨some call.begin, calls⟩) := by
  have hcall : call.adds := (h.only t).1 call (by rw [htodo]; exact List.mem_cons_self)
  have hcalls : ∀ call ∈ calls, call.adds := fun call hc =>
    (h.only t).1 call (by rw [htodo]; exact List.mem_cons_of_mem _ hc)
  refine Adds.stay (h.quiet ⟨hcalls, ?_⟩ ?_ ?_ ?_ ?_ (by rw [List.append_nil]) ?_) fun _ _ => rfl
  all_goals
    cases call with
    | print => simp [Call.begin, inside, own, Knows, waiting, ht]
    | op o =>
      cases o with
      | insert v => simp [Call.begin, Op.begin, inside, own, Knows, waiting, ht]
      | delete v => exact absurd hcall id

theorem step_grows (h : Adds ns tr s) {c : Alloc (Node T)} (hs : prog t c s.sh (s.loc t) = some (x, l, es)) :
    Grows ns (tr ++ es) s.sh (s.move t x l) := by
  simp only [prog] at hs
  split at hs
  · rename_i act ht
    obtain ⟨⟨y, q, es'⟩, hq, he⟩ := Option.map_eq_some_iff.1 hs
    cases he
    cases act with
    | op r =>
      obtain ⟨⟨y', q', es''⟩, hr, he⟩ := Option.map_eq_some_iff.1 hq
      cases he
      cases r with
      | insert v p =>
        obtain ⟨⟨z, q, es⟩, hp, he⟩ := Option.map_eq_some_iff.1 hr
        cases he
        exact insert_grows h ht hp (by rw [Option.map_map]; rfl)
      | delete v p => exact absurd ht ((h.only t).2 v p)
    | print p =>
      obtain ⟨⟨y', q', es''⟩, hr, he⟩ := Option.map_eq_some_iff.1 hq
      cases he
      exact print_grows h ht hr rfl
  · rename_i ht
    split at hs
    · cases hs
    · rename_i call calls htodo
      cases hs
      exact begin_grows h ht htodo

omit [DecidableEq T] in
theorem adds_start (cell : Addr → Node T) (a : Addr) {calls : T → List Call} (hadds : ∀ t, ∀ call ∈ calls t, call.adds) :
    Adds [] [] (start cell a calls) where
  only t := ⟨hadds t, fun v p hp => by cases hp⟩
  mutex := by
    refine (show ((start cell a calls).sh.node a).mutex = none from ?_) ▸ Guards.start fun _ => id
    simp [start, listInit, State.node]
  nodup := List.nodup_singleton _
  live b hb := by
    obtain rfl := List.mem_singleton.1 hb
    simp [start, listInit, alloc]
  chain pre b post hsplit := by
    obtain ⟨rfl, hb, rfl⟩ : pre = [] ∧ b = a ∧ post = [] := by
      rcases pre with _ | ⟨a', pre⟩
      · simpa [start, listInit, eq_comm] using hsplit
      · simp at hsplit
    subst hb
    exact .inl (by simp [start, listInit, State.node])
  own_live t b hb := by cases hb
  own_disj t u b hb := by cases hb
  knows t := trivial
  values := .inr ⟨fun t => rfl, rfl⟩

/-- the linked nodes in every reachable state -/
theorem run_adds {cell : Addr → Node T} {a : Addr} {calls : T → List Call} {as : List (T × Alloc (Node T))}
    (hadds : ∀ t, ∀ call ∈ calls t, call.adds) (h : Run prog (start cell a calls) as tr s) : ∃ ns, Adds ns tr s := by
  refine h.inv_trace (I := fun tr s => ∃ ns, Adds ns tr s) ⟨[], adds_start cell a hadds⟩ ?_
  rintro tr s t c x l es ⟨ns, hi⟩ hs
  obtain ⟨ns', -, hi', -⟩ := step_grows hi hs
  exact ⟨ns', hi'⟩

/-! ## One `list_print` -/

/-- where a `list_print` is that goes along the nodes `ns` and has printed `ps` -/
def Shows (x : State T) (ns : List Addr) (ps : List ℤ) : Option PrintPc → Prop
  | some (.lock curr) => ∃ pre post, ns = pre ++ curr :: post ∧ ps = pre.map fun b => (x.node b).val
  | some (.printVal curr) => ∃ pre post, ns = pre ++ curr :: post ∧ ps = pre.map fun b => (x.node b).val
  | some (.loadNext curr) => ∃ pre post, ns = pre ++ curr :: post ∧ ps = (pre ++ [curr]).map fun b => (x.node b).val
  | some (.unlock _ (some curr)) => ∃ pre post, ns = pre ++ curr :: post ∧ ps = pre.map fun b => (x.node b).val
  | some (.unlock _ none) => ps = ns.map fun b => (x.node b).val
  | none => ps = ns.map fun b => (x.node b).val
  | _ => False

/-- a moment of the run from `s₁` that has made the steps `as`, has emitted `tr` and is now in `s` -/
def Within (s₁ : Global T) (as : List (T × Alloc (Node T))) (tr : List (Output T)) (s : Global T)
    (p : List (Output T) → Global T → Prop) : Prop :=
  ∃ bs es s' cs fs, Run prog s₁ bs es s' ∧ Run prog s' cs fs s ∧ bs ++ cs = as ∧ es ++ fs = tr ∧ p es s'

/-- how far the call of thread `t` is that has begun in `s₁` -/
inductive Printing (s₁ : Global T) (tr₁ : List (Output T)) (t : T) (ns : List Addr) (as : List (T × Alloc (Node T)))
    (tr : List (Output T)) (s : Global T) : Prop where
  | before (hrun : (s.loc t).run = some (.print .loadHead) ∨ ∃ head, (s.loc t).run = some (.print (.loadFirst head)))
      (htodo : (s.loc t).todo = (s₁.loc t).todo) (hps : printedBy t tr = [])
  | going (p : Option PrintPc) (hrun : (s.loc t).run = p.map .print) (htodo : (s.loc t).todo = (s₁.loc t).todo)
      (seen : List Addr) (hseen : seen <:+ ns) (hps : Shows s.sh seen (printedBy t tr) p)
      (hmoment : Within s₁ as tr s fun es s' => Published (tr₁ ++ es) s' (seen.map fun b => (s.sh.node b).val))
  | cut (hrun : (s.loc t).run = none ∨ ∃ temp, (s.loc t).run = some (.print (.unlock temp none)))
      (htodo : (s.loc t).todo = (s₁.loc t).todo) (v : ℤ) (hps : printedBy t tr = [v])
      (hmoment : Within s₁ as tr s fun _ s' => BetweenStores s' v)
  | after (htodo : (s.loc t).todo.length < (s₁.loc t).todo.length)

variable {s₁ : Global T} {tr₁ : List (Output T)} {u : T} {c : Alloc (Node T)}

omit [DecidableEq T] in
theorem Shows.congr {ps : List ℤ} {p : Option PrintPc} (h : Shows x ns ps p)
    (hval : ∀ b ∈ ns, (x'.node b).val = (x.node b).val) : Shows x' ns ps p := by
  have hmap : ∀ pre : List Addr, (∀ b ∈ pre, b ∈ ns) →
      (pre.map fun b => (x'.node b).val) = pre.map fun b => (x.node b).val :=
    fun pre hpre => List.map_congr_left fun b hb => hval b (hpre b hb)
  have hinit : ∀ {pre post : List Addr} {curr : Addr}, ns = pre ++ curr :: post → ∀ b ∈ pre, b ∈ ns := by
    rintro pre post curr rfl b hb
    exact List.mem_append_left _ hb
  rcases p with _ | p
  · exact Eq.trans h (hmap ns fun _ hb => hb).symm
  · cases p with
    | loadHead | loadFirst head => exact h
    | lock curr | printVal curr =>
      obtain ⟨pre, post, hns, hps⟩ := h
      exact ⟨pre, post, hns, hps.trans (hmap pre (hinit hns)).symm⟩
    | loadNext curr =>
      obtain ⟨pre, post, hns, hps⟩ := h
      refine ⟨pre, post, hns, hps.trans (hmap _ fun b hb => ?_).symm⟩
      rw [hns]
      rcases List.mem_append.1 hb with hb | hb
      · exact List.mem_append_left _ hb
      · rw [List.mem_singleton.1 hb]
        simp
    | unlock temp curr =>
      cases curr with
      | none => exact Eq.trans h (hmap ns fun _ hb => hb).symm
      | some curr =>
        obtain ⟨pre, post, hns, hps⟩ := h
        exact ⟨pre, post, hns, hps.trans (hmap pre (hinit hns)).symm⟩

theorem Within.now {p : List (Output T) → Global T → Prop} {as : List (T × Alloc (Node T))}
    (h : Run prog s₁ as tr s) (hp : p tr s) : Within s₁ as tr s p :=
  ⟨as, tr, s, [], [], h, .nil, List.append_nil as, List.append_nil tr, hp⟩

theorem Within.step {p : List (Output T) → Global T → Prop} {as : List (T × Alloc (Node T))} (h : Within s₁ as tr s p)
    (hs : prog u c s.sh (s.loc u) = some (x, l, es)) : Within s₁ (as ++ [(u, c)]) (tr ++ es) (s.move u x l) p := by
  obtain ⟨bs, es', s', cs, fs, h1, h2, rfl, rfl, hp⟩ := h
  exact ⟨bs, es', s', _, _, h1, h2.snoc hs, (List.append_assoc _ _ _).symm, (List.append_assoc _ _ _).symm, hp⟩

theorem printedBy_append (t : T) (tr es : List (Output T)) : printedBy t (tr ++ es) = printedBy t tr ++ printedBy t es :=
  List.filterMap_append

/-- a thread prints only for itself -/
theorem printedBy_other (hut : u ≠ t) {lc : Local} (hs : prog u c x lc = some (x', l, es)) : printedBy t es = [] := by
  simp only [prog] at hs
  split at hs
  · rename_i act ht
    obtain ⟨⟨y, q, es'⟩, hq, he⟩ := Option.map_eq_some_iff.1 hs
    cases he
    cases act with
    | op r =>
      obtain ⟨⟨y', q', es''⟩, -, he⟩ := Option.map_eq_some_iff.1 hq
      cases he
      simp [printedBy, Output.valueFor]
    | print p =>
      obtain ⟨⟨y', q', es''⟩, hr, he⟩ := Option.map_eq_some_iff.1 hq
      cases he
      cases p with
      | lock curr =>
        obtain ⟨z, -, he⟩ := Option.map_eq_some_iff.1 hr
        cases he
        rfl
      | printVal curr =>
        cases hr
        simp [printedBy, Output.valueFor, hut]
      | _ => cases hr; rfl
  · split at hs
    · cases hs
    · cases hs
      rfl

omit [DecidableEq T] in
theorem todo_le {lc : Local} (hs : prog u c x lc = some (x', l, es)) : l.todo.length ≤ lc.todo.length := by
  simp only [prog] at hs
  split at hs
  · obtain ⟨q, -, he⟩ := Option.map_eq_some_iff.1 hs
    cases he
    exact le_rfl
  · rename_i hrun
    split at hs
    · cases hs
    · rename_i call calls htodo
      cases hs
      rw [htodo]
      exact Nat.le_succ _

omit [DecidableEq T] in
theorem todo_lt {lc : Local} (hrun : lc.run = none) (hs : prog u c x lc = some (x', l, es)) :
    l.todo.length < lc.todo.length := by
  simp only [prog, hrun] at hs
  split at hs
  · cases hs
  · rename_i call calls htodo
    cases hs
    rw [htodo]
    exact Nat.lt_succ_self _

omit [DecidableEq T] in
theorem prog_print {lc : Local} {p : PrintPc} (hrun : lc.run = some (.print p))
    (hs : prog u c x lc = some (x', l, es)) :
    ∃ q, listPrint u x p = some (x', q, es) ∧ l = { lc with run := q.map .print } := by
  simp only [prog, hrun] at hs
  obtain ⟨⟨y, q, es'⟩, hq, he⟩ := Option.map_eq_some_iff.1 hs
  cases he
  obtain ⟨⟨y', q', es''⟩, hr, he⟩ := Option.map_eq_some_iff.1 hq
  cases he
  exact ⟨q', hr, rfl⟩

/-- the step of another thread -/
theorem Printing.other {as : List (T × Alloc (Node T))} (h : Printing s₁ tr₁ t ns as tr s) (hut : u ≠ t)
    (hs : prog u c s.sh (s.loc u) = some (x, l, es)) {ns' : List Addr} (hns : ns <:+ ns')
    (hval : ∀ b ∈ ns, (x.node b).val = (s.sh.node b).val) :
    Printing s₁ tr₁ t ns' (as ++ [(u, c)]) (tr ++ es) (s.move u x l) := by
  have hloc : (s.move u x l).loc t = s.loc t := by rw [St.move_loc, Function.update_of_ne hut.symm]
  have hps : printedBy t (tr ++ es) = printedBy t tr := by
    rw [printedBy_append, printedBy_other hut hs, List.append_nil]
  cases h with
  | before hrun htodo hnone => exact .before (by rwa [hloc]) (by rwa [hloc]) (by rwa [hps])
  | going p hrun htodo seen hseen hshows hmoment =>
    have hval' : ∀ b ∈ seen, (x.node b).val = (s.sh.node b).val := fun b hb => hval b (hseen.subset hb)
    refine .going p (by rwa [hloc]) (by rwa [hloc]) seen (hseen.trans hns) ?_ ?_
    · rw [hps]
      exact hshows.congr hval'
    · rw [St.move_sh, List.map_congr_left hval']
      exact hmoment.step hs
  | cut hrun htodo v hone hmoment => exact .cut (by rwa [hloc]) (by rwa [hloc]) v (by rwa [hps]) (hmoment.step hs)
  | after htodo => exact .after (by rwa [hloc])

omit [DecidableEq T] in
/-- what the node at `curr` leads to, for a `list_print` that goes along the end `seen` of the linked nodes -/
theorem Adds.behind (h : Adds ns tr s) {seen pre post : List Addr} {curr : Addr} (hseen : seen <:+ ns)
    (hsplit : seen = pre ++ curr :: post) :
    (s.sh.node curr).next = post.head? ∨
      (s.sh.node curr).next = none ∧ pre = [] ∧ BetweenStores s (s.sh.node curr).val := by
  obtain ⟨before, rfl⟩ := hseen
  subst hsplit
  rcases h.chain (s.sh.head :: (before ++ pre)) curr post (by simp) with hnext | ⟨hnext, w, v, prev, next, hw⟩
  · exact .inl hnext
  · -- the node is the one linked last, so nothing stands before it
    have hmine : (s.sh.node curr).val = v ∧ prev = s.sh.head ∧
        ∃ rest, before ++ (pre ++ curr :: post) = curr :: rest ∧ rest.head? = next := by
      simpa [hw, Knows] using h.knows w
    obtain ⟨hval, -, rest, hfirst, -⟩ := hmine
    have hnd := (List.nodup_cons.1 h.nodup).2
    refine .inr ⟨hnext, ?_, w, curr, prev, next, by rw [hval]; exact hw⟩
    rcases before with _ | ⟨b, before⟩
    · rcases pre with _ | ⟨b, pre⟩
      · rfl
      · obtain ⟨rfl, -⟩ := List.cons_eq_cons.1 hfirst
        exact absurd hnd (by simp)
    · obtain ⟨rfl, -⟩ := List.cons_eq_cons.1 hfirst
      exact absurd hnd (by simp)

/-- the step of the thread itself, once it has read the head -/
theorem Printing.going_step {as : List (T × Alloc (Node T))} (hadds : Adds ns (tr₁ ++ tr) s)
    (hstart : Run prog s₁ as tr s) (hs : prog t c s.sh (s.loc t) = some (x, l, es)) {ns' : List Addr}
    (hns : ns <:+ ns') (hval : ∀ b ∈ ns, (x.node b).val = (s.sh.node b).val) {p : Option PrintPc}
    (hrun : (s.loc t).run = p.map .print) (htodo : (s.loc t).todo = (s₁.loc t).todo) {seen : List Addr}
    (hseen : seen <:+ ns) (hshows : Shows s.sh seen (printedBy t tr) p)
    (hmoment : Within s₁ as tr s fun es s' => Published (tr₁ ++ es) s' (seen.map fun b => (s.sh.node b).val)) :
    Printing s₁ tr₁ t ns' (as ++ [(t, c)]) (tr ++ es) (s.move t x l) := by
  have hloc : (s.move t x l).loc t = l := by rw [St.move_loc, Function.update_self]
  have hval' : ∀ b ∈ seen, (x.node b).val = (s.sh.node b).val := fun b hb => hval b (hseen.subset hb)
  have hmoment' : Within s₁ (as ++ [(t, c)]) (tr ++ es) (s.move t x l) fun es s' =>
      Published (tr₁ ++ es) s' (seen.map fun b => ((s.move t x l).sh.node b).val) := by
    rw [St.move_sh, List.map_congr_left hval']
    exact hmoment.step hs
  have hgoing : ∀ q, l = { s.loc t with run := q.map .print } → Shows s.sh seen (printedBy t (tr ++ es)) q →
      Printing s₁ tr₁ t ns' (as ++ [(t, c)]) (tr ++ es) (s.move t x l) := by
    intro q hl hq
    refine .going q ?_ ?_ seen (hseen.trans hns) (hq.congr hval') hmoment'
    · rw [hloc, hl]
    · rw [hloc, hl]
      exact htodo
  cases p with
  | none =>
    refine .after ?_
    rw [hloc, ← htodo]
    exact todo_lt hrun hs
  | some p =>
    obtain ⟨q, hq, hl⟩ := prog_print hrun hs
    cases p with
    | loadHead | loadFirst head => exact hshows.elim
    | lock curr =>
      obtain ⟨y, -, he⟩ := Option.map_eq_some_iff.1 hq
      cases he
      refine hgoing _ hl ?_
      rw [List.append_nil]
      exact hshows
    | printVal curr =>
      cases hq
      obtain ⟨pre, post, hsplit, hps⟩ := hshows
      refine hgoing _ hl ⟨pre, post, hsplit, ?_⟩
      rw [printedBy_append, hps, List.map_append]
      simp [printedBy, Output.valueFor]
    | loadNext curr =>
      cases hq
      obtain ⟨pre, post, hsplit, hps⟩ := hshows
      rw [List.append_nil] at hgoing ⊢
      rcases hadds.behind hseen hsplit with hnext | ⟨hnext, rfl, hbetween⟩
      · refine hgoing _ hl ?_
        rw [hnext]
        cases post with
        | nil =>
          rw [hsplit]
          exact hps
        | cons c post => exact ⟨pre ++ [curr], post, by rw [hsplit, List.append_assoc]; rfl, hps⟩
      · -- the rest of the list is not there yet
        rw [hnext] at hl
        have hcut := Within.step (p := fun _ s' => BetweenStores s' (s.sh.node curr).val) (.now hstart hbetween) hs
        rw [List.append_nil] at hcut
        refine .cut (.inr ⟨curr, by rw [hloc, hl]; rfl⟩) (by rw [hloc, hl]; exact htodo) _ hps hcut
    | unlock temp curr =>
      cases hq
      refine hgoing (curr.map .lock) hl ?_
      rw [List.append_nil]
      cases curr with
      | none => exact hshows
      | some curr => exact hshows

/-- the step of the thread itself -/
theorem Printing.self {as : List (T × Alloc (Node T))} (h : Printing s₁ tr₁ t ns as tr s) (hadds : Adds ns (tr₁ ++ tr) s)
    (hstart : Run prog s₁ as tr s) (hs : prog t c s.sh (s.loc t) = some (x, l, es)) {ns' : List Addr}
    (hns : ns <:+ ns') (hval : ∀ b ∈ ns, (x.node b).val = (s.sh.node b).val) :
    Printing s₁ tr₁ t ns' (as ++ [(t, c)]) (tr ++ es) (s.move t x l) := by
  have hloc : (s.move t x l).loc t = l := by rw [St.move_loc, Function.update_self]
  cases h with
  | before hrun htodo hnone =>
    rcases hrun with hrun | ⟨head, hrun⟩
    · obtain ⟨q, hq, rfl⟩ := prog_print hrun hs
      cases hq
      refine .before (.inr ⟨_, by rw [hloc]; rfl⟩) (by rw [hloc]; exact htodo) ?_
      rw [List.append_nil]
      exact hnone
    · -- the moment at which the list is read is this one
      have hhead : head = s.sh.head := by simpa [hrun, Knows] using hadds.knows t
      subst hhead
      obtain ⟨q, hq, rfl⟩ := prog_print hrun hs
      cases hq
      rw [hadds.first] at hs hloc ⊢
      refine .going (ns.head?.map .lock) (by rw [hloc]) (by rw [hloc]; exact htodo) ns hns ?_
        ((Within.now hstart hadds.values).step hs)
      rw [List.append_nil, hnone]
      cases ns with
      | nil => rfl
      | cons b ns => exact ⟨[], ns, rfl, rfl⟩
  | going p hrun htodo seen hseen hshows hmoment =>
    exact going_step hadds hstart hs hns hval hrun htodo hseen hshows hmoment
  | cut hrun htodo v hone hmoment =>
    rcases hrun with hrun | ⟨temp, hrun⟩
    · refine .after ?_
      rw [hloc, ← htodo]
      exact todo_lt hrun hs
    · have hmoment' := hmoment.step hs
      obtain ⟨q, hq, rfl⟩ := prog_print hrun hs
      cases hq
      refine .cut (.inl (by rw [hloc]; rfl)) (by rw [hloc]; exact htodo) v ?_ hmoment'
      rw [List.append_nil]
      exact hone
  | after htodo =>
    refine .after ?_
    rw [hloc]
    exact (todo_le hs).trans_lt htodo

theorem run_printing {cell : Addr → Node T} {a : Addr} {calls : T → List Call} {as₁ as : List (T × Alloc (Node T))}
    (hadds : ∀ t, ∀ call ∈ calls t, call.adds) (h₁ : Run prog (start cell a calls) as₁ tr₁ s₁)
    (hbegin : (s₁.loc t).run = some (.print .loadHead)) (h : Run prog s₁ as tr s) :
    ∃ ns, Adds ns (tr₁ ++ tr) s ∧ Printing s₁ tr₁ t ns as tr s := by
  induction h with
  | nil =>
    obtain ⟨ns, hi⟩ := run_adds hadds h₁
    rw [List.append_nil]
    exact ⟨ns, hi, .before (.inl hbegin) rfl rfl⟩
  | @snoc as tr s h u c x l es hs ih =>
    obtain ⟨ns, hi, hp⟩ := ih
    obtain ⟨ns', hns, hi', hval⟩ := step_grows hi hs
    rw [List.append_assoc] at hi'
    refine ⟨ns', hi', ?_⟩
    by_cases hut : u = t
    · subst hut
      exact hp.self hi h hs hns hval
    · exact hp.other hut hs hns hval

/-- **What `list_print` prints beside inserts.** For any number of threads that run `list_insert` and `list_print` in
any order of their steps, a `list_print` that begins in `s₁` and has ended in `s₂` has printed exactly the values that
are linked at some moment in between, or a single value, that of an insert which is between its two stores at some
moment in between. -/
theorem print_snapshot {cell : Addr → Node T} {a : Addr} {calls : T → List Call} {as₁ as₂ : List (T × Alloc (Node T))}
    {tr₂ : List (Output T)} {s₂ : Global T} (hadds : ∀ t, ∀ call ∈ calls t, call.adds)
    (h₁ : Run prog (start cell a calls) as₁ tr₁ s₁) (hbegin : (s₁.loc t).run = some (.print .loadHead))
    (h₂ : Run prog s₁ as₂ tr₂ s₂) (hend : s₂.loc t = { s₁.loc t with run := none }) :
    Within s₁ as₂ tr₂ s₂ (fun es s => Published (tr₁ ++ es) s (printedBy t tr₂)) ∨
      ∃ v, printedBy t tr₂ = [v] ∧ Within s₁ as₂ tr₂ s₂ fun _ s => BetweenStores s v := by
  obtain ⟨ns, -, hp⟩ := run_printing hadds h₁ hbegin h₂
  have hrun : (s₂.loc t).run = none := by rw [hend]
  have htodo : (s₂.loc t).todo = (s₁.loc t).todo := by rw [hend]
  cases hp with
  | before hbefore =>
    rw [hrun] at hbefore
    rcases hbefore with hbefore | ⟨head, hbefore⟩ <;> cases hbefore
  | going p hp _ seen _ hshows hmoment =>
    cases p with
    | some p =>
      rw [hrun] at hp
      cases hp
    | none =>
      have hps : printedBy t tr₂ = seen.map fun b => (s₂.sh.node b).val := hshows
      rw [← hps] at hmoment
      exact .inl hmoment
  | cut _ _ v hone hmoment => exact .inr ⟨v, hone, hmoment⟩
  | after hless =>
    rw [htodo] at hless
    exact absurd hless (lt_irrefl _)

/-- a `list_print` that begins when 5 is linked and 7 is between the two stores: it prints only 7 -/
theorem print_snapshot_two :
    ∃ as₁ tr₁ s₁ as₂ tr₂ s₂,
      Run prog (start (fun _ => ⟨none, 0, none⟩) 0
        fun t : Fin 2 => if t = 0 then [.op (.insert 5), .op (.insert 7)] else [.print]) as₁ tr₁ s₁ ∧
      Run prog s₁ as₂ tr₂ s₂ ∧ Published tr₁ s₁ [7, 5] ∧ printedBy 1 tr₂ = [7] ∧
      (Within s₁ as₂ tr₂ s₂ (fun es s => Published (tr₁ ++ es) s (printedBy 1 tr₂)) ∨
        ∃ v, printedBy 1 tr₂ = [v] ∧ Within s₁ as₂ tr₂ s₂ fun _ s => BetweenStores s v) := by
  let begins : Fin 2 → List Call := fun t => if t = 0 then [.op (.insert 5), .op (.insert 7)] else [.print]
  have hadds : ∀ t, ∀ call ∈ begins t, call.adds := by
    intro t call hcall
    by_cases ht : t = 0
    · simp only [begins, ht, if_true, List.mem_cons, List.not_mem_nil, or_false] at hcall
      rcases hcall with rfl | rfl <;> trivial
    · simp only [begins, ht, if_false, List.mem_singleton] at hcall
      rw [hcall]
      trivial
  obtain ⟨s₁, tr₁, h₁, hbegin, hseq, hnone, hexec⟩ := exec_any_run prog (start (fun _ => ⟨none, 0, none⟩) 0 begins)
    (List.replicate 11 (0, answer 1) ++ List.replicate 10 (0, answer 2) ++ [(1, answer 0)])
    (fun s tr => (s.loc 1).run = some (.print .loadHead) ∧ sequential (listEvents tr) = [7, 5] ∧
      (∀ t, waiting (s.loc t).run = none) ∧
      ((exec prog s (List.replicate 6 (1, answer 0))).any fun r =>
        decide (r.1.loc 1 = { s.loc 1 with run := none } ∧ printedBy 1 r.2 = [7])) = true)
    (by decide +kernel)
  obtain ⟨s₂, tr₂, h₂, hend, hps⟩ := exec_any_run prog s₁ (List.replicate 6 (1, answer 0))
    (fun s tr => s.loc 1 = { s₁.loc 1 with run := none } ∧ printedBy 1 tr = [7]) hexec
  exact ⟨_, tr₁, s₁, _, tr₂, s₂, h₁, h₂, .inr ⟨hnone, hseq⟩, hps, print_snapshot hadds h₁ hbegin h₂ hend⟩

end OsPractice.LockCouplingPrint
