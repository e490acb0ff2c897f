/-
The invariant of the list with hand-over-hand locking.

A delete that has passed some nodes has acted on the values before its position and not on those behind it. The
invariant sees it as an operation pending at the node whose lock it keeps (`pending`), and an insert that has not yet
linked its node as one pending at the head node. What the list resolves to when all pending operations have acted is at
any time the result of the sequential run of the operations in the order of their locks on the head node
(`Inv.content`).

Results:
- `Inv.step`: a step keeps the invariant if it changes only nodes that no other operation uses and establishes what the
  invariant says about these and about the operation itself (`StepOk`);
- `Inv.repend`, `Inv.relock`, `Inv.privately`: the steps that leave the chain as it is, by what they touch;
- `Inv.linkPrev`, `Inv.linkNew`, `Inv.unlinkCurr`: the three writes that change the chain.
-/
import OsPractice.Core.PendingList
import OsPractice.Concurrency.LockCoupling

namespace OsPractice.LockCoupling

open Interleave Heap PendingList

variable {T : Type}

/-! ## What an operation in progress holds -/

/-- the nodes whose mutexes it has locked -/
def holds : Option Running → List Addr
  | some (.insert _ (.loadCurr _ prev)) => [prev]
  | some (.insert _ (.lockCurr _ prev _)) => [prev]
  | some (.insert _ (.storePrevNext _ prev curr)) => prev :: curr.toList
  | some (.insert _ (.storeNewNext _ prev curr)) => prev :: curr.toList
  | some (.insert _ (.unlockCurr prev curr)) => [prev, curr]
  | some (.insert _ (.unlockPrev prev)) => [prev]
  | some (.delete _ (.loadCurr prev)) => [prev]
  | some (.delete _ (.lockCurr prev _)) => [prev]
  | some (.delete _ (.testVal prev curr)) => [prev, curr]
  | some (.delete _ (.loadNext prev curr)) => [prev, curr]
  | some (.delete _ (.storePrevNext prev curr _)) => [prev, curr]
  | some (.delete _ (.unlockPrev prev curr)) => [prev, curr]
  | some (.delete _ (.destroy curr)) => [curr]
  | some (.delete _ (.free curr)) => [curr]
  | some (.delete _ (.passPrev prev curr)) => [prev, curr]
  | some (.delete _ (.unlockEnd prev)) => [prev]
  | _ => []

/-- the node that it alone can reach: not yet linked, or no longer -/
def mine : Option Running → Option Addr
  | some (.insert _ (.storeVal new)) => some new
  | some (.insert _ (.storeNull new)) => some new
  | some (.insert _ (.mutexInit new)) => some new
  | some (.insert _ (.loadHead new)) => some new
  | some (.insert _ (.lockPrev new _)) => some new
  | some (.insert _ (.loadCurr new _)) => some new
  | some (.insert _ (.lockCurr new _ _)) => some new
  | some (.insert _ (.storePrevNext new _ _)) => some new
  | some (.insert _ (.storeNewNext new _ _)) => some new
  | some (.delete _ (.unlockPrev _ curr)) => some curr
  | some (.delete _ (.destroy curr)) => some curr
  | some (.delete _ (.free curr)) => some curr
  | _ => none

/-- the node behind which it has still to act -/
def pending : Option Running → Option (Addr × Op)
  | some (.insert v (.loadCurr _ prev)) => some (prev, .insert v)
  | some (.insert v (.lockCurr _ prev _)) => some (prev, .insert v)
  | some (.insert v (.storePrevNext _ prev _)) => some (prev, .insert v)
  | some (.insert v (.storeNewNext _ prev _)) => some (prev, .insert v)
  | some (.delete v (.loadCurr prev)) => some (prev, .delete v)
  | some (.delete v (.lockCurr prev _)) => some (prev, .delete v)
  | some (.delete v (.testVal prev _)) => some (prev, .delete v)
  | some (.delete v (.loadNext prev _)) => some (prev, .delete v)
  | some (.delete v (.storePrevNext prev _ _)) => some (prev, .delete v)
  | some (.delete v (.passPrev _ curr)) => some (curr, .delete v)
  | _ => none

/-- the node whose `next` is already the new node, which does not yet lead on to the rest -/
def linking : Option Running → Option Addr
  | some (.insert _ (.storeNewNext _ prev _)) => some prev
  | _ => none

/-- the node off the chain that a pointer from the chain leads to, or has led to: not yet quite linked, or unlinked -/
def visible : Option Running → Option Addr
  | some (.insert _ (.storeNewNext new _ _)) => some new
  | some (.delete _ (.unlockPrev _ curr)) => some curr
  | some (.delete _ (.destroy curr)) => some curr
  | some (.delete _ (.free curr)) => some curr
  | _ => none

/-- the node that the next step frees -/
def freeing : Option Running → Option Addr
  | some (.delete _ (.free curr)) => some curr
  | _ => none

/-- the chain from the head node as the operations see it: its nodes, their successors, what is pending at them -/
structure Ghost where
  nodes : List Addr
  nxt : Addr → Option Addr
  pend : Addr → Option Op

/-- what the local variables of an operation say -/
def Facts (g : Ghost) (x : State T) : Option Running → Prop
  | some (.insert v (.storeNull new)) => (x.node new).val = v
  | some (.insert v (.mutexInit new)) => (x.node new).val = v
  | some (.insert v (.loadHead new)) => (x.node new).val = v ∧ (x.node new).mutex = none
  | some (.insert v (.lockPrev new prev)) => (x.node new).val = v ∧ (x.node new).mutex = none ∧ prev = x.head
  | some (.insert v (.loadCurr new prev)) => (x.node new).val = v ∧ (x.node new).mutex = none ∧ prev = x.head
  | some (.insert v (.lockCurr new prev curr)) =>
    (x.node new).val = v ∧ (x.node new).mutex = none ∧ prev = x.head ∧ g.nxt prev = some curr
  | some (.insert v (.storePrevNext new prev curr)) =>
    (x.node new).val = v ∧ (x.node new).mutex = none ∧ prev = x.head ∧ g.nxt prev = curr
  | some (.insert v (.storeNewNext new prev curr)) =>
    (x.node new).val = v ∧ (x.node new).mutex = none ∧ prev = x.head ∧ g.nxt prev = curr ∧
      (x.node prev).next = some new
  | some (.insert _ (.unlockCurr prev curr)) => prev ∈ g.nodes ∧ curr ∈ g.nodes ∧ curr ≠ prev
  | some (.insert _ (.unlockPrev prev)) => prev ∈ g.nodes
  | some (.delete _ (.lockPrev prev)) => prev = x.head
  | some (.delete _ (.loadCurr prev)) => prev ∈ g.nodes
  | some (.delete _ (.lockCurr prev curr)) => prev ∈ g.nodes ∧ g.nxt prev = some curr
  | some (.delete _ (.testVal prev curr)) => prev ∈ g.nodes ∧ g.nxt prev = some curr
  | some (.delete v (.loadNext prev curr)) => prev ∈ g.nodes ∧ g.nxt prev = some curr ∧ (x.node curr).val = v
  | some (.delete v (.storePrevNext prev curr next)) =>
    prev ∈ g.nodes ∧ g.nxt prev = some curr ∧ (x.node curr).val = v ∧ g.nxt curr = next
  | some (.delete _ (.unlockPrev prev _)) => prev ∈ g.nodes
  | some (.delete _ (.passPrev prev curr)) => prev ∈ g.nodes ∧ g.nxt prev = some curr
  | some (.delete _ (.unlockEnd prev)) => prev ∈ g.nodes
  | _ => True

/-- the invariant, with `vs` the result of the sequential run so far -/
structure Inv (g : Ghost) (vs : List ℤ) (x : State T) (rs : T → Option Running) : Prop where
  chain : Chain g.nxt (some x.head) g.nodes
  live : ∀ a ∈ g.nodes, x.mem.live a = true
  real : ∀ a ∈ g.nodes, g.nxt a = (x.node a).next ∨ ∃ t, linking (rs t) = some a
  locked : ∀ t, ∀ a ∈ holds (rs t), (x.node a).mutex = some t
  owned : ∀ a ∈ g.nodes, ∀ t, (x.node a).mutex = some t → a ∈ holds (rs t)
  pend : ∀ a op, g.pend a = some op ↔ ∃ t, pending (rs t) = some (a, op)
  priv : ∀ t a, mine (rs t) = some a → x.mem.live a = true ∧ a ∉ g.nodes
  disj : ∀ t u a, mine (rs t) = some a → mine (rs u) = some a → t = u
  facts : ∀ t, Facts g x (rs t)
  content : resolve Op.apply g.pend (fun a => (x.node a).val) g.nodes = (x.node x.head).val :: vs

/-- what a step from `r₀` to `r` does with the nodes that others may have a pointer to: only `free` takes one away -/
def Keeps (g g' : Ghost) (r₀ r : Option Running) : Prop :=
  ∀ a, a ∈ g.nodes ∨ visible r₀ = some a → a ∈ g'.nodes ∨ visible r = some a ∨ freeing r₀ = some a

theorem Keeps.same {g g' : Ghost} {r₀ r : Option Running} (hn : g'.nodes = g.nodes) (hv : visible r = visible r₀) :
    Keeps g g' r₀ r := by
  intro a ha
  rw [hn, hv]
  exact ha.imp_right .inl

/-! ## Simple consequences -/

theorem mine_of_visible {r : Option Running} {a : Addr} (h : visible r = some a) : mine r = some a := by
  rcases r with _ | ⟨v, p⟩ | ⟨v, p⟩
  · cases h
  · cases p <;> first | exact h | cases h
  · cases p <;> exact h

theorem holds_of_pending {r : Option Running} {a : Addr} {op : Op} (h : pending r = some (a, op)) : a ∈ holds r := by
  rcases r with _ | ⟨v, p⟩ | ⟨v, p⟩
  · cases h
  · cases p <;> simp_all [pending, holds]
  · cases p <;> simp_all [pending, holds]

theorem holds_of_linking {r : Option Running} {a : Addr} (h : linking r = some a) : a ∈ holds r := by
  rcases r with _ | ⟨v, p⟩ | ⟨v, p⟩
  · cases h
  · cases p <;> simp_all [linking, holds]
  · cases h

section

variable {g g' : Ghost} {vs vs' : List ℤ} {x x' : State T} {rs : T → Option Running} {t : T} {r₀ r : Option Running}
  {a : Addr}

theorem Inv.nodes_eq (h : Inv g vs x rs) : ∃ L, g.nodes = x.head :: L := by
  have hc := h.chain
  cases hn : g.nodes with
  | nil => rw [hn] at hc; exact absurd hc (by simp [Chain])
  | cons b L =>
    rw [hn] at hc
    exact ⟨L, by rw [Option.some.inj hc.1]⟩

theorem Inv.head_mem (h : Inv g vs x rs) : x.head ∈ g.nodes := by
  obtain ⟨L, hL⟩ := h.nodes_eq
  simp [hL]

/-- a locked node is on the chain, or a node of the operation itself -/
theorem Inv.mem_of_holds (h : Inv g vs x rs) (ha : a ∈ holds (rs t)) : a ∈ g.nodes ∨ mine (rs t) = some a := by
  have hf := h.facts t
  have hnext : ∀ p c, p ∈ g.nodes → g.nxt p = some c → c ∈ g.nodes := fun p c => h.chain.mem_next
  have hhead := h.head_mem
  generalize rs t = r at ha hf
  rcases r with _ | ⟨v, p⟩ | ⟨v, p⟩
  · simp [holds] at ha
  · cases p <;>
      simp only [holds, Facts, mine, List.mem_cons, List.not_mem_nil, or_false, Option.mem_toList] at ha hf ⊢ <;> grind
  · cases p <;> simp only [holds, Facts, mine, List.mem_cons, List.not_mem_nil, or_false] at ha hf ⊢ <;> grind

/-- the pointer that an operation finds in a node it holds -/
theorem Inv.next_eq (h : Inv g vs x rs) (hm : a ∈ g.nodes) (ha : a ∈ holds (rs t)) (hl : linking (rs t) ≠ some a) :
    g.nxt a = (x.node a).next := by
  rcases h.real a hm with h1 | ⟨u, hu⟩
  · exact h1
  · have h1 := (h.locked u a (holds_of_linking hu)).symm.trans (h.locked t a ha)
    obtain rfl := Option.some.inj h1
    exact absurd hu hl

/-- nothing is pending at a node that nobody holds -/
theorem Inv.pend_free (h : Inv g vs x rs) (ha : (x.node a).mutex = none) : g.pend a = none := by
  by_contra hp
  obtain ⟨op, hop⟩ := Option.ne_none_iff_exists'.1 hp
  obtain ⟨u, hu⟩ := (h.pend a op).1 hop
  exact absurd ((h.locked u a (holds_of_pending hu)).symm.trans ha) (by simp)

/-- what is pending at a node is the operation that holds it -/
theorem Inv.pend_held (h : Inv g vs x rs) (ha : a ∈ holds (rs t)) {op : Op} :
    g.pend a = some op ↔ pending (rs t) = some (a, op) := by
  rw [h.pend]
  refine ⟨?_, fun hp => ⟨t, hp⟩⟩
  rintro ⟨u, hu⟩
  have h1 := (h.locked u a (holds_of_pending hu)).symm.trans (h.locked t a ha)
  obtain rfl := Option.some.inj h1
  exact hu

/-- an operation that holds a node and the next one is pending at most at one of them -/
theorem Inv.pend_curr (h : Inv g vs x rs) {c : Addr} {op : Op} (hm : a ∈ g.nodes) (hc : g.nxt a = some c)
    (hh : c ∈ holds (rs t)) (hp : pending (rs t) = some (a, op)) : g.pend c = none := by
  by_contra hno
  obtain ⟨o, ho⟩ := Option.ne_none_iff_exists'.1 hno
  have h1 := (h.pend_held hh).1 ho
  rw [hp] at h1
  exact h.chain.next_ne hm hc (congrArg Prod.fst (Option.some.inj h1)).symm

/-! ## Nodes that no other operation uses -/

/-- no operation of another thread holds the node or owns it -/
def Unused (rs : T → Option Running) (t : T) (a : Addr) : Prop :=
  ∀ u, u ≠ t → a ∉ holds (rs u) ∧ mine (rs u) ≠ some a

theorem Inv.unused_of_holds (h : Inv g vs x rs) (ha : a ∈ holds (rs t)) (hm : a ∈ g.nodes) : Unused rs t a := by
  refine fun u hu => ⟨?_, fun h1 => (h.priv u a h1).2 hm⟩
  intro h1
  exact hu (Option.some.inj ((h.locked u a h1).symm.trans (h.locked t a ha)))

theorem Inv.unused_of_mine (h : Inv g vs x rs) (ha : mine (rs t) = some a) : Unused rs t a := by
  refine fun u hu => ⟨?_, fun h1 => hu (h.disj u t a h1 ha)⟩
  intro h1
  rcases h.mem_of_holds h1 with h2 | h2
  · exact (h.priv t a ha).2 h2
  · exact hu (h.disj u t a h2 ha)

theorem Inv.unused_of_free (h : Inv g vs x rs) (hm : a ∈ g.nodes) (ha : (x.node a).mutex = none) : Unused rs t a := by
  refine fun u _ => ⟨?_, fun h1 => (h.priv u a h1).2 hm⟩
  intro h1
  exact absurd ((h.locked u a h1).symm.trans ha) (by simp)

theorem Inv.unused_of_dead (h : Inv g vs x rs) (ha : x.mem.live a = false) : Unused rs t a := by
  refine fun u _ => ⟨?_, ?_⟩
  · intro h1
    rcases h.mem_of_holds h1 with h2 | h2
    · exact absurd (h.live a h2) (by simp [ha])
    · exact absurd (h.priv u a h2).1 (by simp [ha])
  · intro h1
    exact absurd (h.priv u a h1).1 (by simp [ha])

/-! ## One step -/

/-- the facts of an operation depend on the nodes it holds and on its own node only -/
theorem Facts.frame (h : Facts g x r) (hx : x'.head = x.head)
    (hh : ∀ a ∈ holds r, (a ∈ g.nodes → a ∈ g'.nodes) ∧ g'.nxt a = g.nxt a ∧ (x'.node a).val = (x.node a).val ∧
      (x'.node a).next = (x.node a).next)
    (hm : ∀ a, mine r = some a → (x'.node a).val = (x.node a).val ∧ (x'.node a).mutex = (x.node a).mutex) :
    Facts g' x' r := by
  rcases r with _ | ⟨v, p⟩ | ⟨v, p⟩
  · trivial
  · cases p <;> simp only [Facts, holds, mine, List.mem_cons, List.not_mem_nil, or_false] at h hh hm ⊢ <;> grind
  · cases p <;> simp only [Facts, holds, mine, List.mem_cons, List.not_mem_nil, or_false] at h hh hm ⊢ <;> grind

/-- a step of thread `t`, whose operation becomes `r`, that changes nothing outside the nodes `W` -/
structure StepOk (g g' : Ghost) (vs' : List ℤ) (x x' : State T) (rs : T → Option Running) (t : T)
    (r : Option Running) (W : List Addr) : Prop where
  unused : ∀ a ∈ W, Unused rs t a
  head : x'.head = x.head
  node : ∀ a, a ∉ W → x'.node a = x.node a
  alive : ∀ a, a ∉ W → x'.mem.live a = x.mem.live a
  nxt : ∀ a, a ∉ W → g'.nxt a = g.nxt a
  mem : ∀ a, a ∉ W → (a ∈ g'.nodes ↔ a ∈ g.nodes)
  keep : ∀ a ∈ holds (rs t), a ∉ W → a ∈ holds r
  link : ∀ a, linking (rs t) = some a → a ∈ W
  changed : ∀ a ∈ W, a ∈ g'.nodes → x'.mem.live a = true ∧ (g'.nxt a = (x'.node a).next ∨ linking r = some a) ∧
    ∀ u, (x'.node a).mutex = some u → u = t ∧ a ∈ holds r
  chain : Chain g'.nxt (some x'.head) g'.nodes
  locked : ∀ a ∈ holds r, (x'.node a).mutex = some t
  pend : ∀ a op, g'.pend a = some op ↔ pending r = some (a, op) ∨ g.pend a = some op ∧ ∀ o, pending (rs t) ≠ some (a, o)
  priv : ∀ a, mine r = some a → x'.mem.live a = true ∧ a ∉ g'.nodes ∧ Unused rs t a
  facts : Facts g' x' r
  content : resolve Op.apply g'.pend (fun a => (x'.node a).val) g'.nodes = (x'.node x'.head).val :: vs'

variable [DecidableEq T] {W : List Addr}

theorem Inv.step (h : Inv g vs x rs) (hs : StepOk g g' vs' x x' rs t r W) : Inv g' vs' x' (Function.update rs t r) := by
  have hself : Function.update rs t r t = r := Function.update_self _ _ _
  have hother : ∀ u, u ≠ t → Function.update rs t r u = rs u := fun u hu => Function.update_of_ne hu _ _
  -- what another thread uses is outside `W`
  have hout : ∀ u, u ≠ t → ∀ a, (a ∈ holds (rs u) ∨ mine (rs u) = some a) → a ∉ W := fun u hu a ha hw => by
    obtain ⟨h1, h2⟩ := hs.unused a hw u hu
    exact ha.elim h1 h2
  refine ⟨hs.chain, ?_, ?_, ?_, ?_, ?_, ?_, ?_, ?_, hs.content⟩
  · intro a ha
    by_cases hw : a ∈ W
    · exact (hs.changed a hw ha).1
    · rw [hs.alive a hw]
      exact h.live a ((hs.mem a hw).1 ha)
  · intro a ha
    by_cases hw : a ∈ W
    · rcases (hs.changed a hw ha).2.1 with h1 | h1
      · exact .inl h1
      · exact .inr ⟨t, by rw [hself, h1]⟩
    · rw [hs.nxt a hw, hs.node a hw]
      rcases h.real a ((hs.mem a hw).1 ha) with h1 | ⟨u, hu⟩
      · exact .inl h1
      · have hut : u ≠ t := by
          rintro rfl
          exact hw (hs.link a hu)
        exact .inr ⟨u, by rw [hother u hut, hu]⟩
  · intro u a ha
    by_cases hut : u = t
    · subst hut
      rw [hself] at ha
      exact hs.locked a ha
    · rw [hother u hut] at ha
      rw [hs.node a (hout u hut a (.inl ha))]
      exact h.locked u a ha
  · intro a ha u hu
    by_cases hw : a ∈ W
    · obtain ⟨rfl, h1⟩ := (hs.changed a hw ha).2.2 u hu
      rw [hself]
      exact h1
    · rw [hs.node a hw] at hu
      have h1 := h.owned a ((hs.mem a hw).1 ha) u hu
      by_cases hut : u = t
      · subst hut
        rw [hself]
        exact hs.keep a h1 hw
      · rw [hother u hut]
        exact h1
  · intro a op
    rw [hs.pend]
    refine ⟨?_, ?_⟩
    · rintro (h1 | ⟨h1, h2⟩)
      · exact ⟨t, by rw [hself, h1]⟩
      · obtain ⟨u, hu⟩ := (h.pend a op).1 h1
        have hut : u ≠ t := by
          rintro rfl
          exact h2 op hu
        exact ⟨u, by rw [hother u hut, hu]⟩
    · rintro ⟨u, hu⟩
      by_cases hut : u = t
      · subst hut
        rw [hself] at hu
        exact .inl hu
      · rw [hother u hut] at hu
        refine .inr ⟨(h.pend a op).2 ⟨u, hu⟩, fun o ho => hut ?_⟩
        exact Option.some.inj ((h.locked u a (holds_of_pending hu)).symm.trans (h.locked t a (holds_of_pending ho)))
  · intro u a ha
    by_cases hut : u = t
    · subst hut
      rw [hself] at ha
      exact ⟨(hs.priv a ha).1, (hs.priv a ha).2.1⟩
    · rw [hother u hut] at ha
      have hw := hout u hut a (.inr ha)
      rw [hs.alive a hw, hs.mem a hw]
      exact h.priv u a ha
  · intro u v a hu hv
    by_cases hut : u = t
    · by_cases hvt : v = t
      · rw [hut, hvt]
      · rw [hut, hself] at hu
        rw [hother v hvt] at hv
        exact absurd hv ((hs.priv a hu).2.2 v hvt).2
    · by_cases hvt : v = t
      · rw [hvt, hself] at hv
        rw [hother u hut] at hu
        exact absurd hu ((hs.priv a hv).2.2 u hut).2
      · rw [hother u hut] at hu
        rw [hother v hvt] at hv
        exact h.disj u v a hu hv
  · intro u
    by_cases hut : u = t
    · subst hut
      rw [hself]
      exact hs.facts
    · rw [hother u hut]
      refine (h.facts u).frame hs.head ?_ ?_
      · intro a ha
        have hw := hout u hut a (.inl ha)
        rw [hs.mem a hw, hs.nxt a hw, hs.node a hw]
        exact ⟨id, rfl, rfl, rfl⟩
      · intro a ha
        rw [hs.node a (hout u hut a (.inr ha))]
        exact ⟨rfl, rfl⟩

/-! ## Steps that leave the chain as it is -/

theorem Inv.real_of_unused (h : Inv g vs x rs) (hr : rs t = r₀) (ha : a ∈ g.nodes) (hu : Unused rs t a)
    (hl : linking r₀ = none) : g.nxt a = (x.node a).next := by
  subst hr
  rcases h.real a ha with h1 | ⟨u, h1⟩
  · exact h1
  · by_cases hut : u = t
    · rw [hut, hl] at h1
      cases h1
    · exact absurd (holds_of_linking h1) (hu u hut).1

/-- how the pending operations change: `p` instead of `g.pend` -/
def Repend (g : Ghost) (r₀ r : Option Running) (p : Addr → Option Op) : Prop :=
  ∀ a op, p a = some op ↔ pending r = some (a, op) ∨ g.pend a = some op ∧ ∀ o, pending r₀ ≠ some (a, o)

omit [DecidableEq T] in
theorem Inv.repend_same (h : Inv g vs x rs) (hr : rs t = r₀) (hp : pending r = pending r₀) : Repend g r₀ r g.pend := by
  subst hr
  refine fun a op => ⟨?_, ?_⟩
  · intro h1
    by_cases ho : ∃ o, pending (rs t) = some (a, o)
    · obtain ⟨o, ho⟩ := ho
      have h2 := (h.pend a o).2 ⟨t, ho⟩
      obtain rfl := Option.some.inj (h1.symm.trans h2)
      exact .inl (hp.trans ho)
    · exact .inr ⟨h1, fun o h2 => ho ⟨o, h2⟩⟩
  · rintro (h1 | ⟨h1, -⟩)
    · exact (h.pend a op).2 ⟨t, hp.symm.trans h1⟩
    · exact h1

theorem repend_enter {p : Addr} {o : Op} (h₀ : pending r₀ = none) (hr : pending r = some (p, o))
    (hp : g.pend p = none) : Repend g r₀ r (Function.update g.pend p (some o)) := by
  intro a op
  by_cases ha : a = p
  · subst ha
    simp [h₀, hr, hp]
  · simp [h₀, hr, ha, Ne.symm ha]

theorem repend_pass {p c : Addr} {o : Op} (h₀ : pending r₀ = some (p, o)) (hr : pending r = some (c, o))
    (hc : g.pend c = none) : Repend g r₀ r (Function.update (Function.update g.pend p none) c (some o)) := by
  intro a op
  by_cases ha : a = c
  · subst ha
    simp [h₀, hr, hc]
  · by_cases hap : a = p
    · subst hap
      simp [h₀, hr, ha, Ne.symm ha]
    · simp [h₀, hr, ha, Ne.symm ha, hap, Ne.symm hap]

theorem repend_drop {p : Addr} {o : Op} (h₀ : pending r₀ = some (p, o)) (hr : pending r = none) :
    Repend g r₀ r (Function.update g.pend p none) := by
  intro a op
  by_cases ha : a = p
  · subst ha
    simp [h₀, hr]
  · simp [h₀, hr, ha, Ne.symm ha]

/-- no step on the memory -/
theorem Inv.repend (h : Inv g vs x rs) (hr : rs t = r₀) {p : Addr → Option Op} (hp : Repend g r₀ r p)
    (hh : holds r = holds r₀) (hm : mine r = mine r₀) (hl : linking r₀ = none) (hf : Facts g x r)
    (hc : resolve Op.apply p (fun a => (x.node a).val) g.nodes = (x.node x.head).val :: vs') :
    Inv { g with pend := p } vs' x (Function.update rs t r) := by
  subst hr
  refine h.step (W := [])
    { unused := by simp, head := rfl, node := fun _ _ => rfl, alive := fun _ _ => rfl, nxt := fun _ _ => rfl,
      mem := fun _ _ => Iff.rfl, keep := ?_, link := ?_, changed := by simp, chain := h.chain, locked := ?_, pend := hp,
      priv := ?_, facts := ?_, content := hc }
  · exact fun a ha _ => by rw [hh]; exact ha
  · simp [hl]
  · exact fun a ha => h.locked t a (by rw [← hh]; exact ha)
  · intro a ha
    rw [hm] at ha
    exact ⟨(h.priv t a ha).1, (h.priv t a ha).2, h.unused_of_mine ha⟩
  · exact hf.frame rfl (fun a _ => ⟨id, rfl, rfl, rfl⟩) fun a _ => ⟨rfl, rfl⟩

theorem Inv.quiet (h : Inv g vs x rs) (hr : rs t = r₀) (hp : pending r = pending r₀) (hh : holds r = holds r₀)
    (hm : mine r = mine r₀) (hl : linking r₀ = none) (hf : Facts g x r) :
    Inv g vs x (Function.update rs t r) :=
  h.repend hr (h.repend_same hr hp) hh hm hl hf h.content

/-- a lock or an unlock of a node on the chain -/
theorem Inv.relock (h : Inv g vs x rs) (hr : rs t = r₀) {p : Addr → Option Op} (hp : Repend g r₀ r p) (ha : a ∈ g.nodes)
    (hu : Unused rs t a) {m : Option T} (hma : m = some t ∧ a ∈ holds r ∨ m = none ∧ a ∉ holds r)
    (hh : ∀ b, b ≠ a → (b ∈ holds r ↔ b ∈ holds r₀)) (hm : mine r = mine r₀) (hl : linking r₀ = none)
    (hf : Facts g x r)
    (hc : resolve Op.apply p (fun a => (x.node a).val) g.nodes = (x.node x.head).val :: vs') :
    Inv { g with pend := p } vs' (x.store a fun n => { n with mutex := m }) (Function.update rs t r) := by
  subst hr
  have hval : ∀ b, ((x.store a fun n => { n with mutex := m }).node b).val = (x.node b).val :=
    fun b => (store_mutex x a b m).1
  refine h.step (W := [a])
    { unused := by simpa using hu, head := rfl, node := ?_, alive := fun _ _ => rfl, nxt := fun _ _ => rfl,
      mem := fun _ _ => Iff.rfl, keep := ?_, link := by simp [hl], changed := ?_, chain := h.chain, locked := ?_,
      pend := hp, priv := ?_, facts := ?_, content := ?_ }
  · intro b hb
    exact node_store_other x _ (by simpa using hb)
  · intro b hb hw
    exact (hh b (by simpa using hw)).2 hb
  · intro b hb _
    obtain rfl := List.mem_singleton.1 hb
    refine ⟨h.live b ha, .inl ?_, ?_⟩
    · rw [node_store_self]
      exact h.real_of_unused rfl ha hu hl
    · intro u hmu
      rw [node_store_self] at hmu
      rcases hma with ⟨rfl, h1⟩ | ⟨rfl, -⟩
      · exact ⟨(Option.some.inj hmu).symm, h1⟩
      · cases hmu
  · intro b hb
    by_cases hba : b = a
    · subst hba
      rcases hma with ⟨rfl, -⟩ | ⟨-, h1⟩
      · rw [node_store_self]
      · exact absurd hb h1
    · rw [node_store_other x _ hba]
      exact h.locked t b ((hh b hba).1 hb)
  · intro b hb
    rw [hm] at hb
    exact ⟨(h.priv t b hb).1, (h.priv t b hb).2, h.unused_of_mine hb⟩
  · refine hf.frame rfl (fun b _ => ⟨id, rfl, store_mutex x a b m⟩) fun b hb => ⟨hval b, ?_⟩
    rw [hm] at hb
    rw [node_store_other x _ fun hba : b = a => (h.priv t b hb).2 (by rw [hba]; exact ha)]
  · simpa only [hval, store_head] using hc

/-- an allocation, a write to a node of the operation itself, or a `free` -/
theorem Inv.privately (h : Inv g vs x rs) (hr : rs t = r₀) (hu : Unused rs t a) (ha : a ∉ g.nodes)
    (hx : x'.head = x.head) (hn : ∀ b, b ≠ a → x'.node b = x.node b)
    (hv : ∀ b, b ≠ a → x'.mem.live b = x.mem.live b) (hh : holds r = [])
    (hk : ∀ b ∈ holds r₀, b = a) (hp : pending r₀ = none) (hp' : pending r = none) (hl : linking r₀ = none)
    (hm : ∀ b, mine r = some b → b = a ∧ x'.mem.live a = true) (hf : Facts g x' r) :
    Inv g vs x' (Function.update rs t r) := by
  subst hr
  have hne : ∀ b ∈ g.nodes, b ≠ a := fun b hb hba => ha (hba ▸ hb)
  refine h.step (W := [a])
    { unused := by simpa using hu, head := hx, node := ?_, alive := ?_, nxt := fun _ _ => rfl,
      mem := fun _ _ => Iff.rfl, keep := ?_, link := by simp [hl], changed := ?_, chain := ?_, locked := by simp [hh],
      pend := h.repend_same rfl (hp'.trans hp.symm), priv := ?_, facts := hf, content := ?_ }
  · intro b hb
    exact hn b (by simpa using hb)
  · intro b hb
    exact hv b (by simpa using hb)
  · intro b hb hw
    exact absurd (hk b hb) (by simpa using hw)
  · intro b hb hb'
    exact absurd (List.mem_singleton.1 hb) (hne b hb')
  · rw [hx]
    exact h.chain
  · intro b hb
    obtain ⟨rfl, h1⟩ := hm b hb
    exact ⟨h1, ha, hu⟩
  · rw [hx, hn x.head (hne _ h.head_mem), ← h.content]
    exact resolve_congr fun b hb => ⟨rfl, by rw [hn b (hne b hb)]⟩

/-! ## Steps that change the chain -/

/-- `prev->next = new_node` in `list_insert` -/
theorem Inv.linkPrev (h : Inv g vs x rs) {v : ℤ} {new prev : Addr} {curr : Option Addr}
    (hr : rs t = some (.insert v (.storePrevNext new prev curr))) :
    Inv g vs (x.store prev fun n => { n with next := some new })
      (Function.update rs t (some (.insert v (.storeNewNext new prev curr)))) := by
  have hf := h.facts t
  have hheld : prev ∈ holds (rs t) := by simp [hr, holds]
  have hmine : mine (rs t) = some new := by rw [hr]; rfl
  rw [hr] at hf
  obtain ⟨hv, hm, hprev, hcurr⟩ := hf
  have hmem : prev ∈ g.nodes := by rw [hprev]; exact h.head_mem
  have hsame := fun b => store_next x prev b (some new)
  refine h.step (W := [prev])
    { unused := by simpa using h.unused_of_holds hheld hmem, head := rfl, node := ?_, alive := fun _ _ => rfl,
      nxt := fun _ _ => rfl, mem := fun _ _ => Iff.rfl, keep := ?_, link := by simp [hr, linking], changed := ?_,
      chain := h.chain, locked := ?_, pend := h.repend_same rfl (by rw [hr]; rfl), priv := ?_,
      facts := ⟨?_, ?_, hprev, hcurr, by simp⟩, content := ?_ }
  · intro b hb
    exact node_store_other x _ (by simpa using hb)
  · intro b hb _
    rw [hr] at hb
    exact hb
  · intro b hb _
    obtain rfl := List.mem_singleton.1 hb
    refine ⟨h.live b hmem, .inr rfl, ?_⟩
    intro u hu
    rw [(hsame b).2] at hu
    exact ⟨Option.some.inj (hu.symm.trans (h.locked t b hheld)), by simp [holds]⟩
  · intro b hb
    rw [(hsame b).2]
    exact h.locked t b (by rw [hr]; exact hb)
  · intro b hb
    have hb' : mine (rs t) = some b := by rw [hr]; exact hb
    exact ⟨(h.priv t b hb').1, (h.priv t b hb').2, h.unused_of_mine hb'⟩
  · rw [(hsame new).1]
    exact hv
  · rw [(hsame new).2]
    exact hm
  · simpa only [hsame, store_head] using h.content

/-- `new_node->next = curr` in `list_insert`: the new node is on the chain, and the insert has acted -/
theorem Inv.linkNew (h : Inv g vs x rs) {v : ℤ} {new prev : Addr} {curr : Option Addr}
    (hr : rs t = some (.insert v (.storeNewNext new prev curr))) (hh : holds r = prev :: curr.toList)
    (hm : mine r = none) (hp : pending r = none)
    (hf : ∀ g' : Ghost, (∀ b ∈ g.nodes, b ∈ g'.nodes) → Facts g' (x.store new fun n => { n with next := curr }) r) :
    ∃ g', Inv g' vs (x.store new fun n => { n with next := curr }) (Function.update rs t r) ∧
      Keeps g g' (some (.insert v (.storeNewNext new prev curr))) r := by
  have hfacts := h.facts t
  have hheld : holds (rs t) = prev :: curr.toList := by rw [hr]; rfl
  have hmine : mine (rs t) = some new := by rw [hr]; rfl
  rw [hr] at hfacts
  obtain ⟨hv, hfree, hprev, hcurr, hnext⟩ := hfacts
  obtain ⟨L, hL⟩ := h.nodes_eq
  rw [← hprev] at hL
  have hmem : prev ∈ g.nodes := by simp [hL]
  obtain ⟨hlive, hnew⟩ := h.priv t new hmine
  have hne : new ≠ prev := fun he => hnew (by rw [he]; exact hmem)
  have hnd := h.chain.nodup
  rw [hL] at hnd hnew
  have hsame := fun b => store_next x new b curr
  have hc : Chain g.nxt (some prev) (prev :: L) := by rw [← hL, hprev]; exact h.chain
  refine ⟨⟨prev :: new :: L, Function.update (Function.update g.nxt new (g.nxt prev)) prev (some new),
    Function.update g.pend prev none⟩, h.step (W := [new, prev])
      { unused := ?_, head := rfl, node := ?_, alive := fun _ _ => rfl, nxt := ?_, mem := ?_, keep := ?_, link := ?_,
        changed := ?_, chain := ?_, locked := ?_, pend := repend_drop (o := .insert v) (by rw [hr]; rfl) hp,
        priv := by simp [hm], facts := hf _ ?_, content := ?_ }, ?_⟩
  · intro b hb
    rcases List.mem_pair.1 hb with rfl | rfl
    · exact h.unused_of_mine hmine
    · exact h.unused_of_holds (by simp [hheld]) hmem
  · intro b hb
    exact node_store_other x _ fun he => hb (by simp [he])
  · intro b hb
    simp only [List.mem_cons, List.not_mem_nil, or_false, not_or] at hb
    simp [hb.1, hb.2]
  · intro b hb
    simp only [List.mem_cons, List.not_mem_nil, or_false, not_or] at hb
    simp [hL, hb.1]
  · intro b hb _
    rw [hh, ← hheld]
    exact hb
  · intro b hb
    rw [hr] at hb
    obtain rfl := Option.some.inj hb
    simp
  · intro b hb _
    rcases List.mem_pair.1 hb with rfl | rfl
    · refine ⟨hlive, .inl ?_, ?_⟩
      · simp [hne, hcurr]
      · intro u hu
        rw [(hsame b).2, hfree] at hu
        cases hu
    · refine ⟨h.live b hmem, .inl ?_, ?_⟩
      · simp [hne.symm, hnext]
      · intro u hu
        rw [(hsame b).2, h.locked t b (by simp [hheld])] at hu
        exact ⟨(Option.some.inj hu).symm, by simp [hh]⟩
  · rw [store_head, ← hprev]
    exact hc.push hnew
  · intro b hb
    rw [(hsame b).2]
    exact h.locked t b (by rw [hheld, ← hh]; exact hb)
  · intro b hb
    rw [hL] at hb
    simp only [List.mem_cons] at hb ⊢
    tauto
  · have hpn : g.pend prev = some (.insert v) := (h.pend prev _).2 ⟨t, by rw [hr]; rfl⟩
    have hcont := h.content
    rw [hL] at hcont
    simp only [hsame, store_head]
    rw [← hcont]
    exact resolve_push (List.nodup_cons.1 hnd).1 hne hpn (h.pend_free hfree) fun vs => by rw [hv]; rfl
  · intro b hb
    rw [hL] at hb
    simp only [List.mem_cons, visible, Option.some.injEq] at hb ⊢
    tauto

/-- `prev->next = curr->next` in `list_delete`: the node is off the chain, and the delete has acted -/
theorem Inv.unlinkCurr (h : Inv g vs x rs) {v : ℤ} {prev curr : Addr} {next : Option Addr}
    (hr : rs t = some (.delete v (.storePrevNext prev curr next))) :
    ∃ g', Inv g' vs (x.store prev fun n => { n with next := next })
      (Function.update rs t (some (.delete v (.unlockPrev prev curr)))) ∧
      Keeps g g' (some (.delete v (.storePrevNext prev curr next))) (some (.delete v (.unlockPrev prev curr))) := by
  have hf := h.facts t
  have hheld : holds (rs t) = [prev, curr] := by rw [hr]; rfl
  rw [hr] at hf
  obtain ⟨hmem, hcurr, hv, hnext⟩ := hf
  have hmem' := h.chain.mem_next hmem hcurr
  obtain ⟨L₁, L₂, hL⟩ := h.chain.split_some hmem hcurr
  have hnd := h.chain.nodup
  have hc := h.chain
  rw [hL] at hnd hc
  have hout : curr ∉ L₁ ++ prev :: L₂ := by
    simp only [List.nodup_append, List.nodup_cons, List.mem_cons, not_or] at hnd
    obtain ⟨-, ⟨⟨hpc, -⟩, hcL, -⟩, hd⟩ := hnd
    simp only [List.mem_append, List.mem_cons, not_or]
    exact ⟨fun h1 => hd curr h1 curr (.inr (.inl rfl)) rfl, Ne.symm hpc, hcL⟩
  have hsame := fun b => store_next x prev b next
  refine ⟨⟨L₁ ++ prev :: L₂, Function.update g.nxt prev (g.nxt curr), Function.update g.pend prev none⟩,
    h.step (W := [prev, curr])
      { unused := ?_, head := rfl, node := ?_, alive := fun _ _ => rfl, nxt := ?_, mem := ?_, keep := ?_,
        link := by simp [hr, linking], changed := ?_, chain := hc.unlink, locked := ?_,
        pend := repend_drop (o := .delete v) (by rw [hr]; rfl) rfl, priv := ?_, facts := by simp [Facts],
        content := ?_ }, ?_⟩
  · intro b hb
    rcases List.mem_pair.1 hb with rfl | rfl
    · exact h.unused_of_holds (by simp [hheld]) hmem
    · exact h.unused_of_holds (by simp [hheld]) hmem'
  · intro b hb
    exact node_store_other x _ fun he => hb (by simp [he])
  · intro b hb
    exact Function.update_of_ne (fun he => hb (by simp [he])) _ _
  · intro b hb
    simp only [List.mem_cons, List.not_mem_nil, or_false, not_or] at hb
    simp [hL, hb.2]
  · intro b hb _
    rw [hheld] at hb
    exact hb
  · intro b hb hb'
    rcases List.mem_pair.1 hb with rfl | rfl
    · refine ⟨h.live b hmem, .inl (by simp [hnext]), ?_⟩
      intro u hu
      rw [(hsame b).2, h.locked t b (by simp [hheld])] at hu
      exact ⟨(Option.some.inj hu).symm, by simp [holds]⟩
    · exact absurd hb' hout
  · intro b hb
    rw [(hsame b).2]
    exact h.locked t b (by rw [hheld]; exact hb)
  · intro b hb
    obtain rfl := Option.some.inj hb
    exact ⟨h.live curr hmem', hout, h.unused_of_holds (by simp [hheld]) hmem'⟩
  · have hpp : g.pend prev = some (.delete v) := (h.pend prev _).2 ⟨t, by rw [hr]; rfl⟩
    have hpc : g.pend curr = none := h.pend_curr (t := t) hmem hcurr (by simp [hheld]) (by rw [hr]; rfl)
    have hcont := h.content
    rw [hL] at hcont
    simp only [hsame, store_head]
    rw [← hcont]
    exact resolve_unlink hnd hpp hpc fun vs => by rw [hv]; simp [Op.apply]
  · intro b hb
    rw [hL] at hb
    simp only [List.mem_append, List.mem_cons, visible, Option.some.injEq] at hb ⊢
    grind

end

end OsPractice.LockCoupling
