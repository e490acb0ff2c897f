/-
Whole runs of the bounded buffer (`concurrency/buffer.c`): every run ends, and how many values it has moved then depends
on the numbers of producers and consumers only.

A thread's own history says how far it is in its loop (`Done`). Where no thread can step, the free and the filled slots
make up the buffer (`tokens_of_stuck`), so producers and consumers cannot both be held up: the side that is held up has
run out of partners.

Results:
- `maximal_run`: the length of a run, and the numbers of values put and taken in a run that cannot go on;
- `balanced_run`: with as many consumers as producers, each value has been printed once for each producer.
-/
import OsPractice.Concurrency.Buffer

namespace OsPractice.Buffer

open Interleave Semaphore RingBuffer

variable {T : Type} [DecidableEq T]

/-! ## The history of one thread -/

def Event.putOf : Event T → Option (T × ℤ)
  | .put t v => some (t, v)
  | _ => none

def Event.gotOf : Event T → Option (T × ℤ)
  | .got t v => some (t, v)
  | _ => none

def Event.printedOf : Event T → Option (T × ℤ)
  | .printed t v => some (t, v)
  | _ => none

/-- the values in the events that `f` picks -/
def values (f : Event T → Option (T × ℤ)) (tr : List (Event T)) : List ℤ :=
  tr.filterMap fun e => (f e).map Prod.snd

/-- those of thread `t` -/
def valuesBy (f : Event T → Option (T × ℤ)) (t : T) (tr : List (Event T)) : List ℤ :=
  tr.filterMap fun e => (f e).bind fun p => if p.1 = t then some p.2 else none

omit [DecidableEq T] in
theorem puts_eq (tr : List (Event T)) : puts tr = values Event.putOf tr := by
  unfold puts values
  congr
  funext e
  cases e <;> rfl

omit [DecidableEq T] in
theorem gots_eq (tr : List (Event T)) : gots tr = values Event.gotOf tr := by
  unfold gots values
  congr
  funext e
  cases e <;> rfl

theorem valuesBy_append (f : Event T → Option (T × ℤ)) (t : T) (tr es : List (Event T)) :
    valuesBy f t (tr ++ es) = valuesBy f t tr ++ valuesBy f t es := List.filterMap_append

/-- every value is of one thread -/
theorem countP_values [Fintype T] (f : Event T → Option (T × ℤ)) (q : ℤ → Bool) (tr : List (Event T)) :
    (values f tr).countP q = ∑ t, (valuesBy f t tr).countP q := by
  induction tr with
  | nil => simp [values, valuesBy]
  | cons e tr ih =>
    have happ : values f ([e] ++ tr) = values f [e] ++ values f tr := List.filterMap_append
    rw [← List.singleton_append, happ, List.countP_append, ih]
    simp only [valuesBy_append, List.countP_append, Finset.sum_add_distrib]
    congr 1
    cases he : f e with
    | none => simp [values, valuesBy, he]
    | some p =>
      rw [Finset.sum_eq_single p.1]
      · simp [values, valuesBy, he]
      · intro u _ hu
        simp [valuesBy, he, Ne.symm hu]
      · exact fun ht => absurd (Finset.mem_univ _) ht

theorem length_values [Fintype T] (f : Event T → Option (T × ℤ)) (tr : List (Event T)) :
    (values f tr).length = ∑ t, (valuesBy f t tr).length := by
  have h := countP_values f (fun _ => true) tr
  simpa only [List.countP_true] using h

def putsBy (t : T) (tr : List (Event T)) : List ℤ := valuesBy Event.putOf t tr

def gotsBy (t : T) (tr : List (Event T)) : List ℤ := valuesBy Event.gotOf t tr

def printedBy (t : T) (tr : List (Event T)) : List ℤ := valuesBy Event.printedOf t tr

theorem putsBy_append (t : T) (tr es : List (Event T)) : putsBy t (tr ++ es) = putsBy t tr ++ putsBy t es :=
  valuesBy_append _ t tr es

theorem gotsBy_append (t : T) (tr es : List (Event T)) : gotsBy t (tr ++ es) = gotsBy t tr ++ gotsBy t es :=
  valuesBy_append _ t tr es

theorem printedBy_append (t : T) (tr es : List (Event T)) :
    printedBy t (tr ++ es) = printedBy t tr ++ printedBy t es :=
  valuesBy_append _ t tr es

/-- in an iteration that has called `put` -/
def Producer.called : Producer → ℕ
  | .put _ | .postMutex | .postFull => 1
  | _ => 0

/-- the value that `get` has returned and that is not printed yet -/
def Consumer.holds : Consumer → List ℤ
  | .postMutex tmp | .postEmpty tmp | .print tmp => [tmp]
  | _ => []

/-- in an iteration -/
def Loc.busy : Loc → ℕ
  | .producer _ .test => 0
  | .consumer _ .test => 0
  | _ => 1

def Loc.index : Loc → ℕ
  | .producer i _ => i
  | .consumer i _ => i

/-- what a thread has done so far -/
def Done (loops : ℤ) (t : T) (tr : List (Event T)) (l : Loc) : Prop :=
  l.index + l.busy ≤ loops.toNat ∧
  match l with
  | .producer i p => putsBy t tr = (List.range (i + p.called)).map (fun k : ℕ => (k : ℤ)) ∧ gotsBy t tr = [] ∧
      printedBy t tr = []
  | .consumer i p => putsBy t tr = [] ∧ (gotsBy t tr).length = i + p.holds.length ∧
      printedBy t tr ++ p.holds = gotsBy t tr

section Done

variable {loops : ℤ} {t : T} {tr es : List (Event T)} {m m' : Mem} {l l' : Loc}

/-- a step of a producer calls `put` with the next value, or not -/
theorem producer_shows (t : T) {i j : ℕ} {p q : Producer} (hp : producer loops m i p = some (m', j, q))
    (hi : i + (Loc.producer i p).busy ≤ loops.toNat) :
    j + (Loc.producer j q).busy ≤ loops.toNat ∧ gotsBy t (producerShows t i p) = [] ∧
      printedBy t (producerShows t i p) = [] ∧
      (List.range (i + p.called)).map (fun k : ℕ => (k : ℤ)) ++ putsBy t (producerShows t i p) =
        (List.range (j + q.called)).map fun k : ℕ => (k : ℤ) := by
  cases p with
  | test =>
    simp only [producer] at hp
    split_ifs at hp with hlt
    cases hp
    refine ⟨?_, rfl, rfl, by simp [Producer.called, producerShows, putsBy, valuesBy]⟩
    simp only [Loc.busy]
    omega
  | waitEmpty =>
    obtain ⟨v, -, he⟩ := wait_step hp
    cases he
    exact ⟨hi, rfl, rfl, by simp [Producer.called, producerShows, putsBy, valuesBy]⟩
  | waitMutex =>
    obtain ⟨v, -, he⟩ := wait_step hp
    cases he
    exact ⟨hi, rfl, rfl, by simp [Producer.called, producerShows, putsBy, valuesBy, Event.putOf, List.range_succ]⟩
  | put p =>
    cases p <;> cases hp <;> exact ⟨hi, rfl, rfl, by simp [Producer.called, producerShows, putsBy, valuesBy]⟩
  | postMutex | postFull =>
    cases hp
    exact ⟨hi, rfl, rfl, by simp [Producer.called, producerShows, putsBy, valuesBy]⟩

/-- a step of a consumer gets a value that it then holds, or prints the one that it holds, or neither -/
theorem consumer_shows (t : T) {i j : ℕ} {p q : Consumer} (hp : consumer loops m i p = some (m', j, q))
    (hi : i + (Loc.consumer i p).busy ≤ loops.toNat) :
    j + (Loc.consumer j q).busy ≤ loops.toNat ∧ putsBy t (consumerShows t m p) = [] ∧
      j + q.holds.length = i + p.holds.length + (gotsBy t (consumerShows t m p)).length ∧
      p.holds ++ gotsBy t (consumerShows t m p) = printedBy t (consumerShows t m p) ++ q.holds := by
  cases p with
  | test =>
    simp only [consumer] at hp
    split_ifs at hp with hlt
    cases hp
    refine ⟨?_, rfl, rfl, rfl⟩
    simp only [Loc.busy]
    omega
  | waitFull | waitMutex =>
    obtain ⟨v, -, he⟩ := wait_step hp
    cases he
    exact ⟨hi, rfl, rfl, rfl⟩
  | get p =>
    cases p with
    | storeUse tmp k =>
      cases hp
      refine ⟨hi, rfl, ?_, ?_⟩ <;>
        simp [Consumer.holds, consumerShows, get, gotsBy, printedBy, valuesBy, Event.gotOf, Event.printedOf]
    | loadSlot | loadValue k | loadUse tmp =>
      cases hp
      exact ⟨hi, rfl, rfl, rfl⟩
  | print tmp =>
    cases hp
    refine ⟨hi, rfl, ?_, ?_⟩ <;>
      simp [Consumer.holds, consumerShows, gotsBy, printedBy, valuesBy, Event.gotOf, Event.printedOf]
  | postMutex tmp | postEmpty tmp =>
    cases hp
    exact ⟨hi, rfl, rfl, rfl⟩

/-- a step of the thread itself -/
theorem Done.step (h : Done loops t tr l) (hs : prog loops t () m l = some (m', l', es)) :
    Done loops t (tr ++ es) l' := by
  obtain ⟨hi, h⟩ := h
  unfold Done
  rw [putsBy_append, gotsBy_append, printedBy_append]
  cases l with
  | producer i p =>
    obtain ⟨h1, h2, h3⟩ := h
    obtain ⟨⟨m₁, j, q⟩, hp, he⟩ := Option.map_eq_some_iff.1 hs
    cases he
    obtain ⟨hi', hgot, hprinted, hput⟩ := producer_shows t hp hi
    rw [h1, h2, h3]
    exact ⟨hi', hput, hgot, hprinted⟩
  | consumer i p =>
    obtain ⟨h1, h2, h3⟩ := h
    obtain ⟨⟨m₁, j, q⟩, hp, he⟩ := Option.map_eq_some_iff.1 hs
    cases he
    obtain ⟨hi', hput, hcount, hheld⟩ := consumer_shows t hp hi
    refine ⟨hi', by rw [h1]; exact hput, ?_, ?_⟩
    · rw [List.length_append, h2]
      exact hcount.symm
    · rw [List.append_assoc, ← hheld, ← List.append_assoc, h3]

/-- a step of another thread -/
theorem Done.other {u : T} (h : Done loops u tr l) (htu : t ≠ u) {l₀ : Loc}
    (hs : prog loops t () m l₀ = some (m', l', es)) : Done loops u (tr ++ es) l := by
  have hes : putsBy u es = [] ∧ gotsBy u es = [] ∧ printedBy u es = [] := by
    cases l₀ with
    | producer i p =>
      obtain ⟨r, -, he⟩ := Option.map_eq_some_iff.1 hs
      cases he
      cases p <;>
        simp [producerShows, putsBy, gotsBy, printedBy, valuesBy, Event.putOf, Event.gotOf, Event.printedOf, htu]
    | consumer i p =>
      obtain ⟨r, -, he⟩ := Option.map_eq_some_iff.1 hs
      cases he
      cases p with
      | get p =>
        cases p <;>
          simp [consumerShows, get, putsBy, gotsBy, printedBy, valuesBy, Event.putOf, Event.gotOf, Event.printedOf, htu]
      | _ => simp [consumerShows, putsBy, gotsBy, printedBy, valuesBy, Event.putOf, Event.gotOf, Event.printedOf, htu]
  unfold Done
  rw [putsBy_append, gotsBy_append, printedBy_append, hes.1, hes.2.1, hes.2.2]
  simp only [List.append_nil]
  exact h

end Done

theorem run_done {loops : ℤ} {role : T → Role} {as : List (T × Unit)} {tr : List (Event T)} {s : St T Mem Loc}
    (h : Run (prog loops) (start role) as tr s) (t : T) : Done loops t tr (s.loc t) := by
  refine h.inv_trace (I := fun tr s => ∀ t, Done loops t tr (s.loc t)) ?_ ?_ t
  · intro t
    simp only [start]
    cases role t <;> exact ⟨Nat.zero_le _, rfl, rfl, rfl⟩
  · intro tr s t c m l es hi hs
    refine s.forall_move (p := fun u l => Done loops u (tr ++ es) l) m ((hi t).step hs) ?_
    intro u hu
    exact (hi u).other (Ne.symm hu) hs

/-! ## The end of a run -/

def Role.isProducer : Role → ℕ
  | .producer => 1
  | .consumer => 0

def Role.isConsumer : Role → ℕ
  | .producer => 0
  | .consumer => 1

variable [Fintype T]

def producers (role : T → Role) : ℕ := ∑ t, (role t).isProducer

def consumers (role : T → Role) : ℕ := ∑ t, (role t).isConsumer

/-- the steps that a thread has taken -/
def steps : Loc → ℕ
  | .producer i p => 9 * i +
    match p with
    | .test => 0
    | .waitEmpty => 1
    | .waitMutex => 2
    | .put .loadSlot => 3
    | .put (.storeSlot _) => 4
    | .put .loadFill => 5
    | .put (.storeFill _) => 6
    | .postMutex => 7
    | .postFull => 8
  | .consumer i p => 10 * i +
    match p with
    | .test => 0
    | .waitFull => 1
    | .waitMutex => 2
    | .get .loadSlot => 3
    | .get (.loadValue _) => 4
    | .get (.loadUse _) => 5
    | .get (.storeUse _ _) => 6
    | .postMutex _ => 7
    | .postEmpty _ => 8
    | .print _ => 9

section Runs

variable {loops : ℤ} {role : T → Role} {as : List (T × Unit)} {tr : List (Event T)} {s : St T Mem Loc}

omit [DecidableEq T] [Fintype T] in
theorem steps_step {t : T} {m m' : Mem} {l l' : Loc} {es : List (Event T)}
    (hs : prog loops t () m l = some (m', l', es)) : steps l' = steps l + 1 := by
  cases l with
  | producer i p =>
    obtain ⟨⟨m₁, j, q⟩, hp, he⟩ := Option.map_eq_some_iff.1 hs
    cases he
    cases p with
    | test =>
      simp only [producer] at hp
      split_ifs at hp
      cases hp
      rfl
    | waitEmpty =>
      obtain ⟨v, -, he⟩ := wait_step hp
      cases he
      rfl
    | waitMutex =>
      obtain ⟨v, -, he⟩ := wait_step hp
      cases he
      rfl
    | put p => cases p <;> cases hp <;> rfl
    | postMutex =>
      cases hp
      rfl
    | postFull =>
      cases hp
      simp only [steps]
      omega
  | consumer i p =>
    obtain ⟨⟨m₁, j, q⟩, hp, he⟩ := Option.map_eq_some_iff.1 hs
    cases he
    cases p with
    | test =>
      simp only [consumer] at hp
      split_ifs at hp
      cases hp
      rfl
    | waitFull =>
      obtain ⟨v, -, he⟩ := wait_step hp
      cases he
      rfl
    | waitMutex =>
      obtain ⟨v, -, he⟩ := wait_step hp
      cases he
      rfl
    | get p => cases p <;> cases hp <;> rfl
    | print tmp =>
      cases hp
      simp only [steps]
      omega
    | _ =>
      cases hp
      rfl

theorem run_steps (h : Run (prog loops) (start role) as tr s) : as.length = total steps s.loc := by
  induction h with
  | nil =>
    refine (total_eq_zero fun t => ?_).symm
    simp only [start]
    cases role t <;> rfl
  | @snoc as tr s h t c m l es hs ih =>
    have h1 := steps_step hs
    have h2 := total_update steps s.loc t l
    simp only [List.length_append, List.length_singleton, St.move_loc]
    omega

omit [Fintype T] in
/-- a thread makes at most `loops` iterations -/
theorem Done.steps_le {t : T} {l : Loc} (h : Done loops t tr l) (hr : roleOf l = role t) :
    steps l ≤ (role t).isProducer * (9 * loops.toNat) + (role t).isConsumer * (10 * loops.toNat) := by
  rw [← hr]
  cases l with
  | producer i p =>
    have h1 := h.1
    cases p with
    | put p =>
      simp only [Loc.index, Loc.busy] at h1
      cases p <;> simp only [steps, roleOf, Role.isProducer, Role.isConsumer] <;> omega
    | _ =>
      simp only [Loc.index, Loc.busy] at h1
      simp only [steps, roleOf, Role.isProducer, Role.isConsumer]
      omega
  | consumer i p =>
    have h1 := h.1
    cases p with
    | get p =>
      simp only [Loc.index, Loc.busy] at h1
      cases p <;> simp only [steps, roleOf, Role.isProducer, Role.isConsumer] <;> omega
    | _ =>
      simp only [Loc.index, Loc.busy] at h1
      simp only [steps, roleOf, Role.isProducer, Role.isConsumer]
      omega

omit [Fintype T] in
/-- what a thread has done that cannot go on: `loops` iterations, or fewer and it is held up -/
theorem Done.stuck {t : T} {m : Mem} {l : Loc} (h : Done loops t tr l) (hs : Stuck loops m l) :
    match roleOf l with
    | .producer => gotsBy t tr = [] ∧ printedBy t tr = gotsBy t tr ∧
        ((putsBy t tr).length = loops.toNat ∧ putsBy t tr = (List.range loops.toNat).map (fun k : ℕ => (k : ℤ)) ∨
          (putsBy t tr).length < loops.toNat ∧ m.empty = 0)
    | .consumer => putsBy t tr = [] ∧ printedBy t tr = gotsBy t tr ∧
        ((gotsBy t tr).length = loops.toNat ∨ (gotsBy t tr).length < loops.toNat ∧ m.full = 0) := by
  obtain ⟨hi, h⟩ := h
  cases l with
  | producer i p =>
    obtain ⟨h1, h2, h3⟩ := h
    refine ⟨h2, h3.trans h2.symm, ?_⟩
    rcases hs with hs | ⟨j, he, hempty⟩ | ⟨j, he, -⟩
    · cases p with
      | test =>
        have hle : loops ≤ i := hs
        obtain rfl : i = loops.toNat := by simp only [Loc.index, Loc.busy] at hi; omega
        exact .inl ⟨by rw [h1]; simp [Producer.called], h1⟩
      | _ => cases hs
    · cases he
      refine .inr ⟨?_, hempty⟩
      rw [h1]
      simp only [Loc.index, Loc.busy, Producer.called, List.length_map, List.length_range] at hi ⊢
      omega
    · cases he
  | consumer i p =>
    obtain ⟨h1, h2, h3⟩ := h
    rcases hs with hs | ⟨j, he, -⟩ | ⟨j, he, hfull⟩
    · cases p with
      | test =>
        have hle : loops ≤ i := hs
        simp only [Loc.index, Loc.busy] at hi
        simp only [Consumer.holds, List.append_nil, List.length_nil] at h2 h3
        exact ⟨h1, h3, .inl (by omega)⟩
      | _ => cases hs
    · cases he
    · cases he
      simp only [Loc.index, Loc.busy] at hi
      simp only [Consumer.holds, List.append_nil, List.length_nil] at h2 h3
      exact ⟨h1, h3, .inr ⟨by omega, hfull⟩⟩

/-- the numbers of values, by how many iterations each thread has made -/
theorem stuck_counts (h : Run (prog loops) (start role) as tr s) (hno : ∀ t, ¬ CanStep (prog loops) s t) :
    (((puts tr).length = producers role * loops.toNat ∧
        ∀ t, role t = .producer → putsBy t tr = (List.range loops.toNat).map (fun k : ℕ => (k : ℤ))) ∨
      (puts tr).length < producers role * loops.toNat ∧ s.sh.empty = 0) ∧
    ((gots tr).length = consumers role * loops.toNat ∨
      (gots tr).length < consumers role * loops.toNat ∧ s.sh.full = 0) ∧
    ∀ t, printedBy t tr = gotsBy t tr := by
  obtain ⟨hstuck, -⟩ := tokens_of_stuck (run_inv h) hno
  have hdone : ∀ t, _ := fun t => (run_done h t).stuck (hstuck t)
  simp only [run_role h] at hdone
  have hputs : (puts tr).length = ∑ t, (putsBy t tr).length := by rw [puts_eq]; exact length_values _ tr
  have hgots : (gots tr).length = ∑ t, (gotsBy t tr).length := by rw [gots_eq]; exact length_values _ tr
  rw [hputs, hgots, producers, consumers, Finset.sum_mul, Finset.sum_mul]
  have hple : ∀ t, (putsBy t tr).length ≤ (role t).isProducer * loops.toNat := by
    intro t
    have ht := hdone t
    cases hr : role t with
    | producer =>
      rw [hr] at ht
      have := ht.2.2
      simp only [Role.isProducer]
      omega
    | consumer =>
      rw [hr] at ht
      rw [ht.1]
      exact Nat.zero_le _
  have hcle : ∀ t, (gotsBy t tr).length ≤ (role t).isConsumer * loops.toNat := by
    intro t
    have ht := hdone t
    cases hr : role t with
    | producer =>
      rw [hr] at ht
      rw [ht.1]
      exact Nat.zero_le _
    | consumer =>
      rw [hr] at ht
      have := ht.2.2
      simp only [Role.isConsumer]
      omega
  refine ⟨?_, ?_, ?_⟩
  · by_cases hall : ∀ t, (putsBy t tr).length = (role t).isProducer * loops.toNat
    · refine .inl ⟨Finset.sum_congr rfl fun t _ => hall t, fun t hr => ?_⟩
      have ht := hdone t
      have hlen := hall t
      rw [hr] at ht hlen
      simp only [Role.isProducer] at hlen
      rcases ht.2.2 with h1 | h1
      · exact h1.2
      · omega
    · push Not at hall
      obtain ⟨t, hne⟩ := hall
      have hlt := lt_of_le_of_ne (hple t) hne
      refine .inr ⟨Finset.sum_lt_sum (fun u _ => hple u) ⟨t, Finset.mem_univ t, hlt⟩, ?_⟩
      have ht := hdone t
      cases hr : role t with
      | producer =>
        rw [hr] at ht hlt
        simp only [Role.isProducer] at hlt
        rcases ht.2.2 with h1 | h1
        · omega
        · exact h1.2
      | consumer =>
        rw [hr] at hlt
        simp [Role.isProducer] at hlt
  · by_cases hall : ∀ t, (gotsBy t tr).length = (role t).isConsumer * loops.toNat
    · exact .inl (Finset.sum_congr rfl fun t _ => hall t)
    · push Not at hall
      obtain ⟨t, hne⟩ := hall
      have hlt := lt_of_le_of_ne (hcle t) hne
      refine .inr ⟨Finset.sum_lt_sum (fun u _ => hcle u) ⟨t, Finset.mem_univ t, hlt⟩, ?_⟩
      have ht := hdone t
      cases hr : role t with
      | producer =>
        rw [hr] at hlt
        simp [Role.isConsumer] at hlt
      | consumer =>
        rw [hr] at ht hlt
        simp only [Role.isConsumer] at hlt
        rcases ht.2.2 with h1 | h1
        · omega
        · exact h1.2
  · intro t
    have ht := hdone t
    cases hr : role t with
    | producer =>
      rw [hr] at ht
      exact ht.2.1
    | consumer =>
      rw [hr] at ht
      exact ht.2.1

/-- with nothing half done, what is in the buffer has been put and not taken -/
theorem stuck_tokens (h : Run (prog loops) (start role) as tr s) (hno : ∀ t, ¬ CanStep (prog loops) s t) :
    s.sh.empty + (puts tr).length = MAX + (gots tr).length ∧ s.sh.full + (gots tr).length = (puts tr).length := by
  have hi := run_inv h
  obtain ⟨hstuck, -⟩ := tokens_of_stuck hi hno
  have h1 : total reserving s.loc = 0 := total_eq_zero fun t => (hstuck t).idle.1
  have h2 : total putting s.loc = 0 := total_eq_zero fun t => (hstuck t).idle.2.1
  have h3 : total claiming s.loc = 0 := total_eq_zero fun t => (hstuck t).idle.2.2.1
  have h4 : total taking s.loc = 0 := total_eq_zero fun t => (hstuck t).idle.2.2.2
  have h5 := hi.empty
  have h6 := hi.full
  omega

/-- **Every run ends, and moves what it can.** A run has at most 9 steps for each iteration of a producer and 10 for
each of a consumer. Where it cannot go on, the consumers have taken as many values as the smaller side can move, the
producers have put what the consumers take and what fits into the buffer besides, and each consumer has printed the
values that it took, in that order. -/
theorem maximal_run (h : Run (prog loops) (start role) as tr s) :
    as.length ≤ producers role * (9 * loops.toNat) + consumers role * (10 * loops.toNat) ∧
    ((∀ t, ¬ CanStep (prog loops) s t) →
      (puts tr).length = min (producers role * loops.toNat) (consumers role * loops.toNat + MAX) ∧
      (gots tr).length = min (producers role * loops.toNat) (consumers role * loops.toNat) ∧
      ∀ t, printedBy t tr = gotsBy t tr) := by
  refine ⟨?_, fun hno => ?_⟩
  · rw [run_steps h, producers, consumers, Finset.sum_mul, Finset.sum_mul, ← Finset.sum_add_distrib]
    exact Finset.sum_le_sum fun t _ => (run_done h t).steps_le (run_role h t)
  · obtain ⟨h1, h2, h3⟩ := stuck_counts h hno
    obtain ⟨h4, h5⟩ := stuck_tokens h hno
    have hmax : 0 < MAX := by decide
    refine ⟨?_, ?_, h3⟩
    · rcases h1 with ⟨h1, -⟩ | h1 <;> omega
    · rcases h1 with ⟨h1, -⟩ | h1 <;> omega

/-- two producers of one value and a consumer of one value: one of the two stays in the buffer -/
theorem maximal_run_three :
    ∃ as tr s, Run (prog 1) (start fun t : Fin 3 => if t = 2 then .consumer else .producer) as tr s ∧
      (∀ t, ¬ CanStep (prog 1) s t) ∧ (puts tr).length = 2 ∧ (gots tr).length = 1 := by
  obtain ⟨s, tr, h, hl⟩ := exec_any_run (prog 1) (start fun t : Fin 3 => if t = 2 then .consumer else .producer)
    ((List.replicate 9 (0 : Fin 3) ++ List.replicate 10 2 ++ List.replicate 9 1).map fun t => (t, ()))
    (fun s _ => ∀ t, s.loc t = if t = 2 then .consumer 1 .test else .producer 1 .test) (by decide +kernel)
  have hno : ∀ t, ¬ CanStep (prog 1) s t := by
    rintro t ⟨c, hc⟩
    have ht := hl t
    split_ifs at ht <;> simp [prog, ht, producer, consumer] at hc
  have hmax := (maximal_run h).2 hno
  exact ⟨_, tr, s, h, hno, hmax.1, hmax.2.1⟩

/-- **As many consumers as producers.** Where a run cannot go on, all values that were put have been taken, in the order
in which they were put, and each of 0, ..., `loops - 1` has been printed once for each producer, nothing else. -/
theorem balanced_run (h : Run (prog loops) (start role) as tr s) (hno : ∀ t, ¬ CanStep (prog loops) s t)
    (hbal : producers role = consumers role) :
    gots tr = puts tr ∧
    ∀ v, (values Event.printedOf tr).count v = if 0 ≤ v ∧ v < loops then producers role else 0 := by
  obtain ⟨h1, h2, h3⟩ := stuck_counts h hno
  obtain ⟨h4, h5⟩ := stuck_tokens h hno
  have hmax : 0 < MAX := by decide
  rw [← hbal] at h2
  have hlen : (gots tr).length = (puts tr).length := by omega
  have hall : ∀ t, role t = .producer → putsBy t tr = (List.range loops.toNat).map (fun k : ℕ => (k : ℤ)) := by
    rcases h1 with h1 | h1
    · exact h1.2
    · omega
  have hgots : gots tr = puts tr := (run_inv h).order.eq_of_length hlen
  refine ⟨hgots, fun v => ?_⟩
  -- the printed values are those taken, these are those put, and those are the ranges of the producers
  have hprint : (values Event.printedOf tr).count v = (puts tr).count v := by
    rw [← hgots, gots_eq, List.count_eq_countP, List.count_eq_countP, countP_values, countP_values]
    exact Finset.sum_congr rfl fun t _ => congrArg _ (h3 t)
  rw [hprint, puts_eq, List.count_eq_countP, countP_values]
  have hone : ∀ t, (valuesBy Event.putOf t tr).countP (· == v) =
      if 0 ≤ v ∧ v < loops then (role t).isProducer else 0 := by
    intro t
    have hcase : (valuesBy Event.putOf t tr) = if role t matches .producer then
        (List.range loops.toNat).map (fun k : ℕ => (k : ℤ)) else [] := by
      have hd := (run_done h t).2
      have hr := run_role h t
      cases hrole : role t with
      | producer => exact hall t hrole
      | consumer =>
        rw [hrole] at hr
        cases hl : s.loc t with
        | producer i p =>
          rw [hl] at hr
          cases hr
        | consumer i p =>
          rw [hl] at hd
          exact hd.1
    rw [hcase]
    cases hrole : role t with
    | consumer => simp [Role.isProducer]
    | producer =>
      have hnd : ((List.range loops.toNat).map (fun k : ℕ => (k : ℤ))).Nodup :=
        List.nodup_range.map Nat.cast_injective
      have hmem : v ∈ (List.range loops.toNat).map (fun k : ℕ => (k : ℤ)) ↔ 0 ≤ v ∧ v < loops := by
        simp only [List.mem_map, List.mem_range]
        refine ⟨?_, fun hv => ⟨v.toNat, by omega, by omega⟩⟩
        rintro ⟨k, hk, rfl⟩
        omega
      change List.count v ((List.range loops.toNat).map (fun k : ℕ => (k : ℤ))) = _
      by_cases hv : 0 ≤ v ∧ v < loops
      · rw [if_pos hv]
        exact List.count_eq_one_of_mem hnd (hmem.2 hv)
      · rw [if_neg hv]
        exact List.count_eq_zero_of_not_mem fun h => hv (hmem.1 h)
  rw [Finset.sum_congr rfl fun t _ => hone t]
  split_ifs
  · rfl
  · exact Finset.sum_const_zero

/-- a producer and a consumer of two values -/
theorem balanced_run_two :
    ∃ as tr s, Run (prog 2) (start fun t : Fin 2 => if t = 0 then .producer else .consumer) as tr s ∧
      gots tr = puts tr ∧ (values Event.printedOf tr).count 1 = 1 := by
  obtain ⟨s, tr, h, hl⟩ := exec_any_run (prog 2) (start fun t : Fin 2 => if t = 0 then .producer else .consumer)
    ((List.replicate 18 (0 : Fin 2) ++ List.replicate 20 1).map fun t => (t, ()))
    (fun s _ => ∀ t, s.loc t = if t = 0 then .producer 2 .test else .consumer 2 .test) (by decide +kernel)
  have hno : ∀ t, ¬ CanStep (prog 2) s t := by
    rintro t ⟨c, hc⟩
    have ht := hl t
    split_ifs at ht <;> simp [prog, ht, producer, consumer] at hc
  have hbal := balanced_run h hno (by decide)
  exact ⟨_, tr, s, h, hbal.1, hbal.2 1⟩

end Runs

end OsPractice.Buffer
