/-
The no-starvation reader/writer lock refines the plain one: every trace of calls and returns of
`sema/reader-writer-nostarve.c` is a trace of `sema/reader-writer.c` with the same client.

The plain lock is run lazily (`lazyPhase`): a call is made when it is made, and its code is run in one go when it
returns. One step comes earlier, the post of `writelock` by the last reader, because a writer may get in between that
post and the return of the reader's release: there the plain release runs up to its own post. The `fair_lock` steps are
stuttering.

Results:
- `simulate_step`: the step-by-step simulation;
- `nostarve_refines`: trace inclusion, for any client;
- `nostarve_trace_plain`: the same for any lists of read and write calls, with the holders at the end.
-/
import OsPractice.Sema.ReaderWriterNostarve

namespace OsPractice.ReaderWriterRefine

open Interleave LockClient RwImpl Semaphore

/-! ## The plain lock running alone through a call -/

theorem solo_acquireRead {v w : ℕ} {r : ℤ} (hw : r = 0 → 0 < w) :
    ∃ lk', Solo ReaderWriter.rwlock.impl.acquireCode ⟨v + 1, w, r⟩ (.read .waitLock) lk' (.inr .read) := by
  have h1 : ReaderWriter.rwlock.acquireReadlock ⟨v + 1, w, r⟩ .waitLock = some (⟨v, w, r⟩, some .loadReaders) := by
    simp [ReaderWriter.rwlock, ReaderWriter.rwlockAcquireReadlock]
  have h2 : ReaderWriter.rwlock.acquireReadlock ⟨v, w, r⟩ .loadReaders =
      some (⟨v, w, r⟩, some (.storeReaders r)) := rfl
  have h3 : ReaderWriter.rwlock.acquireReadlock ⟨v, w, r⟩ (.storeReaders r) =
      some (⟨v, w, r + 1⟩, some .testReaders) := rfl
  by_cases hr : r = 0
  · obtain ⟨w, rfl⟩ := Nat.exists_eq_add_one_of_ne_zero (Nat.pos_iff_ne_zero.1 (hw hr))
    have h4 : ReaderWriter.rwlock.acquireReadlock ⟨v, w + 1, r + 1⟩ .testReaders =
        some (⟨v, w + 1, r + 1⟩, some .waitWritelock) := by
      simp [ReaderWriter.rwlock, ReaderWriter.rwlockAcquireReadlock, hr]
    have h5 : ReaderWriter.rwlock.acquireReadlock ⟨v, w + 1, r + 1⟩ .waitWritelock =
        some (⟨v, w, r + 1⟩, some .postLock) := by
      simp [ReaderWriter.rwlock, ReaderWriter.rwlockAcquireReadlock]
    have h6 : ReaderWriter.rwlock.acquireReadlock ⟨v, w, r + 1⟩ .postLock = some (⟨v + 1, w, r + 1⟩, none) := rfl
    exact ⟨_, acquireRead_more h1 (acquireRead_more h2 (acquireRead_more h3 (acquireRead_more h4
      (acquireRead_more h5 (acquireRead_return h6)))))⟩
  · have h4 : ReaderWriter.rwlock.acquireReadlock ⟨v, w, r + 1⟩ .testReaders =
        some (⟨v, w, r + 1⟩, some .postLock) := by
      simp [ReaderWriter.rwlock, ReaderWriter.rwlockAcquireReadlock, hr]
    have h5 : ReaderWriter.rwlock.acquireReadlock ⟨v, w, r + 1⟩ .postLock = some (⟨v + 1, w, r + 1⟩, none) := rfl
    exact ⟨_, acquireRead_more h1 (acquireRead_more h2 (acquireRead_more h3 (acquireRead_more h4
      (acquireRead_return h5))))⟩

/-- up to the test of `readers` in release -/
theorem solo_releaseTest (v w : ℕ) (r : ℤ) :
    Solo ReaderWriter.rwlock.impl.releaseCode ⟨v + 1, w, r⟩ (.read .waitLock) ⟨v, w, r - 1⟩
      (.inl (.read .testReaders)) := by
  have h1 : ReaderWriter.rwlock.releaseReadlock ⟨v + 1, w, r⟩ .waitLock = some (⟨v, w, r⟩, some .loadReaders) := by
    simp [ReaderWriter.rwlock, ReaderWriter.rwlockReleaseReadlock]
  have h2 : ReaderWriter.rwlock.releaseReadlock ⟨v, w, r⟩ .loadReaders =
      some (⟨v, w, r⟩, some (.storeReaders r)) := rfl
  have h3 : ReaderWriter.rwlock.releaseReadlock ⟨v, w, r⟩ (.storeReaders r) =
      some (⟨v, w, r - 1⟩, some .testReaders) := rfl
  exact (releaseRead_next h1).trans ((releaseRead_next h2).trans (releaseRead_next h3))

/-- the last reader runs up to its post of `lock` -/
theorem solo_releaseLast (v w : ℕ) :
    Solo ReaderWriter.rwlock.impl.releaseCode ⟨v + 1, w, 1⟩ (.read .waitLock) ⟨v, w + 1, 1 - 1⟩
      (.inl (.read .postLock)) := by
  have h4 : ReaderWriter.rwlock.releaseReadlock ⟨v, w, 1 - 1⟩ .testReaders =
      some (⟨v, w, 1 - 1⟩, some .postWritelock) := rfl
  have h5 : ReaderWriter.rwlock.releaseReadlock ⟨v, w, 1 - 1⟩ .postWritelock =
      some (⟨v, w + 1, 1 - 1⟩, some .postLock) := rfl
  exact (solo_releaseTest v w 1).trans ((releaseRead_next h4).trans (releaseRead_next h5))

theorem solo_releaseRead (v w : ℕ) (r : ℤ) :
    ∃ lk', Solo ReaderWriter.rwlock.impl.releaseCode ⟨v + 1, w, r⟩ (.read .waitLock) lk' (.inr .read) := by
  by_cases hr : r = 1
  · subst hr
    have h6 : ReaderWriter.rwlock.releaseReadlock ⟨v, w + 1, 1 - 1⟩ .postLock =
        some (⟨v + 1, w + 1, 1 - 1⟩, none) := rfl
    exact ⟨_, (solo_releaseLast v w).trans (releaseRead_return h6)⟩
  · have h4 : ReaderWriter.rwlock.releaseReadlock ⟨v, w, r - 1⟩ .testReaders =
        some (⟨v, w, r - 1⟩, some .postLock) := by
      have : r - 1 ≠ 0 := by omega
      simp [ReaderWriter.rwlock, ReaderWriter.rwlockReleaseReadlock, this]
    have h5 : ReaderWriter.rwlock.releaseReadlock ⟨v, w, r - 1⟩ .postLock = some (⟨v + 1, w, r - 1⟩, none) := rfl
    exact ⟨_, (solo_releaseTest v w r).trans ((releaseRead_next h4).trans (releaseRead_return h5))⟩

theorem eq_of_free {lk : ReaderWriter.Rwlock} (h : lk.lock = 1) : ⟨0 + 1, lk.writelock, lk.readers⟩ = lk := by
  obtain ⟨v, w, r⟩ := lk
  cases h
  rfl

/-! ## The simulation relation -/

/-- the phase of the plain lock's thread, `r` being the reader count of the no-starvation lock -/
def lazyPhase (r : ℤ) : ReaderWriterNostarve.RwPhase → ReaderWriter.RwPhase
  | .out => .out
  | .acquiring (.read _) => .acquiring (.read .waitLock)
  | .acquiring (.write _) => .acquiring (.write .waitWritelock)
  | .holding m => .holding m
  | .releasing (.read .postReadlock) => .releasing (.read (if r = 0 then .postLock else .waitLock))
  | .releasing (.read _) => .releasing (.read .waitLock)
  | .releasing (.write _) => .releasing (.write .postWritelock)

theorem lazyPhase_inSection {r : ℤ} {φ : ReaderWriterNostarve.RwPhase}
    (h : 0 < ReaderWriter.inSection (lazyPhase r φ)) : φ = .releasing (.read .postReadlock) ∧ r = 0 := by
  cases φ with
  | out => exact absurd h (Nat.lt_irrefl 0)
  | acquiring p => cases p <;> exact absurd h (Nat.lt_irrefl 0)
  | holding m => cases m <;> exact absurd h (Nat.lt_irrefl 0)
  | releasing p =>
    cases p with
    | read p =>
      cases p with
      | postReadlock =>
        refine ⟨rfl, ?_⟩
        by_contra hr
        simp [lazyPhase, hr, ReaderWriter.inSection] at h
      | _ => exact absurd h (Nat.lt_irrefl 0)
    | write p => exact absurd h (Nat.lt_irrefl 0)

theorem lazyPhase_writing {r : ℤ} {φ : ReaderWriterNostarve.RwPhase}
    (h : 0 < ReaderWriter.writing (lazyPhase r φ)) : ReaderWriterNostarve.hasFair φ = 1 := by
  cases φ with
  | out => exact absurd h (Nat.lt_irrefl 0)
  | acquiring p => cases p <;> exact absurd h (Nat.lt_irrefl 0)
  | holding m => cases m <;> first | rfl | exact absurd h (Nat.lt_irrefl 0)
  | releasing p =>
    cases p with
    | read p => cases p <;> exact absurd h (Nat.lt_irrefl 0)
    | write p => rfl

/-- inside an acquire the plain thread has made the call and nothing else -/
theorem lazyPhase_acquiring {x x' : ReaderWriterNostarve.Rwlock} {r r' : ℤ}
    {p p' : Acquire ReaderWriterNostarve.AcquireReadlock ReaderWriterNostarve.AcquireWritelock}
    (h : ReaderWriterNostarve.rwlock.impl.acquireCode () x p = some (x', .inl p')) :
    lazyPhase r' (.acquiring p') = lazyPhase r (.acquiring p) := by
  cases p with
  | read p =>
    obtain ⟨y, -, h2⟩ := Option.map_eq_some_iff.1 h
    obtain ⟨q, -, rfl⟩ := lift_inl h2
    rfl
  | write p =>
    obtain ⟨y, -, h2⟩ := Option.map_eq_some_iff.1 h
    obtain ⟨q, -, rfl⟩ := lift_inl h2
    rfl

/-- counted in the plain lock: holding, or inside a release that is not over -/
theorem lazyPhase_counted {r : ℤ} {φ : ReaderWriterNostarve.RwPhase}
    (h : 0 < ReaderWriter.counted (lazyPhase r φ)) :
    ReaderWriter.counted (ReaderWriterNostarve.plainPhase φ) = 1 ∨
      φ = .releasing (.read .testReaders) ∨ φ = .releasing (.read .postWritelock) ∨
      φ = .releasing (.read .postReadlock) ∧ r ≠ 0 := by
  cases φ with
  | out => exact absurd h (Nat.lt_irrefl 0)
  | acquiring p => cases p <;> exact absurd h (Nat.lt_irrefl 0)
  | holding m => cases m <;> first | exact .inl rfl | exact absurd h (Nat.lt_irrefl 0)
  | releasing p =>
    cases p with
    | read p =>
      cases p with
      | testReaders => exact .inr (.inl rfl)
      | postWritelock => exact .inr (.inr (.inl rfl))
      | postReadlock =>
        refine .inr (.inr (.inr ⟨rfl, ?_⟩))
        rintro rfl
        exact absurd h (Nat.lt_irrefl 0)
      | _ => exact .inl rfl
    | write p => exact absurd h (Nat.lt_irrefl 0)

variable {T : Type} [Fintype T] [DecidableEq T] {D B X : Type}

structure Rel (s : St T (Shared ReaderWriterNostarve.Rwlock D) (ReaderWriterNostarve.RwLoc B))
    (u : St T (Shared ReaderWriter.Rwlock D) (ReaderWriter.RwLoc B)) : Prop where
  nostarve : ReaderWriterNostarve.Inv s.sh.lock (phases s)
  plain : ReaderWriter.Inv u.sh.lock (phases u)
  data : u.sh.data = s.sh.data
  loc : ∀ t, u.loc t = ⟨lazyPhase s.sh.lock.readers (s.loc t).phase, (s.loc t).client⟩

omit [DecidableEq T] in
theorem Rel.phases_eq {s : St T (Shared ReaderWriterNostarve.Rwlock D) (ReaderWriterNostarve.RwLoc B)}
    {u : St T (Shared ReaderWriter.Rwlock D) (ReaderWriter.RwLoc B)} (h : Rel s u) (t : T) :
    phases u t = lazyPhase s.sh.lock.readers (phases s t) := by
  simp only [phases, h.loc]

/-- the other threads' phases do not move: only `postReadlock` looks at `readers`, and it keeps them unchanged -/
theorem lazyPhase_frame {lk lk' : ReaderWriterNostarve.Rwlock} (ph : T → ReaderWriterNostarve.RwPhase) {t v : T}
    {φ : ReaderWriterNostarve.RwPhase} (h : ReaderWriterNostarve.Inv lk ph)
    (hs : RwStep ReaderWriterNostarve.rwlock lk (ph t) lk' φ) (hne : v ≠ t) :
    lazyPhase lk'.readers (ph v) = lazyPhase lk.readers (ph v) := by
  by_cases hv : ph v = .releasing (.read .postReadlock)
  · rw [ReaderWriterNostarve.readers_eq h hs hne (by rw [hv]; rfl)]
  · cases hq : ph v with
    | releasing p =>
      cases p with
      | read p => cases p <;> first | rfl | exact absurd hq hv
      | write p => rfl
    | acquiring p => cases p <;> rfl
    | _ => rfl

section Simulation

variable {K : Client Mode D B X} {s : St T (Shared ReaderWriterNostarve.Rwlock D) (ReaderWriterNostarve.RwLoc B)}
  {u : St T (Shared ReaderWriter.Rwlock D) (ReaderWriter.RwLoc B)} {t : T} {c : Unit}
  {sh : Shared ReaderWriterNostarve.Rwlock D} {l : ReaderWriterNostarve.RwLoc B} {es : List (Event T Mode X)}

/-- a run of the plain lock that moves the same thread to the matching place keeps the relation -/
theorem Rel.move (hR : Rel s u) (hs : prog ReaderWriterNostarve.rwlock.impl K t c s.sh (s.loc t) = some (sh, l, es))
    (bs : List (T × Unit)) (lk' : ReaderWriter.Rwlock)
    (h : Run (prog ReaderWriter.rwlock.impl K) u bs es
      (u.move t ⟨lk', sh.data⟩ ⟨lazyPhase sh.lock.readers l.phase, l.client⟩)) :
    ∃ bs u', Run (prog ReaderWriter.rwlock.impl K) u bs es u' ∧ Rel (s.move t sh l) u' := by
  refine ⟨bs, _, h, ?_, ReaderWriter.inv_of_run h hR.plain, rfl, ?_⟩
  · exact step_lock_inv (J := ReaderWriterNostarve.Inv)
      (fun _ _ _ _ _ hi hs => ReaderWriterNostarve.inv_step hi (rw_step hs)) hR.nostarve hs
  · intro v
    by_cases hv : v = t
    · subst hv
      simp
    · simp only [St.move_loc, St.move_sh, Function.update_of_ne hv, hR.loc v]
      rcases (prog_step hs).phase with ⟨h1, -⟩ | h1
      · rw [h1]
      · have := lazyPhase_frame (phases s) hR.nostarve (rw_step h1) hv
        simp only [phases] at this
        rw [this]

omit [DecidableEq T] in
theorem Rel.sh_eq (hR : Rel s u) {x : ReaderWriterNostarve.Rwlock} {d : D} (hsh : s.sh = ⟨x, d⟩) :
    u.sh = ⟨u.sh.lock, d⟩ := by
  have h : u.sh.data = d := by rw [hR.data, hsh]
  rw [← h]

/-- a step that the plain lock does not see -/
theorem Rel.stutter (hR : Rel s u)
    (hs : prog ReaderWriterNostarve.rwlock.impl K t c s.sh (s.loc t) = some (sh, l, es)) (he : es = [])
    (hd : sh.data = s.sh.data) (hc : l.client = (s.loc t).client)
    (hp : lazyPhase sh.lock.readers l.phase = lazyPhase s.sh.lock.readers (s.loc t).phase) :
    ∃ bs u', Run (prog ReaderWriter.rwlock.impl K) u bs es u' ∧ Rel (s.move t sh l) u' := by
  refine hR.move hs [] u.sh.lock ?_
  rw [hp, hd, hc, ← hR.loc t, ← hR.data, he, St.move_eq_self]
  exact .nil

omit [DecidableEq T] in
/-- nobody is inside the section of the plain lock when there are readers, or when nobody is at `postReadlock` -/
theorem Rel.lock_free (hR : Rel s u)
    (h : s.sh.lock.readers ≠ 0 ∨ ∀ v, phases s v ≠ .releasing (.read .postReadlock)) : u.sh.lock.lock = 1 := by
  by_contra hl
  obtain ⟨v, hv⟩ := ReaderWriter.exists_inSection hR.plain hl
  rw [hR.phases_eq] at hv
  obtain ⟨h1, h2⟩ := lazyPhase_inSection (Nat.lt_of_lt_of_eq Nat.one_pos hv.symm)
  rcases h with h | h
  · exact h h2
  · exact h v h1

/-- while a thread that is not a writer owns `fair_lock` the plain lock has no writer -/
theorem Rel.no_writer (hR : Rel s u) (hf : ReaderWriterNostarve.hasFair (phases s t) = 1)
    (hw : ReaderWriter.writing (lazyPhase s.sh.lock.readers (phases s t)) = 0) :
    total ReaderWriter.writing (phases u) = 0 := total_eq_zero fun v => by
  rw [hR.phases_eq]
  by_contra hv
  have hfv := lazyPhase_writing (Nat.pos_of_ne_zero hv)
  obtain rfl := hR.nostarve.fair_unique (t := v) (u := t) (by omega) (by omega)
  exact hv hw

/-- when a writer can pass `writelock` in the no-starvation lock, it can in the plain lock -/
theorem Rel.writelock_pos (hR : Rel s u) (ht : phases s t = .acquiring (.write .waitWritelock))
    (hw : 0 < s.sh.lock.writelock) : 0 < u.sh.lock.writelock := by
  have hW : total ReaderWriter.writing (phases u) = 0 :=
    hR.no_writer (t := t) (by rw [ht]; rfl) (by rw [ht]; rfl)
  obtain ⟨hr, hb⟩ := ReaderWriterNostarve.readers_of_enabled hR.nostarve ht hw
  have hC : total ReaderWriter.counted (phases u) = 0 := total_eq_zero fun v => by
    rw [hR.phases_eq]
    by_contra hv
    rcases lazyPhase_counted (Nat.pos_of_ne_zero hv) with h1 | h1 | h1 | ⟨-, h1⟩
    · have h2 := le_total ReaderWriter.counted (fun v => ReaderWriterNostarve.plainPhase (phases s v)) v
      have h3 : s.sh.lock.readers = _ := hR.nostarve.plain.readers
      simp only [h1] at h2
      omega
    · exact (hb v).1 h1
    · exact (hb v).2 h1
    · exact h1 hr
  have hu0 := hR.plain.readers
  have htok : ReaderWriter.token u.sh.lock.readers = 0 := if_neg (by omega)
  by_cases hl : u.sh.lock.lock = 1
  · have := hR.plain.free hl
    omega
  · obtain ⟨v, hv⟩ := ReaderWriter.exists_inSection hR.plain hl
    have hbv := hR.plain.busy v
    rw [hR.phases_eq] at hv hbv
    obtain ⟨h1, h2⟩ := lazyPhase_inSection (Nat.lt_of_lt_of_eq Nat.one_pos hv.symm)
    rw [h1, h2] at hbv
    simp only [lazyPhase, if_pos, ReaderWriter.Busy] at hbv
    omega

/-- the reader about to post `writelock` is the last one counted in the plain lock -/
theorem Rel.last_reader (hR : Rel s u) (ht : phases s t = .releasing (.read .postWritelock)) :
    s.sh.lock.readers = 0 ∧ u.sh.lock.lock = 1 ∧ u.sh.lock.readers = 1 := by
  have hp := hR.nostarve.plain
  have hr : s.sh.lock.readers = 0 := by
    have hb := hp.busy t
    simp only [ht] at hb
    exact hb.1
  have hone : ∀ v, v ≠ t → ReaderWriter.inSection (ReaderWriterNostarve.plainPhase (phases s v)) = 0 := fun v hv => by
    have h1 := add_le_total ReaderWriter.inSection (fun v => ReaderWriterNostarve.plainPhase (phases s v)) hv
    have h2 : ReaderWriter.inSection (ReaderWriterNostarve.plainPhase (phases s t)) = 1 := by rw [ht]; rfl
    have := hp.mutex
    omega
  refine ⟨hr, hR.lock_free (.inr ?_), ?_⟩
  · intro v hv
    have hne : v ≠ t := by
      rintro rfl
      rw [ht] at hv
      cases hv
    have := hone v hne
    rw [hv] at this
    cases this
  · have hC : total ReaderWriter.counted (phases u) = ReaderWriter.counted (phases u t) :=
      total_eq_single t fun v hv => by
        rw [hR.phases_eq]
        by_contra hc
        have h0 := hone v hv
        rcases lazyPhase_counted (Nat.pos_of_ne_zero hc) with h1 | h1 | h1 | ⟨-, h1⟩
        · have h2 := le_total ReaderWriter.counted (fun v => ReaderWriterNostarve.plainPhase (phases s v)) v
          have h3 : s.sh.lock.readers = _ := hp.readers
          simp only [h1] at h2
          omega
        · rw [h1] at h0; cases h0
        · rw [h1] at h0; cases h0
        · exact h1 hr
    have hct : ReaderWriter.counted (phases u t) = 1 := by rw [hR.phases_eq, ht]; rfl
    rw [hR.plain.readers, hC, hct]
    rfl

/-- the return of an acquire: the plain lock runs through its own acquire -/
theorem simulate_acquired (hR : Rel s u) {x x' : ReaderWriterNostarve.Rwlock} {d : D} {b : B}
    {p : Acquire ReaderWriterNostarve.AcquireReadlock ReaderWriterNostarve.AcquireWritelock} {m : Mode}
    (h : ReaderWriterNostarve.rwlock.impl.acquireCode () x p = some (x', .inr m)) (hsh : s.sh = ⟨x, d⟩)
    (hl : s.loc t = ⟨.acquiring p, b⟩) :
    ∃ bs lk', Run (prog ReaderWriter.rwlock.impl K) u bs [.acquired t m] (u.move t ⟨lk', d⟩ ⟨.holding m, b⟩) := by
  have hu := hR.sh_eq hsh
  have hloc := hR.loc t
  have hph : phases s t = .acquiring p := by simp only [phases, hl]
  rw [hl] at hloc
  cases p with
  | read p =>
    cases p with
    | postFair =>
      cases h
      have h1 : s.sh.lock.readers ≠ 0 := by
        have h2 := le_total ReaderWriter.counted (fun v => ReaderWriterNostarve.plainPhase (phases s v)) t
        have h3 : s.sh.lock.readers = _ := hR.nostarve.plain.readers
        have h4 : ReaderWriter.counted (ReaderWriterNostarve.plainPhase (phases s t)) = 1 := by rw [hph]; rfl
        omega
      have hlk := hR.lock_free (.inl h1)
      have hW := hR.no_writer (t := t) (by rw [hph]; rfl) (by rw [hph]; rfl)
      have hfree := hR.plain.free hlk
      obtain ⟨lk', hsolo⟩ := solo_acquireRead (v := 0) (w := u.sh.lock.writelock) (r := u.sh.lock.readers) fun h0 => by
        have : ReaderWriter.token u.sh.lock.readers = 0 := if_neg (by omega)
        omega
      rw [eq_of_free hlk] at hsolo
      obtain ⟨bs, hrun⟩ := hsolo.run_acquire K hu hloc
      exact ⟨bs, lk', hrun⟩
    | _ => simp [ReaderWriterNostarve.rwlock, RwFunctions.impl, ReaderWriterNostarve.rwlockAcquireReadlock, lift] at h
  | write p =>
    cases p with
    | waitWritelock =>
      simp [ReaderWriterNostarve.rwlock, RwFunctions.impl, ReaderWriterNostarve.rwlockAcquireWritelock, lift] at h
      obtain ⟨v, hv, -, rfl⟩ := h
      have hpos := hR.writelock_pos hph (by rw [hsh]; exact Nat.lt_of_lt_of_eq (Nat.succ_pos v) hv.symm)
      obtain ⟨w, hw⟩ := Nat.exists_eq_add_one_of_ne_zero (Nat.pos_iff_ne_zero.1 hpos)
      have hsolo : Solo ReaderWriter.rwlock.impl.acquireCode u.sh.lock (.write .waitWritelock)
          { u.sh.lock with writelock := w } (.inr .write) :=
        .one (c := ()) (by simp [ReaderWriter.rwlock, RwFunctions.impl, ReaderWriter.rwlockAcquireWritelock, lift, hw])
      obtain ⟨bs, hrun⟩ := hsolo.run_acquire K hu hloc
      exact ⟨bs, _, hrun⟩
    | waitFair =>
      simp [ReaderWriterNostarve.rwlock, RwFunctions.impl, ReaderWriterNostarve.rwlockAcquireWritelock, lift] at h

/-- the return of a release: the plain lock makes the rest of its own release -/
theorem simulate_released (hR : Rel s u) {x x' : ReaderWriterNostarve.Rwlock} {d : D} {b : B}
    {p : Release ReaderWriterNostarve.ReleaseReadlock ReaderWriterNostarve.ReleaseWritelock} {m : Mode}
    (h : ReaderWriterNostarve.rwlock.impl.releaseCode () x p = some (x', .inr m)) (hsh : s.sh = ⟨x, d⟩)
    (hl : s.loc t = ⟨.releasing p, b⟩) :
    ∃ bs lk', Run (prog ReaderWriter.rwlock.impl K) u bs [.released t m] (u.move t ⟨lk', d⟩ ⟨.out, K.after b⟩) := by
  have hu := hR.sh_eq hsh
  have hloc := hR.loc t
  rw [hl] at hloc
  cases p with
  | read p =>
    cases p with
    | postReadlock =>
      cases h
      by_cases hr : s.sh.lock.readers = 0
      · -- the plain release has already run up to its last step
        simp only [lazyPhase, if_pos hr] at hloc
        have hsolo : Solo ReaderWriter.rwlock.impl.releaseCode u.sh.lock (.read .postLock)
            { u.sh.lock with lock := u.sh.lock.lock + 1 } (.inr .read) := .one (c := ()) rfl
        obtain ⟨bs, hrun⟩ := (hsolo.run_release K hu hloc).1 .read rfl
        exact ⟨bs, _, hrun⟩
      · simp only [lazyPhase, if_neg hr] at hloc
        have hlk := hR.lock_free (.inl hr)
        obtain ⟨lk', hsolo⟩ := solo_releaseRead 0 u.sh.lock.writelock u.sh.lock.readers
        rw [eq_of_free hlk] at hsolo
        obtain ⟨bs, hrun⟩ := (hsolo.run_release K hu hloc).1 .read rfl
        exact ⟨bs, lk', hrun⟩
    | _ => simp [ReaderWriterNostarve.rwlock, RwFunctions.impl, ReaderWriterNostarve.rwlockReleaseReadlock, lift] at h
  | write p =>
    cases p with
    | postFair =>
      cases h
      have hsolo : Solo ReaderWriter.rwlock.impl.releaseCode u.sh.lock (.write .postWritelock)
          { u.sh.lock with writelock := u.sh.lock.writelock + 1 } (.inr .write) := .one (c := ()) rfl
      obtain ⟨bs, hrun⟩ := (hsolo.run_release K hu hloc).1 .write rfl
      exact ⟨bs, _, hrun⟩
    | postWritelock =>
      simp [ReaderWriterNostarve.rwlock, RwFunctions.impl, ReaderWriterNostarve.rwlockReleaseWritelock, lift] at h

/-- a step inside a release: the plain lock waits, except when the last reader posts `writelock` -/
theorem simulate_releasing (hR : Rel s u) {x x' : ReaderWriterNostarve.Rwlock} {d : D} {b : B}
    {p p' : Release ReaderWriterNostarve.ReleaseReadlock ReaderWriterNostarve.ReleaseWritelock}
    (h : ReaderWriterNostarve.rwlock.impl.releaseCode () x p = some (x', .inl p')) (hsh : s.sh = ⟨x, d⟩)
    (hl : s.loc t = ⟨.releasing p, b⟩) :
    lazyPhase x'.readers (.releasing p') = lazyPhase x.readers (.releasing p) ∨
    ∃ bs lk', Run (prog ReaderWriter.rwlock.impl K) u bs []
      (u.move t ⟨lk', d⟩ ⟨lazyPhase x'.readers (.releasing p'), b⟩) := by
  cases p with
  | read p =>
    cases p with
    | postWritelock =>
      cases h
      have hu := hR.sh_eq hsh
      have hloc := hR.loc t
      rw [hl] at hloc
      obtain ⟨h0, h1, h2⟩ := hR.last_reader (t := t) (by simp only [phases, hl])
      have hsolo := solo_releaseLast 0 u.sh.lock.writelock
      rw [← h2, eq_of_free h1] at hsolo
      obtain ⟨bs, hrun⟩ := (hsolo.run_release K hu hloc).2 _ rfl
      have hx : x.readers = 0 := by rw [hsh] at h0; exact h0
      rw [show lazyPhase x.readers (.releasing (.read .postReadlock)) = .releasing (.read .postLock) by
        simp [lazyPhase, hx]]
      exact .inr ⟨bs, _, hrun⟩
    | testReaders =>
      simp [ReaderWriterNostarve.rwlock, RwFunctions.impl, ReaderWriterNostarve.rwlockReleaseReadlock, lift] at h
      obtain ⟨rfl, rfl⟩ := h
      refine .inl ?_
      split_ifs with hr
      · rfl
      · simp [lazyPhase, hr]
    | waitReadlock =>
      simp [ReaderWriterNostarve.rwlock, RwFunctions.impl, ReaderWriterNostarve.rwlockReleaseReadlock, lift] at h
      obtain ⟨v, -, -, rfl⟩ := h
      exact .inl rfl
    | loadReaders => cases h; exact .inl rfl
    | storeReaders tmp => cases h; exact .inl rfl
    | postReadlock => cases h
  | write p =>
    cases p with
    | postWritelock => cases h; exact .inl rfl
    | postFair => cases h

/-- **Simulation.** A step of the no-starvation lock is matched by steps of the plain lock with the same events. -/
theorem simulate_step (hR : Rel s u)
    (hs : prog ReaderWriterNostarve.rwlock.impl K t c s.sh (s.loc t) = some (sh, l, es)) :
    ∃ bs u', Run (prog ReaderWriter.rwlock.impl K) u bs es u' ∧ Rel (s.move t sh l) u' := by
  have hst := prog_step hs
  have hloc := hR.loc t
  generalize hsh : s.sh = x0 at hst
  generalize hl : s.loc t = l0 at hst
  rw [hl] at hloc
  cases hst with
  | @call x d b m b' h =>
    refine hR.move hs [(t, ())] u.sh.lock (Run.single ?_)
    rw [hloc, hR.sh_eq hsh]
    cases m <;> simp only [prog, lazyPhase, h] <;> rfl
  | @acquiring c x x' d b p p' h =>
    refine hR.stutter hs rfl (by rw [hsh]) (by rw [hl]) ?_
    rw [hl]
    exact lazyPhase_acquiring h
  | @acquired c x x' d b p m h =>
    obtain ⟨bs, lk', hrun⟩ := simulate_acquired (K := K) hR h hsh hl
    refine hR.move hs bs lk' ?_
    cases m <;> exact hrun
  | @body x d d' b b' m xs h =>
    refine hR.move hs [(t, ())] u.sh.lock (Run.single ?_)
    rw [hloc, hR.sh_eq hsh]
    cases m <;> simp only [prog, lazyPhase, h]
  | @release x d b m h =>
    refine hR.move hs [(t, ())] u.sh.lock (Run.single ?_)
    rw [hloc, hR.sh_eq hsh]
    cases m <;> simp only [prog, lazyPhase, h] <;> rfl
  | @releasing c x x' d b p p' h =>
    rcases simulate_releasing (K := K) hR h hsh hl with he | ⟨bs, lk', hrun⟩
    · exact hR.stutter hs rfl (by rw [hsh]) (by rw [hl]) (by rw [hl, hsh]; exact he)
    · exact hR.move hs _ _ hrun
  | @released c x x' d b p m h =>
    obtain ⟨bs, lk', hrun⟩ := simulate_released (K := K) hR h hsh hl
    exact hR.move hs _ _ hrun

end Simulation

/-- **Refinement.** Every trace of the no-starvation lock under a client is a trace of the plain lock under it. -/
theorem nostarve_refines (K : Client Mode D B X) (d : D) (b : T → B) {as : List (T × Unit)}
    {tr : List (Event T Mode X)} {s : St T (Shared ReaderWriterNostarve.Rwlock D) (ReaderWriterNostarve.RwLoc B)}
    (h : Run (prog ReaderWriterNostarve.rwlock.impl K) (start ReaderWriterNostarve.rwlock.impl d b) as tr s) :
    ∃ bs u, Run (prog ReaderWriter.rwlock.impl K) (start ReaderWriter.rwlock.impl d b) bs tr u ∧ Rel s u := by
  have h0 : Rel (start ReaderWriterNostarve.rwlock.impl d b) (start ReaderWriter.rwlock.impl d b) :=
    ⟨ReaderWriterNostarve.inv_init, ReaderWriter.inv_init, rfl, fun _ => rfl⟩
  have hsim := h.simulate some (Q := prog ReaderWriter.rwlock.impl K) (R := Rel) h0 fun s u t c sh l es hR hs => by
    rw [List.filterMap_some]
    exact simulate_step hR hs
  rwa [List.filterMap_some] at hsim

omit [Fintype T] [DecidableEq T] in
theorem lazyPhase_holding {r : ℤ} {φ : ReaderWriterNostarve.RwPhase} {m : Mode} :
    lazyPhase r φ = .holding m ↔ φ = .holding m := by
  cases φ with
  | out => simp [lazyPhase]
  | acquiring p => cases p <;> simp [lazyPhase]
  | holding m => simp [lazyPhase]
  | releasing p =>
    cases p with
    | read p => cases p <;> simp [lazyPhase]
    | write p => simp [lazyPhase]

/-- **Trace inclusion.** Whatever lists of calls the threads make, the calls and returns of a run of the no-starvation
lock, in their order, are those of some run of the plain lock on the same lists, which ends with the same holders. -/
theorem nostarve_trace_plain (calls : T → List Mode) {as : List (T × Unit)} {tr : List (Event T Mode Empty)}
    {s : St T (Shared ReaderWriterNostarve.Rwlock Unit) (ReaderWriterNostarve.RwLoc (List Mode))}
    (h : Run (prog ReaderWriterNostarve.rwlock.impl (callList Mode))
      (start ReaderWriterNostarve.rwlock.impl () calls) as tr s) :
    ∃ bs u, Run (prog ReaderWriter.rwlock.impl (callList Mode)) (start ReaderWriter.rwlock.impl () calls) bs tr u ∧
      ∀ t m, phases u t = .holding m ↔ phases s t = .holding m := by
  obtain ⟨bs, u, hrun, hR⟩ := nostarve_refines (callList Mode) () calls h
  refine ⟨bs, u, hrun, ?_⟩
  intro t m
  rw [hR.phases_eq]
  exact lazyPhase_holding

/-- a writer that waits for a reader to leave -/
theorem nostarve_trace_plain_two :
    ∃ bs u, Run (prog ReaderWriter.rwlock.impl (callList Mode))
      (start ReaderWriter.rwlock.impl () fun t : Fin 2 => if t = 0 then [.read] else [.write]) bs
      [.acquiring 0 .read, .acquired 0 .read, .acquiring 1 .write, .releasing 0 .read, .acquired 1 .write,
        .released 0 .read, .releasing 1 .write, .released 1 .write] u := by
  obtain ⟨s, tr, h, htr⟩ := exec_any_run (prog ReaderWriterNostarve.rwlock.impl (callList Mode))
    (start ReaderWriterNostarve.rwlock.impl () fun t : Fin 2 => if t = 0 then [.read] else [.write])
    ([0, 0, 0, 0, 0, 0, 0, 0, 0, 1, 1, 0, 0, 0, 0, 0, 0, 1, 0, 1, 1, 1].map fun t => (t, ()))
    (fun _ tr => tr = [.acquiring 0 .read, .acquired 0 .read, .acquiring 1 .write, .releasing 0 .read,
      .acquired 1 .write, .released 0 .read, .releasing 1 .write, .released 1 .write]) (by decide +kernel)
  subst htr
  obtain ⟨bs, u, hrun, -⟩ := nostarve_trace_plain _ h
  exact ⟨bs, u, hrun⟩

end OsPractice.ReaderWriterRefine
