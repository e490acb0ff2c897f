/-
The walk of `nftw` without `FTW_PHYS`. Library: nothing here names a program.

The walk goes depth first through the directories that it finds, in the order of their entries, and calls a function
for each entry; links are followed. It goes to no directory twice. The system answers for each path whether `stat` and
`opendir` succeed: `stat` may say that there is nothing to be found (`ENOENT`, `EACCES`), and `opendir` that a directory
may not be read (`EACCES`); any other error ends the walk. The function that is called never ends it.

Results:
- `ftwDir_inv`: what each call preserves, a whole walk preserves;
- `nftw_found`: only directories that can be found are visited;
- `nftw_complete`: a walk that is neither ended nor refused anything visits all of them;
- `nftw_ok`: it is not ended if the system answers no error.
-/
import Mathlib.Tactic
import Mathlib.Data.Finset.Card

namespace OsPractice.Ftw

/-- what a system call says -/
inductive Answer where
  | ok
  /-- `EACCES`, and `ENOENT` for `stat` -/
  | denied
  /-- another error, as `ELOOP`, `ENOTDIR` or `ENAMETOOLONG` -/
  | error
  deriving DecidableEq, Repr

/-- what `stat` and `opendir` say at a path -/
structure System (ν : Type) where
  stat : List ν → Answer
  opendir : List ν → Answer

/-- the calls of the function so far, with `none` for what is no directory; and whether an error has ended the walk -/
structure Walk (ν ι : Type) where
  calls : List (List ν × Option ι)
  failed : Bool
  deriving DecidableEq, Repr

section

variable {ν ι : Type}

def Walk.call (w : Walk ν ι) (path : List ν) (c : Option ι) : Walk ν ι := { w with calls := w.calls ++ [(path, c)] }

def Walk.fail (w : Walk ν ι) : Walk ν ι := { w with failed := true }

/-- what the function has been called for -/
def Walk.seen (w : Walk ν ι) : List (Option ι) := w.calls.map Prod.snd

@[simp] theorem Walk.seen_call (w : Walk ν ι) (path : List ν) (c : Option ι) :
    (w.call path c).seen = w.seen ++ [c] := by
  simp [Walk.seen, Walk.call]

end

variable {ν ι : Type} [DecidableEq ι]

/-- an entry of the directory at `path`, and the directory that it leads to; `dir` is the walk through a directory -/
def processEntry (sys : System ν) (dir : List ν → ι → Walk ν ι → Walk ν ι) (path : List ν) (w : Walk ν ι)
    (e : ν × Option ι) : Walk ν ι :=
  if w.failed then w
  else
    match sys.stat (path ++ [e.1]), e.2 with
    | .error, _ => w.fail
    | .denied, _ | .ok, none => w.call (path ++ [e.1]) none
    | .ok, some i => if some i ∈ w.seen then w else dir (path ++ [e.1]) i w

/-- directory `i` at `path`, and at most `fuel` directories below one another in it -/
def ftwDir (sys : System ν) (entries : ι → List (ν × Option ι)) : ℕ → List ν → ι → Walk ν ι → Walk ν ι
  | 0, path, i, w => w.call path (some i)
  | fuel + 1, path, i, w =>
    match sys.opendir path with
    | .error => w.fail
    | .denied => w.call path (some i)
    | .ok => (entries i).foldl (processEntry sys (ftwDir sys entries fuel) path) (w.call path (some i))

/-- the walk from the directory `root` -/
def nftw (sys : System ν) (entries : ι → List (ν × Option ι)) (fuel : ℕ) (root : ι) : Walk ν ι :=
  match sys.stat [] with
  | .ok => ftwDir sys entries fuel [] root ⟨[], false⟩
  | _ => ⟨[], true⟩

variable {sys : System ν} {entries : ι → List (ν × Option ι)} {root : ι}

/-- directories of the set `P` lead to directories of `P` only -/
def Closed (entries : ι → List (ν × Option ι)) (P : ι → Prop) : Prop :=
  ∀ i j name, P i → (name, some j) ∈ entries i → P j

/-! ## What a walk keeps -/

/-- the cases of an entry -/
theorem processEntry_cases (dir : List ν → ι → Walk ν ι → Walk ν ι) (path : List ν) (w : Walk ν ι)
    (e : ν × Option ι) :
    (processEntry sys dir path w e = w ∧ (w.failed = true ∨ ∃ i, e.2 = some i ∧ some i ∈ w.seen)) ∨
    (processEntry sys dir path w e = w.fail ∧ sys.stat (path ++ [e.1]) = .error) ∨
    (processEntry sys dir path w e = w.call (path ++ [e.1]) none ∧
      (sys.stat (path ++ [e.1]) = .denied ∨ e.2 = none)) ∨
    ∃ i, e.2 = some i ∧ some i ∉ w.seen ∧ processEntry sys dir path w e = dir (path ++ [e.1]) i w := by
  unfold processEntry
  split_ifs with hfailed
  · exact .inl ⟨rfl, .inl hfailed⟩
  · split
    · exact .inr (.inl ⟨rfl, by assumption⟩)
    · exact .inr (.inr (.inl ⟨rfl, .inl (by assumption)⟩))
    · exact .inr (.inr (.inl ⟨rfl, .inr (by assumption)⟩))
    · rename_i i _ hi
      split_ifs with hseen
      · exact .inl ⟨rfl, .inr ⟨i, hi, hseen⟩⟩
      · exact .inr (.inr (.inr ⟨i, hi, hseen, rfl⟩))

/-- **Invariants.** What holds before the walk through a directory and is preserved by each call, and by each error that
may be met, holds after it. -/
theorem ftwDir_inv {P : ι → Prop} {I : Walk ν ι → Prop} (hP : Closed entries P)
    (hother : ∀ w path, I w → I (w.call path none)) (hdir : ∀ w path i, P i → I w → I (w.call path (some i)))
    (herror : ∀ w path, sys.stat path = .error ∨ sys.opendir path = .error → I w → I w.fail) (fuel : ℕ)
    (path : List ν) {i : ι} (hi : P i) {w : Walk ν ι} (hw : I w) : I (ftwDir sys entries fuel path i w) := by
  induction fuel generalizing path i w with
  | zero => exact hdir w path i hi hw
  | succ fuel ih =>
    have hentries : ∀ es : List (ν × Option ι), es ⊆ entries i → ∀ w, I w →
        I (es.foldl (processEntry sys (ftwDir sys entries fuel) path) w) := by
      intro es
      induction es with
      | nil => exact fun _ w hw => hw
      | cons e es ihe =>
        intro hes w hw
        have he : e ∈ entries i := hes List.mem_cons_self
        refine ihe (fun x hx => hes (List.mem_cons_of_mem _ hx)) _ ?_
        rcases processEntry_cases (ftwDir sys entries fuel) path w e with
          ⟨h, -⟩ | ⟨h, herr⟩ | ⟨h, -⟩ | ⟨j, hj, -, h⟩
        · rw [h]
          exact hw
        · exact h ▸ herror w _ (.inl herr) hw
        · exact h ▸ hother w _ hw
        · exact h ▸ ih _ (hP i j e.1 hi (hj ▸ he)) hw
    simp only [ftwDir]
    split
    · exact herror w path (.inr (by assumption)) hw
    · exact hdir w path i hi hw
    · exact hentries _ (List.Subset.refl _) _ (hdir w path i hi hw)

/-- a directory that is visited has been before, or can be found -/
theorem nftw_found {P : ι → Prop} (hP : Closed entries P) (hroot : P root) (fuel : ℕ) {i : ι}
    (hi : some i ∈ (nftw sys entries fuel root).seen) : P i := by
  unfold nftw at hi
  split at hi
  · refine ftwDir_inv (I := fun w => ∀ i, some i ∈ w.seen → P i) hP ?_ ?_ (fun _ _ _ hw => hw) fuel [] hroot
      (fun i hi => by cases hi) i hi
    · intro w path hw i hi
      rw [Walk.seen_call, List.mem_append, List.mem_singleton] at hi
      exact hw i (hi.resolve_right (by simp))
    · intro w path j hj hw i hi
      rw [Walk.seen_call, List.mem_append, List.mem_singleton] at hi
      rcases hi with hi | hi
      · exact hw i hi
      · cases hi
        exact hj
  · cases hi

/-- without an error of the system the walk does not fail -/
theorem nftw_ok (hroot : sys.stat [] = .ok) (hsys : ∀ path, sys.stat path ≠ .error ∧ sys.opendir path ≠ .error)
    (fuel : ℕ) : (nftw sys entries fuel root).failed = false := by
  rw [nftw, hroot]
  exact ftwDir_inv (P := fun _ => True) (I := fun w => w.failed = false) (fun _ _ _ _ _ => trivial)
    (fun _ _ hw => hw) (fun _ _ _ _ hw => hw)
    (fun _ path he _ => absurd he (not_or.2 (hsys path))) fuel [] trivial rfl

/-! ## Complete walks -/

theorem foldl_failed (dir : List ν → ι → Walk ν ι → Walk ν ι) (path : List ν) (es : List (ν × Option ι))
    {w : Walk ν ι} (h : w.failed = true) : es.foldl (processEntry sys dir path) w = w := by
  induction es with
  | nil => rfl
  | cons e es ih =>
    have he : processEntry sys dir path w e = w := by
      unfold processEntry
      exact if_pos h
    rw [List.foldl_cons, he, ih]

/-- the directories of `U` that have not been visited -/
def unseen (U : Finset ι) (w : Walk ν ι) : Finset ι := U.filter fun i => some i ∉ w.seen

theorem unseen_call {U : Finset ι} {w : Walk ν ι} {i : ι} (hi : i ∈ U) (hnew : some i ∉ w.seen) (path : List ν) :
    (unseen U (w.call path (some i))).card < (unseen U w).card := by
  refine Finset.card_lt_card ⟨?_, fun hsub => ?_⟩
  · intro j hj
    obtain ⟨hjU, hj⟩ := Finset.mem_filter.1 hj
    rw [Walk.seen_call] at hj
    exact Finset.mem_filter.2 ⟨hjU, fun h => hj (List.mem_append_left _ h)⟩
  · have hmem := (Finset.mem_filter.1 (hsub (Finset.mem_filter.2 ⟨hi, hnew⟩))).2
    rw [Walk.seen_call] at hmem
    exact hmem (List.mem_append_right _ List.mem_cons_self)

theorem unseen_mono {U : Finset ι} {w w' : Walk ν ι} (h : ∀ c ∈ w.seen, c ∈ w'.seen) :
    (unseen U w').card ≤ (unseen U w).card := by
  refine Finset.card_le_card fun j hj => ?_
  obtain ⟨hjU, hj⟩ := Finset.mem_filter.1 hj
  exact Finset.mem_filter.2 ⟨hjU, fun hc => hj (h _ hc)⟩

/-- between `w` and `w'`, for each directory visited all directories that it leads to have been visited too -/
def Settled (entries : ι → List (ν × Option ι)) (w w' : Walk ν ι) : Prop :=
  (∀ c ∈ w.seen, c ∈ w'.seen) ∧
    ∀ j, some j ∈ w'.seen → some j ∈ w.seen ∨ ∀ k name, (name, some k) ∈ entries j → some k ∈ w'.seen

omit [DecidableEq ι] in
theorem Settled.refl (w : Walk ν ι) : Settled entries w w := ⟨fun _ hc => hc, fun _ hj => .inl hj⟩

omit [DecidableEq ι] in
theorem Settled.trans {w w' w'' : Walk ν ι} (h : Settled entries w w') (h' : Settled entries w' w'') :
    Settled entries w w'' := by
  refine ⟨fun c hc => h'.1 c (h.1 c hc), fun j hj => ?_⟩
  rcases h'.2 j hj with hj | hall
  · rcases h.2 j hj with hj | hall
    · exact .inl hj
    · exact .inr fun k name hk => h'.1 _ (hall k name hk)
  · exact .inr hall

omit [DecidableEq ι] in
theorem settled_none (w : Walk ν ι) (path : List ν) : Settled entries w (w.call path none) := by
  unfold Settled
  rw [Walk.seen_call]
  refine ⟨fun c hc => List.mem_append_left _ hc, fun j hj => .inl ?_⟩
  rcases List.mem_append.1 hj with hj | hj
  · exact hj
  · cases List.mem_singleton.1 hj

/-- a walk through a directory that does not fail visits the directory -/
theorem ftwDir_self {fuel : ℕ} {path : List ν} {i : ι} {w : Walk ν ι}
    (hok : (ftwDir sys entries fuel path i w).failed = false) : some i ∈ (ftwDir sys entries fuel path i w).seen := by
  have hcall : some i ∈ (w.call path (some i)).seen := by
    rw [Walk.seen_call]
    exact List.mem_append_right _ List.mem_cons_self
  cases fuel with
  | zero => exact hcall
  | succ fuel =>
    have hmono : ∀ (path : List ν) (j : ι) (w : Walk ν ι), some i ∈ w.seen →
        some i ∈ (ftwDir sys entries fuel path j w).seen := by
      intro path j w hw
      refine ftwDir_inv (P := fun _ => True) (I := fun w => some i ∈ w.seen) (fun _ _ _ _ _ => trivial) ?_ ?_
        (fun _ _ _ hw => hw) fuel path trivial hw
      · intro w path hw
        rw [Walk.seen_call]
        exact List.mem_append_left _ hw
      · intro w path j _ hw
        rw [Walk.seen_call]
        exact List.mem_append_left _ hw
    have hentries : ∀ (es : List (ν × Option ι)) (w : Walk ν ι), some i ∈ w.seen →
        some i ∈ (es.foldl (processEntry sys (ftwDir sys entries fuel) path) w).seen := by
      intro es
      induction es with
      | nil => exact fun w hw => hw
      | cons e es ih =>
        intro w hw
        refine ih _ ?_
        rcases processEntry_cases (ftwDir sys entries fuel) path w e with ⟨h, -⟩ | ⟨h, -⟩ | ⟨h, -⟩ | ⟨j, -, -, h⟩
        · rw [h]
          exact hw
        · rw [h]
          exact hw
        · rw [h, Walk.seen_call]
          exact List.mem_append_left _ hw
        · exact h ▸ hmono _ j w hw
    simp only [ftwDir] at hok ⊢
    split at hok
    · cases hok
    · exact hcall
    · exact hentries _ _ hcall

/-- one entry, if the walk through the directory that it leads to settles that -/
theorem processEntry_settled (hsys : ∀ path, sys.stat path ≠ .denied ∧ sys.opendir path ≠ .denied)
    {dir : List ν → ι → Walk ν ι → Walk ν ι} {path : List ν} {w : Walk ν ι} {e : ν × Option ι}
    (hdir : ∀ i, e.2 = some i → some i ∉ w.seen → (dir (path ++ [e.1]) i w).failed = false →
      Settled entries w (dir (path ++ [e.1]) i w) ∧ some i ∈ (dir (path ++ [e.1]) i w).seen)
    (hok : (processEntry sys dir path w e).failed = false) :
    Settled entries w (processEntry sys dir path w e) ∧
      ∀ k, e.2 = some k → some k ∈ (processEntry sys dir path w e).seen := by
  rcases processEntry_cases dir path w e with ⟨h, hwhy⟩ | ⟨h, -⟩ | ⟨h, hwhy⟩ | ⟨j, hj, hunseen, h⟩
  · rw [h] at hok ⊢
    refine ⟨.refl w, fun k hk => ?_⟩
    rcases hwhy with hfailed | ⟨j, hj, hseen⟩
    · rw [hfailed] at hok
      cases hok
    · cases hk.symm.trans hj
      exact hseen
  · rw [h] at hok
    cases hok
  · rw [h]
    refine ⟨settled_none w _, fun k hk => ?_⟩
    rcases hwhy with hdenied | hnone
    · exact absurd hdenied (hsys _).1
    · cases hk.symm.trans hnone
  · rw [h] at hok ⊢
    obtain ⟨hsettled, hseen⟩ := hdir j hj hunseen hok
    refine ⟨hsettled, fun k hk => ?_⟩
    cases hk.symm.trans hj
    exact hseen

/-- the entries of a directory, if the walks through the directories of `U` settle those -/
theorem foldl_settled (hsys : ∀ path, sys.stat path ≠ .denied ∧ sys.opendir path ≠ .denied) {U : Finset ι} {fuel : ℕ}
    {dir : List ν → ι → Walk ν ι → Walk ν ι} (path : List ν)
    (hdir : ∀ path i w, i ∈ U → some i ∉ w.seen → (unseen U w).card ≤ fuel → (dir path i w).failed = false →
      Settled entries w (dir path i w) ∧ some i ∈ (dir path i w).seen)
    (es : List (ν × Option ι)) (hes : ∀ name i, (name, some i) ∈ es → i ∈ U) (w : Walk ν ι)
    (hfuel : (unseen U w).card ≤ fuel) (hok : (es.foldl (processEntry sys dir path) w).failed = false) :
    Settled entries w (es.foldl (processEntry sys dir path) w) ∧
      ∀ k name, (name, some k) ∈ es → some k ∈ (es.foldl (processEntry sys dir path) w).seen := by
  induction es generalizing w with
  | nil => exact ⟨.refl w, fun k name hk => by cases hk⟩
  | cons e es ih =>
    rw [List.foldl_cons] at hok ⊢
    have hok' : (processEntry sys dir path w e).failed = false := by
      by_contra hfail
      rw [foldl_failed _ _ _ (by simpa using hfail)] at hok
      exact hfail hok
    have hstep := processEntry_settled hsys (fun i hi hnew hok =>
      hdir _ i w (hes e.1 i (hi ▸ List.mem_cons_self)) hnew hfuel hok) hok'
    obtain ⟨hsettled, hall⟩ := ih (fun name i hi => hes name i (List.mem_cons_of_mem _ hi)) _
      ((unseen_mono hstep.1.1).trans hfuel) hok
    refine ⟨hstep.1.trans hsettled, fun k name hk => ?_⟩
    rcases List.mem_cons.1 hk with hk | hk
    · exact hsettled.1 _ (hstep.2 k (by rw [← hk]))
    · exact hall k name hk

/-- the walk through a directory, if the system denies nothing, no error ends the walk and the fuel is enough for the
directories not visited yet -/
theorem ftwDir_settled (hsys : ∀ path, sys.stat path ≠ .denied ∧ sys.opendir path ≠ .denied) {U : Finset ι}
    (hU : Closed entries (· ∈ U)) (fuel : ℕ) (path : List ν) {i : ι} (hi : i ∈ U) {w : Walk ν ι}
    (hnew : some i ∉ w.seen) (hfuel : (unseen U w).card ≤ fuel)
    (hok : (ftwDir sys entries fuel path i w).failed = false) :
    Settled entries w (ftwDir sys entries fuel path i w) := by
  induction fuel generalizing path i w with
  | zero =>
    have hmem : i ∈ unseen U w := Finset.mem_filter.2 ⟨hi, hnew⟩
    exact absurd (Finset.card_pos.2 ⟨i, hmem⟩) (Nat.not_lt.2 hfuel)
  | succ fuel ih =>
    have hcall := unseen_call hi hnew path
    simp only [ftwDir] at hok ⊢
    split at hok
    · cases hok
    · exact absurd (by assumption) (hsys path).2
    · have hdir : ∀ path j w, j ∈ U → some j ∉ w.seen → (unseen U w).card ≤ fuel →
          (ftwDir sys entries fuel path j w).failed = false →
          Settled entries w (ftwDir sys entries fuel path j w) ∧
            some j ∈ (ftwDir sys entries fuel path j w).seen :=
        fun path j w hj hnew hfuel hok => ⟨ih path hj hnew hfuel hok, ftwDir_self hok⟩
      obtain ⟨hsettled, hall⟩ := foldl_settled hsys path hdir (entries i) (fun name j hj => hU i j name hi hj)
        (w.call path (some i)) (by omega) hok
      unfold Settled at hsettled ⊢
      rw [Walk.seen_call] at hsettled
      refine ⟨fun c hc => hsettled.1 c (List.mem_append_left _ hc), fun j hj => ?_⟩
      rcases hsettled.2 j hj with hj | hdone
      · rcases List.mem_append.1 hj with hj | hj
        · exact .inl hj
        · cases List.mem_singleton.1 hj
          exact .inr hall
      · exact .inr hdone

/-- **Completeness.** A walk to which the system denies nothing and that does not fail visits the root, and whatever the
directories that it visits lead to. -/
theorem nftw_complete (hsys : ∀ path, sys.stat path ≠ .denied ∧ sys.opendir path ≠ .denied) {U : Finset ι}
    (hU : Closed entries (· ∈ U)) (hroot : root ∈ U) {fuel : ℕ} (hfuel : U.card ≤ fuel)
    (hok : (nftw sys entries fuel root).failed = false) :
    some root ∈ (nftw sys entries fuel root).seen ∧
      Closed entries fun i => some i ∈ (nftw sys entries fuel root).seen := by
  unfold nftw at hok ⊢
  split at hok
  · have hunseen : (unseen U (⟨[], false⟩ : Walk ν ι)).card ≤ fuel :=
      (Finset.card_le_card (Finset.filter_subset _ _)).trans hfuel
    have hnew : some root ∉ (⟨[], false⟩ : Walk ν ι).seen := by simp [Walk.seen]
    have hsettled := ftwDir_settled hsys hU fuel [] hroot hnew hunseen hok
    refine ⟨ftwDir_self hok, fun i j name hi hj => ?_⟩
    rcases hsettled.2 i hi with hnone | hall
    · cases hnone
    · exact hall j name hj
  · cases hok

end OsPractice.Ftw
