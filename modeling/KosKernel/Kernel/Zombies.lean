import KosKernel.Kernel.Joins

/-!
# Kernel/Zombies — the last thread that exits

`exitThread` waits to be joined unless `threadStore.size()` is one.  The size counts the threads
that are waiting to be joined themselves, and those that have exited and not been destroyed: when
the last thread that could still join them exits as well, it waits like the others, and nobody is
left (`two_exits_wait`).  While each thread exits alone or with a working thread beside it, some
thread of the process works as long as one waits (`no_zombie`).
-/

namespace Kos

open Function Runs

namespace Threads

variable {τ V : Type} [DecidableEq τ]

/-- The process has threads, and all of them wait to be joined. -/
def Zombie (m : Threads τ V) : Prop :=
  (∃ i u, m.threadStore.lookup i = some u) ∧ ∀ i u, m.threadStore.lookup i = some u →
    m.pc u = .posting

/-- A thread exits as the only one of the process, or while another one has not called
`exitThread`. -/
def Accompanied (m : Threads τ V) : Action τ V → Prop
  | .exitThread t _ =>
    (∀ i u, m.threadStore.lookup i = some u → u = t) ∨ ∃ u, u ≠ t ∧ Works (m.pc u)
  | _ => True

instance [Fintype τ] (m : Threads τ V) : (a : Action τ V) → Decidable (Accompanied m a)
  | .exitThread t _ =>
    have : Decidable (∀ i u, m.threadStore.lookup i = some u → u = t) :=
      decidable_of_iff (∀ i < m.threadStore.index, ∀ u, m.threadStore.lookup i = some u → u = t)
        ⟨fun h i u hu => h i (ManagedArray.lt_index hu) u hu, fun h i _ => h i⟩
    inferInstanceAs (Decidable (_ ∨ _))
  | .createThread .. => .isTrue trivial
  | .joinThread .. => .isTrue trivial
  | .destroyThread _ => .isTrue trivial
  | .wake _ => .isTrue trivial
  | .dispatch _ => .isTrue trivial

/-- If a thread waits to be joined, another one works. -/
def Attended (m : Threads τ V) : Prop := (∃ t, m.pc t = .posting) → ∃ u, Works (m.pc u)

variable {m m' : Threads τ V} {t u : τ} {p : ThreadPc τ}

theorem Goes.pc_of_ne (h : Goes m m' t p) (hu : u ≠ t) : m'.pc u = m.pc u := by
  rw [h.pc, update_of_ne hu]

theorem Goes.pc_self (h : Goes m m' t p) : m'.pc t = p := by
  rw [h.pc, update_self]

omit [DecidableEq τ] in
/-- The only thread of the process does not wait. -/
theorem Stored.size_le_one (h : Stored m)
    (halone : ∀ i u, m.threadStore.lookup i = some u → u = t) : m.threadStore.size ≤ 1 := by
  have hidx {i : ℕ} (hi : m.threadStore.lookup i ≠ none) : m.idx t = i := by
    obtain ⟨u, hu⟩ := Option.ne_none_iff_exists'.mp hi
    rw [← halone i u hu]
    exact ((h.lookup i u).mp hu).1
  refine h.sound.size_le_one.mpr fun i j hi hj => ?_
  rw [← hidx hi, hidx hj]

/-- `exitThread` of the last thread, or beside a thread that works. -/
theorem Attended.exit (hstored : Stored m) {v : V} (hcond : Accompanied m (.exitThread t v))
    (hp : p = .finishing ∨ p = .posting ∧ 1 < m.threadStore.size) (hgoes : Goes m m' t p) :
    Attended m' := by
  rintro ⟨w, hw⟩
  rcases hcond with halone | ⟨u, hu, hworks⟩
  · -- the thread does not wait, and no other one is there to wait
    have hsize := hstored.size_le_one halone
    obtain rfl : p = .finishing := hp.resolve_right fun hp => absurd hp.2 (by omega)
    have hwt : w ≠ t := by
      rintro rfl
      cases hgoes.pc_self.symm.trans hw
    rw [hgoes.pc_of_ne hwt] at hw
    exact absurd (halone (m.idx w) w ((hstored.lookup _ w).mpr ⟨rfl, by rw [hw]; trivial⟩)) hwt
  · exact ⟨u, by rwa [hgoes.pc_of_ne hu]⟩

/-- **A step that meets the condition leaves somebody who works.** -/
theorem Attended.step {a : Action τ V} (h : Stored m ∧ Attended m) (hcond : Accompanied m a)
    (hs : m.step a = some m') : Stored m' ∧ Attended m' := by
  obtain ⟨hstored, h⟩ := h
  refine ⟨hstored.step hs, ?_⟩
  cases step_moved hs with
  | @created t u hpc hm' => exact fun _ => ⟨u, by simp [hm', enroll, go, Works]⟩
  | exited hpc hp hgoes => exact Attended.exit hstored hcond hp hgoes
  | @worked a t p hpc hp hgoes => exact fun _ => ⟨t, by rwa [hgoes.pc_self]⟩
  | @finished a t hpc hgoes =>
    obtain ⟨u, hu⟩ := h ⟨t, hpc⟩
    have hut : u ≠ t := by
      rintro rfl
      rwa [hpc] at hu
    exact fun _ => ⟨u, by rwa [hgoes.pc_of_ne hut]⟩
  | idle hstore hidx hpc => rwa [Attended, hpc]
  | @destroyed t hpc hstore hidx hpc' =>
    rintro ⟨w, hw⟩
    have hwt : w ≠ t := by
      rintro rfl
      simp [hpc'] at hw
    rw [hpc', update_of_ne hwt] at hw
    obtain ⟨u, hu⟩ := h ⟨w, hw⟩
    have hut : u ≠ t := by
      rintro rfl
      rwa [hpc] at hu
    exact ⟨u, by rwa [hpc', update_of_ne hut]⟩

theorem attended_init (t : τ) : Attended (init t : Threads τ V) :=
  fun _ => ⟨t, by simp [init, enroll, go, Works]⟩

/-- **No process is left with threads that all wait to be joined.** -/
theorem no_zombie {t₀ : τ} {as : List (Action τ V)} (hrun : run step (init t₀) as = some m)
    (hguard : Guarded step Accompanied (init t₀) as) : ¬Zombie m := by
  obtain ⟨hstored, hattended⟩ : Stored m ∧ Attended m :=
    invariant_of_guarded Attended.step ⟨stored_init t₀, attended_init t₀⟩ hguard hrun
  rintro ⟨⟨i, w, hw⟩, hall⟩
  obtain ⟨u, hu⟩ := hattended ⟨w, hall i w hw⟩
  have hpost := hall (m.idx u) u ((hstored.lookup _ u).mpr ⟨rfl, hu.lives⟩)
  rwa [hpost] at hu

/-- A thread is joined after it has exited, and the last thread of the process does not wait. -/
theorem no_zombie_afterJoin : ∃ m : Threads Bool ℕ,
    run step (init true) ([.createThread true false, .exitThread false 1, .joinThread true 1] ++
      woken false ++ [.destroyThread false, .exitThread true 0]) = some m ∧
      m.pc true = .finishing ∧ ¬Zombie m :=
  exists_run_and (by decide +kernel) fun _ hrun _ =>
    no_zombie hrun (guarded_of_decide (by decide +kernel))

/-- The first thread exits, and then the one that it has created. -/
theorem two_exits_wait : ∃ m : Threads Bool ℕ,
    run step (init true) [.createThread true false, .exitThread true 0, .exitThread false 1] =
      some m ∧ Zombie m := by
  obtain ⟨m, hrun, hpc⟩ : ∃ m : Threads Bool ℕ,
      run step (init true) [.createThread true false, .exitThread true 0, .exitThread false 1] =
        some m ∧ ∀ u, m.pc u = .posting := exists_run (by decide +kernel)
  have hlookup := (stored_run hrun).lookup (m.idx true) true
  exact ⟨m, hrun, ⟨m.idx true, true, hlookup.mpr ⟨rfl, by rw [hpc]; trivial⟩⟩, fun _ u _ => hpc u⟩

end Threads

end Kos
