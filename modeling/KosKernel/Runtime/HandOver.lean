import KosKernel.Runtime.Endings

/-!
# Runtime/HandOver — a thread is dispatched when its last core has left it

Without migration everything that happens to a thread happens on one core: `nextScheduler` is set
before the lock is released, so that the thread comes back to the ready queue of the core that still
has to save it.
-/

namespace Kos

open Function Runs Blocking

namespace SwitchPc

variable {κ τ π : Type}

/-- The core still has the thread that it is leaving. -/
@[simp] def keeps : SwitchPc κ τ π → Bool
  | .chosen _ _ => true
  | .unlocked target _ | .switched target _ => target.isSome
  | .running | .picking _ | .picked _ _ | .resumed _ | .dying _ | .clearing _ _ | .leaving _ _
  | .deleting _ _
  | .freeing _ | .living _ | .entering | .restoring | .checking => false

/-- The context of the new thread has still to be restored. -/
@[simp] def arriving : SwitchPc κ τ π → Bool
  | .switched _ _ | .resumed _ | .dying _ | .clearing _ _ | .leaving _ _ | .deleting _ _
  | .freeing _ | .living _
  | .entering | .restoring => true
  | .running | .picking _ | .picked _ _ | .chosen _ _ | .unlocked _ _ | .checking => false

/-- The old thread has been removed from its process. -/
@[simp] def buried : SwitchPc κ τ π → Bool
  | .clearing _ _ | .leaving _ _ | .deleting _ _ | .freeing _ => true
  | .running | .picking _ | .picked _ _ | .chosen _ _ | .unlocked _ _ | .switched _ _ | .resumed _
  | .dying _
  | .living _ | .entering | .restoring | .checking => false

end SwitchPc

namespace Scheduling

variable {κ τ π : Type} {cfg : Setup κ τ} {m m' : Scheduling κ τ π}
  {pl : τ → Place κ} {c d : κ} {t u : τ}

/-- The condition on `preempt` and `yield`: the thread has its affinity with this core, or it has
none and the ready queue of the partner is not shorter by more than two. -/
def Stays (cfg : Setup κ τ) (m : Scheduling κ τ π) : Action κ τ π → Prop
  | .preempt c =>
    let t := m.currThread c
    (cfg.affinityMask t = 0 ∧ (cfg.affinity t).isSome ∧ m.nextScheduler t = some c) ∨
      (cfg.affinityMask t ≠ 0 ∨ cfg.affinity t = none) ∧
        m.readyCount c ≤ m.readyCount (cfg.partner c) + 2
  | _ => True

instance [DecidableEq κ] (cfg : Setup κ τ) (m : Scheduling κ τ π) : ∀ a, Decidable (m.Stays cfg a)
  | .preempt _ => inferInstanceAs (Decidable (_ ∨ _))
  | .suspend _ | .terminate _ | .create _ _ | .exec _ _ _ | .unblock _ _ | .cancel _ _ | .resume _ _
  | .advance _ =>
    inferInstanceAs (Decidable True)

/-- Then the thread stays on its core. -/
theorem Stays.target (h : m.Stays cfg (.preempt c)) : m.target cfg c = c := by
  rw [Scheduling.target]
  obtain ⟨hmask, haff, hnext⟩ | ⟨hmask | haff, hcount⟩ := h
  · simp [getAffinity, hmask, haff, hnext]
  · simp [hmask, Nat.not_lt.mpr hcount]
  · simp [getAffinity, haff, Nat.not_lt.mpr hcount]

/-! ## Where a thread can be that a core has left -/

/-- The thread `t` was left by the core `c`, to which it can only come back. -/
def Route (next : τ → Option κ) (pl : τ → Place κ) (c : κ) (keeps : Bool) (t : τ) : Prop :=
  next t = some c ∧ (pl t = .away ∨ pl t = .queue c ∨ pl t = .core c ∧ keeps = true)

/-- The threads that the cores have left. -/
structure Routes (next : τ → Option κ) (pl : τ → Place κ) (pc : κ → SwitchPc κ τ π) (curr : κ → τ) :
    Prop where
  targets : ∀ c target t, (pc c).outgoing (curr c) = some (target, t) →
    target = none ∨ target = some c
  route : ∀ c t, (pc c).behind (curr c) = some t → Route next pl c (pc c).keeps t

section

variable {next next' : τ → Option κ} {pl' : τ → Place κ} {pcs : κ → SwitchPc κ τ π}
  {curr curr' : κ → τ}
  {pc : SwitchPc κ τ π} {keeps : Bool}

/-- A thread that is with one core, or queued for it, was not left by another. -/
theorem Route.ne (h : Route next pl d keeps t) (hd : d ≠ c)
    (hu : pl u = .core c ∨ pl u = .queue c) : t ≠ u := by
  rintro rfl
  obtain ⟨-, haway | hqueue | ⟨hcore, -⟩⟩ := h
  · simp [haway] at hu
  · simp [hqueue, hd] at hu
  · simp [hcore, hd] at hu

theorem Route.place [DecidableEq τ] {x : Place κ} (h : Route next pl d keeps t) (hne : t ≠ u) :
    Route next (update pl u x) d keeps t := by
  rwa [Route, update_of_ne hne]

theorem Route.setNext [DecidableEq τ] {x : Option κ} (h : Route next pl d keeps t) (hne : t ≠ u) :
    Route (update next u x) pl d keeps t := by
  rwa [Route, update_of_ne hne]

/-- One core goes on; what it does to the threads that other cores have left does no harm. -/
theorem Routes.set [DecidableEq κ] (h : Routes next pl pcs curr)
    (hcurr : ∀ d, d ≠ c → curr' d = curr d)
    (hother : ∀ d t, d ≠ c → Route next pl d (pcs d).keeps t → Route next' pl' d (pcs d).keeps t)
    (hout : ∀ target t, pc.outgoing (curr' c) = some (target, t) → target = none ∨ target = some c)
    (hbehind : ∀ t, pc.behind (curr' c) = some t → Route next' pl' c pc.keeps t) :
    Routes next' pl' (update pcs c pc) curr' := by
  refine ⟨fun d target t hd => ?_, fun d t hd => ?_⟩
  · by_cases hdc : d = c
    · subst hdc
      exact hout target t (by simpa using hd)
    · exact h.targets d target t (by simpa [hdc, hcurr d hdc] using hd)
  · by_cases hdc : d = c
    · subst hdc
      simpa using hbehind t (by simpa using hd)
    · simpa [hdc] using hother d t hdc (h.route d t (by simpa [hdc, hcurr d hdc] using hd))

/-- One core goes on with its thread, and nothing else changes. -/
theorem Routes.go [DecidableEq κ] (h : Routes next pl pcs curr)
    (hout : ∀ target t, pc.outgoing (curr c) = some (target, t) → target = none ∨ target = some c)
    (hbehind : ∀ t, pc.behind (curr c) = some t → Route next pl c pc.keeps t) :
    Routes next pl (update pcs c pc) curr :=
  h.set (fun _ _ => rfl) (fun _ _ _ => id) hout hbehind

/-- A thread comes to a ready queue. -/
theorem Routes.push [DecidableEq τ] (h : Routes next pl pcs curr) (c : κ) (t : τ) :
    Routes next (update pl t (.queue ((next t).getD c))) pcs curr := by
  refine ⟨h.targets, fun d u hu => ?_⟩
  obtain ⟨hnext, hroute⟩ := h.route d u hu
  refine ⟨hnext, ?_⟩
  by_cases hut : u = t
  · subst hut
    simp [hnext]
  · simpa [hut] using hroute

end

abbrev RoutesAt (m : Scheduling κ τ π) (pl : τ → Place κ) : Prop :=
  Routes m.nextScheduler pl m.pc m.currThread

variable [DecidableEq κ] [DecidableEq τ] [DecidableEq π]

theorem Routes.advance (r : Ready cfg m pl) (h : m.RoutesAt pl)
    (hs : m.advance cfg c = some m') : m'.RoutesAt (m.placesAt c pl) := by
  have hout := h.targets c
  have hbehind := h.route c
  rw [placesAt]
  cases hpc : m.pc c
  all_goals
    rw [Scheduling.advance, hpc] at hs
    rw [hpc] at hout hbehind
  case running => cases hs
  all_goals
    cases hs
  case picking target =>
    dsimp only [pick]
    cases hf : findReady (m.readyQueue c) (bound target c) with
    | none =>
      dsimp only
      split
      · exact h
      · exact h.go (by simp) (by simp)
    | some res =>
      obtain ⟨i, u⟩ := res
      have hu : pl u = .queue c := ((r.places.queue u c i).mp (by
        rw [findReady_eq_some hf]
        exact List.mem_cons_self)).1
      exact h.set (fun _ _ => rfl) (fun d t hd hroute => hroute.place (hroute.ne hd (.inr hu))) hout
        (by simp)
  case picked target u =>
    have hcurr := r.curr_place (c := c) (by simp [held, hpc])
    refine h.set (fun _ _ => rfl) (fun d t hd hroute =>
      hroute.setNext (hroute.ne hd (.inl hcurr))) hout fun t ht => ?_
    cases ht
    have htarget : target.getD c = c := by obtain rfl | rfl := hout target _ rfl <;> rfl
    exact ⟨by simp [htarget], .inr (.inr ⟨hcurr, rfl⟩)⟩
  case chosen target u =>
    have hcurr := r.curr_place (c := c) (by simp [held, hpc])
    cases target with
    | none =>
      refine h.set (fun _ _ => rfl) (fun d t hd hroute =>
        hroute.place (hroute.ne hd (.inl hcurr))) hout fun t ht => ?_
      cases ht
      exact ⟨(hbehind _ rfl).1, .inl (update_self ..)⟩
    | some _ => exact h.go hout hbehind
  case unlocked target u =>
    refine h.set (fun d hd => update_of_ne hd ..) (fun _ _ _ => id) hout hbehind
  case switched target prev =>
    have hprev := hbehind prev rfl
    cases target with
    | none => exact h.go (by simp) fun t ht => Option.some.inj ht ▸ hprev
    | some d =>
      refine (h.push c prev).go (by simp) fun t ht => ?_
      cases ht
      exact ⟨hprev.1, .inr (.inl (by rw [update_self, hprev.1, Option.getD_some]))⟩
  -- the rest of the switch
  case resumed prev =>
    split <;> exact h.go (by simp) hbehind
  case dying prev =>
    rw [destroyThread]
    split
    · exact h.go (by simp) hbehind
    · dsimp only
      split <;> exact h.go (by simp) hbehind
  case leaving prev p => cases p <;> exact h.go (by simp) hbehind
  case restoring =>
    rw [restore]
    dsimp only
    split <;> exact h.go (by simp) (by simp)
  case checking =>
    split
    · exact h.go (by simp +contextual) (by simp)
    · exact h.go (by simp) (by simp)
  case clearing | deleting => exact h.go (by simp) hbehind
  case freeing | living | entering => exact h.go (by simp) (by simp)

variable {a : Action κ τ π}

theorem Routes.step [Fintype κ] (r : Ready cfg m pl) (h : m.RoutesAt pl) (ha : m.Stays cfg a)
    (hs : m.step cfg a = some m') : m'.RoutesAt (m.places pl a) := by
  cases a
  case advance c => exact h.advance r hs
  all_goals
    obtain ⟨hif, rfl⟩ := Option.ite_some_none_eq_some.mp hs
    clear hs
  case preempt c =>
    refine h.go (fun target t ht => ?_) (by simp)
    rw [← (Prod.mk.inj (Option.some.inj ht)).1, Stays.target ha]
    exact .inr rfl
  case suspend c =>
    split
    · exact h.go (by simp +contextual) (by simp)
    · exact h
  case terminate c => exact h.go (by simp +contextual) (by simp)
  case create c t => exact h.push c t
  case exec c p t => exact h.push c t
  case resume c t => exact h.push c t
  case unblock c t => exact h
  case cancel c t => exact h

omit [DecidableEq κ] [DecidableEq τ] [DecidableEq π] in
/-- The thread that a core buries is away. -/
theorem Routes.away (e : m.EndsAt pl) (h : m.RoutesAt pl) (hpc : (m.pc c).buries = some t) :
    pl t = .away := by
  have hbehind : (m.pc c).behind (m.currThread c) = some t ∧ (m.pc c).keeps = false := by
    cases hc : m.pc c <;> simp_all
  obtain ⟨-, haway | hqueue | ⟨-, hkeeps⟩⟩ := h.route c t hbehind.1
  · exact haway
  · exact absurd ((e.not_queued hqueue).symm.trans (e.buries c t hpc)) Bool.false_ne_true
  · exact absurd (hbehind.2.symm.trans hkeeps) Bool.false_ne_true

omit [DecidableEq κ] [DecidableEq τ] [DecidableEq π] in
/-- No other core has left the same thread. -/
theorem Routes.behind_unique {next : τ → Option κ} {pcs : κ → SwitchPc κ τ π} {curr : κ → τ}
    (h : Routes next pl pcs curr) (hc : (pcs c).behind (curr c) = some t)
    (hd : (pcs d).behind (curr d) = some t) : d = c :=
  Option.some.inj ((h.route d t hd).1.symm.trans (h.route c t hc).1)

/-! ## What is saved when a thread is dispatched -/

/-- The stack pointer and the context of a thread are saved, unless some core has still to do it or
the thread has ended. -/
structure Saves (sp ctx ended : τ → Bool) (pc : κ → SwitchPc κ τ π) (curr : κ → τ) : Prop where
  stack : ∀ t, sp t = false → ∃ c, curr c = t
  context : ∀ t, ctx t = false → ended t = true ∨ ∃ c, curr c = t ∨ (pc c).behind (curr c) = some t
  fresh : ∀ c, (pc c).arriving = true → ctx (curr c) = true

section

variable {sp ctx ended ended' : τ → Bool} {pcs : κ → SwitchPc κ τ π} {curr : κ → τ}
  {pc : SwitchPc κ τ π}

omit [DecidableEq π]

variable (h : Saves sp ctx ended pcs curr)

include h

omit [DecidableEq τ] in
/-- One core goes on with its thread. -/
theorem Saves.go (hended : ∀ t, ended t = true → ended' t = true)
    (hbehind : ∀ t, (pcs c).behind (curr c) = some t → ctx t = false → pc.behind (curr c) = some t ∨
      ended' t = true) (harrive : pc.arriving = true → ctx (curr c) = true) :
    Saves sp ctx ended' (update pcs c pc) curr := by
  refine ⟨h.stack, fun t ht => ?_, fun d hd => ?_⟩
  · obtain hend | ⟨d, hd | hd⟩ := h.context t ht
    · exact .inl (hended t hend)
    · exact .inr ⟨d, .inl hd⟩
    · by_cases hdc : d = c
      · subst hdc
        refine (hbehind t hd ht).symm.imp_right fun ht => ⟨d, .inr ?_⟩
        rwa [update_self]
      · exact .inr ⟨d, .inr (by rwa [update_of_ne hdc])⟩
  · by_cases hdc : d = c
    · subst hdc
      exact harrive (by simpa using hd)
    · exact h.fresh d (by simpa [hdc] using hd)

omit [DecidableEq κ] in
/-- The context of a thread is saved. -/
theorem Saves.save (t : τ) : Saves sp (update ctx t true) ended pcs curr := by
  refine ⟨h.stack, fun u hu => h.context u ?_, fun c hc => ?_⟩
  · by_cases hut : u = t
    · simp [hut] at hu
    · rwa [update_of_ne hut] at hu
  · by_cases hut : curr c = t
    · simp [hut]
    · rw [update_of_ne hut]
      exact h.fresh c hc

/-- A core restores the context of its thread. -/
theorem Saves.restore (hother : ∀ d, d ≠ c → (pcs d).arriving = true → curr d ≠ curr c)
    (hold : (pcs c).behind (curr c) = none) (harrive : pc.arriving = false) :
    Saves sp (update ctx (curr c) false) ended (update pcs c pc) curr := by
  refine ⟨h.stack, fun t ht => ?_, fun d hd => ?_⟩
  · by_cases htc : t = curr c
    · exact .inr ⟨c, .inl htc.symm⟩
    · rw [update_of_ne htc] at ht
      refine (h.context t ht).imp_right fun ⟨d, hd⟩ => ⟨d, hd.imp_right fun hd => ?_⟩
      have hdc : d ≠ c := by
        rintro rfl
        cases hold.symm.trans hd
      rwa [update_of_ne hdc]
  · have hdc : d ≠ c := by
      rintro rfl
      rw [update_self, harrive] at hd
      cases hd
    rw [update_of_ne hdc] at hd
    rw [update_of_ne (hother d hdc hd)]
    exact h.fresh d hd

/-- A core goes to the stack of the thread `u`. -/
theorem Saves.dispatch (hold : (pcs c).behind (curr c) = some (curr c))
    (hnew : pc.behind u = some (curr c)) (hctx : ctx u = true) :
    Saves (update (update sp (curr c) true) u false) ctx ended (update pcs c pc)
      (update curr c u) := by
  refine ⟨fun t ht => ?_, fun t ht => ?_, fun d hd => ?_⟩
  · by_cases htu : t = u
    · exact ⟨c, by rw [update_self, htu]⟩
    rw [update_of_ne htu] at ht
    by_cases htc : t = curr c
    · simp [htc] at ht
    rw [update_of_ne htc] at ht
    obtain ⟨d, rfl⟩ := h.stack t ht
    exact ⟨d, update_of_ne (fun hd => htc (congrArg curr hd)) ..⟩
  · refine (h.context t ht).imp_right fun ⟨d, hd⟩ => ⟨d, ?_⟩
    by_cases hdc : d = c
    · subst hdc
      have htc : curr d = t := hd.elim id fun hd => Option.some.inj (hold.symm.trans hd)
      exact .inr (by rw [update_self, update_self, hnew, htc])
    · simpa [hdc] using hd
  · by_cases hdc : d = c
    · rwa [hdc, update_self]
    · rw [update_of_ne hdc] at hd ⊢
      exact h.fresh d hd

end

abbrev SavesNow (m : Scheduling κ τ π) : Prop := Saves m.sp m.ctx m.ended m.pc m.currThread

omit [DecidableEq κ] [DecidableEq τ] [DecidableEq π] in
theorem curr_held_or_behind (m : Scheduling κ τ π) (c : κ) :
    m.currThread c ∈ m.held c ∨ (m.pc c).behind (m.currThread c) = some (m.currThread c) := by
  rw [held]
  cases hpc : m.pc c with
  | unlocked | chosen => exact .inr rfl
  | switched target => cases target <;> simp
  | _ => simp

section

variable (r : Ready cfg m pl) (e : m.EndsAt pl) (h : m.RoutesAt pl)

include r e h

omit [DecidableEq τ] [DecidableEq π] in
/-- **The next thread is saved** before a core takes its stack: no core runs it, or has just left
it. -/
theorem Saves.next {target : Option κ} {u : τ} (s : m.SavesNow)
    (hpc : m.pc c = .unlocked target u) : m.sp u = true ∧ m.ctx u = true := by
  have hmem : u ∈ (m.pc c).held (m.currThread c) := by cases target <;> simp [hpc]
  have hu : pl u = .core c := (r.mem_held u c).mp hmem
  have hbehind : ∀ d, d ≠ c → (m.pc d).behind (m.currThread d) ≠ some u := fun d hd hu' =>
    (h.route d u hu').ne hd (.inl hu) rfl
  have hcurr : ∀ d, m.currThread d ≠ u := by
    rintro d rfl
    by_cases hd : d = c
    · subst hd
      obtain ⟨-, hroute⟩ := h.route d (m.currThread d) (by rw [hpc]; rfl)
      have hnodup := r.places.distinct d
      rw [held, hpc] at hnodup
      cases target with
      | none => simp [hu, hpc] at hroute
      | some _ => simp at hnodup
    · obtain hmem | hd' := m.curr_held_or_behind d
      · exact hd (Place.core.inj ((r.curr_place hmem).symm.trans hu))
      · exact hbehind d hd hd'
  constructor
  · by_contra hsp
    obtain ⟨d, hd⟩ := s.stack u (by simpa using hsp)
    exact hcurr d hd
  · by_contra hctx
    obtain hend | ⟨d, hd | hd⟩ := s.context u (by simpa using hctx)
    · exact hcurr c (e.leaves hend hu).1
    · exact hcurr d hd
    · by_cases hdc : d = c
      · subst hdc
        rw [hpc] at hd
        exact hcurr d (Option.some.inj hd)
      · exact hbehind d hdc hd

theorem Saves.advance (s : m.SavesNow) (hs : m.advance cfg c = some m') :
    m'.SavesNow ∧ m'.early = m.early := by
  have hfresh := s.fresh c
  have hburies := fun t => e.buries c t
  have hgo : ∀ pc : SwitchPc κ τ π, (∀ t, (m.pc c).behind (m.currThread c) = some t →
      pc.behind (m.currThread c) = some t) → (pc.arriving = true → m.ctx (m.currThread c) = true) →
      Saves m.sp m.ctx m.ended (update m.pc c pc) m.currThread := fun pc hbehind =>
    s.go (fun _ => id) fun t ht _ => .inl (hbehind t ht)
  cases hpc : m.pc c
  all_goals
    rw [Scheduling.advance, hpc] at hs
    rw [hpc] at hfresh hburies hgo
  case running => cases hs
  all_goals
    cases hs
  case picking target =>
    rw [pick]
    split
    · split
      · exact ⟨s, rfl⟩
      · exact ⟨hgo _ (by simp) (by simp), rfl⟩
    · exact ⟨hgo _ (by simp) (by simp), rfl⟩
  case picked => exact ⟨hgo _ (by simp) (by simp), rfl⟩
  case chosen => exact ⟨hgo _ (fun _ => id) (by simp), rfl⟩
  case unlocked target u =>
    obtain ⟨hsp, hctx⟩ := s.next r e h hpc
    refine ⟨s.dispatch (by rw [hpc]; rfl) rfl hctx, ?_⟩
    simp [stackSwitch, update_true hsp, hctx]
  case switched target prev => cases target <;> exact ⟨hgo _ (fun _ => id) hfresh, rfl⟩
  case resumed => split <;> exact ⟨hgo _ (fun _ => id) hfresh, rfl⟩
  case dying prev =>
    rw [destroyThread]
    split
    · exact ⟨hgo _ (fun _ => id) hfresh, rfl⟩
    · dsimp only
      split <;> exact ⟨hgo _ (fun _ => id) hfresh, rfl⟩
  case leaving prev p => cases p <;> exact ⟨hgo _ (fun _ => id) hfresh, rfl⟩
  case clearing | deleting => exact ⟨hgo _ (fun _ => id) hfresh, rfl⟩
  case freeing prev =>
    -- nobody saves the context of a thread that has ended
    exact ⟨s.go (fun _ => id) (fun t ht _ => .inr (hburies t (by rwa [hpc] at ht))) hfresh, rfl⟩
  case living prev =>
    have hsave := s.save prev
    refine ⟨hsave.go (fun _ => id) (fun t ht hctx => ?_) fun _ => hsave.fresh c (by rw [hpc]; rfl),
      rfl⟩
    rw [hpc] at ht
    cases ht
    simp at hctx
  case entering => exact ⟨hgo _ (by simp) hfresh, rfl⟩
  case restoring =>
    have hcurr := r.curr_place (c := c) (by simp [held, hpc])
    refine ⟨s.restore (fun d hd harrive hdc => ?_) (by rw [hpc]; rfl) (by split <;> rfl),
      by simp [Scheduling.restore, hfresh rfl]⟩
    refine hd (Place.core.inj ((r.curr_place (c := d) ?_).symm.trans (hdc ▸ hcurr)))
    rw [held]
    cases hpc : m.pc d with
    | switched target => cases target <;> simp
    | _ => simp_all
  case checking =>
    split
    · exact ⟨s.go (fun t => update_true) (by simp [hpc]) (by simp), rfl⟩
    · exact ⟨hgo _ (by simp) (by simp), rfl⟩

theorem Saves.step [Fintype κ] (s : m.SavesNow) (hs : m.step cfg a = some m') :
    m'.SavesNow ∧ m'.early = m.early := by
  cases a
  case advance c => exact s.advance r e h hs
  all_goals
    obtain ⟨hif, rfl⟩ := Option.ite_some_none_eq_some.mp hs
    clear hs
  case preempt c => exact ⟨s.go (fun _ => id) (by simp [hif]) (by simp), rfl⟩
  case suspend c =>
    split
    · exact ⟨s.go (fun _ => id) (by simp [hif]) (by simp), rfl⟩
    · exact ⟨s, rfl⟩
  case terminate c => exact ⟨s.go (fun t => update_true) (by simp [hif]) (by simp), rfl⟩
  case create | exec | unblock | cancel | resume => exact ⟨s, rfl⟩

end

/-! ## What happens to a thread that has ended -/

/-- A thread is removed from its process, and destroyed, when it is away for good, by the core that
has left it. -/
structure Burials (removed destroyed : τ → ℕ) (ended : τ → Bool) (pl : τ → Place κ)
    (pc : κ → SwitchPc κ τ π) (curr : κ → τ) : Prop where
  gone : ∀ t, removed t ≠ 0 ∨ destroyed t ≠ 0 → ended t = true ∧ pl t = .away
  once : ∀ c t, (pc c).behind (curr c) = some t →
    destroyed t = 0 ∧ ((pc c).buried = false → removed t = 0)
  unique : ∀ t, removed t ≤ 1 ∧ destroyed t ≤ 1

section

variable {removed destroyed : τ → ℕ} {ended ended' : τ → Bool} {pl' : τ → Place κ}
  {pcs : κ → SwitchPc κ τ π}
  {curr curr' : κ → τ} {pc : SwitchPc κ τ π}

omit [DecidableEq π]

omit [DecidableEq τ] in
/-- One core goes on, and buries nobody. -/
theorem Burials.set (h : Burials removed destroyed ended pl pcs curr)
    (hcurr : ∀ d, d ≠ c → curr' d = curr d)
    (hgone : ∀ t, ended t = true → pl t = .away → ended' t = true ∧ pl' t = .away)
    (hbehind : ∀ t, pc.behind (curr' c) = some t → (pcs c).behind (curr c) = some t ∨ pl t ≠ .away)
    (hburied : (pcs c).buried = true → pc.buried = true ∨ pc.behind (curr' c) = none) :
    Burials removed destroyed ended' pl' (update pcs c pc) curr' := by
  refine ⟨fun t ht => ?_, fun d t hd => ?_, h.unique⟩
  · obtain ⟨hend, haway⟩ := h.gone t ht
    exact hgone t hend haway
  · by_cases hdc : d = c
    · subst hdc
      rw [update_self] at hd ⊢
      obtain hold | hpl := hbehind t hd
      · obtain ⟨hdes, hrem⟩ := h.once d t hold
        refine ⟨hdes, fun hb => hrem ?_⟩
        by_contra hold
        obtain hpc | hpc := hburied (by simpa using hold)
        · exact absurd (hb.symm.trans hpc) Bool.false_ne_true
        · exact absurd (hpc.symm.trans hd) (by simp)
      · have hnot : ¬(removed t ≠ 0 ∨ destroyed t ≠ 0) := fun ht => hpl (h.gone t ht).2
        simp only [not_or, ne_eq, not_not] at hnot
        exact ⟨hnot.2, fun _ => hnot.1⟩
    · rw [update_of_ne hdc, hcurr d hdc] at hd
      rw [update_of_ne hdc]
      exact h.once d t hd

/-- One core buries the thread `u`. -/
theorem Burials.bury {removed' destroyed' : τ → ℕ} (h : Burials removed destroyed ended pl pcs curr)
    (hend : ended u = true) (haway : pl u = .away)
    (hother : ∀ d, d ≠ c → (pcs d).behind (curr d) ≠ some u)
    (hrest : ∀ t, t ≠ u → removed' t = removed t ∧ destroyed' t = destroyed t)
    (hone : removed' u ≤ 1 ∧ destroyed' u ≤ 1)
    (hbehind : ∀ t, pc.behind (curr c) = some t → t = u ∧ pc.buried = true ∧ destroyed' u = 0) :
    Burials removed' destroyed' ended pl (update pcs c pc) curr := by
  refine ⟨fun t ht => ?_, fun d t hd => ?_, fun t => ?_⟩
  · by_cases htu : t = u
    · exact htu ▸ ⟨hend, haway⟩
    · rw [(hrest t htu).1, (hrest t htu).2] at ht
      exact h.gone t ht
  · by_cases hdc : d = c
    · subst hdc
      rw [update_self] at hd ⊢
      obtain ⟨rfl, hburied, hzero⟩ := hbehind t hd
      exact ⟨hzero, fun hb => absurd (hb.symm.trans hburied) Bool.false_ne_true⟩
    · rw [update_of_ne hdc] at hd ⊢
      have htu : t ≠ u := by
        rintro rfl
        exact hother d hdc hd
      rw [(hrest t htu).1, (hrest t htu).2]
      exact h.once d t hd
  · by_cases htu : t = u
    · exact htu ▸ hone
    · rw [(hrest t htu).1, (hrest t htu).2]
      exact h.unique t

end

abbrev BurialsAt (m : Scheduling κ τ π) (pl : τ → Place κ) : Prop :=
  Burials m.removed m.destroyed m.ended pl m.pc m.currThread

section

variable (r : Ready cfg m pl) (e : m.EndsAt pl) (h : m.RoutesAt pl)

include r e h

theorem Burials.advance [Fintype κ] (b : m.BurialsAt pl) (hs : m.advance cfg c = some m') :
    m'.BurialsAt (m.placesAt c pl) := by
  have honce := b.once c
  have hbury :=
    fun t (hpc : (m.pc c).buries = some t) => And.intro (e.buries c t hpc) (h.away e hpc)
  have hother := fun d t (hd : d ≠ c) hc hd' => hd (h.behind_unique (t := t) hc hd')
  have hgo : ∀ pc : SwitchPc κ τ π, (∀ t, pc.behind (m.currThread c) = some t →
      (m.pc c).behind (m.currThread c) = some t) → ((m.pc c).buried = true → pc.buried = true ∨
        pc.behind (m.currThread c) = none) →
      Burials m.removed m.destroyed m.ended pl (update m.pc c pc) m.currThread := fun pc hbehind =>
    b.set (fun _ _ => rfl) (fun _ => And.intro) fun t ht => .inl (hbehind t ht)
  have hstay := fun t => e.stays_away r (a := .advance c) (t := t) hs
  rw [places, placesAt] at hstay
  rw [placesAt]
  cases hpc : m.pc c
  all_goals
    rw [Scheduling.advance, hpc] at hs
    rw [hpc] at hbury hgo honce hother hstay
  case running => cases hs
  all_goals
    cases hs
  case picking target =>
    dsimp only [pick] at hstay ⊢
    cases hf : findReady (m.readyQueue c) (bound target c) with
    | none =>
      dsimp only
      split
      · exact b
      · exact hgo _ (by simp) (by simp)
    | some res =>
      rw [hf] at hstay
      exact b.set (fun _ _ => rfl) (fun t ht haway => ⟨ht, hstay t ht haway⟩) (by simp)
        (by simp [hpc])
  case picked target u =>
    have hcurr := r.curr_place (c := c) (by simp [held, hpc])
    refine b.set (fun _ _ => rfl) (fun _ => And.intro) (fun t ht => .inr ?_) (by simp [hpc])
    simp [← Option.some.inj ht, hcurr]
  case chosen target u =>
    exact b.set (fun _ _ => rfl) (fun t ht haway => ⟨ht, hstay t ht haway⟩)
      (fun t ht => .inl (by rw [hpc]; exact ht)) (by simp [hpc])
  case unlocked target u =>
    exact b.set (fun d hd => update_of_ne hd ..) (fun _ => And.intro)
      (fun t ht => .inl (by rw [hpc]; exact ht)) (by simp [hpc])
  case switched target prev =>
    cases target with
    | none => exact hgo _ (fun _ => id) (by simp)
    | some d =>
      exact b.set (fun _ _ => rfl) (fun t ht haway => ⟨ht, hstay t ht haway⟩)
        (fun t ht => .inl (by rw [hpc]; exact ht)) (by simp [hpc])
  case resumed => split <;> exact hgo _ (fun _ => id) (by simp)
  case dying prev =>
    obtain ⟨hend, haway⟩ := hbury prev rfl
    obtain ⟨hdes, hrem⟩ := honce prev rfl
    rw [destroyThread]
    split
    · exact hgo _ (fun _ => id) (by simp)
    · refine b.bury hend haway (fun d hd => hother d prev hd rfl)
        (fun t ht => ⟨update_of_ne ht .., rfl⟩) ⟨by simp [hrem rfl], (b.unique prev).2⟩
        fun t ht => ?_
      split at ht
      · exact ⟨(Option.some.inj ht).symm, by simp [*], hdes⟩
      · exact ⟨(Option.some.inj ht).symm, by simp [*], hdes⟩
  case leaving prev p => cases p <;> exact hgo _ (fun _ => id) fun _ => .inl rfl
  case clearing | deleting => exact hgo _ (fun _ => id) fun _ => .inl rfl
  case freeing prev =>
    obtain ⟨hend, haway⟩ := hbury prev rfl
    exact b.bury hend haway (fun d hd => hother d prev hd rfl)
      (fun t ht => ⟨rfl, update_of_ne ht ..⟩)
      ⟨(b.unique prev).1, by simp [destroy, (honce prev rfl).1]⟩ (by simp)
  case living | entering => exact hgo _ (by simp) (by simp)
  case restoring => exact hgo _ (by split <;> simp) (by simp)
  case checking =>
    split
    · exact b.set (fun _ _ => rfl) (fun t ht haway => ⟨update_true ht, haway⟩) (by simp)
        (by simp [hpc])
    · exact hgo _ (by simp) (by simp)

theorem Burials.step [Fintype κ] (b : m.BurialsAt pl) (hs : m.step cfg a = some m') :
    m'.BurialsAt (m.places pl a) := by
  -- a thread that comes to a ready queue has not ended
  have hpush : m'.removed = m.removed → m'.destroyed = m.destroyed → m'.ended = m.ended →
      m'.pc = m.pc → m'.currThread = m.currThread → m'.BurialsAt (m.places pl a) :=
      fun hr hd he hpc hc => by
    rw [BurialsAt, hr, hd, he, hpc, hc]
    refine ⟨fun t ht => ?_, b.once, b.unique⟩
    obtain ⟨hend, haway⟩ := b.gone t ht
    exact ⟨hend, e.stays_away r hs hend haway⟩
  cases a
  case advance c => exact b.advance r e h hs
  all_goals
    obtain ⟨hif, rfl⟩ := Option.ite_some_none_eq_some.mp hs
    clear hs
  case preempt c => exact b.set (fun _ _ => rfl) (fun _ => And.intro) (by simp) (by simp [hif])
  case suspend c =>
    split
    · exact b.set (fun _ _ => rfl) (fun _ => And.intro) (by simp) (by simp [hif])
    · exact b
  case terminate c =>
    exact b.set (fun _ _ => rfl) (fun t ht haway => ⟨update_true ht, haway⟩) (by simp)
      (by simp [hif])
  case create | exec | resume => exact hpush rfl rfl rfl rfl rfl
  case unblock | cancel => exact b

end

/-! ## The hand-over -/

/-- **The invariant of the hand-over.** -/
structure HandedOver (cfg : Setup κ τ) (m : Scheduling κ τ π) (pl : τ → Place κ) : Prop where
  ready : Ready cfg m pl
  ends : Ends m.state m.ended m.born m.woken pl m.pc m.currThread
  routes : Routes m.nextScheduler pl m.pc m.currThread
  saves : Saves m.sp m.ctx m.ended m.pc m.currThread
  burials : Burials m.removed m.destroyed m.ended pl m.pc m.currThread
  early : m.early = false

variable [Fintype κ]

theorem HandedOver.step (h : HandedOver cfg m pl) (ha : m.Stays cfg a)
    (hs : m.step cfg a = some m') : HandedOver cfg m' (m.places pl a) := by
  obtain ⟨hsaves, hearly⟩ := h.saves.step h.ready h.ends h.routes hs
  exact ⟨h.ready.step hs, h.ends.step h.ready hs, h.routes.step h.ready ha hs, hsaves,
    h.burials.step h.ready h.ends h.routes hs, hearly.trans h.early⟩

omit [DecidableEq κ] [DecidableEq π] in
theorem handedOver_init (cfg : Setup κ τ) :
    ∃ pl, HandedOver cfg (init cfg : Scheduling κ τ π) pl := by
  obtain ⟨pl, hready⟩ := ready_init (π := π) cfg
  refine ⟨pl, hready, ends_init cfg pl rfl, ⟨?_, ?_⟩, ⟨?_, ?_, ?_⟩, ⟨?_, ?_, ?_⟩, rfl⟩ <;>
    simp [init]

theorem exists_handedOver {as : List (Action κ τ π)} (hrun : run (step cfg) (init cfg) as = some m)
    (hstays : Guarded (step cfg) (Stays cfg) (init cfg) as) : ∃ pl, HandedOver cfg m pl := by
  refine invariant_of_guarded (P := fun m => ∃ pl, HandedOver cfg m pl) ?_
    (handedOver_init cfg) hstays hrun
  rintro m a m' ⟨pl, h⟩ ha hs
  exact ⟨_, h.step ha hs⟩

/-- **The hand-over of threads.**  In every run of any number of cores in which `preempt` and
`yield` keep a thread on its core, no thread is dispatched, and no context restored, before the last
core has saved its stack pointer and its context, and every thread is removed from its process and
destroyed at most once. -/
theorem handed_over_saved {as : List (Action κ τ π)} (hrun : run (step cfg) (init cfg) as = some m)
    (hstays : Guarded (step cfg) (Stays cfg) (init cfg) as) :
    m.early = false ∧ ∀ t, m.removed t ≤ 1 ∧ m.destroyed t ≤ 1 := by
  obtain ⟨pl, h⟩ := exists_handedOver hrun hstays
  exact ⟨h.early, h.burials.unique⟩

/-- Core 0 goes to a thread of a process and back, while core 1 destroys its boot thread. -/
theorem handed_over_saved_back : ∃ m : Scheduling (Fin 2) (Fin 8) Unit,
    run (step .twoCores) (init .twoCores) [[.terminate 1], advances 10 1,
      [.exec 0 () 4, .preempt 0], advances 9 0, [.preempt 0], advances 10 0].flatten = some m ∧
      (m.currThread 0 = 0 ∧ m.ctx 4 = true ∧ m.destroyed 1 = 1) ∧ m.early = false ∧
      ∀ t, m.removed t ≤ 1 ∧ m.destroyed t ≤ 1 :=
  exists_run_and (by decide +kernel) fun _ hrun _ =>
    handed_over_saved hrun (guarded_of_decide (by decide +kernel))

/-- Core 0 moves the thread 4 to core 1, and `postSwitch` queues it there.  If it is a thread of a
process, core 1 dispatches it before core 0 has saved its context.  And if it ends on core 1 before
core 0 has read its state, both cores destroy it. -/
theorem migrated_too_early :
    (∃ m : Scheduling (Fin 2) (Fin 8) Unit,
      run (step .twoCores) (init .twoCores) [[.exec 0 () 4, .create 0 5, .create 0 6, .preempt 0],
        advances 9 0, [.preempt 0], advances 5 0, [.preempt 1], advances 4 1].flatten = some m ∧
        m.currThread 1 = 4 ∧ m.pc 0 = .resumed 4 ∧ m.early = true ∧ m.failed = false) ∧
      ∃ m : Scheduling (Fin 2) (Fin 8) Unit,
      run (step .twoCores) (init .twoCores) [[.create 0 4, .create 0 5, .create 0 6, .preempt 0],
        advances 9 0, [.preempt 0], advances 5 0, [.preempt 1], advances 10 1, [.terminate 1],
        advances 9 1, advances 4 0].flatten = some m ∧ m.destroyed 4 = 2 ∧ m.failed = false :=
  ⟨exists_run (by decide +kernel), exists_run (by decide +kernel)⟩

end Scheduling

end Kos
