import KosKernel.Runtime.ReadyQueues

/-!
# Runtime/Endings — threads that end, and the address spaces they leave

Between `stackSwitch` and the end of `postResume` a core is on the stack of its new thread, but in
the address space of the old one, whose context it has still to save, or which it has to bury.  Here
is what holds in every run: a thread that has ended is not woken up again, and a core is in the
address space of the thread that it runs or has left last.
-/

namespace Kos

open Function Runs Blocking

namespace SwitchPc

variable {κ τ π : Type}

/-- The thread that the core is leaving or has left, once `nextScheduler` is set. -/
@[simp] def behind : SwitchPc κ τ π → τ → Option τ
  | .chosen _ _, curr | .unlocked _ _, curr => some curr
  | .switched _ prev, _ | .resumed prev, _ | .dying prev, _ | .clearing prev _, _
  | .leaving prev _, _
  | .deleting prev _, _ | .freeing prev, _ | .living prev, _ => some prev
  | .running, _ | .picking _, _ | .picked _ _, _ | .entering, _ | .restoring, _
  | .checking, _ => none

/-- The thread that `postResume` has seen to be `Finishing`. -/
@[simp] def buries : SwitchPc κ τ π → Option τ
  | .dying prev | .clearing prev _ | .leaving prev _ | .deleting prev _ | .freeing prev => some prev
  | .running | .picking _ | .picked _ _ | .chosen _ _ | .unlocked _ _ | .switched _ _ | .resumed _
  | .living _
  | .entering | .restoring | .checking => none

/-- The thread in whose address space the core is. -/
@[simp] def space : SwitchPc κ τ π → τ → Option τ
  | .switched _ prev, _ | .resumed prev, _ | .dying prev, _ | .clearing prev _, _
  | .leaving prev _, _
  | .living prev, _ => some prev
  | .entering, _ => none
  | .running, curr | .picking _, curr | .picked _ _, curr | .chosen _ _, curr | .unlocked _ _, curr
  | .deleting _ _, curr | .freeing _, curr | .restoring, curr | .checking, curr => some curr

end SwitchPc

namespace Scheduling

variable {κ τ π : Type}

/-! ## Threads that end -/

/-- A thread that has ended is not woken up, and stays where it is until its core has left it. -/
structure Ends (state : τ → ThreadState) (ended born : τ → Bool) (woken : List τ) (pl : τ → Place κ)
    (pc : κ → SwitchPc κ τ π) (curr : κ → τ) : Prop where
  finishing : ∀ t, state t = .finishing → ended t = true
  asleep : ∀ t, ended t = true → t ∉ woken ∧ state t ≠ .blocked
  unborn : ∀ t, born t = false → ended t = false
  place : ∀ t, ended t = true → pl t = .away ∨ ∃ c, pl t = .core c ∧ curr c = t ∧
    (pc c).suspends = true
  buries : ∀ c t, (pc c).buries = some t → ended t = true

variable {cfg : Setup κ τ} {m m' : Scheduling κ τ π}
  {pl : τ → Place κ} {c d : κ} {t u : τ}

abbrev EndsAt (m : Scheduling κ τ π) (pl : τ → Place κ) : Prop :=
  Ends m.state m.ended m.born m.woken pl m.pc m.currThread

theorem Ready.mem_held (r : Ready cfg m pl) (t : τ) (c : κ) :
    t ∈ (m.pc c).held (m.currThread c) ↔ pl t = .core c := r.places.core t c

theorem update_true [DecidableEq τ] {f : τ → Bool} (ht : f t = true) :
    update f u true t = true := by
  by_cases htu : t = u
  · rw [htu, update_self]
  · rwa [update_of_ne htu]

section

variable {state : τ → ThreadState} {ended born : τ → Bool} {woken woken' : List τ}
  {pl' : τ → Place κ}
  {pcs : κ → SwitchPc κ τ π} {curr curr' : κ → τ} {pc : SwitchPc κ τ π} {x : Place κ}
    {s : ThreadState}

variable (h : Ends state ended born woken pl pcs curr)

include h

theorem Ends.not_queued (ht : pl t = .queue c) : ended t = false := by
  by_contra hend
  obtain haway | ⟨d, hd, -⟩ := h.place t (by simpa using hend)
  · exact absurd (ht.symm.trans haway) (by simp)
  · exact absurd (ht.symm.trans hd) (by simp)

/-- A thread that has ended, and is with a core, is about to leave it. -/
theorem Ends.leaves (hend : ended t = true) (ht : pl t = .core c) :
    curr c = t ∧ (pcs c).suspends = true := by
  obtain haway | ⟨d, hd, hleaves⟩ := h.place t hend
  · exact absurd (ht.symm.trans haway) (by simp)
  · exact Place.core.inj (hd.symm.trans ht) ▸ hleaves

theorem Ends.not_ended (ht : pl t = .core c) (hsus : (pcs c).suspends = false) :
    ended t = false := by
  by_contra hend
  exact absurd (hsus.symm.trans (h.leaves (by simpa using hend) ht).2) Bool.false_ne_true

/-- One core goes on; a thread that has ended goes nowhere but away. -/
theorem Ends.set [DecidableEq κ] (hcurr : ∀ d, d ≠ c → curr' d = curr d)
    (hpl : ∀ t, ended t = true → pl' t = pl t ∨ pl' t = .away)
    (hcore : ∀ t, pl' t = .core c → curr c = t → (pcs c).suspends = true →
      curr' c = t ∧ pc.suspends = true) (hburies : ∀ t, pc.buries = some t → ended t = true) :
    Ends state ended born woken pl' (update pcs c pc) curr' := by
  refine { h with place := fun t ht => ?_, buries := fun d t hd => ?_ }
  · obtain hpl | hpl := hpl t ht
    · rw [hpl]
      refine (h.place t ht).imp_right fun ⟨d, hd, hcur, hsus⟩ => ⟨d, hd, ?_⟩
      by_cases hdc : d = c
      · subst hdc
        simpa using hcore t (hpl.trans hd) hcur hsus
      · rw [hcurr d hdc, update_of_ne hdc]
        exact ⟨hcur, hsus⟩
    · exact .inl hpl
  · by_cases hdc : d = c
    · subst hdc
      exact hburies t (by simpa using hd)
    · exact h.buries d t (by simpa [hdc] using hd)

omit h in
theorem update_of_not_ended [DecidableEq τ] (hu : ended u = false) (ht : ended t = true) :
    update pl u x t = pl t := by
  rw [update_of_ne]
  rintro rfl
  exact absurd (hu.symm.trans ht) Bool.false_ne_true

/-- One core goes on with its thread. -/
theorem Ends.go [DecidableEq κ] (hsus : (pcs c).suspends = true → pc.suspends = true)
    (hburies : ∀ t, pc.buries = some t → ended t = true) :
    Ends state ended born woken pl (update pcs c pc) curr :=
  h.set (fun _ _ => rfl) (fun _ _ => .inl rfl) (fun _ _ ht hs => ⟨ht, hsus hs⟩) hburies

/-- A thread that has not ended comes to a ready queue. -/
theorem Ends.push [DecidableEq τ] (hu : ended u = false) (hwoken : woken' ⊆ woken) :
    Ends state ended born woken' (update pl u x) pcs curr := by
  refine { h with
    asleep := fun t ht => ⟨fun hmem => (h.asleep t ht).1 (hwoken hmem), (h.asleep t ht).2⟩
    place := fun t ht => ?_ }
  rw [update_of_not_ended hu ht]
  exact h.place t ht

/-- The state of a thread changes; it does not block if it has ended. -/
theorem Ends.setState [DecidableEq τ] (hst : s ≠ .finishing) (hu : s = .blocked → ended u = false) :
    Ends (update state u s) ended born woken pl pcs curr := by
  refine ⟨fun t ht => ?_, fun t ht => ⟨(h.asleep t ht).1, ?_⟩, h.unborn, h.place, h.buries⟩
  · by_cases htu : t = u
    · subst htu
      exact absurd ((update_self ..).symm.trans ht) hst
    · rw [update_of_ne htu] at ht
      exact h.finishing t ht
  · by_cases htu : t = u
    · subst htu
      rw [update_self]
      exact fun hb => absurd ((hu hb).symm.trans ht) Bool.false_ne_true
    · rw [update_of_ne htu]
      exact (h.asleep t ht).2

/-- A thread that has not ended is due to be resumed. -/
theorem Ends.wake (hu : ended u = false) : Ends state ended born (u :: woken) pl pcs curr := by
  refine { h with asleep := fun t ht => ⟨List.not_mem_cons_of_ne_of_not_mem ?_ (h.asleep t ht).1,
                    (h.asleep t ht).2⟩ }
  rintro rfl
  exact absurd (hu.symm.trans ht) Bool.false_ne_true

/-- The thread of a core ends. -/
theorem Ends.finish [DecidableEq κ] [DecidableEq τ] (hpl : pl (curr c) = .core c)
    (hwoken : curr c ∉ woken) (hborn : born (curr c) = true) (hsus : pc.suspends = true)
    (hbury : pc.buries = none) :
    Ends (update state (curr c) .finishing) (update ended (curr c) true) born woken pl
      (update pcs c pc) curr := by
  have h' : Ends state ended born woken pl (update pcs c pc) curr :=
    h.go (fun _ => hsus) (by rw [hbury]; simp)
  refine ⟨fun t ht => ?_, fun t ht => ?_, fun t ht => ?_, fun t ht => ?_,
    fun d t hd => update_true (h'.buries d t hd)⟩
  all_goals by_cases htc : t = curr c
  · rw [htc, update_self]
  · rw [update_of_ne htc] at ht ⊢
    exact h.finishing t ht
  · exact ⟨htc ▸ hwoken, by simp [htc]⟩
  · rw [update_of_ne htc] at ht ⊢
    exact h.asleep t ht
  · exact absurd ((htc ▸ ht).symm.trans hborn) Bool.false_ne_true
  · rw [update_of_ne htc]
    exact h.unborn t ht
  · exact .inr ⟨c, htc ▸ hpl, htc.symm, by rwa [update_self]⟩
  · rw [update_of_ne htc] at ht
    exact h'.place t ht

end

theorem Ready.curr_born (r : Ready cfg m pl) (h : m.currThread c ∈ m.held c) :
    m.born (m.currThread c) = true := by
  cases hborn : m.born (m.currThread c) with
  | true => rfl
  | false =>
    have haway := (r.sleepers.unborn _ hborn).1
    rw [r.curr_place h] at haway
    cases haway

variable [DecidableEq κ] [DecidableEq τ]

theorem Ends.finished (r : Ready cfg m pl) (h : m.EndsAt pl)
    (hpc : m.pc c = .running ∨ m.pc c = .checking) :
    Ends (m.finish c).state (m.finish c).ended (m.finish c).born
      (m.finish c).woken pl (m.finish c).pc (m.finish c).currThread := by
  have hheld : m.held c = [m.currThread c] := by
    obtain hpc | hpc := hpc <;> rw [held, hpc] <;> rfl
  have hmem : m.currThread c ∈ m.held c := by simp [hheld]
  obtain ⟨hwoken, -⟩ :=
    r.curr_awake hheld (by obtain hpc | hpc := hpc <;> rw [suspends, hpc] <;> rfl)
  exact h.finish (r.curr_place hmem) hwoken (r.curr_born hmem) rfl rfl

variable [DecidableEq π]

theorem Ends.advance (r : Ready cfg m pl) (h : m.EndsAt pl) (hs : m.advance cfg c = some m') :
    m'.EndsAt (m.placesAt c pl) := by
  have hburies := h.buries c
  have hgo : ∀ pc : SwitchPc κ τ π, ((m.pc c).suspends = true → pc.suspends = true) →
      (∀ t, pc.buries = some t → (m.pc c).buries = some t) →
      Ends m.state m.ended m.born m.woken pl (update m.pc c pc) m.currThread := fun pc hsus hb =>
    h.go hsus fun t ht => hburies t (hb t ht)
  rw [placesAt]
  cases hpc : m.pc c
  all_goals
    rw [Scheduling.advance, hpc] at hs
    rw [hpc] at hburies hgo
  case running => cases hs
  all_goals
    cases hs
  case picking target =>
    dsimp only [pick]
    cases hf : findReady (m.readyQueue c) (bound target c) with
    | none =>
      dsimp only
      split
      · exact h
      · obtain ⟨d, rfl⟩ := Option.ne_none_iff_exists'.mp ‹_›
        exact hgo .running (by simp) (by simp)
    | some res =>
      obtain ⟨i, u⟩ := res
      have hu : pl u = .queue c := ((r.places.queue u c i).mp (by
        rw [findReady_eq_some hf]
        exact List.mem_cons_self)).1
      exact h.set (fun _ _ => rfl) (fun t ht => .inl (update_of_not_ended (h.not_queued hu) ht))
        (fun t _ ht hs => ⟨ht, by rwa [hpc] at hs⟩) (by simp)
  case picked => exact hgo _ id (by simp)
  case chosen target u =>
    cases target with
    | none =>
      refine h.set (fun _ _ => rfl) (fun t _ => ?_) (fun t ht hcurr _ => ?_) (by simp)
      · by_cases htc : t = m.currThread c
        · exact .inr (htc ▸ update_self ..)
        · exact .inl (update_of_ne htc ..)
      · simp [hcurr] at ht
    | some d => exact hgo _ (by simp) (by simp)
  case unlocked target u =>
    exact h.set (fun d hd => update_of_ne hd ..) (fun _ _ => .inl rfl) (by simp [hpc]) (by simp)
  case switched target prev =>
    cases target with
    | none => exact hgo _ (by simp) (by simp)
    | some d =>
      have hprev : pl prev = .core c := (r.mem_held prev c).mp (by simp [hpc])
      exact h.set (fun _ _ => rfl)
        (fun t ht => .inl (update_of_not_ended (h.not_ended hprev (by rw [hpc]; rfl)) ht))
        (by simp [hpc]) (by simp)
  case resumed prev =>
    split
    · rename_i hstate
      exact h.go (by simp [hpc]) fun t ht => h.finishing t (Option.some.inj ht ▸ hstate)
    · exact hgo _ (by simp) (by simp)
  case dying prev =>
    rw [destroyThread]
    split
    · exact hgo _ (by simp) fun _ => id
    · refine hgo _ (by simp) ?_
      split <;> exact fun _ => id
  case leaving prev p => cases p <;> exact hgo _ (by simp) fun _ => id
  case clearing | deleting => exact hgo _ (by simp) fun _ => id
  case freeing | living | entering => exact hgo _ (by simp) (by simp)
  case restoring => exact hgo _ (by simp) (by split <;> simp)
  case checking =>
    split
    · exact h.finished r (.inr hpc)
    · exact hgo _ (by simp) (by simp)

variable {a : Action κ τ π}

theorem Ends.step [Fintype κ] (r : Ready cfg m pl) (h : m.EndsAt pl) (hs : m.step cfg a = some m') :
    m'.EndsAt (m.places pl a) := by
  have hblocked : ∀ t, m.state t = .blocked → m.ended t = false := fun t ht => by
    by_contra hend
    exact (h.asleep t (by simpa using hend)).2 ht
  have hcurr : ∀ c, m.pc c = .running → m.ended (m.currThread c) = false := fun c hpc =>
    h.not_ended (r.curr_place (by simp [held, hpc])) (by rw [hpc]; rfl)
  have hborn : ∀ {t x}, m.born t = false → Ends m.state m.ended (update m.born t true) m.woken
      (update pl t x) m.pc m.currThread := fun {t x} ht => by
    have h' := h.push (x := x) (h.unborn t ht) (List.Subset.refl _)
    refine { h' with unborn := fun u hu => h'.unborn u ?_ }
    by_cases hut : u = t
    · simp [hut] at hu
    · rwa [update_of_ne hut] at hu
  cases a
  case advance c => exact h.advance r hs
  all_goals
    obtain ⟨hif, rfl⟩ := Option.ite_some_none_eq_some.mp hs
    clear hs
  case preempt c => exact h.go (by simp [hif]) (by simp)
  case suspend c =>
    split
    · exact (h.setState (by simp) fun _ => hcurr c hif.1).go (fun _ => rfl) (by simp)
    · exact h
  case terminate c => exact h.finished r (.inl hif.1)
  case create c t => exact hborn hif.2
  case exec c p t => exact hborn hif.2.2.1
  case unblock c t => exact (h.setState (by simp) (by simp)).wake (hblocked t hif.2.1)
  case cancel c t =>
    have h' := h.setState (u := t) (s := .cancelled) (by simp) (by simp)
    rw [EndsAt, cancel]
    dsimp only
    split
    · exact h'.wake (hblocked t ‹_›)
    · exact h'
  case resume c t =>
    refine h.push ?_ (List.erase_subset ..)
    by_contra hend
    exact (h.asleep t (by simpa using hend)).1 hif.2.1

/-- A thread that has ended, and is away, stays so. -/
theorem Ends.stays_away [Fintype κ] (r : Ready cfg m pl) (e : m.EndsAt pl)
    (hs : m.step cfg a = some m') (hend : m.ended t = true) (haway : pl t = .away) :
    m.places pl a t = .away := by
  cases a
  case advance c =>
    rw [places, placesAt]
    cases hpc : m.pc c
    case picking target =>
      dsimp only
      cases hf : findReady (m.readyQueue c) (bound target c) with
      | none => exact haway
      | some res =>
        have hu := ((r.places.queue res.2 c res.1).mp (by
          rw [findReady_eq_some hf]
          exact List.mem_cons_self)).1
        exact away_update (by simp [hu]) haway
    case chosen target u =>
      cases target with
      | some d => exact haway
      | none =>
        have hcurr := r.curr_place (c := c) (by simp [held, hpc])
        exact away_update (by simp [hcurr]) haway
    case switched target prev =>
      cases target with
      | none => exact haway
      | some d =>
        have hprev : pl prev = .core c := (r.mem_held prev c).mp (by simp [hpc])
        exact away_update (by simp [hprev]) haway
    all_goals exact haway
  all_goals obtain ⟨hif, -⟩ := Option.ite_none_right_eq_some.mp hs
  case create c u => exact (update_of_not_ended (e.unborn u hif.2) hend).trans haway
  case exec c p u => exact (update_of_not_ended (e.unborn u hif.2.2.1) hend).trans haway
  case resume c u =>
    refine (update_of_not_ended ?_ hend).trans haway
    by_contra hu
    exact (e.asleep u (by simpa using hu)).1 hif.2.1
  all_goals exact haway

omit [DecidableEq κ] [DecidableEq π] in
theorem ends_init [Fintype κ] (cfg : Setup κ τ) (pl : τ → Place κ) (hm : m = init cfg) :
    m.EndsAt pl := by
  subst hm
  constructor <;> simp [init]

/-! ## Address spaces -/

/-- A core is in the address space of its thread, or of the one that it has left; a `threadStore`
has the threads of its process that have not been removed. -/
structure Spaces (m : Scheduling κ τ π) : Prop where
  space : ∀ c t, (m.pc c).space (m.currThread c) = some t →
    m.currAS c = m.memctx t ∧ m.born t = true
  nodup : ∀ p, (m.threadStore p).Nodup
  store : ∀ t p, t ∈ m.threadStore p ↔ m.born t = true ∧ m.memctx t = some p ∧ m.removed t = 0
  used : ∀ t p, m.born t = true → m.memctx t = some p → m.used p = true
  unborn : ∀ t, m.born t = false → m.removed t = 0

omit [DecidableEq τ] [DecidableEq π] in
/-- One core goes on in its address space. -/
theorem Spaces.go {pc : SwitchPc κ τ π} (h : Spaces m)
    (hspace : ∀ t, pc.space (m.currThread c) = some t → m.currAS c = m.memctx t ∧ m.born t = true) :
    Spaces (m.go c pc) := by
  refine { h with space := fun d t hd => ?_ }
  by_cases hdc : d = c
  · subst hdc
    exact hspace t (by simpa using hd)
  · exact h.space d t (by simpa [hdc] using hd)

omit [DecidableEq τ] [DecidableEq π] in
/-- One core enters the address space of its thread. -/
theorem Spaces.enter {pc : SwitchPc κ τ π} (h : Spaces m) (hborn : m.born (m.currThread c) = true)
    (hspace : ∀ t, pc.space (m.currThread c) = some t → m.currThread c = t) :
    Spaces ((m.enter c).go c pc) := by
  refine { h with space := fun d t hd => ?_ }
  by_cases hdc : d = c
  · subst hdc
    obtain rfl := hspace t (by simpa [Scheduling.enter] using hd)
    exact ⟨update_self .., hborn⟩
  · obtain ⟨has, hborn⟩ := h.space d t (by simpa [hdc, Scheduling.enter] using hd)
    exact ⟨(update_of_ne hdc ..).trans has, hborn⟩

omit [DecidableEq π] in
/-- The core is on the stack of the next thread; the old one keeps its address space. -/
theorem Spaces.stackSwitch {target : Option κ} (h : Spaces m) (hpc : m.pc c = .unlocked target u) :
    Spaces (m.stackSwitch c target u) := by
  obtain ⟨has, hborn⟩ := h.space c (m.currThread c) (by rw [hpc]; rfl)
  have hmemctx : (m.stackSwitch c target u).memctx = m.memctx := by
    simp only [Scheduling.stackSwitch]
    rw [has, update_eq_self]
  refine ⟨fun d t hd => ?_, h.nodup, ?_, ?_, h.unborn⟩
  · rw [hmemctx]
    by_cases hdc : d = c
    · subst hdc
      obtain rfl : m.currThread d = t := by simpa [Scheduling.stackSwitch] using hd
      exact ⟨has, hborn⟩
    · exact h.space d t (by simpa [Scheduling.stackSwitch, hdc] using hd)
  · rw [hmemctx]
    exact h.store
  · rw [hmemctx]
    exact h.used

/-- A thread is removed from its process. -/
theorem Spaces.destroyThread (h : Spaces m) (hpc : m.pc c = .dying t) :
    Spaces (m.destroyThread c t) := by
  obtain ⟨has, hborn⟩ := h.space c t (by rw [hpc]; rfl)
  rw [Scheduling.destroyThread]
  split
  · exact h.go fun u hu => h.space c u (by rwa [hpc])
  · rename_i p hp
    have h' : Spaces
        (m.go c (if (m.threadStore p).erase t = [] then .clearing t p else .leaving t none)) :=
      h.go fun u hu => h.space c u (by
        rw [hpc]
        split at hu <;> exact hu)
    refine ⟨h'.space, fun q => ?_, fun u q => ?_, h'.used, fun u hu => ?_⟩
    · by_cases hqp : q = p
      · rw [hqp]
        simpa using (h.nodup p).erase t
      · simpa [hqp] using h.nodup q
    · have hmem : u ∈ update m.threadStore p ((m.threadStore p).erase t) q ↔
          u ≠ t ∧ u ∈ m.threadStore q := by
        by_cases hqp : q = p
        · rw [hqp, update_self, (h.nodup p).mem_erase_iff]
        · rw [update_of_ne hqp]
          refine ⟨fun hu => ⟨?_, hu⟩, And.right⟩
          rintro rfl
          have hq := ((h.store u q).mp hu).2.1
          rw [← has, hp] at hq
          exact hqp (Option.some.inj hq).symm
      refine hmem.trans ?_
      by_cases hut : u = t
      · simp [hut]
      · simp [hut, h.store, Scheduling.go]
    · have hut : u ≠ t := by
        rintro rfl
        exact absurd (hborn.symm.trans hu) (by simp)
      simpa [hut] using h.unborn u hu

theorem Spaces.advance (r : Ready cfg m pl) (h : Spaces m) (hs : m.advance cfg c = some m') :
    Spaces m' := by
  have hspace := h.space c
  have hgo : ∀ pc : SwitchPc κ τ π, _ → Spaces (m.go c pc) := fun _ => h.go
  cases hpc : m.pc c
  all_goals
    rw [Scheduling.advance, hpc] at hs
    rw [hpc] at hspace
  case running => cases hs
  all_goals
    cases hs
  case picking target =>
    rw [pick]
    split
    · split
      · exact { h with }
      · exact h.go hspace
    · rename_i i u _
      exact { hgo (.picked target u) hspace with }
  case picked target u => exact { hgo (.chosen target u) hspace with }
  case chosen target u => exact { hgo (.unlocked target u) hspace with }
  case unlocked target u => exact h.stackSwitch hpc
  case switched target prev => cases target <;> exact { hgo (.resumed prev) hspace with }
  case resumed prev =>
    split
    · exact { hgo (.dying prev) hspace with }
    · exact h.go hspace
  case dying prev => exact h.destroyThread hpc
  case clearing prev p => exact { hgo (.leaving prev (some p)) hspace with }
  case leaving prev p =>
    have hborn := r.curr_born (c := c) (by simp [held, hpc])
    cases p <;> exact h.enter hborn fun _ => Option.some.inj
  case deleting prev p => exact { hgo (.freeing prev) hspace with }
  case freeing prev => exact { hgo .restoring hspace with }
  case living prev => exact { hgo .entering (by simp) with }
  case entering =>
    exact h.enter (r.curr_born (c := c) (by simp [held, hpc])) fun _ => Option.some.inj
  case restoring =>
    have h' : Spaces (m.go c (if m.invoked (m.currThread c) then .checking else .running)) :=
      h.go (by split <;> exact hspace)
    exact { h' with }
  case checking =>
    split
    · exact { hgo (.picking none) hspace with }
    · exact h.go hspace

/-- A thread is created in the address space `as`. -/
theorem Spaces.create {used' : π → Bool} (h : Spaces m) (as : Option π) (ht : m.born t = false)
    (has : ∀ p, as = some p → used' p = true) (hused : ∀ p, m.used p = true → used' p = true) :
    Spaces { m.create cfg c t as with used := used' } := by
  have hnew : ∀ p, t ∉ m.threadStore p := fun p hp => absurd ((h.store t p).mp hp).1 (by simp [ht])
  have hstore : ∀ p, (m.create cfg c t as).threadStore p =
      if as = some p then m.threadStore p ++ [t] else m.threadStore p := fun p => by
    cases as with
    | none => simp [Scheduling.create]
    | some q =>
      by_cases hpq : p = q
      · simp [Scheduling.create, hpq]
      · simp [Scheduling.create, hpq, Ne.symm hpq]
  have hne : ∀ {u}, m.born u = true → u ≠ t := by
    rintro u hu rfl
    exact absurd (ht.symm.trans hu) Bool.false_ne_true
  refine ⟨fun d u hd => ?_, fun p => ?_, fun u p => ?_, fun u p hu hp => ?_, fun u hu => ?_⟩
  · obtain ⟨hu, hborn⟩ := h.space d u hd
    refine ⟨hu.trans (update_of_ne (hne hborn) ..).symm, ?_⟩
    exact (update_of_ne (hne hborn) ..).trans hborn
  · show ((m.create cfg c t as).threadStore p).Nodup
    rw [hstore]
    split
    · exact List.nodup_append.mpr ⟨h.nodup p, List.nodup_singleton t, fun u hu v hv huv =>
        hnew p (List.mem_singleton.mp hv ▸ huv ▸ hu)⟩
    · exact h.nodup p
  · show u ∈ (m.create cfg c t as).threadStore p ↔ update m.born t true u = true ∧
      update m.memctx t as u = some p ∧ m.removed u = 0
    rw [hstore]
    by_cases hut : u = t
    · subst hut
      by_cases hp : as = some p <;> simp [hp, hnew, h.unborn u ht]
    · by_cases hp : as = some p <;> simp [hp, hut, h.store]
  · by_cases hut : u = t
    · subst hut
      exact has p (by simpa [Scheduling.create] using hp)
    · exact hused p (h.used u p ((update_of_ne hut ..).symm.trans hu)
        ((update_of_ne hut ..).symm.trans hp))
  · refine h.unborn u ?_
    by_cases hut : u = t
    · exact hut ▸ ht
    · exact (update_of_ne hut ..).symm.trans hu

theorem Spaces.step [Fintype κ] (r : Ready cfg m pl) (h : Spaces m) (hs : m.step cfg a = some m') :
    Spaces m' := by
  have hpick : ∀ {c} target, m.pc c = .running → Spaces (m.go c (.picking target)) :=
    fun {c} target hpc =>
    h.go fun u hu => h.space c u (by rwa [hpc])
  cases a
  case advance c => exact h.advance r hs
  all_goals
    obtain ⟨hif, rfl⟩ := Option.ite_some_none_eq_some.mp hs
    clear hs
  case preempt c => exact hpick _ hif
  case suspend c =>
    split
    · have h' := hpick none hif.1
      exact { h' with }
    · exact h
  case terminate c =>
    have h' := hpick none hif.1
    exact { h' with }
  case create c t =>
    obtain ⟨hcurr, hborn⟩ := h.space c (m.currThread c) (by rw [hif.1]; rfl)
    exact h.create (m.currAS c) hif.2 (fun p hp => h.used _ p hborn (hcurr ▸ hp)) fun _ => id
  case exec c p t =>
    refine h.create (some p) hif.2.2.1 (fun q hq => ?_) fun q hq => update_true hq
    rw [← Option.some.inj hq, update_self]
  case unblock | cancel | resume => exact { h with }

end Scheduling

end Kos
