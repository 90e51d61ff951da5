import KosKernel.Runtime.Endings

/-!
# Runtime/Teardown — an address space is torn down when no core is in it

`Process::destroyThread` finds out under `threadLock` that it has removed the last thread of a
process, and `postResume` then clears and deletes the address space.  Other cores leave it only in
`nextAS.enter`, later than they remove their threads.
-/

namespace Kos

open Function Runs Blocking

namespace SwitchPc

variable {κ τ π : Type}

/-- The process whose last thread the core has removed, before `clearUserPaging`. -/
def clears : SwitchPc κ τ π → Option π
  | .clearing _ p => some p
  | .running | .picking _ | .picked _ _ | .chosen _ _ | .unlocked _ _ | .switched _ _ | .resumed _
  | .dying _
  | .leaving _ _ | .deleting _ _ | .freeing _ | .living _ | .entering | .restoring
  | .checking => none

/-- The process that the core tears down while it is still in it. -/
def tears : SwitchPc κ τ π → Option π
  | .clearing _ p => some p
  | .leaving _ p => p
  | .running | .picking _ | .picked _ _ | .chosen _ _ | .unlocked _ _ | .switched _ _ | .resumed _
  | .dying _
  | .deleting _ _ | .freeing _ | .living _ | .entering | .restoring | .checking => none

/-- The process that the core has to delete. -/
def ruins : SwitchPc κ τ π → Option π
  | .leaving _ p => p
  | .deleting _ p => some p
  | .running | .picking _ | .picked _ _ | .chosen _ _ | .unlocked _ _ | .switched _ _ | .resumed _
  | .dying _
  | .clearing _ _ | .freeing _ | .living _ | .entering | .restoring | .checking => none

/-- The core is about to call `destroyThread`. -/
def dies : SwitchPc κ τ π → Bool
  | .dying _ => true
  | .running | .picking _ | .picked _ _ | .chosen _ _ | .unlocked _ _ | .switched _ _ | .resumed _
  | .clearing _ _
  | .leaving _ _ | .deleting _ _ | .freeing _ | .living _ | .entering | .restoring
  | .checking => false

/-- The core is in `switchThread`, before `nextAS.enter`. -/
def departs : SwitchPc κ τ π → Bool
  | .picking _ | .picked _ _ | .chosen _ _ | .unlocked _ _ | .switched _ _ | .resumed _ | .dying _
  | .clearing _ _
  | .leaving _ _ | .living _ | .entering => true
  | .running | .deleting _ _ | .freeing _ | .restoring | .checking => false

end SwitchPc

namespace Scheduling

variable {κ τ π : Type} [DecidableEq κ] [DecidableEq τ] [DecidableEq π] {cfg : Setup κ τ}
  {m m' : Scheduling κ τ π}
  {pl : τ → Place κ} {c d : κ} {t u : τ} {p : π}

/-- The condition on `destroyThread`: no other core that is in the address space is inside
`switchThread`. -/
def Alone [Fintype κ] (m : Scheduling κ τ π) : Action κ τ π → Prop
  | .advance c => (m.pc c).dies = true → m.currAS c ≠ none → ∀ d, d ≠ c → m.currAS d = m.currAS c →
    (m.pc d).departs = false
  | _ => True

instance [Fintype κ] (m : Scheduling κ τ π) : ∀ a, Decidable (m.Alone a)
  | .advance _ => inferInstanceAs (Decidable (_ → _))
  | .preempt _ | .suspend _ | .terminate _ | .create _ _ | .exec _ _ _ | .unblock _ _ | .cancel _ _
  | .resume _ _ =>
    inferInstanceAs (Decidable True)

/-! ## Threads that were removed -/

/-- A thread that was removed from its process has ended, and is away. -/
def Gone (removed : τ → ℕ) (ended : τ → Bool) (pl : τ → Place κ) : Prop :=
  ∀ t, removed t ≠ 0 → ended t = true ∧ pl t = .away

variable {a : Action κ τ π}

/-- Only `destroyThread` removes a thread, and no step takes back that a thread has ended. -/
theorem step_removed [Fintype κ] (hs : m.step cfg a = some m') :
    (∀ t, m.ended t = true → m'.ended t = true) ∧ (m'.removed = m.removed ∨
      ∃ c prev p, a = .advance c ∧ m.pc c = .dying prev ∧ m.currAS c = some p ∧
        m'.removed = update m.removed prev (m.removed prev + 1)) := by
  cases a
  case advance c =>
    rw [Scheduling.step] at hs
    cases hpc : m.pc c
    all_goals rw [Scheduling.advance, hpc] at hs
    case running => cases hs
    all_goals cases hs
    case picking target =>
      rw [pick]
      split
      · split <;> exact ⟨fun _ => id, .inl rfl⟩
      · exact ⟨fun _ => id, .inl rfl⟩
    case switched target prev => cases target <;> exact ⟨fun _ => id, .inl rfl⟩
    case resumed prev => split <;> exact ⟨fun _ => id, .inl rfl⟩
    case dying prev =>
      rw [destroyThread]
      split
      · exact ⟨fun _ => id, .inl rfl⟩
      · exact ⟨fun _ => id, .inr ⟨c, prev, _, rfl, hpc, ‹_›, rfl⟩⟩
    case checking =>
      split
      · exact ⟨fun _ => update_true, .inl rfl⟩
      · exact ⟨fun _ => id, .inl rfl⟩
    all_goals exact ⟨fun _ => id, .inl rfl⟩
  all_goals
    obtain ⟨-, rfl⟩ := Option.ite_some_none_eq_some.mp hs
  case suspend => split <;> exact ⟨fun _ => id, .inl rfl⟩
  case terminate => exact ⟨fun _ => update_true, .inl rfl⟩
  all_goals exact ⟨fun _ => id, .inl rfl⟩

omit [DecidableEq κ] [DecidableEq τ] [DecidableEq π] in
/-- A thread that is removed from its process is away already, if no other core is leaving it. -/
theorem Gone.dying {prev : τ} (e : m.EndsAt pl) (s : Spaces m) (hpc : m.pc c = .dying prev)
    (halone : ∀ d, d ≠ c → m.currAS d = m.currAS c → (m.pc d).departs = false) :
    m.ended prev = true ∧ pl prev = .away := by
  have hend := e.buries c prev (by rw [hpc]; rfl)
  refine ⟨hend, (e.place prev hend).resolve_right ?_⟩
  rintro ⟨d, -, rfl, hsus⟩
  have hdc : d ≠ c := by
    rintro rfl
    rw [hpc] at hsus
    exact absurd hsus (by simp [SwitchPc.suspends])
  have hspace : (m.pc d).space (m.currThread d) = some (m.currThread d) ∧
      (m.pc d).departs = true := by
    cases hd : m.pc d <;> simp_all [SwitchPc.suspends, SwitchPc.space, SwitchPc.departs]
  have has := (s.space d _ hspace.1).1.trans (s.space c (m.currThread d) (by rw [hpc]; rfl)).1.symm
  exact absurd ((halone d hdc has).symm.trans hspace.2) Bool.false_ne_true

theorem Gone.step [Fintype κ] (r : Ready cfg m pl) (e : m.EndsAt pl) (s : Spaces m)
    (h : Gone m.removed m.ended pl) (ha : m.Alone a) (hs : m.step cfg a = some m') :
    Gone m'.removed m'.ended (m.places pl a) := by
  obtain ⟨hended, hrem⟩ := step_removed hs
  have hkeep : ∀ t, m.ended t = true ∧ pl t = .away → m'.ended t = true ∧ m.places pl a t = .away :=
    fun t ⟨hend, haway⟩ => ⟨hended t hend, e.stays_away r hs hend haway⟩
  intro t ht
  obtain hrem | ⟨c, prev, p, rfl, hpc, hp, hrem⟩ := hrem
  · exact hkeep t (h t (hrem ▸ ht))
  · by_cases htp : t = prev
    · exact htp ▸ hkeep prev (Gone.dying e s hpc (ha (by rw [hpc]; rfl) (by simp [hp])))
    · rw [hrem, update_of_ne htp] at ht
      exact hkeep t (h t ht)

/-! ## Address spaces that are torn down -/

/-- The core `a` tears down the process `p`, or has done it. -/
def Doomed (pc : κ → SwitchPc κ τ π) (torn : π → Option κ) (a : κ) (p : π) : Prop :=
  (pc a).clears = some p ∨ torn p = some a

/-- A process that is torn down has no threads, and no other core is in its address space. -/
structure Doom (pc : κ → SwitchPc κ τ π) (currAS : κ → Option π) (threadStore : π → List τ)
    (used : π → Bool) (torn : π → Option κ) (deleted : π → Bool) : Prop where
  inside : ∀ c p, (pc c).tears = some p → currAS c = some p
  empty : ∀ a p, Doomed pc torn a p → threadStore p = [] ∧ used p = true
  alone : ∀ a p c, Doomed pc torn a p → currAS c = some p → c = a ∧ (pc a).tears = some p
  ruined : ∀ a p, (pc a).ruins = some p → torn p = some a
  gone : ∀ p, deleted p = true → torn p ≠ none ∧ ∀ c, currAS c ≠ some p

section

variable {pcs : κ → SwitchPc κ τ π} {currAS : κ → Option π} {threadStore threadStore' : π → List τ}
  {used used' : π → Bool} {torn : π → Option κ} {deleted : π → Bool} {pc : SwitchPc κ τ π}

omit [DecidableEq τ] [DecidableEq π] in
theorem Doomed.of_update {a : κ} (hclears : pc.clears = none)
    (h : Doomed (update pcs c pc) torn a p) : Doomed pcs torn a p := by
  refine h.imp_left fun ha => ?_
  by_cases hac : a = c
  · simp [hac, hclears] at ha
  · rwa [update_of_ne hac] at ha

variable (h : Doom pcs currAS threadStore used torn deleted)

include h

omit [DecidableEq τ] [DecidableEq π] in
/-- One core goes on that tears nothing down. -/
theorem Doom.go (htears : (pcs c).tears = none) (hclears : pc.clears = none)
    (htears' : pc.tears = none) (hruins : pc.ruins = none) :
    Doom (update pcs c pc) currAS threadStore used torn deleted := by
  refine ⟨fun d p hd => ?_, fun a p ha => h.empty a p (ha.of_update hclears), fun a p d ha hd => ?_,
    fun a p ha => ?_, h.gone⟩
  · have hdc : d ≠ c := by
      rintro rfl
      simp [htears'] at hd
    exact h.inside d p (by rwa [update_of_ne hdc] at hd)
  · obtain ⟨rfl, ha'⟩ := h.alone a p d (ha.of_update hclears) hd
    have hdc : d ≠ c := by
      rintro rfl
      simp [htears] at ha'
    exact ⟨rfl, by rwa [update_of_ne hdc]⟩
  · have hac : a ≠ c := by
      rintro rfl
      simp [hruins] at ha
    exact h.ruined a p (by rwa [update_of_ne hac] at ha)

omit [DecidableEq τ] [DecidableEq π] in
/-- One core enters the address space `as`, which is not torn down. -/
theorem Doom.enter {as : Option π} (has : ∀ a p, Doomed pcs torn a p → as ≠ some p)
    (hclears : pc.clears = none) (htears : pc.tears = none)
    (hruins : ∀ p, pc.ruins = some p → (pcs c).ruins = some p) :
    Doom (update pcs c pc) (update currAS c as) threadStore used torn deleted := by
  refine ⟨fun d p hd => ?_, fun a p ha => h.empty a p (ha.of_update hclears), fun a p d ha hd => ?_,
    fun a p ha => ?_, fun p hp => ?_⟩
  · have hdc : d ≠ c := by
      rintro rfl
      simp [htears] at hd
    rw [update_of_ne hdc] at hd ⊢
    exact h.inside d p hd
  · replace ha := ha.of_update hclears
    have hdc : d ≠ c := by
      rintro rfl
      rw [update_self] at hd
      exact has a p ha hd
    rw [update_of_ne hdc] at hd
    obtain ⟨rfl, ha'⟩ := h.alone a p d ha hd
    exact ⟨rfl, by rwa [update_of_ne hdc]⟩
  · by_cases hac : a = c
    · subst hac
      exact h.ruined a p (hruins p (by simpa using ha))
    · exact h.ruined a p (by rwa [update_of_ne hac] at ha)
  · obtain ⟨htorn, hcurr⟩ := h.gone p hp
    obtain ⟨a, ha⟩ := Option.ne_none_iff_exists'.mp htorn
    refine ⟨htorn, fun d hd => ?_⟩
    by_cases hdc : d = c
    · subst hdc
      rw [update_self] at hd
      exact has a p (.inr ha) hd
    · rw [update_of_ne hdc] at hd
      exact hcurr d hd

omit [DecidableEq κ] [DecidableEq τ] [DecidableEq π] in
/-- A process gets a thread whose address space is not torn down. -/
theorem Doom.create (hstore : ∀ a p, Doomed pcs torn a p → threadStore' p = threadStore p)
    (hused : ∀ p, used p = true → used' p = true) :
    Doom pcs currAS threadStore' used' torn deleted := by
  refine { h with empty := fun a p ha => ?_ }
  rw [hstore a p ha]
  exact (h.empty a p ha).imp_right (hused p)

omit [DecidableEq κ] in
/-- A thread is removed that is not the last one. -/
theorem Doom.remove (t : τ) (p : π) :
    Doom pcs currAS (update threadStore p ((threadStore p).erase t)) used torn deleted := by
  refine { h with empty := fun a q ha => ?_ }
  obtain ⟨hempty, hused⟩ := h.empty a q ha
  refine ⟨?_, hused⟩
  by_cases hqp : q = p
  · subst hqp
    rw [update_self, hempty, List.erase_nil]
  · rwa [update_of_ne hqp]

omit [DecidableEq τ] [DecidableEq π] in
/-- The last thread of a process is removed, and no other core is in its address space. -/
theorem Doom.clear (hempty : threadStore p = []) (hused : used p = true)
    (hcurr : ∀ d, currAS d = some p ↔ d = c) (hold : (pcs c).tears = none) :
    Doom (update pcs c (.clearing t p)) currAS threadStore used torn deleted := by
  have hnew : ∀ a q, Doomed (update pcs c (.clearing t p)) torn a q → Doomed pcs torn a q ∨ a = c ∧
      q = p :=
    fun a q ha => by
      by_cases hac : a = c
      · subst hac
        refine ha.elim (fun ha => .inr ⟨rfl, ?_⟩) fun ha => .inl (.inr ha)
        rw [update_self] at ha
        exact (Option.some.inj ha).symm
      · exact .inl (by rwa [Doomed, update_of_ne hac] at ha)
  refine ⟨fun d q hd => ?_, fun a q ha => ?_, fun a q d ha hd => ?_, fun a q ha => ?_, h.gone⟩
  · by_cases hdc : d = c
    · rw [hdc, update_self] at hd
      cases hd
      exact (hcurr d).mpr hdc
    · rw [update_of_ne hdc] at hd
      exact h.inside d q hd
  · obtain ha | ⟨rfl, rfl⟩ := hnew a q ha
    · exact h.empty a q ha
    · exact ⟨hempty, hused⟩
  · obtain ha | ⟨rfl, rfl⟩ := hnew a q ha
    · obtain ⟨rfl, ha'⟩ := h.alone a q d ha hd
      have hdc : d ≠ c := by
        rintro rfl
        simp [hold] at ha'
      exact ⟨rfl, by rwa [update_of_ne hdc]⟩
    · exact ⟨(hcurr d).mp hd, by rw [update_self]; rfl⟩
  · have hac : a ≠ c := by
      rintro rfl
      simp [SwitchPc.ruins] at ha
    exact h.ruined a q (by rwa [update_of_ne hac] at ha)

omit [DecidableEq τ] in
/-- `clearUserPaging` is done. -/
theorem Doom.tear (hpc : pcs c = .clearing t p) :
    Doom (update pcs c (.leaving t (some p))) currAS threadStore used (update torn p (some c))
      deleted := by
  have hcurr := h.inside c p (by rw [hpc]; rfl)
  have hdoomed : Doomed pcs torn c p := .inl (by rw [hpc]; rfl)
  -- nobody else can have torn it down
  have hold : ∀ a q, Doomed (update pcs c (.leaving t (some p))) (update torn p (some c)) a q →
      Doomed pcs torn a q := fun a q ha => by
    have ha := ha.of_update rfl
    by_cases hqp : q = p
    · subst hqp
      obtain ha | ha := ha
      · exact .inl ha
      · rw [update_self] at ha
        exact Option.some.inj ha ▸ hdoomed
    · rwa [Doomed, update_of_ne hqp] at ha
  refine ⟨fun d q hd => ?_, fun a q ha => h.empty a q (hold a q ha), fun a q d ha hd => ?_,
    fun a q ha => ?_, fun q hq => ⟨?_, (h.gone q hq).2⟩⟩
  · by_cases hdc : d = c
    · rw [hdc, update_self] at hd
      cases hd
      exact hdc ▸ hcurr
    · rw [update_of_ne hdc] at hd
      exact h.inside d q hd
  · obtain ⟨rfl, ha'⟩ := h.alone a q d (hold a q ha) hd
    refine ⟨rfl, ?_⟩
    by_cases hdc : d = c
    · rw [hdc, hpc] at ha'
      rw [hdc, update_self]
      exact ha'
    · rwa [update_of_ne hdc]
  · by_cases hac : a = c
    · rw [hac, update_self] at ha
      cases ha
      rw [update_self, hac]
    · rw [update_of_ne hac] at ha
      have htorn := h.ruined a q ha
      have hqp : q ≠ p := by
        rintro rfl
        exact hac ((h.alone a q c (.inr htorn) hcurr).1.symm)
      rwa [update_of_ne hqp]
  · by_cases hqp : q = p
    · simp [hqp]
    · rw [update_of_ne hqp]
      exact (h.gone q hq).1

omit [DecidableEq τ] in
/-- The process is deleted. -/
theorem Doom.delete (hpc : pcs c = .deleting t p) :
    Doom (update pcs c (.freeing t)) currAS threadStore used torn (update deleted p true) := by
  have h' : Doom (update pcs c (.freeing t)) currAS threadStore used torn deleted :=
    h.go (by rw [hpc]; rfl) rfl rfl rfl
  have htorn := h.ruined c p (by rw [hpc]; rfl)
  refine { h' with gone := fun q hq => ?_ }
  by_cases hqp : q = p
  · subst hqp
    refine ⟨by simp [htorn], fun d hd => ?_⟩
    obtain ⟨-, htears⟩ := h.alone c q d (.inr htorn) hd
    simp [hpc, SwitchPc.tears] at htears
  · rw [update_of_ne hqp] at hq
    exact h.gone q hq

end

abbrev DoomNow (m : Scheduling κ τ π) : Prop :=
  Doom m.pc m.currAS m.threadStore m.used m.torn m.deleted

section

variable (r : Ready cfg m pl) (e : m.EndsAt pl) (s : Spaces m) (g : Gone m.removed m.ended pl)

include r s g

omit [DecidableEq κ] [DecidableEq τ] [DecidableEq π] in
/-- The current thread of a core is in the `threadStore` of its process. -/
theorem Gone.curr_mem (hheld : m.currThread c ∈ m.held c)
    (hp : m.memctx (m.currThread c) = some p) : m.currThread c ∈ m.threadStore p := by
  refine (s.store _ p).mpr ⟨r.curr_born hheld, hp, ?_⟩
  by_contra hrem
  exact absurd ((g _ hrem).2.symm.trans (r.curr_place hheld)) (by simp)

include e

omit [DecidableEq π] in
/-- The core that removes the last thread of a process is the only one in its address space. -/
theorem Gone.last {prev : τ} (hpc : m.pc c = .dying prev) (hp : m.currAS c = some p)
    (halone : ∀ d, d ≠ c → m.currAS d = m.currAS c → (m.pc d).departs = false)
    (hlast : (m.threadStore p).erase prev = []) (hd : m.currAS d = some p) : d = c := by
  by_contra hdc
  have hstays := halone d hdc (hd.trans hp.symm)
  have hspace : (m.pc d).space (m.currThread d) = some (m.currThread d) ∧
      m.currThread d ∈ m.held d := by
    rw [held]
    cases hpd : m.pc d <;> simp_all [SwitchPc.departs, SwitchPc.space, SwitchPc.held]
  have hmem := g.curr_mem r s hspace.2 ((s.space d _ hspace.1).1.symm.trans hd)
  have hprev : m.currThread d = prev := by
    by_contra hne
    have hrest := (List.mem_erase_of_ne hne).mpr hmem
    rw [hlast] at hrest
    cases hrest
  have haway := (Gone.dying e s hpc halone).2
  exact absurd (haway.symm.trans (hprev ▸ r.curr_place hspace.2)) (by simp)

theorem Doom.advance [Fintype κ] (h : m.DoomNow) (ha : m.Alone (.advance c))
    (hs : m.advance cfg c = some m') : m'.DoomNow := by
  -- the address space of the current thread is not torn down
  have halive : m.currThread c ∈ m.held c → ∀ a p, Doomed m.pc m.torn a p →
      m.memctx (m.currThread c) ≠ some p :=
    fun hheld a p hdoomed hp => by
      have hmem := g.curr_mem r s hheld hp
      rw [(h.empty a p hdoomed).1] at hmem
      cases hmem
  cases hpc : m.pc c
  all_goals rw [Scheduling.advance, hpc] at hs
  case running => cases hs
  all_goals
    cases hs
  case picking target =>
    rw [pick]
    split
    · split
      · exact h
      · exact h.go (by rw [hpc]; rfl) rfl rfl rfl
    · exact h.go (by rw [hpc]; rfl) rfl rfl rfl
  case switched target prev => cases target <;> exact h.go (by rw [hpc]; rfl) rfl rfl rfl
  case resumed prev => split <;> exact h.go (by rw [hpc]; rfl) rfl rfl rfl
  case dying prev =>
    rw [destroyThread]
    split
    · exact h.go (by rw [hpc]; rfl) rfl rfl rfl
    · rename_i p hp
      have halone := ha (by rw [hpc]; rfl) (by simp [hp])
      obtain ⟨has, hborn⟩ := s.space c prev (by rw [hpc]; rfl)
      have h' := h.remove prev p
      dsimp only
      split
      · rename_i hlast
        refine h'.clear (by rw [update_self, hlast]) (s.used prev p hborn (has.symm.trans hp))
          (fun d => ?_) (by rw [hpc]; rfl)
        exact ⟨fun hd => Gone.last r e s g hpc hp halone hlast hd, fun hd => hd ▸ hp⟩
      · exact h'.go (by rw [hpc]; rfl) rfl rfl rfl
  case clearing prev p => exact h.tear hpc
  case leaving prev p =>
    have hnot := halive (by simp [held, hpc, SwitchPc.held])
    cases p with
    | none => exact h.enter hnot rfl rfl (by simp [SwitchPc.ruins])
    | some p => exact h.enter hnot rfl rfl (by simp [hpc, SwitchPc.ruins])
  case deleting prev p => exact h.delete hpc
  case entering =>
    exact h.enter (halive (by simp [held, hpc, SwitchPc.held])) rfl rfl (by simp [SwitchPc.ruins])
  case restoring =>
    rw [DoomNow, restore]
    dsimp only
    split <;> exact h.go (by rw [hpc]; rfl) rfl rfl rfl
  case checking => split <;> exact h.go (by rw [hpc]; rfl) rfl rfl rfl
  all_goals exact h.go (by rw [hpc]; rfl) rfl rfl rfl

theorem Doom.step [Fintype κ] (h : m.DoomNow) (ha : m.Alone a) (hs : m.step cfg a = some m') :
    m'.DoomNow := by
  have hstore : ∀ (as : Option π) (t : τ) {q}, as ≠ some q → ((as.map fun p =>
      update m.threadStore p (m.threadStore p ++ [t])).getD m.threadStore) q = m.threadStore q := by
    intro as t q has
    cases as with
    | none => rfl
    | some p =>
      have hqp : q ≠ p := by
        rintro rfl
        exact has rfl
      simp [hqp]
  cases a
  case advance c => exact h.advance r e s g ha hs
  all_goals
    obtain ⟨hif, rfl⟩ := Option.ite_some_none_eq_some.mp hs
    clear hs
  case preempt c => exact h.go (by rw [hif]; rfl) rfl rfl rfl
  case suspend c =>
    split
    · exact h.go (by rw [hif.1]; rfl) rfl rfl rfl
    · exact h
  case terminate c => exact h.go (by rw [hif.1]; rfl) rfl rfl rfl
  case create c t =>
    refine h.create (fun a q hdoomed => hstore (m.currAS c) t fun hq => ?_) fun _ => id
    obtain ⟨rfl, htears⟩ := h.alone a q c hdoomed hq
    simp [hif, SwitchPc.tears] at htears
  case exec c p t =>
    refine h.create (fun a q hdoomed => hstore (some p) t fun hq => ?_) fun _ => update_true
    cases hq
    exact absurd ((h.empty a p hdoomed).2.symm.trans hif.2.2.2) (by simp)
  case unblock | cancel | resume => exact h

end

variable [Fintype κ]

/-- **The invariant of the teardown.** -/
structure Razed (cfg : Setup κ τ) (m : Scheduling κ τ π) (pl : τ → Place κ) : Prop where
  ready : Ready cfg m pl
  ends : Ends m.state m.ended m.born m.woken pl m.pc m.currThread
  spaces : Spaces m
  gone : Gone m.removed m.ended pl
  doom : Doom m.pc m.currAS m.threadStore m.used m.torn m.deleted

theorem Razed.step (h : Razed cfg m pl) (ha : m.Alone a) (hs : m.step cfg a = some m') :
    Razed cfg m' (m.places pl a) :=
  ⟨h.ready.step hs, h.ends.step h.ready hs, h.spaces.step h.ready hs,
    h.gone.step h.ready h.ends h.spaces ha hs, h.doom.step h.ready h.ends h.spaces h.gone ha hs⟩

end Scheduling

end Kos
