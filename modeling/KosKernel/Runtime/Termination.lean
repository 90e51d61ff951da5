import KosKernel.Runtime.HandOver

/-!
# Runtime/Termination — a thread that ends is buried

`Scheduler::terminate` stores `Finishing` and leaves the core for good; the next thread of the core
finds the state in `postResume`, removes the thread from its process and destroys it.  Nothing in
between may change the state, but `Thread::cancel` exchanges it whatever it was.
-/

namespace Kos

open Function Runs Blocking

namespace SwitchPc

variable {κ τ π : Type}

/-- The thread that the core leaves for good or has left, up to `Thread::destroy`. -/
@[simp] def leaves : SwitchPc κ τ π → τ → Option τ
  | .picking none, curr | .picked none _, curr | .chosen none _, curr
  | .unlocked none _, curr => some curr
  | .switched none prev, _ | .resumed prev, _ | .dying prev, _ | .clearing prev _, _
  | .leaving prev _, _
  | .deleting prev _, _ | .freeing prev, _ => some prev
  | .picking (some _), _ | .picked (some _) _, _ | .chosen (some _) _, _ | .unlocked (some _) _, _
  | .switched (some _) _, _ | .running, _ | .living _, _ | .entering, _ | .restoring, _
  | .checking, _ => none

/-- A bound for the steps up to the end of the switch. -/
@[simp] def rank : SwitchPc κ τ π → ℕ
  | .picking _ => 14
  | .picked _ _ => 13
  | .chosen _ _ => 12
  | .unlocked _ _ => 11
  | .switched _ _ => 10
  | .resumed _ => 9
  | .dying _ => 8
  | .clearing _ _ => 7
  | .leaving _ _ => 6
  | .deleting _ _ => 5
  | .freeing _ | .living _ => 4
  | .entering => 3
  | .restoring => 2
  | .checking => 1
  | .running => 0

end SwitchPc

namespace Scheduling

variable {κ τ π : Type} [DecidableEq κ] [DecidableEq τ] [DecidableEq π] {cfg : Setup κ τ}
  {m m' : Scheduling κ τ π}
  {pl : τ → Place κ} {c d : κ} {t u : τ}

/-- The condition: no thread migrates, and `cancel` is not called for a thread that is
`Finishing`. -/
def Spared (cfg : Setup κ τ) (m : Scheduling κ τ π) : Action κ τ π → Prop
  | .cancel _ t => m.state t ≠ .finishing
  | a => m.Stays cfg a

instance (cfg : Setup κ τ) (m : Scheduling κ τ π) : ∀ a, Decidable (m.Spared cfg a)
  | .cancel _ _ => inferInstanceAs (Decidable (_ ≠ _))
  | .preempt c => inferInstanceAs (Decidable (m.Stays cfg (.preempt c)))
  | .suspend _ | .terminate _ | .create _ _ | .exec _ _ _ | .unblock _ _ | .resume _ _
  | .advance _ =>
    inferInstanceAs (Decidable True)

variable {a : Action κ τ π}

omit [DecidableEq κ] [DecidableEq τ] [DecidableEq π] in
theorem Spared.stays (h : m.Spared cfg a) : m.Stays cfg a := by
  cases a with
  | cancel => trivial
  | _ => exact h

/-! ## The states of a thread -/

/-- What is said about the states: `Finishing` is final, and `Cancelled` is not lost. -/
structure Final (state : τ → ThreadState) (ended cancelled born : τ → Bool) : Prop where
  finishing : ∀ t, ended t = true → state t = .finishing
  kept : ∀ t, cancelled t = true → ended t = true ∨ state t = .cancelled
  known : ∀ t, cancelled t = true → born t = true

section

variable {state : τ → ThreadState} {ended cancelled born : τ → Bool} {s : ThreadState}

variable (h : Final state ended cancelled born)

include h

/-- The state of a thread changes that was neither cancelled nor has ended. -/
theorem Final.setState (hend : ended t = false) (ht : state t ≠ .cancelled) :
    Final (update state t s) ended cancelled born := by
  refine ⟨fun u hu => ?_, fun u hu => (h.kept u hu).imp_right fun hcan => ?_, h.known⟩
  · rw [update_of_ne]
    · exact h.finishing u hu
    · rintro rfl
      exact absurd (hend.symm.trans hu) Bool.false_ne_true
  · rwa [update_of_ne]
    rintro rfl
    exact ht hcan

theorem Final.finish (t : τ) :
    Final (update state t .finishing) (update ended t true) cancelled born := by
  refine ⟨fun u hu => ?_, fun u hu => ?_, h.known⟩ <;> by_cases hut : u = t
  · rw [hut, update_self]
  · rw [update_of_ne hut] at hu ⊢
    exact h.finishing u hu
  · exact .inl (by rw [hut, update_self])
  · rw [update_of_ne hut, update_of_ne hut]
    exact h.kept u hu

theorem Final.cancel (ht : state t ≠ .finishing) (hborn : born t = true) :
    Final (update state t .cancelled) ended (update cancelled t true) born := by
  refine ⟨fun u hu => ?_, fun u hu => ?_, fun u hu => ?_⟩
  · rw [update_of_ne]
    · exact h.finishing u hu
    · rintro rfl
      exact ht (h.finishing u hu)
  · by_cases hut : u = t
    · exact .inr (by rw [hut, update_self])
    · rw [update_of_ne hut] at hu ⊢
      exact h.kept u hu
  · by_cases hut : u = t
    · exact hut ▸ hborn
    · rw [update_of_ne hut] at hu
      exact h.known u hu

theorem Final.create (t : τ) : Final state ended cancelled (update born t true) :=
  { h with known := fun u hu => update_true (h.known u hu) }

end

/-- The steps of a switch touch the state of a thread only to end it. -/
theorem advance_state (hs : m.advance cfg c = some m') :
    m'.cancelled = m.cancelled ∧ m'.born = m.born ∧
      (m'.state = m.state ∧ m'.ended = m.ended ∨ m' = m.finish c) := by
  cases hpc : m.pc c
  all_goals rw [Scheduling.advance, hpc] at hs
  case running => cases hs
  all_goals cases hs
  case picking target =>
    rw [pick]
    split
    · split <;> exact ⟨rfl, rfl, .inl ⟨rfl, rfl⟩⟩
    · exact ⟨rfl, rfl, .inl ⟨rfl, rfl⟩⟩
  case switched target prev => cases target <;> exact ⟨rfl, rfl, .inl ⟨rfl, rfl⟩⟩
  case resumed prev => split <;> exact ⟨rfl, rfl, .inl ⟨rfl, rfl⟩⟩
  case dying prev =>
    rw [destroyThread]
    split <;> exact ⟨rfl, rfl, .inl ⟨rfl, rfl⟩⟩
  case checking =>
    split
    · exact ⟨rfl, rfl, .inr rfl⟩
    · exact ⟨rfl, rfl, .inl ⟨rfl, rfl⟩⟩
  all_goals exact ⟨rfl, rfl, .inl ⟨rfl, rfl⟩⟩

theorem Final.step [Fintype κ] (r : Ready cfg m pl) (e : m.EndsAt pl)
    (h : Final m.state m.ended m.cancelled m.born) (ha : m.Spared cfg a)
    (hs : m.step cfg a = some m') : Final m'.state m'.ended m'.cancelled m'.born := by
  cases a
  case advance c =>
    obtain ⟨hcancelled, hborn, ⟨hstate, hended⟩ | rfl⟩ := advance_state hs
    · rwa [hcancelled, hborn, hstate, hended]
    · exact h.finish _
  all_goals
    obtain ⟨hif, rfl⟩ := Option.ite_some_none_eq_some.mp hs
    clear hs
  case suspend c =>
    split
    · rename_i hstate
      refine h.setState (e.not_ended (r.curr_place ?_) ?_) (by simp [hstate])
      · simp [held, hif]
      · rw [hif.1]
        rfl
    · exact h
  case terminate c => exact h.finish _
  case create c t => exact h.create t
  case exec c p t => exact h.create t
  case unblock c t =>
    refine h.setState ?_ (by simp [hif])
    by_contra hend
    exact (e.asleep t (by simpa using hend)).2 hif.2.1
  case cancel c t => exact h.cancel ha hif.2.2.1
  case preempt | resume => exact h

/-! ## Threads that wait -/

/-- A thread that is away, or about to be, is `Blocked`, due to be resumed, or has ended. -/
structure Waits (state : τ → ThreadState) (ended born : τ → Bool) (woken : List τ)
    (pl : τ → Place κ) (pc : κ → SwitchPc κ τ π) (curr : κ → τ) : Prop where
  away : ∀ t, born t = true → pl t = .away → state t = .blocked ∨ t ∈ woken ∨ ended t = true
  suspends : ∀ c, (pc c).suspends = true → state (curr c) = .blocked ∨ curr c ∈ woken ∨
    ended (curr c) = true

section

variable {state state' : τ → ThreadState} {ended ended' born : τ → Bool} {woken woken' : List τ}
  {pl' : τ → Place κ}
  {pcs : κ → SwitchPc κ τ π} {curr curr' : κ → τ} {pc : SwitchPc κ τ π} {x : Place κ}

omit [DecidableEq π]

variable (h : Waits state ended born woken pl pcs curr)

include h

omit [DecidableEq τ] in
/-- One core goes on. -/
theorem Waits.set (hcurr : ∀ d, d ≠ c → curr' d = curr d)
    (hpl : ∀ t, pl' t = .away → pl t = .away ∨ t = curr c ∧ (pcs c).suspends = true)
    (hsus : pc.suspends = true → curr' c = curr c ∧ (pcs c).suspends = true) :
    Waits state ended born woken pl' (update pcs c pc) curr' := by
  refine ⟨fun t hborn ht => ?_, fun d hd => ?_⟩
  · obtain haway | ⟨rfl, hs⟩ := hpl t ht
    · exact h.away t hborn haway
    · exact h.suspends c hs
  · by_cases hdc : d = c
    · subst hdc
      obtain ⟨hd', hs⟩ := hsus (by simpa using hd)
      rw [hd']
      exact h.suspends d hs
    · rw [hcurr d hdc]
      exact h.suspends d (by simpa [hdc] using hd)

/-- The thread of a core suspends or ends. -/
theorem Waits.suspend (hstate : ∀ t, t ≠ curr c → state' t = state t ∧ ended' t = ended t)
    (ht : state' (curr c) = .blocked ∨ ended' (curr c) = true) :
    Waits state' ended' born woken pl (update pcs c pc) curr := by
  have hall : ∀ t, (t ≠ curr c → state t = .blocked ∨ t ∈ woken ∨ ended t = true) →
      state' t = .blocked ∨ t ∈ woken ∨ ended' t = true := fun t hold => by
    by_cases htc : t = curr c
    · exact htc ▸ ht.imp_right .inr
    · rw [(hstate t htc).1, (hstate t htc).2]
      exact hold htc
  refine ⟨fun t hborn haway => hall t fun _ => h.away t hborn haway,
    fun d hd => hall _ fun hne => h.suspends d ?_⟩
  have hdc : d ≠ c := fun hdc => hne (congrArg curr hdc)
  simpa [hdc] using hd

omit [DecidableEq κ] in
/-- A thread comes to a ready queue that is not about to be away. -/
theorem Waits.push {born' : τ → Bool} (hx : x ≠ .away)
    (hborn : ∀ u, u ≠ t → born' u = true → born u = true)
    (hwoken : ∀ u, u ≠ t → u ∈ woken → u ∈ woken')
    (hsus : ∀ c, (pcs c).suspends = true → curr c ≠ t) :
    Waits state ended born' woken' (update pl t x) pcs curr := by
  refine ⟨fun u hu haway => ?_, fun c hc => ?_⟩
  · by_cases hut : u = t
    · rw [hut, update_self] at haway
      exact absurd haway hx
    · rw [update_of_ne hut] at haway
      exact (h.away u (hborn u hut hu) haway).imp_right (Or.imp_left (hwoken u hut))
  · exact (h.suspends c hc).imp_right (Or.imp_left (hwoken _ (hsus c hc)))

omit [DecidableEq κ] in
/-- The state of a thread changes; it is due to be resumed if it was `Blocked`. -/
theorem Waits.wake {s : ThreadState} (hmono : ∀ u ∈ woken, u ∈ woken')
    (hblocked : state t = .blocked → t ∈ woken') :
    Waits (update state t s) ended born woken' pl pcs curr := by
  have hall : ∀ u, (state u = .blocked ∨ u ∈ woken ∨ ended u = true) →
      update state t s u = .blocked ∨ u ∈ woken' ∨ ended u = true := by
    rintro u (hu | hu | hu)
    · by_cases hut : u = t
      · exact .inr (.inl (hut ▸ hblocked (hut ▸ hu)))
      · exact .inl (by rwa [update_of_ne hut])
    · exact .inr (.inl (hmono u hu))
    · exact .inr (.inr hu)
  exact ⟨fun u hu haway => hall u (h.away u hu haway), fun c hc => hall _ (h.suspends c hc)⟩

end

abbrev WaitsAt (m : Scheduling κ τ π) (pl : τ → Place κ) : Prop :=
  Waits m.state m.ended m.born m.woken pl m.pc m.currThread

theorem Waits.advance (h : m.WaitsAt pl) (hs : m.advance cfg c = some m') :
    m'.WaitsAt (m.placesAt c pl) := by
  have hgo : ∀ pc : SwitchPc κ τ π, (pc.suspends = true → (m.pc c).suspends = true) →
      Waits m.state m.ended m.born m.woken pl (update m.pc c pc) m.currThread := fun pc hsus =>
    h.set (fun _ _ => rfl) (fun _ => .inl) fun hs => ⟨rfl, hsus hs⟩
  rw [placesAt]
  cases hpc : m.pc c
  all_goals
    rw [Scheduling.advance, hpc] at hs
    rw [hpc] at hgo
  case running => cases hs
  all_goals
    cases hs
  case picking target =>
    dsimp only [pick]
    cases hf : findReady (m.readyQueue c) (bound target c) with
    | none =>
      dsimp only
      split
      · exact h
      · exact hgo .running (by simp)
    | some res =>
      obtain ⟨i, u⟩ := res
      refine h.set (fun _ _ => rfl) (fun t ht => .inl ?_) (fun hs => ⟨rfl, by rw [hpc]; exact hs⟩)
      by_cases htu : t = u
      · simp [htu] at ht
      · simpa [htu] using ht
  case picked => exact hgo _ id
  case chosen target u =>
    cases target with
    | none =>
      refine h.set (fun _ _ => rfl) (fun t ht => ?_) (by simp)
      by_cases htc : t = m.currThread c
      · exact .inr ⟨htc, by rw [hpc]; rfl⟩
      · exact .inl (by simpa [htc] using ht)
    | some d => exact hgo _ (by simp)
  case unlocked target u => exact h.set (fun d hd => update_of_ne hd ..) (fun _ => .inl) (by simp)
  case switched target prev =>
    cases target with
    | none => exact hgo _ (by simp)
    | some d =>
      refine h.set (fun _ _ => rfl) (fun t ht => .inl ?_) (by simp)
      by_cases htp : t = prev
      · simp [htp] at ht
      · simpa [htp] using ht
  case resumed => split <;> exact hgo _ (by simp)
  case dying prev =>
    rw [destroyThread]
    split
    · exact hgo _ (by simp)
    · refine hgo _ ?_
      split <;> simp
  case leaving prev p => cases p <;> exact hgo _ (by simp)
  case clearing | deleting | freeing | living | entering => exact hgo _ (by simp)
  case restoring => exact hgo _ (by split <;> simp)
  case checking =>
    split
    · exact h.suspend (fun t ht => ⟨update_of_ne ht .., update_of_ne ht ..⟩) (.inr (update_self ..))
    · exact hgo _ (by simp)

theorem Waits.step [Fintype κ] (r : Ready cfg m pl) (h : m.WaitsAt pl)
    (hs : m.step cfg a = some m') : m'.WaitsAt (m.places pl a) := by
  have hcore : ∀ {t}, pl t = .away → ∀ c, (m.pc c).suspends = true → m.currThread c ≠ t := by
    rintro _ haway c hc rfl
    have hplace := r.curr_place (c := c) (by cases hpc : m.pc c <;> simp_all [held])
    exact absurd (haway.symm.trans hplace) (by simp)
  have hborn : ∀ {t} u, u ≠ t → update m.born t true u = true → m.born u = true :=
    fun u hut hu => by
    rwa [update_of_ne hut] at hu
  cases a
  case advance c => exact h.advance hs
  all_goals
    obtain ⟨hif, rfl⟩ := Option.ite_some_none_eq_some.mp hs
    clear hs
  case preempt c => exact h.set (fun _ _ => rfl) (fun _ => .inl) (by simp)
  case suspend c =>
    split
    · exact h.suspend (fun t ht => ⟨update_of_ne ht .., rfl⟩) (.inl (update_self ..))
    · exact h
  case terminate c =>
    exact h.suspend (fun t ht => ⟨update_of_ne ht .., update_of_ne ht ..⟩) (.inr (update_self ..))
  case create c t =>
    exact h.push (by simp) hborn (fun _ _ => id) (hcore (r.sleepers.unborn t hif.2).1)
  case exec c p t =>
    exact h.push (by simp) hborn (fun _ _ => id) (hcore (r.sleepers.unborn t hif.2.2.1).1)
  case unblock c t => exact h.wake (fun _ => List.mem_cons_of_mem _) fun _ => List.mem_cons_self
  case cancel c t =>
    refine h.wake (fun u hu => ?_) fun ht => ?_
    · show u ∈ if m.state t = .blocked then t :: m.woken else m.woken
      split
      · exact List.mem_cons_of_mem _ hu
      · exact hu
    · show t ∈ if m.state t = .blocked then t :: m.woken else m.woken
      rw [if_pos ht]
      exact List.mem_cons_self
  case resume c t =>
    refine h.push (by simp) (fun _ _ => id) (fun u hut hu => (List.mem_erase_of_ne hut).mpr hu)
      (hcore ?_)
    obtain ⟨hl, -⟩ | ⟨-, haway⟩ := r.sleepers.asleep t (.inl hif.2.1)
    · exact absurd (hif.2.2.symm.trans hl) Bool.false_ne_true
    · exact haway

/-! ## The way to `Thread::destroy` -/

/-- A thread that has ended is destroyed, or some core is on the way to do it; and it is removed
from its process before. -/
structure Graves (removed destroyed : τ → ℕ) (ended : τ → Bool) (memctx : τ → Option π)
    (pc : κ → SwitchPc κ τ π) (curr : κ → τ) : Prop where
  left : ∀ t, ended t = true → destroyed t ≠ 0 ∨ ∃ c, (pc c).leaves (curr c) = some t
  buried : ∀ c t, (pc c).buries = some t → (pc c).buried = true → memctx t ≠ none → removed t ≠ 0
  destroyed : ∀ t, destroyed t ≠ 0 → memctx t ≠ none → removed t ≠ 0

section

variable {removed destroyed : τ → ℕ} {ended : τ → Bool} {memctx : τ → Option π}
  {pcs : κ → SwitchPc κ τ π}
  {curr curr' : κ → τ} {pc : SwitchPc κ τ π}

omit [DecidableEq π]

variable (h : Graves removed destroyed ended memctx pcs curr)

include h

omit [DecidableEq τ] in
/-- One core goes on. -/
theorem Graves.set (hcurr : ∀ d, d ≠ c → curr' d = curr d)
    (hleaves : ∀ t, ended t = true → (pcs c).leaves (curr c) = some t →
      pc.leaves (curr' c) = some t)
    (hburied : ∀ t, pc.buries = some t → pc.buried = true → memctx t ≠ none → removed t ≠ 0) :
    Graves removed destroyed ended memctx (update pcs c pc) curr' := by
  refine ⟨fun t ht => ?_, fun d t hd => ?_, h.destroyed⟩
  · refine (h.left t ht).imp_right fun ⟨d, hd⟩ => ⟨d, ?_⟩
    by_cases hdc : d = c
    · subst hdc
      simpa using hleaves t ht hd
    · rwa [update_of_ne hdc, hcurr d hdc]
  · by_cases hdc : d = c
    · subst hdc
      simpa using hburied t (by simpa using hd)
    · simpa [hdc] using h.buried d t (by simpa [hdc] using hd)

/-- The thread of a core ends. -/
theorem Graves.finish (hpc : (pcs c).leaves (curr c) = none) :
    Graves removed destroyed (update ended (curr c) true) memctx
      (update pcs c (.picking none)) curr := by
  have h' : Graves removed destroyed ended memctx (update pcs c (.picking none)) curr :=
    h.set (fun _ _ => rfl) (fun t _ ht => absurd (hpc.symm.trans ht) (by simp)) (by simp)
  refine { h' with left := fun t ht => ?_ }
  by_cases htc : t = curr c
  · exact .inr ⟨c, by rw [htc, update_self]; rfl⟩
  · rw [update_of_ne htc] at ht
    exact h'.left t ht

omit [DecidableEq κ] in
/-- A thread is removed from its process. -/
theorem Graves.remove (t : τ) :
    Graves (update removed t (removed t + 1)) destroyed ended memctx pcs curr := by
  have hmono : ∀ u, removed u ≠ 0 → update removed t (removed t + 1) u ≠ 0 := fun u hu => by
    by_cases hut : u = t
    · simp [hut]
    · rwa [update_of_ne hut]
  exact ⟨h.left, fun c u hu hb hm => hmono u (h.buried c u hu hb hm),
    fun u hu hm => hmono u (h.destroyed u hu hm)⟩

/-- A thread is destroyed. -/
theorem Graves.destroy (hpc : pcs c = .freeing t) (hleaves : pc.leaves (curr c) = none)
    (hbury : pc.buries = none) :
    Graves removed (update destroyed t (destroyed t + 1)) ended memctx (update pcs c pc) curr := by
  refine ⟨fun u hu => ?_, fun d u hd => ?_, fun u hu hm => ?_⟩
  · by_cases hut : u = t
    · exact .inl (by simp [hut])
    · rw [update_of_ne hut]
      refine (h.left u hu).imp_right fun ⟨d, hd⟩ => ⟨d, ?_⟩
      have hdc : d ≠ c := by
        rintro rfl
        rw [hpc] at hd
        exact hut (Option.some.inj hd).symm
      rwa [update_of_ne hdc]
  · have hdc : d ≠ c := by
      rintro rfl
      rw [update_self, hbury] at hd
      cases hd
    simpa [hdc] using h.buried d u (by simpa [hdc] using hd)
  · by_cases hut : u = t
    · exact h.buried c u (by rw [hpc, hut]; rfl) (by rw [hpc]; rfl) hm
    · rw [update_of_ne hut] at hu
      exact h.destroyed u hu hm

end

abbrev GravesNow (m : Scheduling κ τ π) : Prop :=
  Graves m.removed m.destroyed m.ended m.memctx m.pc m.currThread

section

variable (r : Ready cfg m pl) (e : m.EndsAt pl)
  (b : m.BurialsAt pl) (s : Spaces m)
  (f : Final m.state m.ended m.cancelled m.born)

include r e b s f

theorem Graves.advance (h : m.GravesNow) (hs : m.advance cfg c = some m') :
    m'.GravesNow ∧ m'.failed = m.failed := by
  have hburied := h.buried c
  have hgo : ∀ pc : SwitchPc κ τ π,
      (∀ t, m.ended t = true → (m.pc c).leaves (m.currThread c) = some t →
        pc.leaves (m.currThread c) = some t) →
      (∀ t, pc.buries = some t → pc.buried = true → m.memctx t ≠ none → m.removed t ≠ 0) →
        Graves m.removed m.destroyed m.ended m.memctx (update m.pc c pc) m.currThread :=
    fun pc => h.set fun _ _ => rfl
  cases hpc : m.pc c
  all_goals
    rw [Scheduling.advance, hpc] at hs
    rw [hpc] at hburied hgo
  case running => cases hs
  all_goals
    cases hs
  case picking target =>
    rw [pick]
    split
    · split
      · obtain ⟨i, u, hf, -⟩ := r.exists_next hpc (by simp [*])
        simp_all
      · obtain ⟨d, rfl⟩ := Option.ne_none_iff_exists'.mp ‹_›
        exact ⟨hgo _ (by simp) (by simp), rfl⟩
    · cases target <;> exact ⟨hgo _ (fun _ _ => id) (by simp), rfl⟩
  case picked target u => cases target <;> exact ⟨hgo _ (fun _ _ => id) (by simp), rfl⟩
  case chosen target u => cases target <;> exact ⟨hgo _ (fun _ _ => id) (by simp), rfl⟩
  case unlocked target u =>
    obtain ⟨has, -⟩ := s.space c (m.currThread c) (by rw [hpc]; rfl)
    rw [stackSwitch]
    dsimp only
    rw [has, update_eq_self]
    refine ⟨h.set (fun d hd => update_of_ne hd ..) (fun t _ ht => ?_) (by simp), rfl⟩
    rw [hpc] at ht
    cases target <;> exact ht
  case switched target prev =>
    cases target with
    | none => exact ⟨hgo _ (fun _ _ => id) (by simp), rfl⟩
    | some d => exact ⟨hgo _ (by simp) (by simp), rfl⟩
  case resumed prev =>
    split
    · exact ⟨hgo _ (fun _ _ => id) (by simp), rfl⟩
    · rename_i hstate
      refine ⟨hgo _ (fun t ht hprev => ?_) (by simp), rfl⟩
      cases hprev
      exact absurd (f.finishing _ ht) hstate
  case dying prev =>
    obtain ⟨has, hborn⟩ := s.space c prev (by rw [hpc]; rfl)
    rw [destroyThread]
    split
    · rename_i hnone
      refine ⟨hgo _ (fun _ _ => id) (fun t ht _ hm => ?_), rfl⟩
      cases ht
      exact absurd (has.symm.trans hnone) hm
    · rename_i p hp
      have hrem := (b.once c prev (by rw [hpc]; rfl)).2 (by rw [hpc]; rfl)
      have hmem := (s.store prev p).mpr ⟨hborn, has.symm.trans hp, hrem⟩
      refine ⟨(h.remove prev).set (fun _ _ => rfl) (fun t _ ht => ?_)
        (fun t ht _ _ => ?_), by simp [hmem]⟩
      · rw [hpc] at ht
        split <;> exact ht
      · have htp : t = prev := by split at ht <;> exact (Option.some.inj ht).symm
        simp [htp]
  case leaving prev p => cases p <;> exact ⟨hgo _ (fun _ _ => id) hburied, rfl⟩
  case clearing | deleting => exact ⟨hgo _ (fun _ _ => id) hburied, rfl⟩
  case freeing prev =>
    have hstate := f.finishing prev (e.buries c prev (by rw [hpc]; rfl))
    exact ⟨h.destroy hpc rfl rfl, by simp [Scheduling.destroy, hstate, Scheduling.go]⟩
  case living | entering => exact ⟨hgo _ (by simp) (by simp), rfl⟩
  case restoring => exact ⟨hgo _ (by simp) (by split <;> simp), rfl⟩
  case checking =>
    split
    · exact ⟨h.finish (by rw [hpc]; rfl), rfl⟩
    · exact ⟨hgo _ (by simp) (by simp), rfl⟩

theorem Graves.step [Fintype κ] (h : m.GravesNow) (hs : m.step cfg a = some m') :
    m'.GravesNow ∧ m'.failed = m.failed := by
  -- a thread that has ended was born, and keeps its address space
  have hcreate : ∀ {t x}, m.born t = false →
      Graves m.removed m.destroyed m.ended (update m.memctx t x) m.pc m.currThread :=
        fun {t x} ht => by
    have hne : ∀ {u}, m.ended u = true → u ≠ t := by
      rintro u hu rfl
      exact absurd ((e.unborn u ht).symm.trans hu) Bool.false_ne_true
    refine ⟨h.left, fun c u hu hb hm => h.buried c u hu hb ?_, fun u hu hm => h.destroyed u hu ?_⟩
    · rwa [update_of_ne (hne (e.buries c u hu))] at hm
    · rwa [update_of_ne (hne (b.gone u (.inr hu)).1)] at hm
  cases a
  case advance c => exact h.advance r e b s f hs
  all_goals
    obtain ⟨hif, rfl⟩ := Option.ite_some_none_eq_some.mp hs
    clear hs
  case preempt c => exact ⟨h.set (fun _ _ => rfl) (by simp [hif]) (by simp), rfl⟩
  case suspend c =>
    split
    · exact ⟨h.set (fun _ _ => rfl) (by simp [hif]) (by simp), rfl⟩
    · exact ⟨h, rfl⟩
  case terminate c => exact ⟨h.finish (by rw [hif.1]; rfl), rfl⟩
  case create c t => exact ⟨hcreate hif.2, rfl⟩
  case exec c p t => exact ⟨hcreate hif.2.2.1, rfl⟩
  case unblock | cancel | resume => exact ⟨h, rfl⟩

end

/-- **The invariant of termination.** -/
structure Terminating (cfg : Setup κ τ) (m : Scheduling κ τ π) (pl : τ → Place κ) : Prop where
  handed : HandedOver cfg m pl
  spaces : Spaces m
  waits : Waits m.state m.ended m.born m.woken pl m.pc m.currThread
  final : Final m.state m.ended m.cancelled m.born
  graves : Graves m.removed m.destroyed m.ended m.memctx m.pc m.currThread
  failed : m.failed = false

theorem Terminating.step [Fintype κ] (h : Terminating cfg m pl) (ha : m.Spared cfg a)
    (hs : m.step cfg a = some m') : Terminating cfg m' (m.places pl a) := by
  have hhanded := h.handed
  obtain ⟨hgraves, hfailed⟩ :=
    h.graves.step hhanded.ready hhanded.ends hhanded.burials h.spaces h.final hs
  exact ⟨hhanded.step ha.stays hs, h.spaces.step hhanded.ready hs, h.waits.step hhanded.ready hs,
    h.final.step hhanded.ready hhanded.ends ha hs, hgraves, hfailed.trans h.failed⟩

theorem exists_advance (cfg : Setup κ τ) (hpc : m.pc c ≠ .running) :
    ∃ m', m.advance cfg c = some m' := by
  cases h : m.pc c
  case running => exact absurd h hpc
  all_goals
    rw [Scheduling.advance, h]
    exact ⟨_, rfl⟩

/-- The core that leaves a thread that has ended comes closer to `Thread::destroy`. -/
theorem Terminating.approach (h : Terminating cfg m pl) (hend : m.ended t = true)
    (hc : (m.pc c).leaves (m.currThread c) = some t) (hs : m.advance cfg c = some m') :
    m'.destroyed t ≠ 0 ∨ (m'.pc c).leaves (m'.currThread c) = some t ∧
      (m'.pc c).rank < (m.pc c).rank := by
  cases hpc : m.pc c
  all_goals
    rw [hpc] at hc
    rw [Scheduling.advance, hpc] at hs
  case running => cases hs
  all_goals
    cases hs
  case living | entering | restoring | checking => cases hc
  case picking target =>
    cases target with
    | some d => cases hc
    | none =>
      obtain ⟨i, u, hf, -⟩ := h.handed.ready.exists_next hpc (by simp)
      exact .inr (by simpa [pick, hf] using hc)
  case picked target u =>
    cases target with
    | some d => cases hc
    | none => exact .inr (by simpa using hc)
  case chosen target u =>
    cases target with
    | some d => cases hc
    | none => exact .inr (by simpa using hc)
  case unlocked target u =>
    cases target with
    | some d => cases hc
    | none => exact .inr (by simpa [stackSwitch] using hc)
  case switched target prev =>
    cases target with
    | none => exact .inr (by simpa [postSwitch] using hc)
    | some d => cases hc
  case resumed prev =>
    have hstate : m.state prev = .finishing := h.final.finishing prev (Option.some.inj hc ▸ hend)
    exact .inr (by simpa [hstate] using hc)
  case dying prev =>
    cases hc
    rw [destroyThread]
    split
    · exact .inr (by simp)
    · dsimp only
      split <;> exact .inr (by simp)
  case leaving prev p => cases p <;> exact .inr (by simpa [enter] using hc)
  case clearing | deleting => exact .inr (by simpa using hc)
  case freeing prev =>
    cases hc
    exact .inl (by simp [destroy])

/-- The core has switched to the thread `t`, which was cancelled, and has still to check it. -/
structure Arrives (m : Scheduling κ τ π) (c : κ) (t : τ) : Prop where
  curr : m.currThread c = t
  pc : (m.pc c).arriving = true ∨ m.pc c = .checking
  state : m.state t = .cancelled
  invoked : m.invoked t = true

/-- The core comes closer to the check, which ends the thread. -/
theorem Arrives.approach (h : Arrives m c t) (hs : m.advance cfg c = some m') :
    m'.ended t = true ∨ Arrives m' c t ∧ (m'.pc c).rank < (m.pc c).rank := by
  obtain ⟨rfl, hpc', hstate, hinvoked⟩ := h
  cases hpc : m.pc c
  all_goals
    rw [hpc] at hpc'
    rw [Scheduling.advance, hpc] at hs
  case running => cases hs
  all_goals
    cases hs
  case picking | picked | chosen | unlocked => simp at hpc'
  case switched target prev =>
    cases target <;> exact .inr ⟨⟨rfl, by simp [postSwitch], hstate, hinvoked⟩,
      by simp [postSwitch]⟩
  case resumed prev =>
    split <;> exact .inr ⟨⟨rfl, by simp, hstate, hinvoked⟩, by simp⟩
  case dying prev =>
    rw [destroyThread]
    split
    · exact .inr ⟨⟨rfl, by simp, hstate, hinvoked⟩, by simp⟩
    · dsimp only
      split <;> exact .inr ⟨⟨rfl, by simp, hstate, hinvoked⟩, by simp⟩
  case leaving prev p => cases p <;> exact .inr ⟨⟨rfl, by simp, hstate, hinvoked⟩, by simp⟩
  case restoring =>
    exact .inr ⟨⟨rfl, by simp [restore, hinvoked],
      hstate, by simp [restore]⟩, by simp [restore, hinvoked]⟩
  case checking => exact .inl (by simp [hstate, finish])
  all_goals
    exact .inr ⟨⟨rfl, by simp [destroy], hstate, hinvoked⟩, by simp [destroy]⟩

variable [Fintype κ]

/-- The core ends the thread. -/
theorem Arrives.ends (h : Arrives m c t) : ∃ n m', run (step cfg) m (advances n c) = some m' ∧
      m'.ended t = true := by
  refine exists_run_of_rank (P := (Arrives · c t)) (fun m' => (m'.pc c).rank) (fun m' h' => ?_) h
  obtain ⟨m'', hs⟩ := exists_advance cfg (m := m') (c := c) fun hpc => by
    have hpc' := h'.pc
    simp [hpc] at hpc'
  exact ⟨m'', hs, h'.approach hs⟩

end Scheduling

end Kos
