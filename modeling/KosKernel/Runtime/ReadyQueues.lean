import Mathlib.Algebra.BigOperators.Group.Finset.Piecewise
import Mathlib.Data.Fintype.BigOperators
import KosKernel.Lib.Runs
import KosKernel.Runtime.Scheduler

/-!
# Runtime/ReadyQueues — every thread is at one place

A thread is with a core, in a ready queue, or away: not started, suspended, or ended.  A core has
its current thread, and during a switch also the one that it has taken from the queue, or the one
that it has still to put back.  From this the ready queues never overlap, and an idle thread never
leaves its scheduler, so that a scheduler always finds a successor.
-/

namespace Kos

open Function Runs Blocking

/-! ## Places -/

namespace SwitchPc

variable {κ τ π : Type}

/-- The threads that a core has, apart from its current thread `curr` if it has been left
already. -/
@[simp] def held : SwitchPc κ τ π → τ → List τ
  | .picked _ next, curr | .chosen _ next, curr | .unlocked (some _) next, curr => [curr, next]
  | .unlocked none next, _ => [next]
  | .switched (some _) prev, curr => [curr, prev]
  | .running, curr | .picking _, curr | .switched none _, curr | .resumed _, curr | .dying _, curr
  | .clearing _ _, curr | .leaving _ _, curr | .deleting _ _, curr | .freeing _, curr
  | .living _, curr
  | .entering, curr | .restoring, curr | .checking, curr => [curr]

/-- The thread that the core is leaving, up to `postSwitch`, with the target. -/
@[simp] def outgoing : SwitchPc κ τ π → τ → Option (Option κ × τ)
  | .picking target, curr | .picked target _, curr | .chosen target _, curr
  | .unlocked target _, curr =>
    some (target, curr)
  | .switched target prev, _ => some (target, prev)
  | .running, _ | .resumed _, _ | .dying _, _ | .clearing _ _, _ | .leaving _ _, _
  | .deleting _ _, _
  | .freeing _, _ | .living _, _ | .entering, _ | .restoring, _ | .checking, _ => none

/-- The current thread is suspending or ending, and has not released its lock. -/
@[simp] def suspends : SwitchPc κ τ π → Bool
  | .picking target | .picked target _ | .chosen target _ => target.isNone
  | .running | .unlocked _ _ | .switched _ _ | .resumed _ | .dying _ | .clearing _ _ | .leaving _ _
  | .deleting _ _ | .freeing _ | .living _ | .entering | .restoring | .checking => false

end SwitchPc

/-- Where a thread is. -/
inductive Place (κ : Type)
  | away
  | core (c : κ)
  | queue (c : κ)

namespace Scheduling

variable {κ τ π : Type}

/-- The threads are where `pl` says. -/
structure Places (priority : τ → Fin maxPriority) (q : κ → Fin maxPriority → List τ)
    (held : κ → List τ) (pl : τ → Place κ) : Prop where
  core : ∀ t c, t ∈ held c ↔ pl t = .core c
  queue : ∀ t c p, t ∈ q c p ↔ pl t = .queue c ∧ priority t = p
  nodup : ∀ c p, (q c p).Nodup
  distinct : ∀ c, (held c).Nodup

/-- An idle thread is with its scheduler, and is only switched to it. -/
structure Idles (cfg : Setup κ τ) (next : τ → Option κ) (state : τ → ThreadState)
    (out : κ → Option (Option κ × τ)) (pl : τ → Place κ) : Prop where
  place : ∀ c, pl (cfg.idle c) = .core c ∨ pl (cfg.idle c) = .queue c
  next : ∀ c, next (cfg.idle c) = some c
  running : ∀ c, state (cfg.idle c) = .running
  target : ∀ c d target, out d = some (target, cfg.idle c) → target = some c

/-- A thread that is `Blocked`, or due to be resumed, is away, or about to be. -/
structure Sleepers (curr : κ → τ) (suspends : κ → Bool) (state : τ → ThreadState)
    (locked : τ → Bool) (born : τ → Bool) (woken : List τ) (pl : τ → Place κ) : Prop where
  nodup : woken.Nodup
  exclusive : ∀ t, state t = .blocked → t ∉ woken
  asleep : ∀ t, t ∈ woken ∨ state t = .blocked →
    locked t = true ∧ (∃ c, curr c = t ∧ suspends c = true) ∨ locked t = false ∧ pl t = .away
  unborn : ∀ t, born t = false → pl t = .away ∧ t ∉ woken ∧ state t ≠ .blocked

def held (m : Scheduling κ τ π) (c : κ) : List τ := (m.pc c).held (m.currThread c)

def outgoing (m : Scheduling κ τ π) (c : κ) : Option (Option κ × τ) :=
  (m.pc c).outgoing (m.currThread c)

def suspends (m : Scheduling κ τ π) (c : κ) : Bool := (m.pc c).suspends

/-- **The invariant of the ready queues.** -/
structure Ready (cfg : Setup κ τ) (m : Scheduling κ τ π) (pl : τ → Place κ) : Prop where
  places : Places cfg.priority m.readyQueue m.held pl
  counts : ∀ c, m.readyCount c = ∑ p, (m.readyQueue c p).length
  idles : Idles cfg m.nextScheduler m.state m.outgoing pl
  sleepers : Sleepers m.currThread m.suspends m.state m.locked m.born m.woken pl

variable {cfg : Setup κ τ} {m m' : Scheduling κ τ π}
  {pl : τ → Place κ} {c d : κ} {t u : τ} {x : Place κ} {i : Fin maxPriority} {pc : SwitchPc κ τ π}
  {priority : τ → Fin maxPriority} {q q' : κ → Fin maxPriority → List τ} {held' held'' : κ → List τ}
  {born' : τ → Bool} {woken' : List τ}

/-- One thread moves to the place `x`. -/
theorem Places.move [DecidableEq τ] (h : Places priority q held' pl)
    (hheld : ∀ u c, u ∈ held'' c ↔ if u = t then x = .core c else u ∈ held' c)
    (hq : ∀ u c p, u ∈ q' c p ↔ if u = t then x = .queue c ∧ priority t = p else u ∈ q c p)
    (hnodup : ∀ c p, (q' c p).Nodup) (hdistinct : ∀ c, (held'' c).Nodup) :
    Places priority q' held'' (update pl t x) := by
  refine ⟨fun u c => ?_, fun u c p => ?_, hnodup, hdistinct⟩
  · by_cases hu : u = t
    · simp [hheld, hu]
    · simp [hheld, hu, h.core]
  · by_cases hu : u = t
    · simp [hq, hu]
    · simp [hq, hu, h.queue]

variable [DecidableEq κ] {n : ℕ}

theorem findReady_eq_some {q : Fin maxPriority → List τ} (h : findReady q n = some (i, t)) :
    q i = t :: (q i).tail := by
  obtain ⟨j, -, hj⟩ := List.exists_of_findSome?_eq_some h
  obtain ⟨-, hj⟩ := Option.ite_none_right_eq_some.mp hj
  obtain ⟨u, hu, heq⟩ := Option.map_eq_some_iff.mp hj
  cases heq
  exact (List.cons_head?_tail hu).symm

theorem findReady_eq_none {q : Fin maxPriority → List τ} (h : findReady q n = none)
    (hi : (i : ℕ) < n) : q i = [] := by
  have hnone := List.findSome?_eq_none_iff.mp h i (List.mem_finRange i)
  simpa [hi] using hnone

/-- The queue `i` of the scheduler `c` becomes `l`. -/
theorem sum_setQueue (m : Scheduling κ τ π) (c d : κ) (l : List τ) :
    ∑ p, (m.setQueue c i l d p).length + (if d = c then (m.readyQueue c i).length else 0) =
      ∑ p, (m.readyQueue d p).length + if d = c then l.length else 0 := by
  by_cases hd : d = c
  · subst hd
    simp only [setQueue, update_self, if_true]
    have hupd : (fun p => (update (m.readyQueue d) i l p).length) =
        update (fun p => (m.readyQueue d p).length) i l.length := by
      funext p
      by_cases hp : p = i
      · subst hp
        simp
      · simp [hp]
    rw [hupd, Finset.sum_update_of_mem (Finset.mem_univ i)]
    have hold : ∑ p, (m.readyQueue d p).length =
        (m.readyQueue d i).length + ∑ p ∈ Finset.univ \ {i}, (m.readyQueue d p).length := by
      rw [← Finset.sum_update_of_mem (Finset.mem_univ i) (fun p => (m.readyQueue d p).length),
        update_eq_self]
    omega
  · simp [setQueue, hd]

theorem setQueue_apply (m : Scheduling κ τ π) (l : List τ) (p : Fin maxPriority) :
    m.setQueue c i l d p = if d = c ∧ p = i then l else m.readyQueue d p := by
  by_cases hd : d = c
  · subst hd
    by_cases hp : p = i
    · subst hp
      simp [setQueue]
    · simp [setQueue, hp]
  · simp [setQueue, hd]

theorem enqueue_readyQueue (p : Fin maxPriority) : (m.enqueue cfg c t).readyQueue d p =
    if d = c ∧ p = cfg.priority t then m.readyQueue c (cfg.priority t) ++ [t]
      else m.readyQueue d p :=
  setQueue_apply ..

theorem counts_enqueue (h : ∀ c, m.readyCount c = ∑ p, (m.readyQueue c p).length) (d : κ) (t : τ)
    (c : κ) :
    (m.enqueue cfg d t).readyCount c = ∑ p, ((m.enqueue cfg d t).readyQueue c p).length := by
  have hsum := sum_setQueue (i := cfg.priority t) m d c (m.readyQueue d (cfg.priority t) ++ [t])
  have hc := h c
  simp only [List.length_append, List.length_singleton] at hsum
  show update m.readyCount d _ c = _
  by_cases hcd : c = d
  · subst hcd
    simp only [if_true] at hsum
    simp only [update_self, enqueue]
    omega
  · simp only [if_neg hcd] at hsum
    simp only [update_of_ne hcd, enqueue]
    omega

variable [DecidableEq τ]

/-- The first thread of a queue goes to its core. -/
theorem Places.pop (h : Places priority m.readyQueue held' pl)
    (hq : m.readyQueue c i = t :: (m.readyQueue c i).tail)
    (hheld : ∀ u d, u ∈ held'' d ↔ u ∈ held' d ∨ u = t ∧ d = c)
    (hdistinct : ∀ d, (held'' d).Nodup) :
    Places priority (m.setQueue c i (m.readyQueue c i).tail) held'' (update pl t (.core c)) := by
  have hmem : t ∈ m.readyQueue c i := by
    rw [hq]
    exact List.mem_cons_self
  obtain ⟨hpl, hprio⟩ := (h.queue t c i).mp hmem
  have hnodup := h.nodup c i
  rw [hq] at hnodup
  obtain ⟨hnot, htail⟩ := List.nodup_cons.mp hnodup
  refine h.move (fun u d => ?_) (fun u d p => ?_) (fun d p => ?_) hdistinct
  · rw [hheld]
    by_cases hu : u = t
    · subst hu
      simp [h.core, hpl, eq_comm]
    · simp [hu]
  · rw [setQueue_apply]
    by_cases hu : u = t
    · subst hu
      simp only [if_true, reduceCtorEq, false_and, iff_false]
      split
      · exact hnot
      · rename_i hne
        intro hu
        obtain ⟨hpl', hprio'⟩ := (h.queue u d p).mp hu
        rw [hpl] at hpl'
        exact hne ⟨(Place.queue.inj hpl').symm, hprio'.symm.trans hprio⟩
    · rw [if_neg hu]
      split
      · rename_i hdp
        rw [hdp.1, hdp.2, hq]
        simp [hu]
      · rfl
  · rw [setQueue_apply]
    split
    · exact htail
    · exact h.nodup d p

/-- A thread goes to the end of a queue. -/
theorem Places.push (h : Places cfg.priority m.readyQueue held' pl) (hpl : ∀ e, pl t ≠ .queue e)
    (hheld : ∀ u e, u ∈ held'' e ↔ u ∈ held' e ∧ u ≠ t) (hdistinct : ∀ e, (held'' e).Nodup) :
    Places cfg.priority (m.enqueue cfg d t).readyQueue held'' (update pl t (.queue d)) := by
  have hnot : ∀ e p, t ∉ m.readyQueue e p := fun e p ht => hpl e ((h.queue t e p).mp ht).1
  refine h.move (fun u e => ?_) (fun u e p => ?_) (fun e p => ?_) hdistinct
  · rw [hheld]
    by_cases hu : u = t <;> simp [hu]
  · rw [enqueue_readyQueue]
    by_cases hu : u = t
    · subst hu
      by_cases hep : e = d ∧ p = cfg.priority u
      · simp [hep]
      · simp only [if_neg hep, if_true, hnot, false_iff, Place.queue.injEq]
        exact fun hed => hep ⟨hed.1.symm, hed.2.symm⟩
    · rw [if_neg hu]
      split
      · rename_i hep
        simp [hep, hu]
      · rfl
  · rw [enqueue_readyQueue]
    split
    · exact List.nodup_append.mpr ⟨h.nodup _ _, List.nodup_singleton t, fun u hu v hv huv =>
        hnot _ _ ((List.mem_singleton.mp hv) ▸ huv ▸ hu)⟩
    · exact h.nodup e p

omit [DecidableEq κ] in
theorem away_update (hpl : pl t ≠ .away) (hu : pl u = .away) : update pl t x u = .away := by
  rw [update_of_ne, hu]
  rintro rfl
  exact hpl hu

variable {s : ThreadState}

section Sleepers

variable {curr curr' : κ → τ} {sus sus' : κ → Bool} {state : τ → ThreadState}
  {locked born : τ → Bool}
  {woken : List τ}

omit [DecidableEq κ]

variable (h : Sleepers curr sus state locked born woken pl)

include h

omit [DecidableEq τ] in
/-- The cores go on. -/
theorem Sleepers.mono (hsus : ∀ c, sus c = true → curr' c = curr c ∧ sus' c = true) :
    Sleepers curr' sus' state locked born woken pl := by
  refine { h with asleep := fun t ht => ?_ }
  refine (h.asleep t ht).imp_left fun ⟨hl, c, hc, hs⟩ => ⟨hl, c, ?_, (hsus c hs).2⟩
  rw [(hsus c hs).1, hc]

/-- A thread that is not away moves. -/
theorem Sleepers.place (hpl : pl t ≠ .away) :
    Sleepers curr sus state locked born woken (update pl t x) := by
  refine ⟨h.nodup, h.exclusive, fun u hu => ?_, fun u hu => ?_⟩
  · exact (h.asleep u hu).imp_right fun ⟨hl, haway⟩ => ⟨hl, away_update hpl haway⟩
  · obtain ⟨haway, hrest⟩ := h.unborn u hu
    exact ⟨away_update hpl haway, hrest⟩

omit [DecidableEq τ] in
/-- A thread that is with a core, but not about to leave it, is not asleep. -/
theorem Sleepers.awake (hpl : pl t ≠ .away) (hsus : ∀ c, curr c = t → sus c = false) :
    t ∉ woken ∧ state t ≠ .blocked := by
  have hnot : ¬(t ∈ woken ∨ state t = .blocked) := fun ht => by
    obtain ⟨-, c, hc, hs⟩ | ⟨-, haway⟩ := h.asleep t ht
    · rw [hsus c hc] at hs
      cases hs
    · exact hpl haway
  exact not_or.mp hnot

/-- The state of a thread changes, other than to `Blocked`. -/
theorem Sleepers.setState (hs : s ≠ .blocked) :
    Sleepers curr sus (update state t s) locked born woken pl := by
  have hst : ∀ u, update state t s u = .blocked → state u = .blocked := fun u hu => by
    by_cases hut : u = t
    · subst hut
      exact absurd ((update_self ..).symm.trans hu) hs
    · rwa [update_of_ne hut] at hu
  refine ⟨h.nodup, fun u hu => h.exclusive u (hst u hu),
    fun u hu => h.asleep u (hu.imp_right (hst u)), fun u hu => ?_⟩
  obtain ⟨haway, hwoken, hstate⟩ := h.unborn u hu
  exact ⟨haway, hwoken, mt (hst u) hstate⟩

/-- The thread of a core that suspends becomes `Blocked`, with its lock held. -/
theorem Sleepers.block (hsus : sus c = true) (hwoken : curr c ∉ woken) (hpl : pl (curr c) ≠ .away) :
    Sleepers curr sus (update state (curr c) .blocked) (update locked (curr c) true) born woken
      pl := by
  refine ⟨h.nodup, fun u hu => ?_, fun u hu => ?_, fun u hu => ?_⟩
  · by_cases hut : u = curr c
    · exact hut ▸ hwoken
    · rw [update_of_ne hut] at hu
      exact h.exclusive u hu
  · by_cases hut : u = curr c
    · subst hut
      exact .inl ⟨update_self .., c, rfl, hsus⟩
    · simp only [update_of_ne hut] at hu ⊢
      exact h.asleep u hu
  · obtain ⟨haway, hnot, hstate⟩ := h.unborn u hu
    have hut : u ≠ curr c := by
      rintro rfl
      exact hpl haway
    exact ⟨haway, hnot, by rwa [update_of_ne hut]⟩

/-- A thread is taken out of `Blocked`, and is due to be resumed. -/
theorem Sleepers.wake (ht : state t = .blocked) (hs : s ≠ .blocked) :
    Sleepers curr sus (update state t s) locked born (t :: woken) pl := by
  have h' := h.setState (t := t) hs
  refine ⟨List.nodup_cons.mpr ⟨h.exclusive t ht, h.nodup⟩, fun u hu => ?_, fun u hu => ?_,
    fun u hu => ?_⟩
  · refine List.not_mem_cons_of_ne_of_not_mem ?_ (h'.exclusive u hu)
    rintro rfl
    exact hs ((update_self ..).symm.trans hu)
  · by_cases hut : u = t
    · exact h.asleep u (.inr (hut ▸ ht))
    · exact h'.asleep u (hu.imp_left fun hu => List.mem_of_ne_of_mem hut hu)
  · obtain ⟨haway, hnot, hstate⟩ := h'.unborn u hu
    refine ⟨haway, List.not_mem_cons_of_ne_of_not_mem ?_ hnot, hstate⟩
    rintro rfl
    exact (h.unborn u hu).2.2 ht

/-- A thread that is due is resumed. -/
theorem Sleepers.resume (ht : t ∈ woken) :
    Sleepers curr sus state locked born (woken.erase t) (update pl t x) := by
  have hne : ∀ u, u ∈ woken.erase t ∨ state u = .blocked → u ≠ t := by
    rintro u hu rfl
    exact hu.elim (h.nodup.not_mem_erase) fun hb => h.exclusive u hb ht
  refine ⟨h.nodup.erase t, fun u hu hmem => h.exclusive u hu (List.mem_of_mem_erase hmem),
    fun u hu => ?_, fun u hu => ?_⟩
  · rw [update_of_ne (hne u hu)]
    exact h.asleep u (hu.imp_left List.mem_of_mem_erase)
  · obtain ⟨haway, hnot, hstate⟩ := h.unborn u hu
    have hut : u ≠ t := by
      rintro rfl
      exact hnot ht
    exact ⟨by rwa [update_of_ne hut], mt List.mem_of_mem_erase hnot, hstate⟩

/-- A thread is created. -/
theorem Sleepers.create (ht : born t = false) :
    Sleepers curr sus state locked (update born t true) woken (update pl t x) := by
  obtain ⟨-, hwoken, hstate⟩ := h.unborn t ht
  refine ⟨h.nodup, h.exclusive, fun u hu => ?_, fun u hu => ?_⟩
  · have hut : u ≠ t := by
      rintro rfl
      exact hu.elim hwoken hstate
    rw [update_of_ne hut]
    exact h.asleep u hu
  · have hut : u ≠ t := by
      rintro rfl
      simp at hu
    rw [update_of_ne hut] at hu ⊢
    exact h.unborn u hu

end Sleepers

/-! ## Steps -/

/-- Where the threads are after a step of the switch on the core `c`. -/
def placesAt (m : Scheduling κ τ π) (c : κ) (pl : τ → Place κ) : τ → Place κ :=
  match m.pc c with
  | .picking target =>
    match findReady (m.readyQueue c) (bound target c) with
    | none => pl
    | some (_, next) => update pl next (.core c)
  | .chosen none _ => update pl (m.currThread c) .away
  | .switched (some _) prev => update pl prev (.queue ((m.nextScheduler prev).getD c))
  | _ => pl

/-- Where the threads are after a step. -/
def places (m : Scheduling κ τ π) (pl : τ → Place κ) : Action κ τ π → τ → Place κ
  | .advance c => m.placesAt c pl
  | .create c t | .exec c _ t | .resume c t => update pl t (.queue ((m.nextScheduler t).getD c))
  | _ => pl

omit [DecidableEq κ] [DecidableEq τ] in
theorem Ready.idle_place (h : Ready cfg m pl) (hpl : pl (cfg.idle d) = .core c) : d = c := by
  obtain hd | hd := h.idles.place d
  · exact Place.core.inj (hd.symm.trans hpl)
  · exact absurd (hd.symm.trans hpl) (by simp)

omit [DecidableEq τ] in
/-- A core goes on, and keeps its threads. -/
theorem Ready.go (h : Ready cfg m pl) (hheld : pc.held (m.currThread c) = m.held c)
    (hidle : ∀ d target, pc.outgoing (m.currThread c) = some (target, cfg.idle d) → target = some d)
    (hsus : m.suspends c = true → pc.suspends = true) : Ready cfg (m.go c pc) pl := by
  have hheld' : (m.go c pc).held = m.held := by
    funext d
    by_cases hd : d = c
    · subst hd
      simpa [held] using hheld
    · simp [held, hd]
  refine ⟨?_, h.counts, { h.idles with target := fun d e target ht => ?_ },
    { h.sleepers with asleep := fun t ht => ?_ }⟩
  · rw [hheld']
    exact h.places
  · by_cases he : e = c
    · subst he
      simp only [outgoing, go_pc, go_currThread, if_true] at ht
      exact hidle d target ht
    · simp only [outgoing, go_pc, go_currThread, if_neg he] at ht
      exact h.idles.target d e target ht
  · refine (h.sleepers.asleep t ht).imp_left fun ⟨hl, e, he, hse⟩ => ⟨hl, e, he, ?_⟩
    by_cases hec : e = c
    · subst hec
      simpa [suspends] using hsus hse
    · simpa [suspends, hec] using hse

omit [DecidableEq κ] [DecidableEq τ] in
theorem Ready.curr_place (h : Ready cfg m pl) (hheld : m.currThread c ∈ m.held c) :
    pl (m.currThread c) = .core c :=
  (h.places.core _ c).mp hheld

variable {target : Option κ}

omit [DecidableEq τ] in
/-- **A successor.**  A core that leaves its thread for good finds another one. -/
theorem Ready.exists_next (h : Ready cfg m pl) (hpc : m.pc c = .picking target)
    (htarget : target ≠ some c) :
    ∃ i next, findReady (m.readyQueue c) (bound target c) = some (i, next) ∧
      next ≠ m.currThread c := by
  have hcurr := h.curr_place (c := c) (by simp [held, hpc])
  obtain hidle | hidle := h.idles.place c
  · have hmem : cfg.idle c ∈ m.held c := (h.places.core _ c).mpr hidle
    rw [held, hpc] at hmem
    have hout : m.outgoing c = some (target, cfg.idle c) := by
      rw [outgoing, hpc, List.mem_singleton.mp hmem]
      rfl
    exact absurd (h.idles.target c c target hout) htarget
  · have hmem := (h.places.queue _ c idlePriority).mpr ⟨hidle, cfg.idle_priority c⟩
    cases hf : findReady (m.readyQueue c) (bound target c) with
    | none =>
      have hempty :=
        findReady_eq_none (i := idlePriority) hf (by simp [bound, htarget, idlePriority])
      rw [hempty] at hmem
      cases hmem
    | some r =>
      refine ⟨r.1, r.2, rfl, fun heq => ?_⟩
      have hnext : r.2 ∈ m.readyQueue c r.1 := by
        rw [findReady_eq_some hf]
        exact List.mem_cons_self
      have hplace := ((h.places.queue _ _ _).mp hnext).1
      rw [heq, hcurr] at hplace
      cases hplace

theorem Ready.picked (h : Ready cfg m pl) (hpc : m.pc c = .picking target)
    (hf : findReady (m.readyQueue c) n = some (i, t)) : Ready cfg { m.go c (.picked target t) with
      readyQueue := m.setQueue c i (m.readyQueue c i).tail
      readyCount := update m.readyCount c (m.readyCount c - 1) } (update pl t (.core c)) := by
  have hq := findReady_eq_some hf
  have hpl : pl t = .queue c := ((h.places.queue t c i).mp (by rw [hq]; exact List.mem_cons_self)).1
  have hne : m.currThread c ≠ t := by
    rintro rfl
    rw [h.curr_place (by simp [held, hpc])] at hpl
    cases hpl
  refine ⟨h.places.pop hq (fun u d => ?_) fun d => ?_, fun d => ?_,
    ⟨fun d => ?_, h.idles.next, h.idles.running, fun d e tg ht => ?_⟩,
    (h.sleepers.place (by simp [hpl])).mono fun e he => ⟨rfl, ?_⟩⟩
  · by_cases hd : d = c
    · subst hd
      simp [held, hpc]
    · simp [held, hd]
  · by_cases hd : d = c
    · subst hd
      simp [held, hne]
    · simpa [held, hd] using h.places.distinct d
  · have hsum := sum_setQueue (i := i) m c d (m.readyQueue c i).tail
    have hd := h.counts d
    by_cases hdc : d = c
    · subst hdc
      have hlen := congrArg List.length hq
      simp only [if_true, List.length_cons] at hsum hlen ⊢
      simp only [update_self]
      omega
    · simp only [if_neg hdc] at hsum
      simp only [update_of_ne hdc]
      omega
  · by_cases ht : cfg.idle d = t
    · obtain hd | hd := h.idles.place d
      · exact absurd (hpl.symm.trans (ht ▸ hd)) (by simp)
      · rw [ht] at hd
        obtain rfl := Place.queue.inj (hpl.symm.trans hd)
        exact .inl (by rw [ht, update_self])
    · rw [update_of_ne ht]
      exact h.idles.place d
  · refine h.idles.target d e tg (ht ▸ ?_)
    by_cases he : e = c
    · subst he
      simp [outgoing, hpc]
    · simp [outgoing, he]
  · by_cases hec : e = c
    · subst hec
      rw [suspends, hpc] at he
      cases target with
      | none => simp [suspends]
      | some d => simp at he
    · simpa [suspends, hec] using he

variable {next : τ}

/-- The lock is released: a thread that goes on elsewhere keeps its place for now. -/
theorem Ready.unlock (h : Ready cfg m pl) (hpc : m.pc c = .chosen (some d) next) :
    Ready cfg { m.go c (.unlocked (some d) next) with
      locked := update m.locked (m.currThread c) false } pl := by
  have hcurr := h.curr_place (c := c) (by simp [held, hpc])
  have hother : ∀ e, m.currThread e = m.currThread c → m.suspends e = true → e = c :=
    fun e he hs => by
    have hpl : pl (m.currThread e) = .core e := h.curr_place (by
      cases hpc : m.pc e <;> simp_all [suspends, held])
    rw [he, hcurr] at hpl
    exact (Place.core.inj hpl).symm
  have hawake := h.sleepers.awake (t := m.currThread c) (by simp [hcurr]) fun e he => by
    cases hs : m.suspends e with
    | false => rfl
    | true =>
      obtain rfl := hother e he hs
      simp [suspends, hpc] at hs
  have hgo : Ready cfg (m.go c (.unlocked (some d) next)) pl := h.go (by simp [held, hpc])
    (fun e tg ht => h.idles.target e c tg (by rw [outgoing, hpc]; exact ht))
    (by simp [suspends, hpc])
  refine ⟨hgo.places, hgo.counts, hgo.idles, hgo.sleepers.nodup, hgo.sleepers.exclusive,
    fun u hu => ?_, hgo.sleepers.unborn⟩
  have hne : u ≠ m.currThread c := by
    rintro rfl
    exact hu.elim hawake.1 hawake.2
  simp only [update_of_ne hne]
  exact hgo.sleepers.asleep u hu

/-- The lock is released: a thread that suspends or ends is away. -/
theorem Ready.unlockAway (h : Ready cfg m pl) (hpc : m.pc c = .chosen none next) :
    Ready cfg { m.go c (.unlocked none next) with
      locked := update m.locked (m.currThread c) false } (update pl (m.currThread c) .away) := by
  have hcurr := h.curr_place (c := c) (by simp [held, hpc])
  have hidle : ∀ d, cfg.idle d ≠ m.currThread c := fun d hd => by
    have hout : m.outgoing c = some (none, cfg.idle d) := by
      rw [outgoing, hpc, hd]
      rfl
    exact absurd (h.idles.target d c none hout) (by simp)
  have hdistinct : m.currThread c ≠ next := by
    have hnodup := h.places.distinct c
    rw [held, hpc] at hnodup
    simpa using hnodup
  have hd : ∀ d, d ≠ c → m.currThread c ∉ m.held d := fun d hd hmem =>
    hd (Place.core.inj (((h.places.core _ d).mp hmem).symm.trans hcurr))
  refine ⟨h.places.move (t := m.currThread c) (x := .away) (fun u d => ?_)
    (fun u d p => ?_) h.places.nodup (fun d => ?_), h.counts,
    ⟨fun d => ?_, h.idles.next, h.idles.running, fun d e tg ht => ?_⟩,
        { h.sleepers with asleep := fun u hu => ?_, unborn := fun u hu => ?_ }⟩
  · by_cases hdc : d = c
    · subst hdc
      by_cases hu : u = m.currThread d
      · simp [held, hu, hdistinct]
      · simp [held, hpc, hu]
    · by_cases hu : u = m.currThread c
      · simpa [held, hdc, hu] using hd d hdc
      · simp [held, hdc, hu]
  · by_cases hu : u = m.currThread c
    · simp [hu, h.places.queue, hcurr]
    · simp [hu]
  · by_cases hdc : d = c
    · subst hdc
      simp [held]
    · simpa [held, hdc] using h.places.distinct d
  · rw [update_of_ne (hidle d)]
    exact h.idles.place d
  · refine h.idles.target d e tg (ht ▸ ?_)
    by_cases he : e = c
    · subst he
      simp [outgoing, hpc]
    · simp [outgoing, he]
  · by_cases hut : u = m.currThread c
    · subst hut
      exact .inr ⟨update_self .., update_self ..⟩
    · simp only [update_of_ne hut]
      refine (h.sleepers.asleep u hu).imp_left fun ⟨hl, e, he, hs⟩ => ⟨hl, e, he, ?_⟩
      have hec : e ≠ c := by
        rintro rfl
        exact hut he.symm
      simpa [suspends, hec] using hs
  · obtain ⟨haway, hrest⟩ := h.sleepers.unborn u hu
    exact ⟨away_update (by simp [hcurr]) haway, hrest⟩

/-- The core is on the stack of the next thread. -/
theorem Ready.stackSwitch (h : Ready cfg m pl) (hpc : m.pc c = .unlocked target next) :
    Ready cfg (m.stackSwitch c target next) pl := by
  have hheld : ∀ u d, u ∈ (m.stackSwitch c target next).held d ↔ u ∈ m.held d := fun u d => by
    by_cases hd : d = c
    · subst hd
      cases target with
      | none => simp [held, Scheduling.stackSwitch, hpc]
      | some e => simp [held, Scheduling.stackSwitch, hpc, or_comm]
    · simp [held, Scheduling.stackSwitch, hd]
  have hdistinct := h.places.distinct
  refine ⟨⟨fun u d => (hheld u d).trans (h.places.core u d), h.places.queue, h.places.nodup,
    fun d => ?_⟩, h.counts,
    { h.idles with target := fun d e tg ht => h.idles.target d e tg (ht ▸ ?_) },
    h.sleepers.mono fun e he => ?_⟩
  · by_cases hd : d = c
    · subst hd
      have hnodup := h.places.distinct d
      cases target with
      | none => simp [held, Scheduling.stackSwitch]
      | some e => simpa [held, Scheduling.stackSwitch, hpc, eq_comm] using hnodup
    · simpa [held, Scheduling.stackSwitch, hd] using h.places.distinct d
  · by_cases he : e = c
    · subst he
      simp [outgoing, Scheduling.stackSwitch, hpc]
    · simp [outgoing, Scheduling.stackSwitch, he]
  · have hec : e ≠ c := by
      rintro rfl
      simp [suspends, hpc] at he
    exact ⟨update_of_ne hec _ _, by simpa [suspends, Scheduling.stackSwitch, hec] using he⟩

/-- The thread that the core has left goes back to a ready queue. -/
theorem Ready.postSwitch {tg : κ} {prev : τ} (h : Ready cfg m pl)
    (hpc : m.pc c = .switched (some tg) prev) : Ready cfg (m.postSwitch cfg c (some tg) prev)
      (update pl prev (.queue ((m.nextScheduler prev).getD c))) := by
  have hprev : pl prev = .core c := (h.places.core prev c).mp (by simp [held, hpc])
  have hne : m.currThread c ≠ prev := by
    have hnodup := h.places.distinct c
    rw [held, hpc] at hnodup
    simpa using hnodup
  have hother : ∀ d, d ≠ c → prev ∉ m.held d := fun d hd hmem =>
    hd (Place.core.inj (((h.places.core _ d).mp hmem).symm.trans hprev))
  refine ⟨h.places.push (d := (m.nextScheduler prev).getD c)
    (t := prev) (by simp [hprev]) (fun u d => ?_) (fun d => ?_), counts_enqueue h.counts _ _,
    ⟨fun d => ?_, h.idles.next, h.idles.running, fun d e tg' ht => ?_⟩,
    (h.sleepers.place (by simp [hprev])).mono fun e he => ⟨rfl, ?_⟩⟩
  · by_cases hd : d = c
    · subst hd
      by_cases hu : u = prev
      · simp [held, Scheduling.postSwitch, hu, hne.symm]
      · simp [held, Scheduling.postSwitch, hpc, hu]
    · by_cases hu : u = prev
      · simpa [held, Scheduling.postSwitch, hd, hu] using hother d hd
      · simp [held, Scheduling.postSwitch, hd, hu]
  · by_cases hd : d = c
    · subst hd
      simp [held, Scheduling.postSwitch]
    · simpa [held, Scheduling.postSwitch, hd] using h.places.distinct d
  · by_cases hd : cfg.idle d = prev
    · rw [hd, update_self]
      have hnext := h.idles.next d
      rw [hd] at hnext
      exact .inr (by rw [hnext, Option.getD_some])
    · rw [update_of_ne hd]
      exact h.idles.place d
  · by_cases he : e = c
    · subst he
      simp [outgoing, Scheduling.postSwitch] at ht
    · simp only [outgoing, Scheduling.postSwitch, go_pc, if_neg he, go_currThread,
        resume_pc, resume_currThread] at ht
      exact h.idles.target d e tg' ht
  · have hec : e ≠ c := by
      rintro rfl
      simp [suspends, hpc] at he
    simpa [suspends, Scheduling.postSwitch, hec] using he

/-- A thread that is away, and not asleep any more, is put into a ready queue. -/
theorem Ready.resume (h : Ready cfg m pl) (hpl : pl t = .away) (c : κ)
    (s : Sleepers m.currThread m.suspends m.state m.locked born' woken'
      (update pl t (.queue ((m.nextScheduler t).getD c)))) : Ready cfg
    { m.resume cfg c t with born := born',
                            woken :=
        woken' } (update pl t (.queue ((m.nextScheduler t).getD c))) := by
  refine ⟨h.places.push (by simp [hpl]) (fun u d => ?_) h.places.distinct,
    counts_enqueue h.counts _ _, { h.idles with place := fun d => ?_ }, s⟩
  · refine ⟨fun hu => ⟨hu, ?_⟩, And.left⟩
    rintro rfl
    exact absurd (((h.places.core u d).mp hu).symm.trans hpl) (by simp)
  · rw [update_of_ne]
    · exact h.idles.place d
    · rintro rfl
      obtain hd | hd := h.idles.place d <;> simp [hd] at hpl

omit [DecidableEq κ] [DecidableEq τ] in
/-- The thread of a core outside the first half of a switch is awake. -/
theorem Ready.curr_awake (h : Ready cfg m pl) (hheld : m.held c = [m.currThread c])
    (hsus : m.suspends c = false) :
    m.currThread c ∉ m.woken ∧ m.state (m.currThread c) ≠ .blocked := by
  have hcurr := h.curr_place (c := c) (by simp [hheld])
  refine h.sleepers.awake (by simp [hcurr]) fun e he => ?_
  cases hs : m.suspends e with
  | false => rfl
  | true =>
    have hpl : pl (m.currThread e) = .core e := h.curr_place (by
      cases hpc : m.pc e <;> simp_all [suspends, held])
    rw [he, hcurr] at hpl
    obtain rfl := Place.core.inj hpl
    exact absurd (hsus.symm.trans hs) Bool.false_ne_true

omit [DecidableEq τ] in
theorem Ready.picking (h : Ready cfg m pl) (hheld : m.held c = [m.currThread c])
    (hsus : m.suspends c = false) (hidle : ∀ d, cfg.idle d ≠ m.currThread c) :
    Ready cfg (m.go c (.picking none)) pl :=
  h.go (by simp [hheld])
    (fun d tg ht => absurd (congrArg (Option.map Prod.snd) ht) (by simpa using (hidle d).symm))
    (by simp [hsus])

omit [DecidableEq κ] in
theorem Idles.setState {next : τ → Option κ} {state : τ → ThreadState}
    {out : κ → Option (Option κ × τ)} (h : Idles cfg next state out pl) (ht : ∀ d, cfg.idle d ≠ t) :
    Idles cfg next (update state t s) out pl := by
  refine { h with running := fun d => ?_ }
  rw [update_of_ne (ht d)]
  exact h.running d

theorem Ready.finish (h : Ready cfg m pl) (hheld : m.held c = [m.currThread c])
    (hsus : m.suspends c = false) (hidle : ∀ d, cfg.idle d ≠ m.currThread c) :
    Ready cfg (m.finish c) pl := by
  have h' := h.picking hheld hsus hidle
  exact ⟨h'.places, h'.counts, h'.idles.setState hidle, h'.sleepers.setState (by simp)⟩

omit [DecidableEq τ] in
/-- A core that has its current thread goes on with it. -/
theorem Ready.alone (h : Ready cfg m pl) (hheld : m.held c = [m.currThread c])
    (hsus : m.suspends c = false) (hpc : pc.held (m.currThread c) = [m.currThread c])
    (hout : pc.outgoing (m.currThread c) = none) : Ready cfg (m.go c pc) pl :=
  h.go (hpc.trans hheld.symm) (by rw [hout]; simp) (by simp [hsus])

variable [DecidableEq π]

/-- **One step of a switch.** -/
theorem Ready.advance (h : Ready cfg m pl) (hs : m.advance cfg c = some m') :
    Ready cfg m' (m.placesAt c pl) := by
  rw [placesAt]
  cases hpc : m.pc c
  all_goals rw [Scheduling.advance, hpc] at hs
  case running => cases hs
  all_goals cases hs
  case picking target =>
    dsimp only [pick]
    cases hf : findReady (m.readyQueue c) (bound target c) with
    | none =>
      dsimp only
      split
      · obtain ⟨i, next, hf', -⟩ := h.exists_next hpc (by simp [*])
        simp_all
      · refine h.alone (c := c) (by simp [held, hpc]) ?_ rfl rfl
        cases target with
        | none => contradiction
        | some d => simp [suspends, hpc]
    | some r => exact h.picked hpc hf
  case picked target next =>
    have h' : Ready cfg (m.go c (.chosen target next)) pl := h.go (by simp [held, hpc])
      (fun d tg ht => h.idles.target d c tg (by rw [outgoing, hpc]; exact ht))
      (by cases target <;> simp [suspends, hpc])
    refine { h' with idles := ⟨h'.idles.place, fun d => ?_, h'.idles.running, h'.idles.target⟩ }
    by_cases hd : cfg.idle d = m.currThread c
    · have hout : m.outgoing c = some (target, cfg.idle d) := by
        rw [outgoing, hpc, hd]
        rfl
      simp [hd, h.idles.target d c target hout]
    · simpa [hd] using h.idles.next d
  case chosen target next =>
    cases target with
    | none => exact h.unlockAway hpc
    | some d => exact h.unlock hpc
  case unlocked => exact h.stackSwitch hpc
  case switched target prev =>
    cases target with
    | none => exact h.go (by simp [held, hpc]) (by simp) (by simp [suspends, hpc])
    | some d => exact h.postSwitch hpc
  -- the rest of the switch: the core has its new thread only
  all_goals
    have hheld : m.held c = [m.currThread c] := by simp [held, hpc]
    have hsus : m.suspends c = false := by simp [suspends, hpc]
    have hquiet : ∀ pc : SwitchPc κ τ π, pc.held (m.currThread c) = [m.currThread c] →
      pc.outgoing (m.currThread c) = none → Ready cfg (m.go c pc) pl := fun pc => h.alone hheld hsus
  case resumed prev =>
    split
    · exact { hquiet (.dying prev) rfl rfl with }
    · exact hquiet (.living prev) rfl rfl
  case dying prev =>
    rw [destroyThread]
    split
    · exact hquiet (.leaving prev none) rfl rfl
    · rename_i p _
      exact { hquiet (if (m.threadStore p).erase prev = [] then .clearing prev p
        else .leaving prev none) (by split <;> rfl) (by split <;> rfl) with }
  case clearing prev p => exact { hquiet (.leaving prev (some p)) rfl rfl with }
  case leaving prev p =>
    exact { hquiet (p.elim (.freeing prev) (.deleting prev)) (by cases p <;> rfl)
      (by cases p <;> rfl) with }
  case deleting prev p => exact { hquiet (.freeing prev) rfl rfl with }
  case freeing prev => exact { hquiet .restoring rfl rfl with }
  case living prev => exact { hquiet .entering rfl rfl with }
  case entering => exact { hquiet .restoring rfl rfl with }
  case restoring =>
    have h' :=
      hquiet (if m.invoked (m.currThread c) then .checking else .running) (by split <;> rfl)
      (by split <;> rfl)
    exact { h' with }
  case checking =>
    split
    · refine h.finish hheld hsus fun d hd => ?_
      have hrunning := h.idles.running d
      simp_all
    · exact hquiet .running rfl rfl

variable [Fintype κ]

omit [DecidableEq π] [Fintype κ] [DecidableEq κ] [DecidableEq τ] in
theorem Ready.idle_ne (h : Ready cfg m pl) (hpc : m.pc c = .running)
    (hne : m.currThread c ≠ cfg.idle c) (d : κ) : cfg.idle d ≠ m.currThread c := by
  intro hd
  have hcurr := h.curr_place (c := c) (by simp [held, hpc])
  obtain rfl := h.idle_place (hd ▸ hcurr)
  exact hne hd.symm

/-- **One step keeps every thread at one place.** -/
theorem Ready.step {a : Action κ τ π} (h : Ready cfg m pl) (hs : m.step cfg a = some m') :
    Ready cfg m' (m.places pl a) := by
  have halone : ∀ {c}, m.pc c = .running → m.held c = [m.currThread c] ∧ m.suspends c = false :=
    fun hpc => by
    simp [held, suspends, hpc]
  cases a with
  | advance c => exact h.advance hs
  | preempt c =>
    obtain ⟨hpc, rfl⟩ := Option.ite_some_none_eq_some.mp hs
    refine h.go (by simp [held, hpc]) (fun d tg ht => ?_) (by simp [halone hpc])
    obtain ⟨rfl, hd⟩ := Prod.mk.inj (Option.some.inj ht)
    simp [target, getAffinity, hd, cfg.idle_mask, cfg.idle_affinity, h.idles.next]
  | suspend c =>
    obtain ⟨⟨hpc, hne⟩, rfl⟩ := Option.ite_some_none_eq_some.mp hs
    split
    · obtain ⟨hheld, hsus⟩ := halone hpc
      have hidle := h.idle_ne hpc hne
      have h' := h.picking hheld hsus hidle
      refine ⟨h'.places, h'.counts, h'.idles.setState hidle,
        h'.sleepers.block ?_ (h.curr_awake hheld hsus).1 ?_⟩
      · simp [suspends]
      · simp [h.curr_place (c := c) (by simp [hheld])]
    · exact h
  | terminate c =>
    obtain ⟨⟨hpc, hne⟩, rfl⟩ := Option.ite_some_none_eq_some.mp hs
    exact h.finish (halone hpc).1 (halone hpc).2 (h.idle_ne hpc hne)
  | create c t =>
    obtain ⟨⟨-, ht⟩, rfl⟩ := Option.ite_some_none_eq_some.mp hs
    have h' := h.resume (h.sleepers.unborn t ht).1 c (h.sleepers.create ht)
    exact { h' with }
  | exec c p t =>
    obtain ⟨⟨-, -, ht, -⟩, rfl⟩ := Option.ite_some_none_eq_some.mp hs
    have h' := h.resume (h.sleepers.unborn t ht).1 c (h.sleepers.create ht)
    exact { h' with }
  | unblock c t =>
    obtain ⟨⟨-, ht, -⟩, rfl⟩ := Option.ite_some_none_eq_some.mp hs
    refine ⟨h.places, h.counts, h.idles.setState fun d hd => ?_, h.sleepers.wake ht (by simp)⟩
    have hrunning := h.idles.running d
    simp_all
  | cancel c t =>
    obtain ⟨⟨-, -, -, -, -, hidle⟩, rfl⟩ := Option.ite_some_none_eq_some.mp hs
    have hidles := h.idles.setState (s := .cancelled) fun d => (hidle d).symm
    rw [Scheduling.cancel]
    split
    · exact ⟨h.places, h.counts, hidles, h.sleepers.wake ‹_› (by simp)⟩
    · exact ⟨h.places, h.counts, hidles, h.sleepers.setState (by simp)⟩
  | resume c t =>
    obtain ⟨⟨-, ht, hl⟩, rfl⟩ := Option.ite_some_none_eq_some.mp hs
    have haway : pl t = .away := by
      obtain ⟨hl', -⟩ | ⟨-, haway⟩ := h.sleepers.asleep t (.inl ht)
      · exact absurd (hl.symm.trans hl') Bool.false_ne_true
      · exact haway
    have h' := h.resume haway c (h.sleepers.resume ht)
    exact { h' with }

omit [DecidableEq κ] in
theorem exists_places (cfg : Setup κ τ) : ∃ pl : τ → Place κ, ∀ t c,
    (pl t = .core c ↔ t = cfg.boot c) ∧ (pl t = .queue c ↔ t = cfg.idle c) := by
  suffices h : ∀ t, ∃ x : Place κ, ∀ c, (x = .core c ↔ t = cfg.boot c) ∧
      (x = .queue c ↔ t = cfg.idle c) from ⟨fun t => (h t).choose, fun t => (h t).choose_spec⟩
  intro t
  by_cases hb : ∃ c, t = cfg.boot c
  · obtain ⟨c, rfl⟩ := hb
    refine ⟨.core c, fun d => ⟨?_, iff_of_false (by simp) fun hd => cfg.idle_ne_boot d c hd.symm⟩⟩
    rw [Place.core.injEq]
    exact ⟨congrArg cfg.boot, cfg.boot_inj c d⟩
  by_cases hi : ∃ c, t = cfg.idle c
  · obtain ⟨c, rfl⟩ := hi
    refine ⟨.queue c, fun d => ⟨iff_of_false (by simp) fun hd => hb ⟨d, hd⟩, ?_⟩⟩
    rw [Place.queue.injEq]
    exact ⟨congrArg cfg.idle, cfg.idle_inj c d⟩
  · exact ⟨.away, fun d => ⟨iff_of_false (by simp) fun hd => hb ⟨d, hd⟩,
      iff_of_false (by simp) fun hd => hi ⟨d, hd⟩⟩⟩

omit [DecidableEq π] [DecidableEq κ] in
theorem ready_init (cfg : Setup κ τ) : ∃ pl, Ready cfg (init cfg : Scheduling κ τ π) pl := by
  obtain ⟨pl, hpl⟩ := exists_places cfg
  have hcore := fun t c => (hpl t c).1
  have hqueue := fun t c => (hpl t c).2
  refine ⟨pl, ⟨fun t c => ?_, fun t c p => ?_, fun c p => ?_, fun c => List.nodup_singleton _⟩,
    fun c => ?_, ⟨fun c => .inr ((hqueue _ _).mpr rfl), cfg.idle_affinity, fun _ => rfl,
    fun c d tg ht => absurd ht (by simp [outgoing, init, SwitchPc.outgoing])⟩,
    List.nodup_nil, by simp [init], by simp [init], fun t ht => ?_⟩
  · rw [hcore]
    exact List.mem_singleton
  · rw [hqueue]
    by_cases hp : p = idlePriority
    · subst hp
      simp only [init, if_true, List.mem_singleton]
      exact ⟨fun ht => ⟨ht, ht ▸ cfg.idle_priority c⟩, And.left⟩
    · simp only [init, if_neg hp, List.not_mem_nil, false_iff, not_and]
      rintro rfl hprio
      exact hp (hprio.symm.trans (cfg.idle_priority c))
  · simp only [init]
    split
    · exact List.nodup_singleton _
    · exact List.nodup_nil
  · simp only [init, apply_ite List.length, List.length_singleton, List.length_nil]
    rw [Finset.sum_ite_eq' Finset.univ idlePriority, if_pos (Finset.mem_univ _)]
  · have hnot : ¬∃ c, t = cfg.boot c ∨ t = cfg.idle c := of_decide_eq_false ht
    refine ⟨?_, by simp [init], by simp [init]⟩
    cases hpl : pl t with
    | away => rfl
    | core c => exact absurd ⟨c, .inl ((hcore t c).mp hpl)⟩ hnot
    | queue c => exact absurd ⟨c, .inr ((hqueue t c).mp hpl)⟩ hnot

/-- In every run, every thread is at one place. -/
theorem exists_ready {as : List (Action κ τ π)} (hrun : run (step cfg) (init cfg) as = some m) :
    ∃ pl, Ready cfg m pl := by
  refine invariant (P := fun m => ∃ pl, Ready cfg m pl) ?_ (ready_init cfg) hrun
  rintro m a m' ⟨pl, h⟩ hs
  exact ⟨_, h.step hs⟩

/-- **The ready queues.**  In every run of any number of cores, `readyCount` is the number of
threads in the queues of a scheduler; no thread is queued twice, or while a core runs it outside a
switch; the idle thread of such a core is its current thread or in its queue; and a core that
searches for a successor finds another thread, unless it may go on with its own. -/
theorem ready_queues {as : List (Action κ τ π)} (hrun : run (step cfg) (init cfg) as = some m) :
    (∀ c, m.readyCount c = ∑ p, (m.readyQueue c p).length) ∧
      (∀ c p, (m.readyQueue c p).Nodup) ∧
      (∀ t c d p p', t ∈ m.readyQueue c p → t ∈ m.readyQueue d p' → c = d ∧ p = p') ∧
      (∀ c, m.pc c = .running → (∀ d p, m.currThread c ∉ m.readyQueue d p) ∧
        (m.currThread c = cfg.idle c ∨ cfg.idle c ∈ m.readyQueue c idlePriority)) ∧
      ∀ c target, m.pc c = .picking target →
        (target ≠ some c → findReady (m.readyQueue c) (bound target c) ≠ none) ∧
        ∀ i next, findReady (m.readyQueue c) (bound target c) = some (i, next) →
          next ≠ m.currThread c := by
  obtain ⟨pl, h⟩ := exists_ready hrun
  have hqueue : ∀ {t c p}, t ∈ m.readyQueue c p → pl t = .queue c ∧ cfg.priority t = p :=
    (h.places.queue _ _ _).mp
  refine ⟨h.counts, h.places.nodup, fun t c d p p' hc hd => ?_,
    fun c hpc => ⟨fun d p hmem => ?_, ?_⟩,
    fun c target hpc => ⟨fun htarget hnone => ?_, fun i next hf hcurr => ?_⟩⟩
  · refine ⟨Place.queue.inj ((hqueue hc).1.symm.trans (hqueue hd).1),
      (hqueue hc).2.symm.trans (hqueue hd).2⟩
  · have hcurr := h.curr_place (c := c) (by simp [held, hpc])
    exact absurd ((hqueue hmem).1.symm.trans hcurr) (by simp)
  · obtain hidle | hidle := h.idles.place c
    · have hmem := (h.places.core _ c).mpr hidle
      rw [held, hpc] at hmem
      exact .inl (List.mem_singleton.mp hmem).symm
    · exact .inr ((h.places.queue _ _ _).mpr ⟨hidle, cfg.idle_priority c⟩)
  · obtain ⟨i, next, hf, -⟩ := h.exists_next hpc htarget
    rw [hf] at hnone
    cases hnone
  · have hplace := h.curr_place (c := c) (by simp [held, hpc])
    have hmem : next ∈ m.readyQueue c i := by
      rw [findReady_eq_some hf]
      exact List.mem_cons_self
    rw [hcurr] at hmem
    exact absurd ((hqueue hmem).1.symm.trans hplace) (by simp)

/-- The boot thread of core 1 ends, and core 0 is in the middle of a switch to a new thread. -/
theorem ready_queues_midSwitch : ∃ m : Scheduling (Fin 2) (Fin 8) Unit,
    run (step .twoCores) (init .twoCores) ([.terminate 1] ++ List.replicate 10 (.advance 1) ++
      [.create 0 4, .preempt 0, .advance 0, .advance 0]) = some m ∧
      (m.currThread 1 = 3 ∧ m.pc 1 = .running ∧ m.pc 0 = .chosen (some 0) 4) ∧
      m.readyCount 0 = ∑ p, (m.readyQueue 0 p).length :=
  exists_run_and (by decide +kernel) fun _ hrun _ => (ready_queues hrun).1 0

end Scheduling

end Kos
