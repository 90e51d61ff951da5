import KosKernel.Kernel.Threads

/-!
# Kernel/Joins — a join delivers the result of the thread, once

The two sides of a join meet at the `Condition` of the thread that is joined: in its queue stands
its joiner, or the thread itself, or nobody, and `result` points to the variable of the one that
stands there (`Inv`).  So `joinThread` returns zero at most once for each thread, and with what the
thread has passed to `exitThread`, whichever side came first (`joins_deliver`).
-/

namespace Kos

open Function Runs

namespace Threads

variable {τ V : Type} [DecidableEq τ]

/-! ## The invariant -/

/-- The threads that have been joined. -/
def targets (m : Threads τ V) : List τ := m.joins.map (·.2.1)

/-- What is known of a thread at each of its program points.  `result` points to the variable of the
one that waits: the joiner's, or that of the thread itself. -/
def Ok (m : Threads τ V) (st : τ → Stand τ) (t : τ) : ThreadPc τ → Prop
  | .unborn => st t = .out ∧ m.passed t = none
  | .user => st t = .out ∧ m.passed t = none
  | .joining e => m.passed t = none ∧ m.state e = .joining ∧ e ∉ m.targets ∧
      (st t = .queued e ∧ m.result e = some t ∨
        st t = .woken e ∧ m.passed e ≠ none ∧ m.var t = m.passed e)
  | .posting => m.passed t ≠ none ∧
      (st t = .queued t ∧ m.result t = some t ∧ m.var t = m.passed t ∨ st t = .woken t)
  | .finishing => st t = .out ∧ m.passed t ≠ none
  | .destroyed => st t = .out ∧ m.passed t ≠ none

/-- **The invariant of the rendezvous.** -/
structure Inv (m : Threads τ V) (st : τ → Stand τ) : Prop where
  calm : m.b.Calm st
  ok : ∀ t, Ok m st t (m.pc t)
  one : ∀ {j j' e}, m.pc j = .joining e → m.pc j' = .joining e → j = j'
  nodup : m.targets.Nodup
  joined : ∀ {j e w}, (j, e, w) ∈ m.joins → m.state e = .joining ∧ m.passed e ≠ none ∧
    w = m.passed e
  attached : ∀ e, m.state e ≠ .detached

variable {m m' : Threads τ V} {st st' : τ → Stand τ} {t u e : τ} {v : V} {i : ℕ} {pc' : ThreadPc τ}

/-- What the invariant does not speak of. -/
theorem Inv.congr {threadLock : Bool} {threadStore : ManagedArray τ} {idx : τ → ℕ} {ret : τ → ℤ}
    (h : Inv m st) : Inv { m with threadLock, threadStore, idx, ret } st :=
  { h with }

omit [DecidableEq τ] in
theorem mem_targets : e ∈ m.targets ↔ ∃ j w, (j, e, w) ∈ m.joins := by
  simp [targets]

theorem Inv.not_regular_of_mem (h : Inv m st) (he : e ∈ m.targets) : m.state e = .joining := by
  obtain ⟨j, w, hmem⟩ := mem_targets.mp he
  exact (h.joined hmem).1

theorem Inv.joining (h : Inv m st) (hpc : m.pc t = .joining e) : Ok m st t (.joining e) :=
  hpc ▸ h.ok t

theorem Inv.user (h : Inv m st) (hpc : m.pc t = .user) : st t = .out ∧ m.passed t = none := by
  have := h.ok t
  rwa [hpc] at this

theorem Inv.posting (h : Inv m st) (hpc : m.pc t = .posting) : Ok m st t .posting := hpc ▸ h.ok t

omit [DecidableEq τ] in
/-- A thread whose own variables do not change, and whose pointer and whose joined thread do not. -/
theorem Ok.frame {pc : ThreadPc τ} (h : Ok m st u pc) (hst : st' u = st u)
    (hpassed : m'.passed u = m.passed u) (hvar : m'.var u = m.var u)
    (hstate : ∀ e, m.state e = .joining → m'.state e = .joining)
    (hkeep : ∀ e, m.passed e ≠ none → m'.passed e = m.passed e)
    (htargets : ∀ e, pc = .joining e → e ∉ m.targets → e ∉ m'.targets)
    (hresult : ∀ e, st u = .queued e → m'.result e = m.result e) : Ok m' st' u pc := by
  cases pc with
  | unborn | user | finishing | destroyed => exact ⟨hst.trans h.1, by rw [hpassed]; exact h.2⟩
  | joining e =>
    obtain ⟨hnone, hjoining, hmem, hor⟩ := h
    refine ⟨hpassed.trans hnone, hstate e hjoining, htargets e rfl hmem, ?_⟩
    rcases hor with ⟨hq, hr⟩ | ⟨hw, hp, hv⟩
    · exact .inl ⟨hst.trans hq, (hresult e hq).trans hr⟩
    · exact .inr ⟨hst.trans hw, by rwa [hkeep e hp], by rw [hvar, hkeep e hp, hv]⟩
  | posting =>
    obtain ⟨hp, hor⟩ := h
    refine ⟨by rwa [hpassed], ?_⟩
    rcases hor with ⟨hq, hr, hv⟩ | hw
    · exact .inl ⟨hst.trans hq, (hresult u hq).trans hr, by rw [hvar, hpassed, hv]⟩
    · exact .inr (hst.trans hw)

/-- One thread goes on. -/
theorem Inv.updated (h : Inv m st) (hcalm : m'.b.Calm st') (hpc : m'.pc = update m.pc t pc')
    (hok : Ok m' st' t pc') (hothers : ∀ u, u ≠ t → Ok m' st' u (m.pc u))
    (hone : ∀ e u, pc' = .joining e → m.pc u ≠ .joining e) (hnodup : m'.targets.Nodup)
    (hjoined : ∀ j e w, (j, e, w) ∈ m'.joins →
      m'.state e = .joining ∧ m'.passed e ≠ none ∧ w = m'.passed e)
    (hattached : ∀ e, m'.state e ≠ .detached) : Inv m' st' where
  calm := hcalm
  ok := fun u => by
    rw [hpc]
    by_cases hu : u = t
    · rwa [hu, update_self]
    · rw [update_of_ne hu]
      exact hothers u hu
  one := fun {j j' e} hj hj' => by
    rw [hpc] at hj hj'
    by_cases hjt : j = t <;> by_cases hjt' : j' = t
    · exact hjt.trans hjt'.symm
    · rw [hjt, update_self] at hj
      rw [update_of_ne hjt'] at hj'
      exact absurd hj' (hone e j' hj)
    · rw [hjt', update_self] at hj'
      rw [update_of_ne hjt] at hj
      exact absurd hj (hone e j hj')
    · rw [update_of_ne hjt] at hj
      rw [update_of_ne hjt'] at hj'
      exact h.one hj hj'
  nodup := hnodup
  joined := fun {j e w} => hjoined j e w
  attached := hattached

/-! ## The sections -/

/-- What a thread passes to `exitThread` is the first thing it passes. -/
theorem keep_passed (hnone : m.passed t = none) (v : V) (e : τ) (he : m.passed e ≠ none) :
    update m.passed t (some v) e = m.passed e := by
  refine update_of_ne ?_ ..
  rintro rfl
  exact he hnone

theorem Inv.joined_keep (h : Inv m st) (hnone : m.passed t = none) (v : V) {j e : τ} {w : Option V}
    (hmem : (j, e, w) ∈ m.joins) : m.state e = .joining ∧
      update m.passed t (some v) e ≠ none ∧ w = update m.passed t (some v) e := by
  obtain ⟨hs, hp, hw⟩ := h.joined hmem
  rw [keep_passed hnone v e hp]
  exact ⟨hs, hp, hw⟩

/-- The last thread exits. -/
theorem Inv.leave (h : Inv m st) (hpc : m.pc t = .user) (v : V) :
    Inv ({ m with passed := update m.passed t (some v) }.go t .finishing) st := by
  obtain ⟨hout, hnone⟩ := h.user hpc
  refine h.updated h.calm rfl ⟨hout, by simp [go]⟩ (fun u hu => ?_) nofun h.nodup
    (fun j e w => h.joined_keep hnone v) h.attached
  exact (h.ok u).frame rfl (update_of_ne hu ..) rfl (fun _ => id) (keep_passed hnone v)
    (fun _ _ => id) fun _ _ => rfl

variable {b : Blocking τ τ}

/-- `post` waits for a joiner. -/
theorem Inv.postWait (h : Inv m st) (hpc : m.pc t = .user) (hq : m.b.queue t = []) (v : V)
    (hb : b.Calm (update st t (.queued t))) : Inv ({ m with
        b, passed := update m.passed t (some v), var := update m.var t (some v),
        result := update m.result t (some t) : Threads τ V }.go t .posting)
      (update st t (.queued t)) := by
  obtain ⟨hout, hnone⟩ := h.user hpc
  refine h.updated hb rfl ⟨by simp [go], .inl ⟨update_self .., ?_⟩⟩ (fun u hu => ?_) nofun h.nodup
    (fun j e w => h.joined_keep hnone v) h.attached
  · simp [go]
  · refine (h.ok u).frame (update_of_ne hu ..) (update_of_ne hu ..)
      (update_of_ne hu ..) (fun _ => id) (keep_passed hnone v) (fun _ _ => id) fun e he => ?_
    -- nobody waits for `t`
    refine update_of_ne ?_ ..
    rintro rfl
    exact h.calm.queue_eq_nil.mp hq u he

/-- Whoever stands in the queue of `e` is its joiner or `e` itself. -/
theorem Inv.cases_queued (h : Inv m st) (hq : st u = .queued e) :
    m.pc u = .joining e ∧ m.result e = some u ∨
      u = e ∧ m.pc e = .posting ∧ m.result e = some e ∧ m.var e = m.passed e ∧
      m.passed e ≠ none := by
  have hok := h.ok u
  cases hpc : m.pc u with
  | unborn | user | finishing | destroyed =>
    rw [hpc] at hok
    cases hok.1.symm.trans hq
  | joining e' =>
    rw [hpc] at hok
    rcases hok.2.2.2 with ⟨hq', hr⟩ | ⟨hw, -⟩
    · obtain rfl : e' = e := Stand.queued.inj (hq'.symm.trans hq)
      exact .inl ⟨rfl, hr⟩
    · cases hw.symm.trans hq
  | posting =>
    rw [hpc] at hok
    rcases hok.2 with ⟨hq', hr, hv⟩ | hw
    · obtain rfl : u = e := Stand.queued.inj (hq'.symm.trans hq)
      exact .inr ⟨rfl, hpc, hr, hv, hok.1⟩
    · cases hw.symm.trans hq

/-- `post` passes the result to the joiner `u`. -/
theorem Inv.postSignal (h : Inv m st) (hpc : m.pc t = .user) (hu : m.pc u = .joining t) (v : V)
    (hb : b.Calm (update st u (.woken t))) {var : τ → Option V}
    (hvar : var = update (update m.var t (some v)) u (some v)) :
    Inv ({ m with b, passed := update m.passed t (some v), var }.go t .finishing)
      (update st u (.woken t)) := by
  obtain ⟨hout, hnone⟩ := h.user hpc
  have hut : u ≠ t := by
    rintro rfl
    cases hpc.symm.trans hu
  refine h.updated hb rfl ⟨?_, by simp [go]⟩ (fun w hw => ?_) nofun h.nodup
    (fun j e w => h.joined_keep hnone v) h.attached
  · rw [update_of_ne (Ne.symm hut)]
    exact hout
  · by_cases hwu : w = u
    · subst hwu
      rw [hu]
      obtain ⟨hw', hs, hmem, -⟩ := h.joining hu
      refine ⟨(update_of_ne hw ..).trans hw', hs, hmem, .inr ⟨update_self .., ?_⟩⟩
      simp [go, hvar]
    · refine (h.ok w).frame (update_of_ne hwu ..) (update_of_ne hw ..) ?_ (fun _ => id)
        (keep_passed hnone v) (fun _ _ => id) fun _ _ => rfl
      show var w = m.var w
      rw [hvar, update_of_ne hwu, update_of_ne hw]

theorem state_joining {state : τ → JoinState} (e e' : τ) (h : state e' = .joining) :
    update state e .joining e' = .joining := by
  by_cases he : e' = e
  · rw [he, update_self]
  · rwa [update_of_ne he]

theorem Inv.attached_joining (h : Inv m st) (e e' : τ) :
    update m.state e .joining e' ≠ .detached := by
  by_cases he : e' = e
  · simp [he]
  · rw [update_of_ne he]
    exact h.attached e'

/-- Nobody has joined a thread that is `Regular`, and nobody is waiting to. -/
theorem Inv.of_regular (h : Inv m st) (hreg : m.state e = .regular) :
    e ∉ m.targets ∧ ∀ u, m.pc u ≠ .joining e := by
  constructor
  · intro he
    rw [h.not_regular_of_mem he] at hreg
    cases hreg
  · intro u hu
    rw [(h.joining hu).2.1] at hreg
    cases hreg

/-- `join` waits for the thread. -/
theorem Inv.joinWait (h : Inv m st) (hpc : m.pc t = .user) (hreg : m.state e = .regular)
    (hq : m.b.queue e = []) (hb : b.Calm (update st t (.queued e))) : Inv ({ m with
        b, state := update m.state e .joining,
        result := update m.result e (some t) : Threads τ V }.go t (.joining e))
      (update st t (.queued e)) := by
  obtain ⟨hout, hnone⟩ := h.user hpc
  obtain ⟨hmem, hnobody⟩ := h.of_regular hreg
  refine h.updated hb rfl ⟨hnone, update_self .., hmem, .inl ⟨update_self .., update_self ..⟩⟩
    (fun u hu => ?_) (fun e' u he' hu => ?_) h.nodup
    (fun j e' w hj => ⟨state_joining e e' (h.joined hj).1, (h.joined hj).2⟩) (h.attached_joining e)
  · refine (h.ok u).frame (update_of_ne hu ..) rfl rfl (state_joining e) (fun _ _ => rfl)
      (fun _ _ => id) fun e' he' => ?_
    refine update_of_ne ?_ ..
    rintro rfl
    exact h.calm.queue_eq_nil.mp hq u he'
  · obtain rfl : e = e' := ThreadPc.joining.inj he'
    exact hnobody u hu

omit [DecidableEq τ] in
theorem nodup_append {l : List τ} (h : l.Nodup) (he : e ∉ l) : (l ++ [e]).Nodup :=
  List.nodup_append.mpr ⟨h, List.nodup_singleton e, fun a ha b hb hab => he (by simp_all)⟩

omit [DecidableEq τ] in
theorem targets_append (joins : List (τ × τ × Option V)) (t : τ) (w : Option V) :
    (joins ++ [(t, e, w)]).map (·.2.1) = joins.map (·.2.1) ++ [e] := by simp

/-- `join` takes the result of a thread that waits in `post`. -/
theorem Inv.joinSignal (h : Inv m st) (hpc : m.pc t = .user) (hreg : m.state e = .regular)
    (he : m.pc e = .posting) (hb : b.Calm (update st e (.woken e))) : Inv ({ m with
        b, state := update m.state e .joining, var := update m.var t (m.passed e),
        joins := m.joins ++ [(t, e, m.passed e)] : Threads τ V }.go t .user)
      (update st e (.woken e)) := by
  obtain ⟨hout, hnone⟩ := h.user hpc
  obtain ⟨hmem, hnobody⟩ := h.of_regular hreg
  have hp : m.passed e ≠ none := (h.posting he).1
  have hte : t ≠ e := by
    rintro rfl
    cases hpc.symm.trans he
  refine h.updated hb rfl ⟨(update_of_ne hte ..).trans hout, hnone⟩ (fun u hu => ?_) nofun ?_
    (fun j e' w hj => ?_) (h.attached_joining e)
  · by_cases hue : u = e
    · subst hue
      rw [he]
      exact ⟨hp, .inr (update_self ..)⟩
    · refine (h.ok u).frame (update_of_ne hue ..) rfl (update_of_ne hu ..)
        (state_joining e) (fun _ _ => rfl) (fun e' he' hn => ?_) fun _ _ => rfl
      have hee : e' ≠ e := by
        rintro rfl
        exact hnobody u he'
      simp only [targets, go, targets_append, List.mem_append, List.mem_singleton, not_or]
      exact ⟨hn, hee⟩
  · simp only [targets, go, targets_append]
    exact nodup_append h.nodup hmem
  · rcases List.mem_append.mp hj with hj | hj
    · exact ⟨state_joining e e' (h.joined hj).1, (h.joined hj).2⟩
    · obtain ⟨rfl, rfl, rfl⟩ : j = t ∧ e' = e ∧ w = m.passed e := by simpa using hj
      exact ⟨update_self .., hp, rfl⟩

/-- `joinThread` returns to a joiner that has waited. -/
theorem Inv.joinReturn (h : Inv m st) (hpc : m.pc t = .joining e) (hw : st t = .woken e)
    (hb : b.Calm (update st t .out)) :
    Inv ({ m with b, joins := m.joins ++ [(t, e, m.var t)] }.go t .user) (update st t .out) := by
  obtain ⟨hnone, hs, hmem, hor⟩ := h.joining hpc
  obtain ⟨hp, hv⟩ : m.passed e ≠ none ∧ m.var t = m.passed e := by
    rcases hor with ⟨hq, -⟩ | ⟨-, hp⟩
    · cases hq.symm.trans hw
    · exact hp
  refine h.updated hb rfl ⟨update_self .., hnone⟩ (fun u hu => ?_) nofun ?_ (fun j e' w hj => ?_)
    h.attached
  · refine (h.ok u).frame (update_of_ne hu ..) rfl rfl (fun _ => id) (fun _ _ => rfl)
      (fun e' he' hn => ?_) fun _ _ => rfl
    have hee : e' ≠ e := by
      rintro rfl
      exact hu (h.one he' hpc)
    simp only [targets, go, targets_append, List.mem_append, List.mem_singleton, not_or]
    exact ⟨hn, hee⟩
  · simp only [targets, go, targets_append]
    exact nodup_append h.nodup hmem
  · rcases List.mem_append.mp hj with hj | hj
    · exact h.joined hj
    · obtain ⟨rfl, rfl, rfl⟩ : j = t ∧ e' = e ∧ w = m.var t := by simpa using hj
      exact ⟨hs, hp, hv⟩

/-- A thread goes on between program points that nobody else knows of. -/
theorem Inv.go (h : Inv m st) (hb : b.Calm (update st t .out)) (hok : Ok m (update st t .out) t pc')
    (hjoin : ∀ e, pc' ≠ .joining e) : Inv ({ m with b }.go t pc') (update st t .out) := by
  refine h.updated hb rfl ?_ (fun u hu => ?_) (fun e _ he => absurd he (hjoin e)) h.nodup
    (fun j e w => h.joined) h.attached
  · cases pc' with
    | joining e => exact absurd rfl (hjoin e)
    | unborn | user | posting | finishing | destroyed => exact hok
  · exact (h.ok u).frame (update_of_ne hu ..) rfl rfl (fun _ => id) (fun _ _ => rfl) (fun _ _ => id)
      fun _ _ => rfl

theorem Inv.turn (h : Inv m st) (hout : st t = .out) (hok : Ok m st t pc')
    (hjoin : ∀ e, pc' ≠ .joining e) : Inv (m.go t pc') st := by
  have hself : update st t .out = st := by rw [← hout, update_eq_self]
  have := h.go (b := m.b) (by rw [hself]; exact h.calm) (by rw [hself]; exact hok) hjoin
  rwa [hself] at this

/-! ## Every step -/

/-- The invariant between two sections. -/
def Good (m : Threads τ V) : Prop := (∃ st, Inv m st) ∧ m.threadLock = false

theorem Inv.post (h : Inv m st) (hpc : m.pc t = .user) (v : V) :
    Good ({ m with passed := update m.passed t (some v) }.post t v) := by
  obtain ⟨hout, hnone⟩ := h.user hpc
  simp only [Threads.post]
  rw [if_neg (h.attached t)]
  split
  case isTrue hq =>
    obtain ⟨hwait, hcalm⟩ := h.calm.block hout t
    simp only [wait, hwait, if_true]
    exact ⟨⟨_, (h.postWait hpc hq v hcalm).congr⟩, rfl⟩
  case isFalse hq =>
    obtain ⟨u, hu, hcalm⟩ := h.calm.resume hq
    rcases h.cases_queued hu with ⟨hjoin, hr⟩ | ⟨rfl, hp, -⟩
    · refine ⟨⟨_, (h.postSignal hpc hjoin v hcalm ?_).congr⟩, rfl⟩
      rw [hr]
      rfl
    · cases hpc.symm.trans hp

theorem Inv.join (h : Inv m st) (hpc : m.pc t = .user) (hreg : m.state e = .regular) :
    Good (m.join t e) := by
  obtain ⟨hout, hnone⟩ := h.user hpc
  simp only [Threads.join]
  split
  case isTrue hq =>
    obtain ⟨hwait, hcalm⟩ := h.calm.block hout e
    simp only [wait, hwait, if_true]
    exact ⟨⟨_, (h.joinWait hpc hreg hq hcalm).congr⟩, rfl⟩
  case isFalse hq =>
    obtain ⟨u, hu, hcalm⟩ := h.calm.resume hq
    rcases h.cases_queued hu with ⟨hjoin, -⟩ | ⟨rfl, hp, hr, hv, -⟩
    · exact absurd hjoin ((h.of_regular hreg).2 u)
    have hvar : (m.result u).bind m.var = m.passed u := by rw [hr, Option.bind_some, hv]
    simp only [signal, Threads.joined, hvar, update_self]
    exact ⟨⟨_, (h.joinSignal hpc hreg hp hcalm).congr⟩, rfl⟩

/-- **Every step keeps the rendezvous and gives `threadLock` back.** -/
theorem Good.step {a : Action τ V} (h : Good m) (hs : m.step a = some m') : Good m' := by
  obtain ⟨⟨st, h⟩, hlock⟩ := h
  cases a with
  | createThread t u =>
    obtain ⟨hunborn, hs⟩ := Option.ite_none_right_eq_some.mp hs
    obtain ⟨m₀, hm₀, rfl⟩ := Option.map_eq_some_iff.mp hs
    obtain ⟨-, -, rfl⟩ := locked_eq_some hm₀
    have hu := h.ok u
    rw [hunborn] at hu
    have hborn : Inv (m.go u .user) st := h.turn hu.1 hu (by simp)
    exact ⟨⟨st, hborn.congr⟩, rfl⟩
  | exitThread t v =>
    obtain ⟨m₀, hm₀, rfl⟩ := Option.map_eq_some_iff.mp hs
    obtain ⟨hpc, -, rfl⟩ := locked_eq_some hm₀
    simp only [exitThread]
    split
    case isTrue =>
      have hheld : Inv { m with threadLock := true } st := h.congr
      exact hheld.post hpc v
    case isFalse => exact ⟨⟨st, (h.leave hpc v).congr⟩, rfl⟩
  | joinThread t i =>
    obtain ⟨m₀, hm₀, hs⟩ := Option.bind_eq_some_iff.mp hs
    obtain ⟨hpc, -, rfl⟩ := locked_eq_some hm₀
    rw [joinThread] at hs
    split at hs
    case isTrue =>
      obtain ⟨e, -, rfl⟩ := Option.map_eq_some_iff.mp hs
      split
      case isTrue hreg =>
        have hheld : Inv { m with threadLock := true } st := h.congr
        exact hheld.join hpc hreg
      case isFalse => exact ⟨⟨st, h.congr⟩, rfl⟩
    case isFalse =>
      cases hs
      exact ⟨⟨st, h.congr⟩, rfl⟩
  | destroyThread t =>
    obtain ⟨⟨hpc, -⟩, rfl⟩ := Option.ite_some_none_eq_some.mp hs
    have ht := h.ok t
    rw [hpc] at ht
    have hgone : Inv (m.go t .destroyed) st := h.turn ht.1 ht (by simp)
    exact ⟨⟨st, hgone.congr⟩, hlock⟩
  | wake c =>
    obtain ⟨hc, rfl⟩ := Option.ite_some_none_eq_some.mp hs
    exact ⟨⟨st, h.calm.advance hc, h.ok, h.one, h.nodup, h.joined, h.attached⟩, hlock⟩
  | dispatch t =>
    obtain ⟨hready, hs⟩ := Option.ite_none_right_eq_some.mp hs
    obtain ⟨k, hk, hcalm⟩ := h.calm.dispatch hready
    have hok := h.ok t
    simp only [goOn] at hs
    cases hpc : m.pc t
    all_goals rw [hpc] at hs hok
    case posting =>
      cases hs
      exact ⟨⟨_, h.go hcalm ⟨update_self .., hok.1⟩ (by simp)⟩, hlock⟩
    case joining e =>
      cases hs
      have hke : st t = .woken e := by
        rcases hok.2.2.2 with ⟨hq, -⟩ | ⟨hw, -⟩
        · cases hq.symm.trans hk
        · exact hw
      exact ⟨⟨_, (h.joinReturn hpc hke hcalm).congr⟩, hlock⟩
    all_goals cases hs

theorem good_init (t : τ) : Good (init t : Threads τ V) := by
  have hnone : Inv ({ (init t : Threads τ V) with pc := fun _ => .unborn }) fun _ => .out :=
    ⟨Blocking.calm_init, fun _ => ⟨rfl, rfl⟩, nofun, List.nodup_nil, nofun, nofun⟩
  have hok : Ok { (init t : Threads τ V) with pc := fun _ => .unborn } (fun _ => .out) t .user :=
    ⟨rfl, rfl⟩
  exact ⟨⟨_, hnone.turn rfl hok nofun⟩, rfl⟩

/-! ## What a thread has passed to `exitThread` -/

theorem post_passed (m : Threads τ V) (t : τ) (v : V) : (m.post t v).passed = m.passed := by
  rw [post]
  split
  · rfl
  · split <;> rfl

theorem exitThread_passed (m : Threads τ V) (t : τ) (v : V) :
    (m.exitThread t v).passed = update m.passed t (some v) := by
  rw [exitThread]
  split
  · exact post_passed ..
  · rfl

theorem join_passed (m : Threads τ V) (t e : τ) : (m.join t e).passed = m.passed := by
  simp only [join]
  split
  · split <;> rfl
  · rfl

theorem joinThread_passed (h : m.joinThread t i = some m') : m'.passed = m.passed := by
  rw [joinThread] at h
  split at h
  case isTrue =>
    obtain ⟨e, -, rfl⟩ := Option.map_eq_some_iff.mp h
    split
    case isTrue => exact join_passed m t e
    case isFalse => rfl
  case isFalse =>
    cases h
    rfl

/-- Only `exitThread` passes something, and a thread calls it once. -/
theorem Good.passed_step {a : Action τ V} (h : Good m) (hs : m.step a = some m') (e : τ) (v : V) :
    m'.passed e = some v ↔ m.passed e = some v ∨ a = .exitThread e v := by
  have keep {b : Action τ V} (hp : m'.passed = m.passed) (hb : ∀ e v, b ≠ .exitThread e v) :
      m'.passed e = some v ↔ m.passed e = some v ∨ b = .exitThread e v := by
    rw [hp, or_iff_left (hb e v)]
  cases a with
  | createThread t u =>
    obtain ⟨-, hs⟩ := Option.ite_none_right_eq_some.mp hs
    obtain ⟨m₀, hm₀, rfl⟩ := Option.map_eq_some_iff.mp hs
    obtain ⟨-, -, rfl⟩ := locked_eq_some hm₀
    exact keep rfl (by simp)
  | exitThread t w =>
    obtain ⟨m₀, hm₀, rfl⟩ := Option.map_eq_some_iff.mp hs
    obtain ⟨hpc, -, rfl⟩ := locked_eq_some hm₀
    obtain ⟨⟨st, h⟩, -⟩ := h
    rw [exitThread_passed]
    by_cases het : e = t
    · simp [het, (h.user hpc).2]
    · simp [update_of_ne het, Ne.symm het]
  | joinThread t i =>
    obtain ⟨m₀, hm₀, hs⟩ := Option.bind_eq_some_iff.mp hs
    obtain ⟨-, -, rfl⟩ := locked_eq_some hm₀
    exact keep (joinThread_passed hs) (by simp)
  | destroyThread t =>
    obtain ⟨-, rfl⟩ := Option.ite_some_none_eq_some.mp hs
    exact keep rfl (by simp)
  | wake c =>
    obtain ⟨-, rfl⟩ := Option.ite_some_none_eq_some.mp hs
    exact keep rfl (by simp)
  | dispatch t =>
    obtain ⟨-, hs⟩ := Option.ite_none_right_eq_some.mp hs
    simp only [goOn] at hs
    split at hs
    case h_1 =>
      cases hs
      exact keep rfl (by simp)
    case h_2 =>
      cases hs
      exact keep rfl (by simp)
    case h_3 => cases hs

theorem passed_run {as : List (Action τ V)} (h : Good m) (hrun : run step m as = some m') (e : τ)
    (v : V) : m'.passed e = some v ↔ m.passed e = some v ∨ .exitThread e v ∈ as := by
  induction as generalizing m with
  | nil =>
    obtain rfl := run_nil.mp hrun
    simp
  | cons a as ih =>
    obtain ⟨m₁, hs, hrun⟩ := run_cons.mp hrun
    rw [ih (h.step hs) hrun, h.passed_step hs, List.mem_cons, or_assoc, eq_comm (a := a)]

/-! ## The calls of `joinThread` -/

/-- **The contract of a join**, in a state that the actions `as` have led to. -/
structure JoinOk (as : List (Action τ V)) (m : Threads τ V) : Prop where
  /-- A call that has returned zero has delivered the one result that the thread passed. -/
  delivered : ∀ {j e w}, (j, e, w) ∈ m.joins → ∃ v, w = some v ∧ ∀ v', .exitThread e v' ∈ as ↔
    v' = v
  /-- At most one call has returned zero for each thread. -/
  once : (m.joins.map (·.2.1)).Nodup
  /-- A call is answered, or it waits. -/
  total : ∀ {t} i, m.pc t = .user → ∃ m', m.step (.joinThread t i) = some m'
  /-- A call for an index that no thread has fails. -/
  unknown : ∀ {t i m'}, m.step (.joinThread t i) = some m' → m.threadStore.lookup i = none →
    m'.ret t = -ESRCH ∧ m'.pc t = .user ∧ m'.joins = m.joins
  /-- A call for a thread that somebody has joined, or is waiting to join, fails. -/
  refused : ∀ {t i m' e}, m.step (.joinThread t i) = some m' → m.threadStore.lookup i = some e →
    (∃ j, m.pc j = .joining e) ∨ (∃ j w, (j, e, w) ∈ m.joins) →
    m'.ret t = -EINVAL ∧ m'.pc t = .user ∧ m'.joins = m.joins
  /-- No section ends with the lock. -/
  released : m.threadLock = false

theorem Good.total (h : Good m) (hstored : Stored m) (hpc : m.pc t = .user) (i : ℕ) :
    ∃ m', m.step (.joinThread t i) = some m' := by
  simp only [Threads.step, locked, hpc, h.2, and_self, if_true, Option.bind_some, joinThread]
  split
  case isTrue hvalid =>
    obtain ⟨e, he⟩ := hstored.sound.exists_data hvalid
    exact ⟨_, by rw [he, Option.map_some]⟩
  case isFalse => exact ⟨_, rfl⟩

theorem joinThread_unknown (hs : m.step (.joinThread t i) = some m') (hstored : Stored m)
    (hi : m.threadStore.lookup i = none) :
    m'.ret t = -ESRCH ∧ m'.pc t = .user ∧ m'.joins = m.joins := by
  obtain ⟨m₀, hm₀, hs⟩ := Option.bind_eq_some_iff.mp hs
  obtain ⟨hpc, -, rfl⟩ := locked_eq_some hm₀
  rw [joinThread] at hs
  split at hs
  case isTrue hvalid =>
    exact absurd hi (hstored.sound.lookup_ne_none.mpr (hstored.sound.valid.mp hvalid))
  case isFalse =>
    cases hs
    exact ⟨update_self .., hpc, rfl⟩

theorem joinThread_refused (hs : m.step (.joinThread t i) = some m')
    (hi : m.threadStore.lookup i = some e) (he : m.state e = .joining) :
    m'.ret t = -EINVAL ∧ m'.pc t = .user ∧ m'.joins = m.joins := by
  obtain ⟨m₀, hm₀, hs⟩ := Option.bind_eq_some_iff.mp hs
  obtain ⟨hpc, -, rfl⟩ := locked_eq_some hm₀
  obtain ⟨hvalid, hdata⟩ := ManagedArray.lookup_eq_some.mp hi
  simp only [joinThread, hvalid, if_true, hdata, Option.map_some, he, reduceCtorEq, if_false] at hs
  cases hs
  exact ⟨update_self .., hpc, rfl⟩

/-- **Every run keeps the contract of a join.** -/
theorem joins_deliver {t₀ : τ} {as : List (Action τ V)} (hrun : run step (init t₀) as = some m) :
    JoinOk as m := by
  have hstored := stored_run hrun
  have hgood : Good m := invariant Good.step (good_init t₀) hrun
  obtain ⟨st, h⟩ := hgood.1
  refine ⟨fun {j e w} hmem => ?_, h.nodup, fun i hpc => hgood.total hstored hpc i, fun hs hi =>
    joinThread_unknown hs hstored hi, fun hs hi hor => joinThread_refused hs hi ?_, hgood.2⟩
  · obtain ⟨-, hp, rfl⟩ := h.joined hmem
    obtain ⟨v, hv⟩ := Option.ne_none_iff_exists'.mp hp
    refine ⟨v, hv, fun v' => ?_⟩
    have hiff := passed_run (good_init t₀) hrun e v'
    rw [hv, or_iff_right (show ¬(init t₀).passed e = some v' from nofun)] at hiff
    rw [← hiff, Option.some_inj, eq_comm]
  · rcases hor with ⟨j, hj⟩ | ⟨j, w, hmem⟩
    · exact (h.joining hj).2.1
    · exact (h.joined hmem).1

/-- The thread 1 is joined before it exits, and the thread 2 after. -/
theorem joins_deliver_both_orders : ∃ m : Threads (Fin 3) ℕ,
    run step (init 0) [[.createThread 0 1, .createThread 0 2], [.joinThread 0 1, .exitThread 1 7],
      woken 0, [.exitThread 2 8, .joinThread 0 2, .joinThread 0 2], woken 2,
      [.destroyThread 2, .joinThread 0 2]].flatten = some m ∧
      (m.joins = [(0, 1, some 7), (0, 2, some 8)] ∧ m.ret 0 = -ESRCH) ∧
      JoinOk [[.createThread 0 1, .createThread 0 2], [.joinThread 0 1, .exitThread 1 7], woken 0,
        [.exitThread 2 8, .joinThread 0 2, .joinThread 0 2], woken 2,
        [.destroyThread 2, .joinThread 0 2]].flatten m :=
  exists_run_and (by decide +kernel) fun _ hrun _ => joins_deliver hrun

end Threads

end Kos
