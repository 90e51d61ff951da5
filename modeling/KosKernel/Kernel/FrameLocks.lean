import KosKernel.Kernel.AllocContig

/-!
# Kernel/FrameLocks — what the frame manager's calls do to its locks

The other modules leave a `ScopedLock` implicit: a section under `scopedLock` does not show the lock
bit while it runs.  Here every `acquire` and `release` of `kernel/FrameManager.h` and
`kernel/FrameManager.cc` is written out, with the bits in the state; `perform_eq` says that this
computes the same.

A scope gives its lock back whatever its body does (`Keeps.underLock`).  The one lock taken by hand
is `lplock` in `allocFrame<1>`, and the early return there skips the `release`.
-/

namespace Kos

open Std HierarchicalBitmap

namespace FrameManager

variable {α : Type} {fm fm' : FrameManager}

/-! ## The lock operations -/

inductive Lock
  | lplock
  | splock
  deriving DecidableEq

def held (fm : FrameManager) : Lock → Bool
  | .lplock => fm.lplock
  | .splock => fm.splock

def setLock (fm : FrameManager) (v : Bool) : Lock → FrameManager
  | .lplock => { fm with lplock := v }
  | .splock => { fm with splock := v }

/-- `SpinLock::acquire`; between calls nobody is left to clear a bit that is set. -/
def acquire (k : Lock) (fm : FrameManager) : Except Fault FrameManager :=
  if fm.held k then .error .spin else .ok (fm.setLock true k)

/-- `SpinLock::release`, which asserts that the lock is held. -/
def release (k : Lock) (fm : FrameManager) : Except Fault FrameManager :=
  if fm.held k then .ok (fm.setLock false k) else .error .kassert

/-- A `ScopedLock`: the constructor acquires, and the destructor releases on every return path. -/
def underLock (k : Lock) (body : FrameManager → Except Fault (α × FrameManager))
    (fm : FrameManager) : Except Fault (α × FrameManager) :=
  (fm.acquire k).bind fun fm => (body fm).bind fun (a, fm) => (fm.release k).map fun fm => (a, fm)

/-! ## The code, with its locks -/

namespace Locked

/-- `releaseSmall`; `filledBitmap` is the bitmap of the block after the loop that sets its bits. -/
def releaseSmall (addr size : ℕ) (fm : FrameManager) : Except Fault (ℕ × FrameManager) :=
  let bitmap := fm.filledBitmap addr size
  if bitmap.full then
    underLock .lplock (fun fm =>
        .ok (covered addr size * sps, { fm with largeFrames := fm.largeFrames.set (addr / dps) }))
      { fm with smallFrames := fm.smallFrames.erase (addr / dps) }
  else .ok (covered addr size * sps,
    { fm with smallFrames := fm.smallFrames.insert (addr / dps) bitmap })

/-- `allocFrame<1>`, the one place where a lock is taken by hand. -/
def allocFrame1 : FrameManager → Except Fault (ℕ × FrameManager) :=
  underLock .splock fun fm =>
    if fm.smallFrames.isEmpty then
      (fm.acquire .lplock).bind fun fm =>
        let idx := fm.largeFrames.findset
        if idx = limit then .ok (topaddr, fm)
        else
          (release .lplock { fm with largeFrames := fm.largeFrames.clear idx }).bind fun fm =>
            takeSmall { fm with smallFrames := fm.smallFrames.insert idx Bitmap.filled }
    else takeSmall fm

def allocFrame2 : FrameManager → Except Fault (ℕ × FrameManager) :=
  underLock .lplock fun fm =>
    let idx := fm.largeFrames.findset
    if idx = limit then .ok (topaddr, fm)
    else .ok (idx * dps, { fm with largeFrames := fm.largeFrames.clear idx })

def releaseFrame1 (addr : ℕ) (fm : FrameManager) : Except Fault (ℕ × FrameManager) :=
  if aligned addr (pagesize spl) then
    (underLock .splock (releaseSmall addr sps) fm).map fun p => (0, p.2)
  else .error .kassert

/-- The large branch of `releaseFrame` and of `releaseRegion`. -/
def releaseLarge (addr : ℕ) : FrameManager → Except Fault (ℕ × FrameManager) :=
  underLock .lplock fun fm => .ok (dps, { fm with largeFrames := fm.largeFrames.set (addr / dps) })

def releaseFrame2 (addr : ℕ) (fm : FrameManager) : Except Fault (ℕ × FrameManager) :=
  if aligned addr (pagesize dpl) then (releaseLarge addr fm).map fun p => (0, p.2)
  else .error .kassert

def regionStep (addr size : ℕ) : FrameManager → Except Fault (ℕ × FrameManager) :=
  if regionLevel addr size < dpl then underLock .splock (releaseSmall addr size)
    else releaseLarge addr

def regionLoop : ℕ → ℕ → ℕ → FrameManager → Except Fault (ℕ × FrameManager)
  | 0, _, size, fm => if size = 0 then .ok (0, fm) else .error .diverge
  | fuel + 1, addr, size, fm =>
    if size = 0 then .ok (0, fm)
    else (regionStep addr size fm).bind fun (len, fm) =>
      regionLoop fuel (addr + len) (size - len) fm

def releaseRegion (addr size : ℕ) (fm : FrameManager) : Except Fault (ℕ × FrameManager) :=
  if aligned addr sps && aligned size sps then regionLoop (size / sps) addr size fm
  else .error .kassert

def useLargeFrame (size limit : ℕ) : FrameManager → Except Fault (ℕ × FrameManager) :=
  underLock .lplock fun fm =>
    let idx := fm.largeFrames.findset
    if wadd (blockAddr idx) size > limit then .ok (topaddr, fm)
    else if fm.bitcount ≤ idx then .error .outOfBounds
    else
      let bitmap := (List.range (size / sps)).foldl Bitmap.clear ((fm.small idx).getD Bitmap.filled)
      if bitmap.empty then .error .kassert
      else .ok (blockAddr idx, { fm with
        largeFrames := fm.largeFrames.clear idx
        smallFrames := fm.smallFrames.insert idx bitmap })

def contigSmall (size align limit : ℕ) : FrameManager → Except Fault (ℕ × FrameManager) :=
  underLock .splock fun fm =>
    match searchSmall size align limit fm.smallFrames.toList with
    | .error e => .error e
    | .ok none => useLargeFrame size limit fm
    | .ok (some (i, b, baseidx, idx)) => .ok (frameAddr i baseidx,
        fm.putBack i ((List.range' baseidx (idx + 1 - baseidx)).foldl Bitmap.clear b))

def contigLarge (size align limit : ℕ) : FrameManager → Except Fault (ℕ × FrameManager) :=
  underLock .lplock fun fm =>
    let idx := fm.largeFrames.findset
    match runSearch fm.largeFrames.test blockAddr fm.bitcount dps (alignUp size dps) align limit
        (fm.bitcount + 1) idx 0 idx with
    | .error e => .error e
    | .ok .beyond => .ok (topaddr, fm)
    | .ok .exhausted => .ok (topaddr, fm)
    | .ok (.hit baseidx idx) =>
      if fm.bitcount ≤ idx then .error .outOfBounds
      else .ok (blockAddr baseidx, { fm with
        largeFrames :=
          (List.range' baseidx (idx + 1 - baseidx)).foldl HierarchicalBitmap.clear fm.largeFrames })

def allocContig (size align limit : ℕ) : FrameManager → Except Fault (ℕ × FrameManager) :=
  let size := alignUp size sps
  if size < dps then contigSmall size align limit else contigLarge size align limit

end Locked

/-- The calls of the public interface. -/
inductive Operation
  | allocFrame (N : ℕ)
  | releaseFrame (N addr : ℕ)
  | releaseFrames (addr size : ℕ)
  | releaseRegion (addr size : ℕ)
  | allocContig (size align limit : ℕ)
  deriving DecidableEq

/-- A call, with its locks: the address it returns, or zero for a release. -/
def perform : Operation → FrameManager → Except Fault (ℕ × FrameManager)
  | .allocFrame N => if N = spl then Locked.allocFrame1
      else if N = dpl then Locked.allocFrame2 else fun _ => .error .kassert
  | .releaseFrame N addr => if N = spl then Locked.releaseFrame1 addr
      else if N = dpl then Locked.releaseFrame2 addr else fun _ => .error .kassert
  | .releaseFrames addr size => if size < dps then Locked.releaseFrame1 addr
      else Locked.releaseFrame2 addr
  | .releaseRegion addr size => Locked.releaseRegion addr size
  | .allocContig size align limit => Locked.allocContig size align limit

/-- The same call with its scopes implicit. -/
def plain : Operation → FrameManager → Except Fault (ℕ × FrameManager)
  | .allocFrame N => allocFrame N
  | .releaseFrame N addr => fun fm => (fm.releaseFrame N addr).map (0, ·)
  | .releaseFrames addr size => fun fm => (fm.releaseFrames addr size).map (0, ·)
  | .releaseRegion addr size => fun fm => (fm.releaseRegion addr size).map (0, ·)
  | .allocContig size align limit => fun fm =>
      (fm.allocContig size align limit).map fun (a, _, fm) => (a, fm)

/-! ## What a call keeps -/

@[simp] theorem held_setLock_self (fm : FrameManager) (v : Bool) (k : Lock) :
    (fm.setLock v k).held k = v := by
  cases k <;> rfl

variable {k : Lock}

theorem held_setLock_of_ne {j : Lock} (h : j ≠ k) (fm : FrameManager) (v : Bool) :
    (fm.setLock v k).held j = fm.held j := by
  cases k <;> cases j <;> first | rfl | exact absurd rfl h

/-- A function that leaves a lock as it found it whenever it returns. -/
def Keeps (k : Lock) (f : FrameManager → Except Fault (α × FrameManager)) : Prop :=
  ∀ fm p, f fm = .ok p → p.2.held k = fm.held k

theorem acquire_eq_ok (h : fm.acquire k = .ok fm') :
    fm.held k = false ∧ fm' = fm.setLock true k := by
  cases hk : fm.held k with
  | true => simp [acquire, hk] at h
  | false => simpa [acquire, hk, eq_comm] using h

theorem release_eq_ok (h : fm.release k = .ok fm') :
    fm.held k = true ∧ fm' = fm.setLock false k := by
  cases hk : fm.held k with
  | true => simpa [release, hk, eq_comm] using h
  | false => simp [release, hk] at h

variable {f : FrameManager → Except Fault (α × FrameManager)}

/-- **A scope gives its own lock back, and the other one as its body does.** -/
theorem Keeps.underLock {j : Lock} (h : j ≠ k → Keeps j f) : Keeps j (underLock k f) := by
  intro fm p hp
  obtain ⟨fm₁, h₁, hp⟩ := Fault.bind_eq_ok hp
  obtain ⟨⟨a, fm₂⟩, h₂, hp⟩ := Fault.bind_eq_ok hp
  obtain ⟨fm₃, h₃, rfl⟩ := Fault.map_eq_ok hp
  obtain ⟨hfree, rfl⟩ := acquire_eq_ok h₁
  obtain ⟨-, rfl⟩ := release_eq_ok h₃
  by_cases hjk : j = k
  · subst hjk
    rw [held_setLock_self, hfree]
  · rw [held_setLock_of_ne hjk, h hjk _ _ h₂, held_setLock_of_ne hjk]

theorem Keeps.ite {c : Prop} [Decidable c] {g : FrameManager → Except Fault (α × FrameManager)}
    (hf : Keeps k f) (hg : Keeps k g) : Keeps k (if c then f else g) := by
  split
  · exact hf
  · exact hg

theorem keeps_error (k : Lock) (e : Fault) : Keeps (α := α) k fun _ => .error e := by
  intro fm p h
  cases h

/-- The state and the locks apart: a result with the containers of one state and the locks of
another. -/
theorem held_congr (hl : fm'.lplock = fm.lplock) (hs : fm'.splock = fm.splock) :
    fm'.held k = fm.held k := by
  cases k with
  | lplock => exact hl
  | splock => exact hs

section

variable (k : Lock)

theorem keeps_takeSmall : Keeps k takeSmall := by
  intro fm p h
  unfold takeSmall at h
  split at h
  · cases h
  · cases h
    exact held_congr rfl rfl

theorem keeps_releaseSmall (addr size : ℕ) : Keeps k (Locked.releaseSmall addr size) := by
  intro fm p h
  unfold Locked.releaseSmall at h
  dsimp only at h
  split at h
  · have hbody : Keeps k fun fm : FrameManager => .ok (covered addr size * sps,
        { fm with largeFrames := fm.largeFrames.set (addr / dps) }) := by
      intro fm p h
      cases h
      exact held_congr rfl rfl
    exact (Keeps.underLock (fun _ => hbody) _ _ h).trans (held_congr rfl rfl)
  · cases h
    exact held_congr rfl rfl

theorem keeps_releaseLarge (addr : ℕ) : Keeps k (Locked.releaseLarge addr) := by
  refine Keeps.underLock fun _ fm p h => ?_
  cases h
  exact held_congr rfl rfl

theorem keeps_releaseFrame1 (addr : ℕ) : Keeps k (Locked.releaseFrame1 addr) := by
  intro fm p h
  unfold Locked.releaseFrame1 at h
  split at h
  · obtain ⟨q, hq, rfl⟩ := Fault.map_eq_ok h
    exact Keeps.underLock (fun _ => keeps_releaseSmall k addr sps) _ q hq
  · cases h

theorem keeps_releaseFrame2 (addr : ℕ) : Keeps k (Locked.releaseFrame2 addr) := by
  intro fm p h
  unfold Locked.releaseFrame2 at h
  split at h
  · obtain ⟨q, hq, rfl⟩ := Fault.map_eq_ok h
    exact keeps_releaseLarge k addr _ q hq
  · cases h

theorem keeps_regionLoop (fuel : ℕ) (addr) (size) : Keeps k (Locked.regionLoop fuel addr size) := by
  induction fuel generalizing addr size with
  | zero =>
    intro fm p h
    rw [Locked.regionLoop] at h
    split at h
    · cases h
      rfl
    · cases h
  | succ fuel ih =>
    intro fm p h
    rw [Locked.regionLoop] at h
    split at h
    · cases h
      rfl
    · obtain ⟨⟨len, fm₁⟩, h₁, h⟩ := Fault.bind_eq_ok h
      have hstep : Keeps k (Locked.regionStep addr size) :=
        Keeps.ite (Keeps.underLock fun _ => keeps_releaseSmall k addr size)
          (keeps_releaseLarge k addr)
      exact (ih _ _ _ _ h).trans (hstep _ _ h₁)

theorem keeps_releaseRegion (addr size : ℕ) : Keeps k (Locked.releaseRegion addr size) := by
  intro fm p h
  unfold Locked.releaseRegion at h
  split at h
  · exact keeps_regionLoop k _ _ _ _ _ h
  · cases h

theorem keeps_useLargeFrame (size limit : ℕ) : Keeps k (Locked.useLargeFrame size limit) := by
  refine Keeps.underLock fun _ fm p h => ?_
  dsimp only at h
  split at h
  · cases h
    rfl
  · split at h
    · cases h
    split at h
    · cases h
    · cases h
      exact held_congr rfl rfl

theorem keeps_contigSmall (size align limit : ℕ) :
    Keeps k (Locked.contigSmall size align limit) := by
  refine Keeps.underLock fun _ fm p h => ?_
  split at h
  · cases h
  · exact keeps_useLargeFrame k size limit _ _ h
  · cases h
    exact held_congr rfl rfl

theorem keeps_contigLarge (size align limit : ℕ) :
    Keeps k (Locked.contigLarge size align limit) := by
  refine Keeps.underLock fun _ fm p h => ?_
  dsimp only at h
  split at h
  · cases h
  · cases h
    rfl
  · cases h
    rfl
  · split at h
    · cases h
    · cases h
      exact held_congr rfl rfl

/-- `allocFrame<2>` gives both locks back. -/
theorem keeps_allocFrame2 : Keeps k Locked.allocFrame2 := by
  refine Keeps.underLock fun _ fm p h => ?_
  dsimp only at h
  split at h
  · cases h
    rfl
  · cases h
    exact held_congr rfl rfl

end

/-- **`allocFrame<1>` gives `lplock` back exactly if it finds a frame.** -/
theorem keeps_allocFrame1_iff {p : ℕ × FrameManager} (h : Locked.allocFrame1 fm = .ok p) :
    (∀ k, p.2.held k = fm.held k) ↔
      ¬ (fm.smallFrames.isEmpty = true ∧ fm.largeFrames.findset = limit) := by
  obtain ⟨fm₁, h₁, hp⟩ := Fault.bind_eq_ok h
  obtain ⟨⟨a, fm₂⟩, h₂, hp⟩ := Fault.bind_eq_ok hp
  obtain ⟨fm₃, h₃, rfl⟩ := Fault.map_eq_ok hp
  obtain ⟨hfree, rfl⟩ := acquire_eq_ok h₁
  obtain ⟨hheld, rfl⟩ := release_eq_ok h₃
  -- `splock` is given back by its scope; the rest is about `lplock`
  have hlp : (∀ k, (fm₂.setLock false .splock).held k = fm.held k) ↔ fm₂.lplock = fm.lplock :=
    ⟨fun h => h .lplock, fun h k => by
      cases k with
      | lplock => exact h
      | splock => exact hfree.symm⟩
  rw [hlp]
  change (if fm.smallFrames.isEmpty then _ else _) = _ at h₂
  by_cases hempty : fm.smallFrames.isEmpty = true
  · rw [if_pos hempty] at h₂
    obtain ⟨fm₄, h₄, h₂⟩ := Fault.bind_eq_ok h₂
    obtain ⟨hlpfree, rfl⟩ := acquire_eq_ok h₄
    change fm.lplock = false at hlpfree
    change (if fm.largeFrames.findset = limit then _ else _) = _ at h₂
    by_cases hlim : fm.largeFrames.findset = limit
    · rw [if_pos hlim] at h₂
      cases h₂
      refine iff_of_false ?_ (by simp [hempty, hlim])
      show ¬ true = fm.lplock
      simp [hlpfree]
    · rw [if_neg hlim] at h₂
      obtain ⟨fm₅, h₅, h₂⟩ := Fault.bind_eq_ok h₂
      obtain ⟨-, rfl⟩ := release_eq_ok h₅
      refine iff_of_true ?_ (by simp [hlim])
      exact (keeps_takeSmall .lplock _ _ h₂).trans hlpfree.symm
  · rw [if_neg hempty] at h₂
    refine iff_of_true ?_ (by simp [hempty])
    exact keeps_takeSmall .lplock _ _ h₂

/-- Every other call gives both locks back. -/
theorem keeps_perform {op : Operation} (h : op ≠ .allocFrame spl) (k : Lock) :
    Keeps k (perform op) := by
  cases op with
  | allocFrame N =>
    have hN : N ≠ spl := fun he => h (by rw [he])
    rw [perform, if_neg hN]
    exact Keeps.ite (keeps_allocFrame2 k) (keeps_error k _)
  | releaseFrame N addr =>
    exact Keeps.ite (keeps_releaseFrame1 k addr)
      (Keeps.ite (keeps_releaseFrame2 k addr) (keeps_error k _))
  | releaseFrames addr size =>
    exact Keeps.ite (keeps_releaseFrame1 k addr) (keeps_releaseFrame2 k addr)
  | releaseRegion addr size => exact keeps_releaseRegion k addr size
  | allocContig size align limit =>
    exact Keeps.ite (keeps_contigSmall k _ _ _) (keeps_contigLarge k _ _ _)

/-- **A call gives both locks back exactly if it is not an `allocFrame<1>` with nothing to
give.** -/
theorem locks_given_back_iff {op : Operation} {a : ℕ}
    (hv : fm.largeFrames.Valid fm.bitcount) (hb : fm.bitcount < limit)
    (h : perform op fm = .ok (a, fm')) :
    (fm'.lplock = fm.lplock ∧ fm'.splock = fm.splock) ↔
      ¬ (op = .allocFrame spl ∧ fm.smallFrames.isEmpty = true ∧ ∀ i, ¬ fm.largeFree i) := by
  have hlocks : (fm'.lplock = fm.lplock ∧ fm'.splock = fm.splock) ↔ ∀ k, fm'.held k = fm.held k :=
    ⟨fun h k => held_congr h.1 h.2, fun h => ⟨h .lplock, h .splock⟩⟩
  rw [hlocks]
  by_cases hop : op = .allocFrame spl
  · subst hop
    rw [eq_self_iff_true, true_and, ← findset_eq_limit_iff_not_largeFree hv hb]
    exact keeps_allocFrame1_iff h
  · exact iff_of_true (fun k => keeps_perform hop k _ _ h) (fun h => hop h.1)

/-- With nothing free, `allocFrame<2>` reports `topaddr` and gives `lplock` back. -/
theorem locks_given_back_iff_allocFrame2 : ∃ fm fm', init (2 ^ 21) = .ok fm ∧
    perform (.allocFrame dpl) fm = .ok (topaddr, fm') ∧
      fm'.lplock = fm.lplock ∧ fm'.splock = fm.splock := by
  obtain ⟨fm, hfm, hinv, -⟩ := init_spec (show 0 < 2 ^ 21 by decide) (by decide)
  have hcall : ((init (2 ^ 21)).bind fun fm => (perform (.allocFrame dpl) fm).map Prod.fst)
      = .ok topaddr := by decide +kernel
  rw [hfm] at hcall
  obtain ⟨⟨a, fm'⟩, h, rfl⟩ := Fault.map_eq_ok hcall
  exact ⟨fm, fm', hfm, h, (locks_given_back_iff hinv.valid hinv.bounded h).mpr
    fun hc => absurd (Operation.allocFrame.inj hc.1) (by decide)⟩

/-- **`allocFrame<1>` keeps `lplock`** when there is nothing to give, and the next call that wants
it spins. -/
theorem allocFrame1_keeps_lplock : ∃ fm fm', init (2 ^ 21) = .ok fm ∧ fm.lplock = false ∧
    perform (.allocFrame spl) fm = .ok (topaddr, fm') ∧ fm'.lplock = true ∧
      perform (.allocFrame dpl) fm' = .error .spin := by
  obtain ⟨fm, hfm, hinv, hlp, -⟩ := init_spec (show 0 < 2 ^ 21 by decide) (by decide)
  have hcall : ((init (2 ^ 21)).bind fun fm => (perform (.allocFrame spl) fm).map fun p =>
      (p.1, p.2.lplock)) = .ok (topaddr, true) := by decide +kernel
  rw [hfm] at hcall
  obtain ⟨⟨a, fm'⟩, h, he⟩ := Fault.map_eq_ok hcall
  obtain ⟨rfl, hlp'⟩ := Prod.mk.inj he
  refine ⟨fm, fm', hfm, hlp, h, hlp', ?_⟩
  show underLock .lplock _ fm' = _
  rw [underLock, acquire, if_pos (show fm'.held .lplock = true from hlp')]
  rfl

/-! ## The scopes left implicit -/

/-- A function that neither reads a lock nor writes it. -/
def Oblivious (k : Lock) (f : FrameManager → Except Fault (α × FrameManager)) : Prop :=
  ∀ fm v, f (fm.setLock v k) = (f fm).map fun p => (p.1, p.2.setLock v k)

section

variable (fm : FrameManager)

@[simp] theorem setLock_held (k : Lock) : fm.setLock (fm.held k) k = fm := by
  cases k <;> rfl

@[simp] theorem largeFrames_setLock (v : Bool) (k : Lock) :
    (fm.setLock v k).largeFrames = fm.largeFrames := by
  cases k <;> rfl

@[simp] theorem smallFrames_setLock (v : Bool) (k : Lock) :
    (fm.setLock v k).smallFrames = fm.smallFrames := by
  cases k <;> rfl

@[simp] theorem bitcount_setLock (v : Bool) (k : Lock) :
    (fm.setLock v k).bitcount = fm.bitcount := by
  cases k <;> rfl

@[simp] theorem small_setLock (v : Bool) (k : Lock) : (fm.setLock v k).small = fm.small := by
  cases k <;> rfl

@[simp] theorem setLock_setLock (v w : Bool) (k : Lock) :
    (fm.setLock v k).setLock w k = fm.setLock w k := by
  cases k <;> rfl

end

/-- **A scope whose body is oblivious of the lock can be left implicit.** -/
theorem underLock_eq (h : Oblivious k f) (fm : FrameManager) :
    underLock k f fm = scopedLock (fm.held k) (f fm) := by
  cases hk : fm.held k with
  | true => simp [underLock, acquire, hk, Except.bind]
  | false =>
    have hself := h fm false
    have hbody := h fm true
    rw [← hk, setLock_held] at hself
    rw [underLock, acquire, hk, if_neg (by simp), Except.bind, hbody, scopedLock_false]
    cases hf : f fm with
    | error e => rfl
    | ok p =>
      rw [hf] at hself
      obtain ⟨a, fm₁⟩ := p
      have he : fm₁ = fm₁.setLock (fm.held k) k := (Prod.mk.inj (Except.ok.inj hself)).2
      simp only [Except.map, Except.bind, release, held_setLock_self, if_true, setLock_setLock]
      rw [← hk, ← he]

variable {β : Type}

theorem map_scopedLock (locked : Bool) (f : α → β) (x : Except Fault α) :
    (scopedLock locked x).map f = scopedLock locked (x.map f) := by
  cases locked <;> rfl

theorem map_ite (c : Prop) [Decidable c] (f : α → β) (x y : Except Fault α) :
    (if c then x else y).map f = if c then x.map f else y.map f :=
  apply_ite _ c x y

theorem map_map {γ : Type} (f : α → β) (g : β → γ) (x : Except Fault α) :
    (x.map f).map g = x.map fun a => g (f a) := by
  cases x <;> rfl

theorem oblivious_takeSmall (k : Lock) : Oblivious k takeSmall := by
  intro fm v
  cases k <;>
  · simp only [takeSmall, setLock, small]
    cases fm.smallFrames.minKey? <;> rfl

theorem releaseSmall_locked (fm : FrameManager) (addr size : ℕ) :
    Locked.releaseSmall addr size fm = fm.releaseSmall addr size := by
  rw [releaseSmall_eq, Locked.releaseSmall]
  by_cases hfull : (fm.filledBitmap addr size).full = true
  · rw [if_pos hfull, if_pos hfull, underLock_eq fun _ _ => rfl]
    rfl
  · rw [if_neg hfull, if_neg hfull]

theorem oblivious_releaseSmall (addr size : ℕ) :
    Oblivious .splock fun fm => fm.releaseSmall addr size := by
  intro fm v
  simp only [releaseSmall_eq]
  change (if (fm.filledBitmap addr size).full then _ else _) = _
  by_cases hfull : (fm.filledBitmap addr size).full = true
  · rw [if_pos hfull, if_pos hfull, map_scopedLock]
    rfl
  · rw [if_neg hfull, if_neg hfull]
    rfl

/-- The scope of `releaseSmall`. -/
theorem underLock_releaseSmall (fm : FrameManager) (addr size : ℕ) :
    underLock .splock (Locked.releaseSmall addr size) fm
      = scopedLock fm.splock (fm.releaseSmall addr size) := by
  have he : Locked.releaseSmall addr size = fun fm => fm.releaseSmall addr size :=
    funext fun fm => releaseSmall_locked fm addr size
  rw [he, underLock_eq (oblivious_releaseSmall addr size)]
  rfl

theorem releaseLarge_locked (fm : FrameManager) (addr : ℕ) : Locked.releaseLarge addr fm
    = scopedLock fm.lplock
      (.ok (dps, { fm with largeFrames := fm.largeFrames.set (addr / dps) })) := by
  rw [Locked.releaseLarge, underLock_eq fun _ _ => rfl]
  rfl

theorem releaseFrame1_locked (fm : FrameManager) (addr : ℕ) :
    Locked.releaseFrame1 addr fm = (fm.releaseFrame1 addr).map (0, ·) := by
  unfold Locked.releaseFrame1 FrameManager.releaseFrame1
  split
  · rw [underLock_releaseSmall, map_scopedLock, map_scopedLock, map_map]
  · rfl

theorem releaseFrame2_locked (fm : FrameManager) (addr : ℕ) :
    Locked.releaseFrame2 addr fm = (fm.releaseFrame2 addr).map (0, ·) := by
  unfold Locked.releaseFrame2 FrameManager.releaseFrame2
  split
  · rw [releaseLarge_locked, map_scopedLock, map_scopedLock]
    rfl
  · rfl

theorem regionLoop_locked (fuel : ℕ) (fm : FrameManager) (addr size : ℕ) :
    Locked.regionLoop fuel addr size fm = (fm.regionLoop fuel addr size).map (0, ·) := by
  induction fuel generalizing fm addr size with
  | zero =>
    rw [Locked.regionLoop, FrameManager.regionLoop]
    split <;> rfl
  | succ fuel ih =>
    have hstep : Locked.regionStep addr size fm = fm.regionStep addr size := by
      unfold Locked.regionStep FrameManager.regionStep
      split
      · exact underLock_releaseSmall fm addr size
      · exact releaseLarge_locked fm addr
    rw [Locked.regionLoop, FrameManager.regionLoop, hstep]
    split
    · rfl
    · cases fm.regionStep addr size with
      | error e => rfl
      | ok p => exact ih p.2 _ _

section

variable (fm : FrameManager)

theorem releaseRegion_locked (addr size : ℕ) :
    Locked.releaseRegion addr size fm = (fm.releaseRegion addr size).map (0, ·) := by
  unfold Locked.releaseRegion FrameManager.releaseRegion
  split
  · exact regionLoop_locked _ fm addr size
  · rfl

theorem allocFrame1_locked : Locked.allocFrame1 fm = fm.allocFrame1 := by
  -- the part under `lplock`
  have hinner : ∀ fm : FrameManager, ((fm.acquire .lplock).bind fun fm =>
      if fm.largeFrames.findset = limit then .ok (topaddr, fm)
      else (release .lplock { fm with
        largeFrames := fm.largeFrames.clear fm.largeFrames.findset }).bind fun fm' =>
        takeSmall { fm' with
          smallFrames := fm'.smallFrames.insert fm.largeFrames.findset Bitmap.filled })
      = if fm.lplock then .error .spin
        else if fm.largeFrames.findset = limit then .ok (topaddr, { fm with lplock := true })
        else takeSmall { fm with
          largeFrames := fm.largeFrames.clear fm.largeFrames.findset
          smallFrames := fm.smallFrames.insert fm.largeFrames.findset Bitmap.filled } := by
    intro fm
    cases hlp : fm.lplock with
    | true => simp [acquire, held, hlp, Except.bind]
    | false =>
      simp only [acquire, release, held, setLock, hlp, Bool.false_eq_true, if_false, if_true,
        Except.bind]
  rw [Locked.allocFrame1, FrameManager.allocFrame1]
  simp only [hinner]
  rw [underLock_eq]
  · rfl
  · intro fm v
    simp only [smallFrames_setLock, largeFrames_setLock, map_ite]
    rw [← oblivious_takeSmall, ← oblivious_takeSmall]
    rfl

theorem allocFrame2_locked : Locked.allocFrame2 fm = fm.allocFrame2 := by
  rw [Locked.allocFrame2, underLock_eq]
  · rfl
  · intro fm v
    simp only [largeFrames_setLock, map_ite]
    rfl

/-- The body of `use_large_frame`, without the size it returns. -/
theorem useLargeFrame_eq (size lim : ℕ) :
    (fm.useLargeFrame size lim).map (fun r => (r.1, r.2.2)) = scopedLock fm.lplock
      (if wadd (blockAddr fm.largeFrames.findset) size > lim then .ok (topaddr, fm)
      else if fm.bitcount ≤ fm.largeFrames.findset then .error .outOfBounds
      else if ((List.range (size / sps)).foldl Bitmap.clear
        ((fm.small fm.largeFrames.findset).getD Bitmap.filled)).empty then .error .kassert
      else .ok (blockAddr fm.largeFrames.findset, { fm with
        largeFrames := fm.largeFrames.clear fm.largeFrames.findset
        smallFrames := fm.smallFrames.insert fm.largeFrames.findset ((List.range (size / sps)).foldl
          Bitmap.clear ((fm.small fm.largeFrames.findset).getD Bitmap.filled)) })) := by
  rw [FrameManager.useLargeFrame, map_scopedLock]
  simp only [map_ite]
  rfl

theorem useLargeFrame_locked (size lim : ℕ) :
    Locked.useLargeFrame size lim fm = (fm.useLargeFrame size lim).map fun r => (r.1, r.2.2) := by
  rw [useLargeFrame_eq, Locked.useLargeFrame, underLock_eq]
  · rfl
  · intro fm v
    simp only [largeFrames_setLock, smallFrames_setLock, bitcount_setLock, small_setLock, map_ite]
    rfl

end

theorem oblivious_useLargeFrame (size lim : ℕ) :
    Oblivious .splock fun fm => (fm.useLargeFrame size lim).map fun r => (r.1, r.2.2) := by
  intro fm v
  simp only [useLargeFrame_eq, map_scopedLock, map_ite, largeFrames_setLock, smallFrames_setLock,
    bitcount_setLock, small_setLock]
  rfl

theorem contigSmall_locked (fm : FrameManager) (size align lim : ℕ) :
    Locked.contigSmall size align lim fm
      = (fm.contigSmall size align lim).map fun r => (r.1, r.2.2) := by
  rw [Locked.contigSmall, FrameManager.contigSmall, map_scopedLock]
  simp only [useLargeFrame_locked]
  rw [underLock_eq]
  · change scopedLock fm.splock _ = scopedLock fm.splock _
    cases hs : searchSmall size align lim fm.smallFrames.toList with
    | error e => rfl
    | ok r => cases r <;> rfl
  · intro fm v
    simp only [smallFrames_setLock]
    cases hs : searchSmall size align lim fm.smallFrames.toList with
    | error e => rfl
    | ok r =>
      cases r with
      | none => exact oblivious_useLargeFrame size lim fm v
      | some r => rfl

theorem contigLarge_locked (fm : FrameManager) (size align lim : ℕ) :
    Locked.contigLarge size align lim fm
      = (fm.contigLarge size align lim).map fun r => (r.1, r.2.2) := by
  rw [Locked.contigLarge, FrameManager.contigLarge, map_scopedLock, underLock_eq]
  · change scopedLock fm.lplock _ = scopedLock fm.lplock _
    congr 1
    dsimp only
    generalize runSearch _ _ _ _ _ _ _ _ _ _ _ = r
    cases r with
    | error e => rfl
    | ok s =>
      cases s with
      | beyond => rfl
      | exhausted => rfl
      | hit b e =>
        dsimp only
        split <;> rfl
  · intro fm v
    simp only [largeFrames_setLock, bitcount_setLock]
    generalize runSearch _ _ _ _ _ _ _ _ _ _ _ = r
    cases r with
    | error e => rfl
    | ok s =>
      cases s with
      | beyond => rfl
      | exhausted => rfl
      | hit b e =>
        dsimp only
        split <;> rfl

/-- **The calls with their locks written out compute what the calls with implicit scopes do.** -/
theorem perform_eq (op : Operation) (fm : FrameManager) : perform op fm = plain op fm := by
  cases op with
  | allocFrame N =>
    simp only [perform, plain, FrameManager.allocFrame, ← allocFrame1_locked, ← allocFrame2_locked]
    split
    · rfl
    · split <;> rfl
  | releaseFrame N addr =>
    simp only [perform, plain, FrameManager.releaseFrame]
    split
    · exact releaseFrame1_locked fm addr
    · split
      · exact releaseFrame2_locked fm addr
      · rfl
  | releaseFrames addr size =>
    simp only [perform, plain, FrameManager.releaseFrames]
    split
    · exact releaseFrame1_locked fm addr
    · exact releaseFrame2_locked fm addr
  | releaseRegion addr size => exact releaseRegion_locked fm addr size
  | allocContig size align lim =>
    simp only [perform, plain, FrameManager.allocContig, Locked.allocContig]
    split
    · exact contigSmall_locked fm _ _ _
    · exact contigLarge_locked fm _ _ _

end FrameManager

end Kos
