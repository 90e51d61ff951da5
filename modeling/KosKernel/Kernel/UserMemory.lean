import KosKernel.Kernel.ProcessRuns

/-!
# Kernel/UserMemory — processes and the bytes of physical memory

The system of `Kernel/Process` with the contents of physical memory.  A process stores through its
page entries, and `Process::exec` clears the bss of a segment with a `memset` at its virtual
addresses.  The kernel has not set `WP`, so that `memset` writes through any page that is present.

Neither `allocFrame` nor `fault` nor `mapPageRegion` touches the bytes of a frame that it hands to a
process.  What `read`, `semCreate`, `_mmap` and `pthread_join` write through a pointer of their
caller is not modelled.
-/

namespace Kos

open Function Runs Paging PageEntry AddressSpace FrameManager

/-- The bits `RW` and `US` of an entry. -/
def PageEntry.writable (e : PageEntry) : Bool := e.getLsbD 1
def PageEntry.user (e : PageEntry) : Bool := e.getLsbD 2

namespace Paging

/-- The translation of an address by the processor. -/
def translate (t : Tables) (vma : ℕ) : Option ℕ :=
  let (N, e) := walk t pagelevels vma
  if e.present then some (e.addr.toNat + vma % pagesize N) else none

variable {t t' : Tables} {x a N : ℕ} {e : PageEntry}

theorem translate_eq (hw : walk t pagelevels x = (N, e)) :
    translate t x = if e.present then some (e.addr.toNat + x % pagesize N) else none := by
  rw [translate, hw]

/-- The translation is that of `vtop`. -/
theorem vtop_eq_translate (t : Tables) (x : ℕ) :
    (vtop t pagelevels x).toOption = translate t x := by
  obtain ⟨⟨N, e⟩, hw⟩ : ∃ w, walk t pagelevels x = w := ⟨_, rfl⟩
  rw [vtop_spec hw, translate_eq hw]
  cases e.present with
  | false => rfl
  | true => rfl

/-- A page that is present stays so when another page is mapped. -/
theorem Mapped.kept {c : ℕ} {e' : PageEntry} (hm : Mapped 1 e' t t' c)
    (hp : (walk t pagelevels x).2.present = true) : walk t' pagelevels x = walk t pagelevels x := by
  have hc := one_le_walk t (show 1 ≤ pagelevels by decide) c
  have hne : index (walk t pagelevels c).1 c ≠ index (walk t pagelevels c).1 x := by
    intro heq
    rw [walk_congr rfl hc heq, hm.missing] at hp
    cases hp
  rcases hm.same_or_empty x fun heq => hne (index_mono le_rfl hc heq).symm with hsame | ⟨heq, -⟩
  · exact hsame
  · exact absurd heq.symm hne

theorem Mapped.translate_kept {c : ℕ} {e' : PageEntry} (hm : Mapped 1 e' t t' c)
    (h : translate t x = some a) : translate t' x = some a := by
  obtain ⟨⟨N, e⟩, hw⟩ : ∃ w, walk t pagelevels x = w := ⟨_, rfl⟩
  rw [translate_eq hw, Option.ite_none_right_eq_some] at h
  rw [translate_eq ((hm.kept (by rw [hw]; exact h.1)).trans hw), if_pos h.1]
  exact h.2

end Paging

/-! ## `exec`, with the bytes -/

/-- The contents of physical memory. -/
abbrev Bytes : Type := ℕ → BitVec 8

/-- `memset` of `n` bytes at `vma`, by the kernel. -/
def memset (t : Tables) (byte : BitVec 8) : ℕ → ℕ → Bytes → Except Fault Bytes
  | 0, _, mem => .ok mem
  | n + 1, vma, mem =>
    match Paging.translate t vma with
    | none => .error .outOfBounds
    | some a => memset t byte n (vma + 1) (update mem a byte)

/-- One iteration of the loop of `Process::exec`. -/
def loadSegment (rf : RamFile) (area : VmArea) (t : Tables) (fm : FrameManager) (mem : Bytes)
    (seg : Segment) : Except Fault (Tables × FrameManager × Bytes) :=
  match execSegment rf area t fm seg with
  | .error e => .error e
  | .ok (t, fm) =>
    if seg.mend > seg.fend then (memset t 0 (seg.mend - seg.fend) seg.fend mem).map fun mem =>
      (t, fm, mem)
    else .ok (t, fm, mem)

/-- The loop of `Process::exec`. -/
def loadSegments (rf : RamFile) (area : VmArea) :
    List Segment → ℕ → Tables → FrameManager → Bytes →
      Except Fault (ℕ × Tables × FrameManager × Bytes)
  | [], currBreak, t, fm, mem => .ok (currBreak, t, fm, mem)
  | seg :: segs, currBreak, t, fm, mem =>
    if seg.load = false then loadSegments rf area segs currBreak t fm mem
    else
      match loadSegment rf area t fm mem seg with
      | .error e => .error e
      | .ok (t, fm, mem) => loadSegments rf area segs (max currBreak seg.mend) t fm mem

/-- What `memset` changes: the bytes at the addresses of the range, and they are all set. -/
structure Filled (t : Tables) (byte : BitVec 8) (n vma : ℕ) (mem mem' : Bytes) : Prop where
  changed : ∀ a, mem' a = mem a ∨ mem' a = byte ∧ ∃ k < n, Paging.translate t (vma + k) = some a
  filled : ∀ k < n, ∃ a, Paging.translate t (vma + k) = some a ∧ mem' a = byte

variable {t : Tables}

theorem memset_spec {byte : BitVec 8} {n : ℕ} {vma : ℕ} {mem mem' : Bytes}
    (h : memset t byte n vma mem = .ok mem') : Filled t byte n vma mem mem' := by
  induction n generalizing vma mem mem' with
  | zero =>
    cases h
    exact ⟨fun a => .inl rfl, fun k hk => absurd hk (Nat.not_lt_zero k)⟩
  | succ n ih =>
    rw [memset] at h
    split at h
    · cases h
    rename_i a₀ ha₀
    obtain ⟨hchanged, hfilled⟩ := ih h
    have hshift : ∀ k, vma + 1 + k = vma + (k + 1) := fun k => by omega
    refine ⟨fun a => ?_, fun k hk => ?_⟩
    · rcases hchanged a with hsame | ⟨hbyte, k, hk, ha⟩
      · by_cases heq : a = a₀
        · rw [hsame, heq, update_self]
          exact .inr ⟨rfl, 0, n.succ_pos, ha₀⟩
        · rw [hsame, update_of_ne heq]
          exact .inl rfl
      · exact .inr ⟨hbyte, k + 1, Nat.succ_lt_succ hk, hshift k ▸ ha⟩
    · cases k with
      | zero =>
        refine ⟨a₀, ha₀, ?_⟩
        rcases hchanged a₀ with hsame | ⟨hbyte, -⟩
        · rw [hsame, update_self]
        · exact hbyte
      | succ k =>
        obtain ⟨a, ha, hbyte⟩ := hfilled k (Nat.lt_of_succ_lt_succ hk)
        exact ⟨a, hshift k ▸ ha, hbyte⟩

variable {rf : RamFile}

/-- A segment is mapped, and then its bss is cleared. -/
theorem loadSegment_eq_ok {area : VmArea} {t' : Tables} {fm fm' : FrameManager} {mem mem' : Bytes}
    {seg : Segment} (h : loadSegment rf area t fm mem seg = .ok (t', fm', mem')) :
    execSegment rf area t fm seg = .ok (t', fm') ∧ (seg.mend ≤ seg.fend ∧ mem' = mem ∨
        seg.fend < seg.mend ∧ Filled t' 0 (seg.mend - seg.fend) seg.fend mem mem') := by
  unfold loadSegment at h
  split at h
  · cases h
  rename_i t₁ fm₁ hexec
  split at h
  · rename_i hbss
    obtain ⟨mem₁, hset, heq⟩ := Fault.map_eq_ok h
    cases heq
    exact ⟨hexec, .inr ⟨hbss, memset_spec hset⟩⟩
  · rename_i hbss
    cases h
    exact ⟨hexec, .inl ⟨not_lt.mp hbss, rfl⟩⟩

variable {segs : List Segment}

/-- Apart from the bytes, this is `execSegments`. -/
theorem execSegments_of_load {area : VmArea} {b b' : ℕ} {fm fm' : FrameManager} {mem mem' : Bytes}
    (h : loadSegments rf area segs b t fm mem = .ok (b', t', fm', mem')) :
    execSegments rf area segs b t fm = .ok (b', t', fm') := by
  induction segs generalizing b b' t t' fm fm' mem mem' with
  | nil =>
    cases h
    rfl
  | cons seg segs ih =>
    rw [loadSegments] at h
    rw [execSegments]
    split at h
    · rename_i hload
      rw [if_pos hload]
      exact ih h
    · rename_i hload
      rw [if_neg hload]
      split at h
      · cases h
      rename_i hseg
      rw [(loadSegment_eq_ok hseg).1]
      exact ih h

/-! ## The machine -/

/-- The processes, and physical memory. -/
structure Machine where
  sys : System
  mem : Bytes

namespace Machine

inductive Action
  | sys (a : System.Action)
  /-- a store of a process, to a page that it can write -/
  | store (p vma : ℕ) (byte : BitVec 8)

/-- Where a store of a process goes. -/
def target (q : Proc) (vma : ℕ) : Option ℕ :=
  let e := (walk q.t pagelevels vma).2
  if q.dying = false ∧ vma < usertop ∧ e.writable = true ∧
    e.user = true then Paging.translate q.t vma else none

def step (s : Machine) : Action → Option Machine
  | .sys (.exec p rf segs) => do
      let q ← s.sys.proc p
      let (currBreak, t, fm, mem) ← (loadSegments rf q.area segs 0 q.t s.sys.fm s.mem).toOption
      return ⟨s.sys.put p { q with area := ⟨currBreak, usertop, usertop⟩ } (t, fm), mem⟩
  | .sys a => (s.sys.step a).map fun sys => { s with sys }
  | .store p vma byte => do
      let q ← s.sys.proc p
      let a ← target q vma
      return { s with mem := update s.mem a byte }

/-- The byte that a process reads. -/
def read (s : Machine) (p vma : ℕ) : Option (BitVec 8) := do
  let q ← s.sys.proc p
  let a ← Paging.translate q.t vma
  return s.mem a

variable {s s' : Machine} {p : ℕ} {q : Proc}

theorem step_exec (h : s.step (.sys (.exec p rf segs)) = some s') :
    ∃ q b t fm, s.sys.proc p = some q ∧ loadSegments rf q.area segs 0 q.t s.sys.fm s.mem =
      .ok (b, t, fm, s'.mem) ∧
      s'.sys = s.sys.put p { q with area := ⟨b, usertop, usertop⟩ } (t, fm) := by
  obtain ⟨q, hq, h⟩ := Option.bind_eq_some_iff.mp h
  obtain ⟨⟨b, t, fm, mem⟩, hload, h⟩ := Option.bind_eq_some_iff.mp h
  cases h
  exact ⟨q, b, t, fm, hq, Fault.toOption_eq_some hload, rfl⟩

theorem step_exec_of {b : ℕ} {fm : FrameManager} {mem : Bytes} (hq : s.sys.proc p = some q)
    (hload : loadSegments rf q.area segs 0 q.t s.sys.fm s.mem = .ok (b, t, fm, mem)) :
    s.step (.sys (.exec p rf segs)) =
      some ⟨s.sys.put p { q with area := ⟨b, usertop, usertop⟩ } (t, fm), mem⟩ := by
  rw [step, hq]
  simp only [Option.bind_eq_bind, Option.bind_some, hload]
  rfl

/-- Apart from the bytes, the steps are those of the system. -/
theorem step_sys {a : System.Action} (h : s.step (.sys a) = some s') : s.sys.step a = some s'.sys ∧
    ((∃ p rf segs, a = .exec p rf segs) ∨ s'.mem = s.mem) := by
  cases a with
  | exec p rf segs =>
    obtain ⟨q, b, t, fm, hq, hload, hsys⟩ := step_exec h
    refine ⟨System.step_of_actOn hq rfl ?_, .inl ⟨p, rf, segs, rfl⟩⟩
    rw [System.actOn, execSegments_of_load hload, hsys]
    rfl
  | _ =>
    obtain ⟨sys, hsys, rfl⟩ := Option.map_eq_some_iff.mp h
    exact ⟨hsys, .inr rfl⟩

theorem step_store {vma : ℕ} {byte : BitVec 8} (h : s.step (.store p vma byte) = some s') :
    ∃ q a, s.sys.proc p = some q ∧ target q vma = some a ∧
      s' = { s with mem := update s.mem a byte } := by
  obtain ⟨q, hq, h⟩ := Option.bind_eq_some_iff.mp h
  obtain ⟨a, ha, h⟩ := Option.bind_eq_some_iff.mp h
  exact ⟨q, a, hq, ha, (Option.some.inj h).symm⟩

theorem index_lt_userEntries {N x : ℕ} (h1 : 1 ≤ N) (hN : N ≤ pagelevels) (hx : x < usertop) :
    index N x < System.userEntries N := by
  have hdvd : pagesize N ∣ usertop := by
    refine pow_dvd_pow 2 ?_
    simp only [pagesizebits, pageoffsetbits, pagetablebits, pagelevels] at *
    omega
  rw [System.userEntries, Nat.lt_div_iff_mul_lt_of_dvd (pagesize_pos N).ne' hdvd]
  exact lt_of_le_of_lt ((Nat.div_mul_le_self _ _).trans (Nat.mod_le _ _)) hx

/-- **What a process can address is held by one of its entries.** -/
theorem held_of_translate {pool files : Set ℕ} {sys : System} (h : System.Inv pool files sys)
    (hq : sys.proc p = some q) (hlive : q.dying = false) {x a : ℕ} (hx : x < usertop)
    (ha : Paging.translate q.t x = some a) : (walk q.t pagelevels x).1 = 1 ∧
      sys.heldAt (.entry p 1 (index 1 x)) = some (a / sps) := by
  obtain ⟨⟨N, e⟩, hw⟩ : ∃ w, walk q.t pagelevels x = w := ⟨_, rfl⟩
  rw [translate_eq hw, Option.ite_none_right_eq_some] at ha
  obtain ⟨hpres, ha⟩ := ha
  obtain ⟨rfl, htable⟩ := walk_entry (by decide) hw
  have hle : N ≤ pagelevels := by simpa [hw] using walk_le q.t pagelevels x
  have h1 : 1 ≤ N := by simpa [hw] using one_le_walk q.t (show 1 ≤ pagelevels by decide) x
  have hidx := index_lt_userEntries h1 hle hx
  obtain rfl : N = 1 := by
    by_contra hne
    rcases ((h.proc hq).tables hlive).tables (by omega) hidx with hzero | ⟨-, hlarge⟩
    · rw [hzero] at hpres
      exact absurd hpres (by decide)
    · rw [isTable, hpres, isPage, hlarge] at htable
      simp [hne] at htable
  rw [hw, System.heldAt_entry hq, System.heldIn_iff]
  refine ⟨rfl, ⟨hlive, hidx, .inl hpres⟩, ?_⟩
  cases ha
  have hmod := addr_mod (q.t 1 (index 1 x))
  have hlt : x % pagesize 1 < sps := Nat.mod_lt _ (pagesize_pos 1)
  rw [frameOf]
  rw [show sps = 4096 from rfl] at hmod hlt ⊢
  omega

end Machine

end Kos
