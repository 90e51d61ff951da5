import KosKernel.Machine.InitMemory
import Mathlib.Data.FinEnum
import Mathlib.Data.Set.Finite.Lattice

/-!
# Kernel/Multiboot — walking the tags of the multiboot information

The `FORALLTAGS` loops of `kernel/Multiboot.cc` and the loop over the entries of a memory map.  Each
of them goes from address to address by a length that it reads there: a tag's `size`, rounded up to
a multiple of 8, or the `entry_size` of the map.  Neither is looked at first.  A length of 0 makes
the loop read the same tag for ever, and a `size` above `2 ^ 32 - 8` is rounded to 0 as well.

`getRSDP` and `readModules` come after `Multiboot::remap` and find the block at `kernelBase`, 2 GB
below the top of the address space: there a large `size` takes the walk round to address 0.

All loops have the form of `forLoop`, which also lists the addresses it reads.  `walks_finish_iff`
says by the sizes in the block when they all come to an end inside it.
-/

namespace Kos

namespace Multiboot

/-- `vaddr`. -/
abbrev Addr : Type := BitVec 64

/-! ## Loops that are driven by the data -/

variable {n : ℕ}

section loops

variable {σ : Type}

/-- `for (a = …; a < stop && !last(a); a = next(a))`.  The body may return; the addresses below
`stop` that the loop comes to are listed. -/
def forLoop (stop : Addr) (last : Addr → Bool) (next : Addr → Addr)
    (body : Addr → σ → Except Fault (ForInStep σ)) : ℕ → Addr → σ → Except Fault (List Addr × σ)
  | 0, _, _ => .error .diverge
  | fuel + 1, a, s =>
    if a < stop then
      if last a then .ok ([a], s)
      else (body a s).bind fun
        | .done s => .ok ([a], s)
        | .yield s => (forLoop stop last next body fuel (next a) s).map fun r => (a :: r.1, r.2)
    else .ok ([], s)

/-- The loop goes on at `a`. -/
def GoesOn (stop : Addr) (last : Addr → Bool) (a : Addr) : Prop := a < stop ∧ last a = false

/-- The loop that starts at `a` comes to `b` and goes on there. -/
def Meets (p : Addr → Prop) (next : Addr → Addr) (a b : Addr) : Prop :=
  ∃ i, next^[i] a = b ∧ ∀ k ≤ i, p (next^[k] a)

/-- The loop that starts at `a` comes to `b`. -/
def Reaches (p : Addr → Prop) (next : Addr → Addr) (a b : Addr) : Prop :=
  ∃ i, next^[i] a = b ∧ ∀ k < i, p (next^[k] a)

variable {stop : Addr} {last : Addr → Bool} {next : Addr → Addr}
  {body : Addr → σ → Except Fault (ForInStep σ)} {p : Addr → Prop}

/-- **A loop that only goes up comes to an end**: there are finitely many addresses. -/
theorem exists_stop {a : Addr} (hup : ∀ b, Meets p next a b → b < next b) :
    ∃ n, ¬ p (next^[n] a) := by
  by_contra hall
  push Not at hall
  have hmono : StrictMono fun n => (next^[n] a).toNat := strictMono_nat_of_lt_succ fun n => by
    rw [Function.iterate_succ_apply']
    exact BitVec.lt_def.mp (hup _ ⟨n, rfl, fun k _ => hall k⟩)
  exact absurd (hmono.le_apply (x := 2 ^ 64)) (Nat.not_le.mpr (next^[2 ^ 64] a).isLt)

/-- **A loop that does not leave an address has no end.** -/
theorem Meets.goes_on {a b : Addr} (h : Meets p next a b) (hb : next b = b) (n : ℕ) :
    p (next^[n] a) := by
  obtain ⟨i, rfl, hp⟩ := h
  rcases Nat.le_total n i with hn | hn
  · exact hp n hn
  · obtain ⟨k, rfl⟩ := Nat.exists_eq_add_of_le' hn
    rw [Function.iterate_add_apply, Function.iterate_fixed hb]
    exact hp i le_rfl

theorem Meets.refl {a : Addr} (h : p a) : Meets p next a a :=
  ⟨0, rfl, fun k hk => by rwa [Nat.le_zero.mp hk]⟩

theorem Meets.holds {a b : Addr} (h : Meets p next a b) : p b := by
  obtain ⟨i, rfl, hp⟩ := h
  exact hp i le_rfl

theorem Meets.reaches {a b : Addr} (h : Meets p next a b) : Reaches p next a b := by
  obtain ⟨i, rfl, hp⟩ := h
  exact ⟨i, rfl, fun k hk => hp k hk.le⟩

theorem Meets.reaches_next {a b : Addr} (h : Meets p next a b) : Reaches p next a (next b) := by
  obtain ⟨i, rfl, hp⟩ := h
  exact ⟨i + 1, Function.iterate_succ_apply' .., fun k hk => hp k (by omega)⟩

/-- Where the addresses go up, none is below the first. -/
theorem Reaches.le {a b : Addr} (hup : ∀ b, Meets p next a b → b < next b)
    (h : Reaches p next a b) : a ≤ b := by
  obtain ⟨i, rfl, hp⟩ := h
  induction i with
  | zero => exact BitVec.le_refl _
  | succ i ih =>
    refine BitVec.le_trans (ih fun k hk => hp k (by omega)) ?_
    rw [Function.iterate_succ_apply']
    exact BitVec.le_of_lt (hup _ ⟨i, rfl, fun k hk => hp k (by omega)⟩)

theorem Reaches.cons {a b : Addr} (ha : p a) (h : Reaches p next (next a) b) :
    Reaches p next a b := by
  obtain ⟨i, rfl, hp⟩ := h
  refine ⟨i + 1, rfl, fun k hk => ?_⟩
  cases k with
  | zero => exact ha
  | succ k => exact hp k (by omega)

/-- **One round** of a loop that returns: it stops, the body returns, or the loop goes on. -/
theorem forLoop_eq_ok {a : Addr} {s : σ} {r : List Addr × σ}
    (h : forLoop stop last next body (n + 1) a s = .ok r) :
    ¬ GoesOn stop last a ∧ (r.1 = [] ∧ ¬ a < stop ∨ r.1 = [a] ∧ a < stop) ∧ r.2 = s ∨
      GoesOn stop last a ∧ ((∃ s', body a s = .ok (.done s') ∧ r = ([a], s')) ∨
        ∃ s' r', body a s = .ok (.yield s') ∧ forLoop stop last next body n (next a) s' = .ok r' ∧
          r = (a :: r'.1, r'.2)) := by
  rw [forLoop] at h
  split at h
  case isFalse ha =>
    cases h
    exact .inl ⟨fun hgo => ha hgo.1, .inl ⟨rfl, ha⟩, rfl⟩
  case isTrue ha =>
    split at h
    case isTrue hl =>
      cases h
      exact .inl ⟨fun hgo => Bool.noConfusion (hl.symm.trans hgo.2), .inr ⟨rfl, ha⟩, rfl⟩
    case isFalse hl =>
      refine .inr ⟨⟨ha, by simpa using hl⟩, ?_⟩
      obtain ⟨step, hstep, hrest⟩ := Fault.bind_eq_ok h
      cases step with
      | done s' =>
        cases hrest
        exact .inl ⟨s', hstep, rfl⟩
      | yield s' =>
        obtain ⟨r', hr', rfl⟩ := Fault.map_eq_ok hrest
        exact .inr ⟨s', r', hstep, hr', rfl⟩

/-- The loop reads addresses that it comes to, below its bound. -/
theorem forLoop_reads {a : Addr} {s : σ} {r : List Addr × σ}
    (h : forLoop stop last next body n a s = .ok r) :
    ∀ b ∈ r.1, Reaches (GoesOn stop last) next a b ∧ b < stop := by
  induction n generalizing a s r with
  | zero => cases h
  | succ n ih =>
    intro b hb
    have hfirst (ha : a < stop) (hba : b ∈ [a]) :
        Reaches (GoesOn stop last) next a b ∧ b < stop := by
      obtain rfl := List.mem_singleton.mp hba
      exact ⟨⟨0, rfl, fun k hk => absurd hk k.not_lt_zero⟩, ha⟩
    obtain ⟨-, ⟨hr, -⟩ | ⟨hr, ha⟩, -⟩ | ⟨hgo, ⟨s', -, rfl⟩ | ⟨s', r', -, hr', rfl⟩⟩ :=
      forLoop_eq_ok h
    · rw [hr] at hb
      cases hb
    · exact hfirst ha (hr ▸ hb)
    · exact hfirst hgo.1 hb
    · rcases List.mem_cons.mp hb with rfl | hb
      · exact hfirst hgo.1 (List.mem_singleton_self b)
      · exact (ih hr' b hb).imp_left (.cons hgo)

/-- It reads all of them, if its body never returns from the function. -/
theorem mem_forLoop_reads (hbody : ∀ b s s', body b s ≠ .ok (.done s')) :
    ∀ {a b : Addr} {s : σ} {r : List Addr × σ}, forLoop stop last next body n a s = .ok r →
      Reaches (GoesOn stop last) next a b → b < stop → b ∈ r.1 := by
  induction n with
  | zero => intro a b s r h; cases h
  | succ n ih =>
    rintro a b s r h ⟨i, rfl, hp⟩ hb
    obtain ⟨hno, hr, -⟩ | ⟨-, ⟨s', hdone, -⟩ | ⟨s', r', -, hr', rfl⟩⟩ := forLoop_eq_ok h
    · cases i with
      | zero =>
        obtain ⟨-, ha⟩ | ⟨hr, -⟩ := hr
        · exact absurd hb ha
        · exact hr ▸ List.mem_singleton_self a
      | succ i => exact absurd (hp 0 (by omega)) hno
    · exact absurd hdone (hbody a s s')
    · cases i with
      | zero => exact List.mem_cons_self
      | succ i =>
        exact List.mem_cons_of_mem _ (ih hr' ⟨i, rfl, fun k hk => hp (k + 1) (by omega)⟩ hb)

/-- What the body keeps, the loop keeps. -/
theorem forLoop_invariant {P : σ → Prop}
    (hbody : ∀ a s step, P s → body a s = .ok step → P step.value) {a : Addr} {s : σ}
    {r : List Addr × σ} (h : forLoop stop last next body n a s = .ok r) : P s → P r.2 := by
  induction n generalizing a s r with
  | zero => cases h
  | succ n ih =>
    intro hs
    obtain ⟨-, -, hr⟩ | ⟨-, ⟨s', hstep, rfl⟩ | ⟨s', r', hstep, hr', rfl⟩⟩ := forLoop_eq_ok h
    · rwa [hr]
    · exact hbody a s _ hs hstep
    · exact ih (r := r') hr' (hbody a s _ hs hstep)

/-- **A loop that stops runs out of no fuel**: it fails only with what its body fails with. -/
theorem forLoop_fails_only {E : Fault → Prop} {k : ℕ} (hkn : k < n) : ∀ {a : Addr} (s : σ),
    ¬ GoesOn stop last (next^[k] a) →
    (∀ b s, Meets (GoesOn stop last) next a b → ∀ e, body b s = .error e → E e) →
    ∀ e, forLoop stop last next body n a s = .error e → E e := by
  induction n generalizing k with
  | zero => omega
  | succ n ih =>
    intro a s hstop hbody e h
    rw [forLoop] at h
    split at h
    case isFalse => cases h
    case isTrue ha =>
      split at h
      case isTrue => cases h
      case isFalse hl =>
        have hgo : GoesOn stop last a := ⟨ha, by simpa using hl⟩
        cases hstep : body a s with
        | error e' =>
          rw [hstep] at h
          cases h
          exact hbody a s (.refl hgo) e hstep
        | ok step =>
          rw [hstep] at h
          cases step with
          | done s' => cases h
          | yield s' =>
            obtain ⟨k, rfl⟩ : ∃ k', k = k' + 1 :=
              Nat.exists_eq_succ_of_ne_zero fun h => hstop (by rw [h]; exact hgo)
            refine ih (k := k) (by omega) s' hstop (fun b s hb => ?_) e (Fault.map_eq_error h)
            obtain ⟨i, hi, hp⟩ := hb
            refine hbody b s ⟨i + 1, hi, fun j hj => ?_⟩
            cases j with
            | zero => exact hgo
            | succ j => exact hp j (by omega)

/-- **A loop that returns has stopped**, if its body never returns from the function; and the body
has returned wherever the loop has gone on. -/
theorem stop_of_forLoop_eq_ok (hbody : ∀ b s s', body b s ≠ .ok (.done s')) {a : Addr} {s : σ}
    {r : List Addr × σ} (h : forLoop stop last next body n a s = .ok r) :
    ∃ k, ¬ GoesOn stop last (next^[k] a) ∧ ∀ j < k, ∃ s r, body (next^[j] a) s = .ok r := by
  induction n generalizing a s r with
  | zero => cases h
  | succ n ih =>
    obtain ⟨hno, -⟩ | ⟨-, ⟨s', hdone, -⟩ | ⟨s', r', hstep, hr', -⟩⟩ := forLoop_eq_ok h
    · exact ⟨0, hno, fun j hj => by omega⟩
    · exact absurd hdone (hbody a s s')
    · obtain ⟨k, hk, hj⟩ := ih hr'
      refine ⟨k + 1, hk, fun j hjk => ?_⟩
      cases j with
      | zero => exact ⟨s, _, hstep⟩
      | succ j => exact hj j (by omega)

end loops

/-! ## Tags and entries -/

/-- The memory, by bytes. -/
abbrev Mem : Type := Addr → BitVec 8

def read32 (mem : Mem) (a : Addr) : BitVec 32 := mem (a + 3) ++ mem (a + 2) ++ mem (a + 1) ++ mem a

def read64 (mem : Mem) (a : Addr) : BitVec 64 := read32 mem (a + 4) ++ read32 mem a

/-- `MULTIBOOT_TAG_TYPE_*`. -/
def tagEnd : BitVec 32 := 0
def tagCmdline : BitVec 32 := 1
def tagModule : BitVec 32 := 3
def tagMmap : BitVec 32 := 6
def tagAcpiOld : BitVec 32 := 14
def tagAcpiNew : BitVec 32 := 15

def tagType (mem : Mem) (tag : Addr) : BitVec 32 := read32 mem tag
def tagSize (mem : Mem) (tag : Addr) : BitVec 32 := read32 mem (tag + 4)

/-- `(tag->size + 7) & ~7`, in 32 bits. -/
def advance (mem : Mem) (tag : Addr) : BitVec 32 := (tagSize mem tag + 7) &&& ~~~7

def nextTag (mem : Mem) (tag : Addr) : Addr := tag + (advance mem tag).setWidth 64

/-- `FORALLTAGS`. -/
def forAllTags {σ : Type} (mem : Mem) (start stop : Addr) (fuel : ℕ)
    (body : Addr → σ → Except Fault (ForInStep σ)) (s : σ) : Except Fault (List Addr × σ) :=
  forLoop stop (fun tag => tagType mem tag == tagEnd) (nextTag mem) body fuel start s

section

variable (mem : Mem)

/-- `initDebug`: the command lines that are handed to `DBG::init`. -/
def initDebug (mbiStart mbiEnd : Addr) (fuel : ℕ) : Except Fault (List Addr × List Addr) :=
  forAllTags mem mbiStart mbiEnd fuel (fun tag cmds =>
    .ok (.yield (if tagType mem tag = tagCmdline then cmds ++ [tag + 8] else cmds))) []

/-- The loop of `init`: the largest `mod_end`. -/
def initModEnd (mbiStart mbiEnd : Addr) (fuel : ℕ) : Except Fault (List Addr × Addr) :=
  forAllTags mem mbiStart mbiEnd fuel (fun tag modEnd =>
    let mod_end := (read32 mem (tag + 12)).setWidth 64
    .ok (.yield (if tagType mem tag = tagModule ∧ modEnd < mod_end then mod_end else modEnd))) 0

/-- The loop of `getRSDP`, which returns at the first ACPI tag. -/
def getRSDPLoop (mbiStart mbiEnd : Addr) (fuel : ℕ) : Except Fault (List Addr × Option Addr) :=
  forAllTags mem mbiStart mbiEnd fuel (fun tag rsdp =>
    .ok (if tagType mem tag = tagAcpiOld ∨ tagType mem tag = tagAcpiNew then .done (some (tag + 8))
      else .yield rsdp)) none

/-- `readModules`: the entries of `kernelFS`, each with the address of its command line. -/
def readModules (mbiStart mbiEnd disp : Addr) (fuel : ℕ) :
    Except Fault (List Addr × List (Addr × Addr × Addr × Addr)) :=
  forAllTags mem mbiStart mbiEnd fuel (fun tag files =>
    let mod_start := (read32 mem (tag + 8)).setWidth 64
    let length := (read32 mem (tag + 12) - read32 mem (tag + 8)).setWidth 64
    .ok (.yield (if tagType mem tag = tagModule then
        files ++ [(tag + 16, mod_start + disp, mod_start, length)]
      else files))) []

def entriesEnd (tm : Addr) : Addr := tm + (tagSize mem tm).setWidth 64
def entrySize (tm : Addr) : Addr := (read32 mem (tm + 8)).setWidth 64

def memoryMap (mm : Addr) : MemoryMap :=
  ⟨(read64 mem mm).toNat, (read64 mem (mm + 8)).toNat, (read32 mem (mm + 16)).toNat⟩

end

/-- The loop over the entries of a memory map. -/
def forEntries {σ : Type} (mem : Mem) (tm : Addr) (fuel : ℕ)
    (body : Addr → σ → Except Fault (ForInStep σ)) (s : σ) : Except Fault (List Addr × σ) :=
  forLoop (entriesEnd mem tm) (fun _ => false) (· + entrySize mem tm) body fuel (tm + 16) s

/-- The body of a loop over the tags that goes through the entries of each memory map. -/
def mapBody {σ τ : Type} (mem : Mem) (fuel : ℕ) (body : Addr → τ → Except Fault (ForInStep τ))
    (init : σ → τ) (result : Addr → σ → List Addr × τ → σ) (tag : Addr) (s : σ) :
    Except Fault (ForInStep σ) :=
  if tagType mem tag = tagMmap then
    (forEntries mem tag fuel body (init s)).map fun r => .yield (result tag s r)
  else .ok (.yield s)

def insertEntry (mem : Mem) (mm : Addr) (rs : RegionSet ℕ) : RegionSet ℕ :=
  let m := memoryMap mem mm
  if m.type = memoryAvailable ∧ 0 < m.len then rs.insert ⟨m.addr, wadd m.addr m.len⟩ else rs

/-- `getMemory`, with the entries that it reads and their bounds. -/
def getMemory (mem : Mem) (mbiStart mbiEnd : Addr) (fuel : ℕ) (rs : RegionSet ℕ) :
    Except Fault (List Addr × List (Addr × Addr) × RegionSet ℕ) :=
  forAllTags mem mbiStart mbiEnd fuel
    (mapBody mem fuel (fun mm rs => .ok (.yield (insertEntry mem mm rs)))
    Prod.snd fun tag s r => (s.1 ++ r.1.map (·, entriesEnd mem tag), r.2)) ([], rs)

/-- The loops of `init2`, which prints what it finds; the type of an entry is an index into
`memtype`. -/
def init2 (mem : Mem) (mbiStart mbiEnd : Addr) (fuel : ℕ) : Except Fault (List Addr × Unit) :=
  forAllTags mem mbiStart mbiEnd fuel (mapBody mem fuel (fun mm _ =>
    if (memoryMap mem mm).type ≤ 5 then .ok (.yield ()) else .error .kassert) id fun _ _ _ => ()) ()

/-! ## When the loops end -/

/-- A tag at which `FORALLTAGS` goes on. -/
def TagOk (mem : Mem) (stop : Addr) : Addr → Prop :=
  GoesOn stop fun tag => tagType mem tag == tagEnd

/-- `KERNBASE` of `Makefile.config`. -/
def kernelBase : Addr := 0xFFFFFFFF80000000

/-- `mbiStart` and `mbiEnd` of `Multiboot::init`, for the block at `mbi`. -/
def mbiStart (mbi : Addr) : Addr := mbi + 8
def mbiEnd (mem : Mem) (mbi : Addr) : Addr := mbi + (read32 mem mbi).setWidth 64

/-- The loop returns, with enough fuel, and the tags that it reads start in the block. -/
def Returns {σ : Type} (loop : ℕ → Except Fault (List Addr × σ)) (start stop : Addr) : Prop :=
  ∃ n r, loop n = .ok r ∧ ∀ tag ∈ r.1, start ≤ tag ∧ tag < stop

/-- **Each loop ends, and reads inside its bounds only.**  `low` is the memory as it is read before
`Multiboot::remap`, `high` as it is read later, at `kernelBase`. -/
structure Finish (low high : Mem) (mbi : Addr) (rs : RegionSet ℕ) : Prop where
  initDebug :
    Returns (initDebug low (mbiStart mbi) (mbiEnd low mbi)) (mbiStart mbi) (mbiEnd low mbi)
  init : Returns (initModEnd low (mbiStart mbi) (mbiEnd low mbi)) (mbiStart mbi) (mbiEnd low mbi)
  /-- the only other end is the `KASSERT` on the type of an entry -/
  init2 : Returns (init2 low (mbiStart mbi) (mbiEnd low mbi)) (mbiStart mbi) (mbiEnd low mbi) ∨
    ∃ n, init2 low (mbiStart mbi) (mbiEnd low mbi) n = .error .kassert
  getMemory : Returns (getMemory low (mbiStart mbi) (mbiEnd low mbi) · rs) (mbiStart mbi)
    (mbiEnd low mbi)
  entries : ∀ n r, Multiboot.getMemory low (mbiStart mbi) (mbiEnd low mbi) n rs = .ok r →
    ∀ entry ∈ r.2.1, entry.1 < entry.2
  getRSDP : Returns (getRSDPLoop high (mbiStart mbi + kernelBase) (mbiEnd low mbi + kernelBase))
    (mbiStart mbi + kernelBase) (mbiEnd low mbi + kernelBase)
  readModules : Returns (readModules high (mbiStart mbi + kernelBase) (mbiEnd low mbi + kernelBase)
    kernelBase) (mbiStart mbi + kernelBase) (mbiEnd low mbi + kernelBase)

section finish

variable {mem : Mem} {start stop : Addr} {σ : Type}

theorem exists_eq_ok {α : Type} {x : Except Fault α} (h : ∀ e, x = .error e → False) :
    ∃ r, x = .ok r := by
  cases x with
  | error e => exact (h e rfl).elim
  | ok r => exact ⟨r, rfl⟩

theorem toNat_add_setWidth {b : Addr} {w : BitVec 32} :
    (b + w.setWidth 64).toNat = (b.toNat + w.toNat) % 2 ^ 64 := by
  have := w.isLt
  rw [BitVec.toNat_add, BitVec.toNat_setWidth]
  omega

theorem add_setWidth_zero {b : Addr} {w : BitVec 32} (hw : w = 0) : b + w.setWidth 64 = b := by
  rw [hw]
  exact BitVec.add_zero b

theorem lt_add_setWidth {b : Addr} {w : BitVec 32} (hw : w ≠ 0)
    (h : b.toNat + w.toNat < 2 ^ 64) : b < b + w.setWidth 64 := by
  have : w.toNat ≠ 0 := fun h0 => hw (BitVec.eq_of_toNat_eq h0)
  rw [BitVec.lt_def, toNat_add_setWidth, Nat.mod_eq_of_lt h]
  omega

/-- The sizes of the tags lead the walk on, and not past the top of the address space. -/
def TagsSized (mem : Mem) (start stop : Addr) : Prop :=
  ∀ tag, Meets (TagOk mem stop) (nextTag mem) start tag →
    advance mem tag ≠ 0 ∧ tag.toNat + (advance mem tag).toNat < 2 ^ 64

theorem TagsSized.rises (h : TagsSized mem start stop) (tag : Addr)
    (htag : Meets (TagOk mem stop) (nextTag mem) start tag) : tag < nextTag mem tag :=
  lt_add_setWidth (h tag htag).1 (h tag htag).2

/-- A walk that goes by such sizes reads inside the block. -/
theorem TagsSized.reads (h : TagsSized mem start stop)
    {body : Addr → σ → Except Fault (ForInStep σ)} {s : σ} {r : List Addr × σ}
    (hr : forAllTags mem start stop n body s = .ok r) : ∀ tag ∈ r.1, start ≤ tag ∧ tag < stop := by
  intro tag htag
  obtain ⟨hreach, hlt⟩ := forLoop_reads hr tag htag
  exact ⟨hreach.le h.rises, hlt⟩

/-- The loops whose bodies do not fail. -/
theorem TagsSized.returns (h : TagsSized mem start stop) (s : σ) (body : Addr → σ → ForInStep σ) :
    Returns (forAllTags mem start stop · (fun tag s => .ok (body tag s)) s) start stop := by
  obtain ⟨k, hk⟩ := exists_stop h.rises
  have hok : ∀ e, forAllTags mem start stop (k + 1) (fun tag s => .ok (body tag s)) s = .error e →
      False := forLoop_fails_only k.lt_succ_self s hk fun b s _ e he => by cases he
  obtain ⟨r, hr⟩ := exists_eq_ok hok
  exact ⟨k + 1, r, hr, h.reads hr⟩

/-- No length that the loops go by is 0. -/
def LengthsOk (mem : Mem) (start stop : Addr) : Prop :=
  ∀ tm, Meets (TagOk mem stop) (nextTag mem) start tm → advance mem tm ≠ 0 ∧
    (tagType mem tm = tagMmap → tm + 16 < entriesEnd mem tm → read32 mem (tm + 8) ≠ 0)

section low

-- the block does not end close to the top of the address space
variable (hlow : stop.toNat + 2 ^ 33 ≤ 2 ^ 64) (h : LengthsOk mem start stop)

include hlow h

theorem LengthsOk.tagsSized : TagsSized mem start stop := fun tag htag => by
  have := BitVec.lt_def.mp htag.holds.1
  have := (advance mem tag).isLt
  exact ⟨(h tag htag).1, by omega⟩

/-- The loop over the entries of a memory map ends. -/
theorem LengthsOk.entries_stop {tm : Addr} (hm : Meets (TagOk mem stop) (nextTag mem) start tm)
    (ht : tagType mem tm = tagMmap) :
    ∃ k, ¬ GoesOn (entriesEnd mem tm) (fun _ => false) ((· + entrySize mem tm)^[k] (tm + 16)) := by
  refine exists_stop fun b hb => lt_add_setWidth ?_ ?_
  · obtain ⟨i, -, hp⟩ := hb
    exact (h tm hm).2 ht (hp 0 (Nat.zero_le i)).1
  · have h1 := BitVec.lt_def.mp hm.holds.1
    have h2 := BitVec.lt_def.mp hb.holds.1
    have h3 := (tagSize mem tm).isLt
    have h4 := (read32 mem (tm + 8)).isLt
    rw [entriesEnd, toNat_add_setWidth] at h2
    omega

/-- Enough fuel for the loop over the entries of each memory map that `FORALLTAGS` comes to. -/
theorem exists_fuel : ∃ n,
    (∃ k < n, ¬ TagOk mem stop ((nextTag mem)^[k] start)) ∧
    ∀ tm, Meets (TagOk mem stop) (nextTag mem) start tm → tagType mem tm = tagMmap → ∃ k < n,
      ¬ GoesOn (entriesEnd mem tm) (fun _ => false) ((· + entrySize mem tm)^[k] (tm + 16)) := by
  obtain ⟨k, hk⟩ := exists_stop (h.tagsSized hlow).rises
  have hentries : ∀ tm : Addr, ∃ n, Meets (TagOk mem stop) (nextTag mem) start tm →
      tagType mem tm = tagMmap →
      ¬ GoesOn (entriesEnd mem tm) (fun _ => false) ((· + entrySize mem tm)^[n] (tm + 16)) := by
    intro tm
    by_cases hm : Meets (TagOk mem stop) (nextTag mem) start tm ∧ tagType mem tm = tagMmap
    · obtain ⟨n, hn⟩ := h.entries_stop hlow hm.1 hm.2
      exact ⟨n, fun _ _ => hn⟩
    · exact ⟨0, fun h1 h2 => absurd ⟨h1, h2⟩ hm⟩
  choose f hf using hentries
  obtain ⟨n, hn⟩ := (Set.finite_range f).bddAbove
  refine ⟨k + n + 1, ⟨k, by omega, hk⟩, fun tm hm ht => ⟨f tm, ?_, hf tm hm ht⟩⟩
  have := hn (Set.mem_range_self tm)
  omega

/-- **The nested loops end** if no length that they go by is 0. -/
theorem exists_forAllEntries {τ : Type} {E : Fault → Prop}
    {body : Addr → τ → Except Fault (ForInStep τ)} (hbody : ∀ mm t e, body mm t = .error e → E e)
    (init : σ → τ) (result : Addr → σ → List Addr × τ → σ) (s : σ) :
    ∃ n, ∀ e, forAllTags mem start stop n (mapBody mem n body init result) s = .error e → E e := by
  obtain ⟨n, ⟨k, hk, hstop⟩, hentries⟩ := exists_fuel hlow h
  refine ⟨n, forLoop_fails_only hk s hstop fun tm s hm e he => ?_⟩
  rw [mapBody] at he
  split at he
  case isTrue ht =>
    obtain ⟨k, hk, hstop⟩ := hentries tm hm ht
    exact forLoop_fails_only hk _ hstop (fun mm t _ => hbody mm t) e (Fault.map_eq_error he)
  case isFalse => cases he

theorem exists_getMemory (rs : RegionSet ℕ) : ∃ n r, getMemory mem start stop n rs = .ok r := by
  obtain ⟨n, hn⟩ : ∃ n, ∀ e, getMemory mem start stop n rs = .error e → False :=
    exists_forAllEntries hlow h (fun mm t e he => by cases he) _ _ _
  exact ⟨n, exists_eq_ok hn⟩

end low

theorem mapBody_ne_done {τ : Type} {body : Addr → τ → Except Fault (ForInStep τ)} {init : σ → τ}
    {result : Addr → σ → List Addr × τ → σ} {tag : Addr} {s s' : σ} :
    mapBody mem n body init result tag s ≠ .ok (.done s') := by
  intro h
  rw [mapBody] at h
  split at h
  · obtain ⟨r, -, hr⟩ := Fault.map_eq_ok h
    cases hr
  · cases h

/-- The nested loops end only so. -/
theorem lengthsOk_of_getMemory {rs : RegionSet ℕ}
    {r : List Addr × List (Addr × Addr) × RegionSet ℕ} (h : getMemory mem start stop n rs = .ok r) :
    LengthsOk mem start stop := by
  obtain ⟨k, hk, hbody⟩ := stop_of_forLoop_eq_ok (fun _ _ _ => mapBody_ne_done) h
  intro tm hm
  refine ⟨fun h0 => hk (hm.goes_on (add_setWidth_zero h0) k), fun ht hlt h0 => ?_⟩
  obtain ⟨i, rfl, hp⟩ := hm
  have hik : i < k := by
    by_contra hge
    exact hk (hp k (by omega))
  obtain ⟨s, r, hr⟩ := hbody i hik
  rw [mapBody, if_pos ht] at hr
  obtain ⟨r', hr', -⟩ := Fault.map_eq_ok hr
  obtain ⟨m, hm, -⟩ := stop_of_forLoop_eq_ok (fun _ _ _ => by simp) hr'
  exact hm (Meets.goes_on (.refl ⟨hlt, rfl⟩) (add_setWidth_zero (b := _ + 16) h0) m)

/-- The entries that `getMemory` reads start below their bounds. -/
theorem getMemory_entries {rs : RegionSet ℕ} {r : List Addr × List (Addr × Addr) × RegionSet ℕ}
    (h : getMemory mem start stop n rs = .ok r) : ∀ entry ∈ r.2.1, entry.1 < entry.2 := by
  refine forLoop_invariant (P := fun s => ∀ entry ∈ s.1,
    entry.1 < entry.2) (fun tag s step hs hstep => ?_) h (by simp)
  rw [mapBody] at hstep
  split at hstep
  · obtain ⟨r', hr', rfl⟩ := Fault.map_eq_ok hstep
    intro entry hentry
    rcases List.mem_append.mp hentry with hold | hnew
    · exact hs entry hold
    · obtain ⟨mm, hmm, rfl⟩ := List.mem_map.mp hnew
      exact (forLoop_reads hr' mm hmm).2
  · cases hstep
    exact hs

/-- **A walk that stays in its block** goes by sizes that lead on: past the top of the address space
it would come to a low address. -/
theorem tagsSized_of_readModules {disp : Addr} (hstart : 2 ^ 32 ≤ start.toNat)
    (h : Returns (readModules mem start stop disp) start stop) : TagsSized mem start stop := by
  obtain ⟨n, r, hr, hin⟩ := h
  intro tag hm
  refine ⟨fun h0 => ?_, ?_⟩
  · obtain ⟨k, hk, -⟩ := stop_of_forLoop_eq_ok (fun _ _ _ => by simp) hr
    exact hk (hm.goes_on (add_setWidth_zero h0) k)
  · by_contra hwrap
    have hread {b : Addr} : Reaches (TagOk mem stop) (nextTag mem) start b → b < stop →
        start.toNat ≤ b.toNat := fun hb hlt =>
      BitVec.le_def.mp (hin b (mem_forLoop_reads (fun _ _ _ => by simp) hr hb hlt)).1
    have htag := hread hm.reaches hm.holds.1
    have hstop := BitVec.lt_def.mp hm.holds.1
    -- the address past the top is below the end of the block, so the tag there is read
    have hsmall : (nextTag mem tag).toNat < 2 ^ 32 := by
      have := (advance mem tag).isLt
      have := tag.isLt
      rw [nextTag, toNat_add_setWidth]
      omega
    have hlow := hread hm.reaches_next (BitVec.lt_def.mpr (by omega))
    omega

end finish

/-- **`getMemory` returns** from such a block if and only if no length that it goes by is 0. -/
theorem getMemory_returns_iff {mem : Mem} {start stop : Addr} (rs : RegionSet ℕ)
    (hlow : stop.toNat + 2 ^ 33 ≤ 2 ^ 64) :
    (∃ n r, getMemory mem start stop n rs = .ok r) ↔
      ∀ tm, Meets (TagOk mem stop) (nextTag mem) start tm →
      advance mem tm ≠ 0 ∧ (tagType mem tm = tagMmap → tm + 16 < entriesEnd mem tm →
        read32 mem (tm + 8) ≠ 0) := by
  exact ⟨fun ⟨_, _, hr⟩ => lengthsOk_of_getMemory hr, fun h => exists_getMemory hlow h rs⟩

/-- A tag of type 3 and size 0, at `0x10008`. -/
def zeroTag : Mem := fun a => if a = 0x10008 then 3 else 0

theorem getMemory_returns_iff_zeroTag : ¬ ∃ n r, getMemory zeroTag 0x10008 0x10020 n [] = .ok r :=
  fun h =>
  ((getMemory_returns_iff [] (by decide)).mp h _ (.refl ⟨by decide, by decide⟩)).1 (by decide)

/-- **The loops end in the block if and only if** no tag that they meet has a size that is rounded
to 0, nor one that takes the walk at `kernelBase` past the top of the address space, and no memory
map with entries that they meet has entries of size 0.  The block starts below 2 GB; `boot.S` maps
the first GB. -/
theorem walks_finish_iff (low high : Mem) {mbi : Addr} (rs : RegionSet ℕ)
    (hmbi : mbi.toNat + 8 < 2 ^ 31) :
    Finish low high mbi rs ↔
      (∀ tm, Meets (TagOk low (mbiEnd low mbi)) (nextTag low) (mbiStart mbi) tm →
        advance low tm ≠ 0 ∧
          (tagType low tm = tagMmap → tm + 16 < entriesEnd low tm → read32 low (tm + 8) ≠ 0)) ∧
      ∀ tag, Meets (TagOk high (mbiEnd low mbi + kernelBase)) (nextTag high)
          (mbiStart mbi + kernelBase) tag →
        advance high tag ≠ 0 ∧ tag.toNat + (advance high tag).toNat < 2 ^ 64 := by
  have hlow : (mbiEnd low mbi).toNat + 2 ^ 33 ≤ 2 ^ 64 := by
    have := (read32 low mbi).isLt
    rw [mbiEnd, BitVec.toNat_add, BitVec.toNat_setWidth]
    omega
  have hhigh : 2 ^ 32 ≤ (mbiStart mbi + kernelBase).toNat := by
    have hstart : (mbiStart mbi).toNat = mbi.toNat + 8 := by
      rw [mbiStart, BitVec.toNat_add]
      exact Nat.mod_eq_of_lt (by change mbi.toNat + 8 < 2 ^ 64; omega)
    have hbase : kernelBase.toNat = 2 ^ 64 - 2 ^ 31 := rfl
    rw [BitVec.toNat_add, hstart, hbase]
    omega
  constructor
  · intro h
    obtain ⟨n, r, hr, -⟩ := h.getMemory
    exact ⟨lengthsOk_of_getMemory hr, tagsSized_of_readModules hhigh h.readModules⟩
  · rintro ⟨h, hsized⟩
    have h : LengthsOk low (mbiStart mbi) (mbiEnd low mbi) := h
    have hsized : TagsSized high _ _ := hsized
    have hup := h.tagsSized hlow
    refine ⟨hup.returns _ _, hup.returns _ _, ?_, ?_, fun n r hr => getMemory_entries hr,
      hsized.returns _ _, hsized.returns _ _⟩
    · obtain ⟨n, hn⟩ : ∃ n, ∀ e, init2 low (mbiStart mbi) (mbiEnd low mbi) n = .error e →
          e = .kassert := by
        refine exists_forAllEntries hlow h (fun mm _ e he => ?_) _ _ _
        split at he
        · cases he
        · exact (Except.error.inj he).symm
      cases hr : init2 low (mbiStart mbi) (mbiEnd low mbi) n with
      | error e => exact .inr ⟨n, hn e hr ▸ hr⟩
      | ok r => exact .inl ⟨n, r, hr, hup.reads hr⟩
    · obtain ⟨n, r, hr⟩ := exists_getMemory hlow h rs
      exact ⟨n, r, hr, hup.reads hr⟩

/-- A block with a memory map of one entry, 1 MB at 1 MB, that fills it. -/
def oneMap : Mem := fun a =>
  if a = 0x10000 then 0x30 else if a = 0x10008 then 6 else if a = 0x1000c then 0x28
  else if a = 0x10010 then 24 else if a = 0x1001a then 0x10 else if a = 0x10022 then 0x10
  else if a = 0x10028 then 1 else 0

theorem walks_finish_iff_oneMap : Finish oneMap (fun a => oneMap (a - kernelBase)) 0x10000 [] := by
  have hone {p : Addr → Prop} {next : Addr → Addr} {a b : Addr} (hstop : ¬ p (next a))
      (h : Meets p next a b) : b = a := by
    obtain ⟨i, rfl, hp⟩ := h
    cases i with
    | zero => rfl
    | succ i => exact absurd (hp 1 (by omega)) hstop
  refine (walks_finish_iff _ _ [] (by decide)).mpr ⟨fun tm htm => ?_, fun tag htag => ?_⟩
  · rw [hone (fun hgo => absurd hgo.1 (by decide)) htm]
    decide
  · rw [hone (fun hgo => absurd hgo.1 (by decide)) htag]
    decide

/-- The tag of size 0 in a block of 32 bytes. -/
def zeroBlock : Mem := fun a => if a = 0x10000 then 0x20 else zeroTag a

/-- **At a tag of size 0 the loops stay for ever.** -/
theorem walks_hang : ¬ Finish zeroBlock (fun a => zeroBlock (a - kernelBase)) 0x10000 [] := by
  intro h
  obtain ⟨n, r, hr, -⟩ := h.getMemory
  exact (lengthsOk_of_getMemory hr 0x10008 (.refl ⟨by decide, by decide⟩)).1 (by decide)

end Multiboot

end Kos
