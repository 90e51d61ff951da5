import KosKernel.Lib.Runs
import KosKernel.Machine.Memory
import KosKernel.Machine.SpinLock
import Mathlib.Data.List.Infix

/-!
# World/Access — files and the keyboard behind a handle

`FileAccess` and `InputAccess` of `world/Access.h`, the two kinds of handles that can be read.

A `FileAccess` keeps an offset into a file in memory.  `lseek` accepts any position that is not
negative, also one behind the end; `pread` computes what is left of the file without a test for
that, on numbers that wrap (`read_exact_iff`).

An `InputAccess` takes key codes from the queue of the keyboard.  Its loop asks for the next code
before it looks whether there is room for one, so a read that fills the buffer takes one code too
many (`input_kept`).
-/

namespace Kos

open Runs

/-! ## Files -/

/-- The bytes of a `RamFile`.  The kernel has half of the address space, so their number is positive
also where it is taken as a signed one. -/
structure FileBytes (β : Type) where
  bytes : List β
  size_lt : bytes.length < 2 ^ 63

/-- `FileAccess`; an `off_t` is a word that is read as a signed number. -/
structure FileAccess (β : Type) where
  rf : FileBytes β
  offset : BitVec 64

def FileBytes.size {β : Type} (rf : FileBytes β) : BitVec 64 := BitVec.ofNat 64 rf.bytes.length

namespace FileAccess

variable {β : Type}

/-- The constructor. -/
def init (rf : FileBytes β) : FileAccess β := ⟨rf, 0⟩

variable (a : FileAccess β)

/-- `pread`: the bytes that are copied, and their number.  It is a fault to copy from outside the
file. -/
def pread (nbyte o : BitVec 64) : Except Fault (List β × BitVec 64) :=
  let nbyte := if o + nbyte > a.rf.size then a.rf.size - o else nbyte
  if o.toNat + nbyte.toNat ≤ a.rf.bytes.length then
    .ok ((a.rf.bytes.drop o.toNat).take nbyte.toNat, nbyte)
  else .error .outOfBounds

def read (nbyte : BitVec 64) : Except Fault (List β × BitVec 64 × FileAccess β) := do
  let (buf, len) ← a.pread nbyte a.offset
  return (buf, len, if 0 ≤ len.toInt then { a with offset := a.offset + len } else a)

/-- `-EINVAL`. -/
def einval : BitVec 64 := -22#64

/-- The switch in `lseek`; `SEEK_SET`, `SEEK_CUR` and `SEEK_END` are 0, 1 and 2. -/
def newOffset (o : BitVec 64) (whence : ℤ) : Option (BitVec 64) :=
  if whence = 0 then some o
  else if whence = 1 then some (a.offset + o)
  else if whence = 2 then some (a.rf.size + o)
  else none

def lseek (o : BitVec 64) (whence : ℤ) : BitVec 64 × FileAccess β :=
  match a.newOffset o whence with
  | none => (einval, a)
  | some newO => if newO.toInt < 0 then (einval, a) else (newO, { a with offset := newO })

inductive Action
  | read (nbyte : BitVec 64)
  | lseek (o : BitVec 64) (whence : ℤ)

def step : Action → Option (FileAccess β)
  | .read nbyte => (a.read nbyte).toOption.map fun r => r.2.2
  | .lseek o whence => some (a.lseek o whence).2

/-- A read returns what is left of the file from the offset on, but no more than `nbyte` bytes. -/
def ReadsRest (nbyte : BitVec 64) : Prop :=
  let n := min nbyte.toNat (a.rf.bytes.length - a.offset.toNat)
  ∃ a', a.read nbyte = .ok ((a.rf.bytes.drop a.offset.toNat).take n, BitVec.ofNat 64 n, a') ∧
    a'.rf = a.rf ∧ a'.offset.toNat = a.offset.toNat + n

/-- The position that a seek asks for. -/
def requested (o : BitVec 64) (whence : ℤ) : Option ℤ :=
  if whence = 0 then some o.toInt
  else if whence = 1 then some (a.offset.toInt + o.toInt)
  else if whence = 2 then some (a.rf.bytes.length + o.toInt)
  else none

/-- A seek goes to the position that it asks for, or reports an error and changes nothing. -/
def SeeksOrFails (o : BitVec 64) (whence : ℤ) : Prop :=
  (∃ p, a.requested o whence = some p ∧ 0 ≤ p ∧ (a.lseek o whence).1.toInt = p ∧
      (a.lseek o whence).2.rf = a.rf ∧ (a.lseek o whence).2.offset.toInt = p) ∨
    a.lseek o whence = (einval, a)

variable {a a' : FileAccess β} {nbyte o : BitVec 64} {whence : ℤ}

theorem toNat_size (a : FileAccess β) : a.rf.size.toNat = a.rf.bytes.length := by
  have := a.rf.size_lt
  rw [FileBytes.size, BitVec.toNat_ofNat, Nat.mod_eq_of_lt (by omega)]

/-- The offset is never negative. -/
theorem lseek_offset (h : a.offset.toNat < 2 ^ 63) (o : BitVec 64) (whence : ℤ) :
    (a.lseek o whence).2.offset.toNat < 2 ^ 63 := by
  rw [lseek]
  split
  · exact h
  · rename_i newO _
    by_cases hneg : newO.toInt < 0
    · rwa [if_pos hneg]
    · rw [if_neg hneg]
      rw [BitVec.toInt_eq_toNat_cond] at hneg
      have := newO.isLt
      dsimp only
      omega

theorem read_offset (h : a.offset.toNat < 2 ^ 63) {r : List β × BitVec 64 × FileAccess β}
    (hread : a.read nbyte = .ok r) : r.2.2.offset.toNat < 2 ^ 63 := by
  have hsize := a.rf.size_lt
  rw [read, pread] at hread
  split_ifs at hread with hbig hfits hfits
  all_goals cases hread
  all_goals
    dsimp only
    split_ifs
    · rw [BitVec.toNat_add]
      omega
    · exact h

theorem offset_of_run {rf : FileBytes β} {as : List Action}
    (hrun : run step (init rf) as = some a) : a.offset.toNat < 2 ^ 63 := by
  have hzero : (init rf).offset.toNat < 2 ^ 63 := by simp [init]
  refine invariant (P := fun a : FileAccess β => a.offset.toNat < 2 ^ 63) ?_ hzero hrun
  intro a action a' h hstep
  cases action with
  | read nbyte =>
    obtain ⟨r, hr, rfl⟩ := Option.map_eq_some_iff.mp hstep
    exact read_offset h (Fault.toOption_eq_some hr)
  | lseek o whence =>
    cases hstep
    exact lseek_offset h o whence

/-- A sum that wraps is negative. -/
theorem toInt_add_of_nonneg {x y : BitVec 64} (hx : 0 ≤ x.toInt) (hge : 0 ≤ (x + y).toInt) :
    (x + y).toInt = x.toInt + y.toInt := by
  have hy := y.toInt_lt
  have hy' := y.le_toInt
  have hx' := x.toInt_lt
  rw [BitVec.toInt_add] at hge ⊢
  rw [Int.bmod_def] at hge ⊢
  omega

theorem newOffset_requested {newO : BitVec 64} (h : a.offset.toNat < 2 ^ 63)
    (hnew : a.newOffset o whence = some newO) (hge : 0 ≤ newO.toInt) :
    a.requested o whence = some newO.toInt := by
  have hsize := a.rf.size_lt
  have hoff : a.offset.toInt = a.offset.toNat := by
    rw [BitVec.toInt_eq_toNat_cond]
    split <;> omega
  have hlen : a.rf.size.toInt = a.rf.bytes.length := by
    rw [BitVec.toInt_eq_toNat_cond, toNat_size]
    split <;> omega
  rw [newOffset] at hnew
  rw [requested]
  split_ifs at hnew ⊢ with h0 h1 h2
  · rw [Option.some.inj hnew]
  · cases hnew
    rw [toInt_add_of_nonneg (by omega) hge]
  · cases hnew
    rw [toInt_add_of_nonneg (by omega) hge, hlen]

/-- **`lseek` is right**, whatever the offset. -/
theorem seeksOrFails (h : a.offset.toNat < 2 ^ 63) (o : BitVec 64) (whence : ℤ) :
    a.SeeksOrFails o whence := by
  rw [SeeksOrFails, lseek]
  cases hnew : a.newOffset o whence with
  | none => exact .inr rfl
  | some newO =>
    dsimp only
    by_cases hneg : newO.toInt < 0
    · exact .inr (if_pos hneg)
    · rw [if_neg hneg]
      exact .inl ⟨_, newOffset_requested h hnew (by omega), by omega, rfl, rfl, rfl⟩

/-- What `pread` copies: the wanted number of bytes, or what is left. -/
theorem read_of_le {n : BitVec 64}
    (hn : (if a.offset + nbyte > a.rf.size then a.rf.size - a.offset else nbyte) = n)
    (hle : a.offset.toNat + n.toNat ≤ a.rf.bytes.length) :
    a.read nbyte = .ok ((a.rf.bytes.drop a.offset.toNat).take n.toNat, n,
      { a with offset := a.offset + n }) := by
  have hsize := a.rf.size_lt
  have hpos : 0 ≤ n.toInt := by
    rw [BitVec.toInt_eq_toNat_cond]
    split <;> omega
  rw [read, pread, hn, if_pos hle]
  show Except.ok (_, n, if 0 ≤ n.toInt then _ else a) = _
  rw [if_pos hpos]

theorem read_of_gt {n : BitVec 64}
    (hn : (if a.offset + nbyte > a.rf.size then a.rf.size - a.offset else nbyte) = n)
    (hgt : a.rf.bytes.length < a.offset.toNat + n.toNat) : a.read nbyte = .error .outOfBounds := by
  rw [read, pread, hn, if_neg (not_le.mpr hgt)]
  rfl

/-- **What a read needs**: an offset in the file, and a sum that does not wrap. -/
theorem readsRest_iff (h : a.offset.toNat < 2 ^ 63) :
    a.ReadsRest nbyte ↔ a.offset.toNat ≤ a.rf.bytes.length ∧
      a.offset.toNat + nbyte.toNat < 2 ^ 64 := by
  have hsize := a.rf.size_lt
  have hnbyte := nbyte.isLt
  have hlen := a.toNat_size
  -- the number of bytes that `pread` computes
  generalize hn : (if a.offset + nbyte > a.rf.size then a.rf.size - a.offset else nbyte) = n
  have hcases : (a.rf.bytes.length < (a.offset.toNat + nbyte.toNat) % 2 ^ 64 ∧
        n.toNat = (2 ^ 64 - a.offset.toNat + a.rf.bytes.length) % 2 ^ 64) ∨
      ((a.offset.toNat + nbyte.toNat) % 2 ^ 64 ≤ a.rf.bytes.length ∧ n = nbyte) := by
    by_cases hbig : a.offset + nbyte > a.rf.size
    · rw [if_pos hbig] at hn
      refine .inl ⟨?_, ?_⟩
      · rwa [gt_iff_lt, BitVec.lt_def, hlen, BitVec.toNat_add] at hbig
      · rw [← hn, BitVec.toNat_sub, hlen]
    · rw [if_neg hbig] at hn
      refine .inr ⟨?_, hn.symm⟩
      rwa [gt_iff_lt, BitVec.lt_def, hlen, BitVec.toNat_add, not_lt] at hbig
  constructor
  · rintro ⟨a', hread, -⟩
    by_contra hcond
    have hgt : a.rf.bytes.length < a.offset.toNat + n.toNat := by
      rcases hcases with ⟨hwrap, hcount⟩ | ⟨hwrap, rfl⟩
      · omega
      · omega
    rw [read_of_gt hn hgt] at hread
    cases hread
  · rintro ⟨hle, hwrap⟩
    have hcount : n.toNat = min nbyte.toNat (a.rf.bytes.length - a.offset.toNat) := by
      rcases hcases with ⟨hbig, hcount⟩ | ⟨hbig, rfl⟩
      · omega
      · omega
    have hfits : a.offset.toNat + n.toNat ≤ a.rf.bytes.length := by omega
    rw [ReadsRest, ← hcount]
    refine ⟨{ a with offset := a.offset + n }, ?_, rfl, ?_⟩
    · rw [read_of_le hn hfits, BitVec.ofNat_toNat, BitVec.setWidth_eq]
    · dsimp only
      rw [BitVec.toNat_add]
      omega

/-- **Files are read as they should be** where the offset is in the file, and seeks always work. -/
theorem read_exact_iff {rf : FileBytes β} {as : List Action}
    (hrun : run step (init rf) as = some a) :
    (∀ nbyte : BitVec 64, a.ReadsRest nbyte ↔
      a.offset.toNat ≤ a.rf.bytes.length ∧ a.offset.toNat + nbyte.toNat < 2 ^ 64) ∧
    ∀ (o : BitVec 64) (whence : ℤ), a.SeeksOrFails o whence :=
  have h := offset_of_run hrun
  ⟨fun _ => readsRest_iff h, fun o whence => seeksOrFails h o whence⟩

/-- A file of four bytes. -/
def four : FileBytes ℕ := ⟨[1, 2, 3, 4], by decide⟩

theorem read_exact_end : ∃ a, run step (init four) [.read 1, .lseek (-2) 2] = some a ∧
      a.offset = 2 ∧ a.ReadsRest 7 :=
  exists_run_and (by decide +kernel) fun a hrun h2 =>
    ((read_exact_iff hrun).1 7).mpr (by cases hrun; decide)

/-- One byte is read from behind the end, and as many bytes as make the sum wrap from the start. -/
theorem read_outside :
    (∃ a, run step (init four) [.lseek 10 0] = some a ∧ a.read 1 = .error .outOfBounds) ∧
      ∃ a, run step (init four) [.lseek 2 0] = some a ∧ a.read (-1) = .error .outOfBounds :=
  ⟨⟨_, rfl, rfl⟩, _, rfl, rfl⟩

end FileAccess

/-! ## The keyboard -/

/-- Where the reader is in `InputAccess::read`. -/
inductive InputPc
  | idle
  /-- in `keyboard.read()` -/
  | waiting (nbyte : ℕ)
  /-- in the loop, with `buf` stored and the code `k` at hand -/
  | storing (nbyte : ℕ) (buf : List ℕ) (k : ℕ)
  deriving DecidableEq

/-- The queue of the keyboard and its reader.  `delivered` are the codes that have come into the
queue so far, `returned` the reads that have returned, each with its `nbyte` and its bytes. -/
structure InputAccess where
  queue : List ℕ
  pc : InputPc
  delivered : List ℕ
  returned : List (ℕ × List ℕ)

namespace InputAccess

inductive Action
  | key (code : ℕ)
  | read (nbyte : ℕ)
  /-- `keyboard.read()` returns -/
  | recv
  /-- the body of the loop -/
  | tryRead
  deriving DecidableEq

def init : InputAccess := ⟨[], .idle, [], []⟩

/-- A `KeyCode` as a `char`. -/
def toChar (k : ℕ) : ℕ := k % 256

def ret (s : InputAccess) (nbyte : ℕ) (buf : List ℕ) : InputAccess :=
  { s with pc := .idle, returned := s.returned ++ [(nbyte, buf)] }

/-- One step of the keyboard or the reader.  The queue has 256 places, and a code for which there is
none is not delivered. -/
def step (s : InputAccess) : Action → Option InputAccess
  | .key code =>
    if s.queue.length < 256 then some { s with
      queue := s.queue ++ [code], delivered := s.delivered ++ [code] }
    else none
  | .read nbyte =>
    match s.pc with
    | .idle => some (if nbyte = 0 then s.ret 0 [] else { s with pc := .waiting nbyte })
    | _ => none
  | .recv =>
    match s.pc, s.queue with
    | .waiting nbyte, k :: queue => some { s with queue := queue, pc := .storing nbyte [] k }
    | _, _ => none
  | .tryRead =>
    match s.pc with
    | .storing nbyte buf k =>
      let buf := buf ++ [toChar k]
      match s.queue with
      | [] => some (s.ret nbyte buf)
      | k :: queue =>
        let s := { s with queue := queue }
        some (if buf.length < nbyte then { s with pc := .storing nbyte buf k } else s.ret nbyte buf)
    | _ => none

/-- No code is waiting when the last byte is stored. -/
def spare (s : InputAccess) (a : Action) : Bool :=
  match a, s.pc with
  | .tryRead, .storing nbyte buf _ => decide (buf.length + 1 < nbyte) || s.queue.isEmpty
  | _, _ => true

/-- The bytes of the read that has not returned yet. -/
def stored : InputPc → List ℕ
  | .storing _ buf k => buf ++ [toChar k]
  | .idle | .waiting _ => []

/-- The buffer has room for the code at hand. -/
def Room : InputPc → Prop
  | .storing nbyte buf _ => buf.length < nbyte
  | .waiting nbyte => 0 < nbyte
  | .idle => True

/-- All bytes are accounted for. -/
structure Kept (s : InputAccess) : Prop where
  room : Room s.pc
  bytes : (s.returned.flatMap Prod.snd) ++ stored s.pc ++ s.queue.map toChar =
    s.delivered.map toChar
  length : ∀ r ∈ s.returned, 1 ≤ r.1 → 1 ≤ r.2.length ∧ r.2.length ≤ r.1

variable {s s' : InputAccess} {nbyte k : ℕ} {buf : List ℕ}

theorem kept_init : Kept init := ⟨trivial, rfl, by simp [init]⟩

/-- A read returns what it has stored. -/
theorem Kept.ret {q : List ℕ} (h : Kept s)
    (hbytes : (s.returned.flatMap Prod.snd) ++ buf ++ q.map toChar = s.delivered.map toChar)
    (hlen : 1 ≤ nbyte → 1 ≤ buf.length ∧ buf.length ≤ nbyte) :
    Kept ({ s with queue := q }.ret nbyte buf) := by
  refine ⟨trivial, ?_, fun r hr => ?_⟩
  · simpa [InputAccess.ret, stored] using hbytes
  · rcases List.mem_append.mp hr with hr | hr
    · exact h.length r hr
    · rw [List.mem_singleton.mp hr]
      exact hlen

/-- **One step loses no code**, unless the last byte is stored while another code is waiting. -/
theorem Kept.step {a : Action} (h : Kept s) (hspare : s.spare a = true)
    (hstep : s.step a = some s') : Kept s' := by
  have hroom := h.room
  have hbytes := h.bytes
  cases a with
  | key code =>
    rw [InputAccess.step] at hstep
    split_ifs at hstep
    cases hstep
    exact ⟨hroom, by simp [← hbytes], h.length⟩
  | read nbyte =>
    rw [InputAccess.step] at hstep
    split at hstep
    · rename_i hidle
      rw [hidle] at hbytes
      cases hstep
      split_ifs with hzero
      · exact h.ret (q := s.queue) hbytes (by omega)
      · exact ⟨Nat.pos_of_ne_zero hzero, hbytes, h.length⟩
    · cases hstep
  | recv =>
    rw [InputAccess.step] at hstep
    split at hstep
    · rename_i nbyte k queue hpc hqueue
      rw [hpc, hqueue] at hbytes
      rw [hpc] at hroom
      cases hstep
      exact ⟨hroom, by simpa [stored] using hbytes, h.length⟩
    · cases hstep
  | tryRead =>
    rw [InputAccess.step] at hstep
    split at hstep
    · rename_i nbyte buf k hpc
      rw [hpc] at hbytes hroom
      have hlen : (buf ++ [toChar k]).length ≤ nbyte := by
        rw [List.length_append]
        exact hroom
      dsimp only at hstep
      split at hstep
      · rename_i hempty
        cases hstep
        exact h.ret (q := s.queue) hbytes fun _ => ⟨by simp, hlen⟩
      · rename_i k' queue hqueue
        rw [hqueue] at hbytes
        cases hstep
        by_cases hfull : (buf ++ [toChar k]).length < nbyte
        · rw [if_pos hfull]
          exact ⟨hfull, by simpa [stored] using hbytes, h.length⟩
        · -- the buffer is full, so nothing was waiting
          rw [List.length_append, List.length_singleton] at hfull
          simp [spare, hpc, hqueue, hfull] at hspare
    · cases hstep

/-- **No input is lost** as long as no code is waiting when a buffer is full. -/
theorem input_kept {as : List Action} (hspare : Guarded step (fun s a => s.spare a = true) init as)
    (hrun : run step init as = some s) :
    (s.returned.flatMap Prod.snd) <+: s.delivered.map toChar ∧
      ∀ r ∈ s.returned, 1 ≤ r.1 → 1 ≤ r.2.length ∧ r.2.length ≤ r.1 := by
  have h : Kept s := invariant_of_guarded Kept.step kept_init hspare hrun
  refine ⟨?_, h.length⟩
  rw [← h.bytes, List.append_assoc]
  exact List.prefix_append _ _

theorem input_kept_typed :
    ∃ s, run step init [.key 97, .read 8, .recv, .key 0x1018, .tryRead, .tryRead, .key 98, .read 1,
      .recv, .tryRead] = some s ∧ s.returned = [(8, [97, 0x18]), (1, [98])] ∧
      (s.returned.flatMap Prod.snd) <+: s.delivered.map toChar :=
  exists_run_and (by decide +kernel) fun _ hrun _ =>
    (input_kept (guarded_of_decide (by decide +kernel)) hrun).1

/-- Two codes are waiting for a read of one byte: the second one is lost. -/
theorem input_lost :
    ∃ s, run step init [.key 97, .key 98, .key 99, .read 1, .recv, .tryRead, .read 1, .recv,
      .tryRead] = some s ∧ s.delivered = [97, 98, 99] ∧ s.returned = [(1, [97]), (1, [99])] ∧
      ¬ (s.returned.flatMap Prod.snd) <+: s.delivered.map toChar :=
  exists_run (by decide +kernel)

end InputAccess

end Kos
