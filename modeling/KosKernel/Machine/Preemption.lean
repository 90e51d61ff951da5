import KosKernel.Machine.Memory
import KosKernel.Machine.SpinLock
import Mathlib.Data.List.Count
import Mathlib.Data.List.Nodup
import Mathlib.Data.List.Perm.Subperm
import Mathlib.Data.Nat.ModEq

/-!
# Machine/Preemption — round-robin preemption by the real-time clock

Every interrupt of the RTC is passed on to one processor, in turn: `rrPreemptIPI` of
`machine/Machine.cc` picks the entry of `processorTable` and calls `Machine::sendIPI` with its APIC
id.  But `Machine::sendIPI` expects an index and translates it once more, so the id is used as an
index into the table (`rrPreempt_reaches_all_iff`).
-/

namespace Kos

/-- `processorTable`, of which the calls below read the APIC ids. -/
structure ProcessorTable where
  apicID : List ℕ
  nonempty : apicID ≠ []
  nodup : apicID.Nodup

/-- An inter-processor interrupt. -/
structure IPI where
  dest : ℕ
  vec : ℕ
  deriving DecidableEq

/-- `APIC::PreemptIPI`. -/
def IPI.preempt : ℕ := 0xed

/-- `APIC::sendIPI`; the destination is a byte. -/
def IPI.send (dest vec : ℕ) : IPI := ⟨dest % 2 ^ 8, vec⟩

namespace ProcessorTable

variable (table : ProcessorTable)

def processorCount : ℕ := table.apicID.length

/-- `Machine::sendIPI`. -/
def sendIPI (idx vec : ℕ) : Except Fault IPI :=
  match table.apicID[idx]? with
  | none => .error .outOfBounds
  | some id => .ok (.send id vec)

/-- `Machine::rrPreemptIPI`. -/
def rrPreemptIPI (tick : ℕ) : Except Fault IPI :=
  match table.apicID[tick % table.processorCount]? with
  | none => .error .outOfBounds
  | some id => table.sendIPI id IPI.preempt

/-- `irq_handler_0xf8` as far as preemption goes: `currentTick` is counted up first. -/
def rtcInterrupt (currentTick : ℕ) : Except Fault (ℕ × IPI) :=
  (table.rrPreemptIPI (wadd currentTick 1)).map fun ipi => (wadd currentTick 1, ipi)

/-- The interrupts sent over a number of ticks. -/
def rtcInterrupts (table : ProcessorTable) : ℕ → ℕ → Except Fault (List IPI)
  | 0, _ => .ok []
  | n + 1, currentTick =>
    match table.rtcInterrupt currentTick with
    | .error e => .error e
    | .ok (tick, ipi) => (table.rtcInterrupts n tick).map fun ipis => ipi :: ipis

variable (table : ProcessorTable) {n tick : ℕ}

/-! ## One tick after the other -/

theorem processorCount_pos : 0 < table.processorCount := List.length_pos_of_ne_nil table.nonempty

/-- The entry that a tick looks up. -/
def turn (tick k : ℕ) : ℕ := (tick + k) % wordSize % table.processorCount

theorem turn_lt (tick k : ℕ) : table.turn tick k < table.processorCount :=
  Nat.mod_lt _ table.processorCount_pos

theorem turn_wadd (tick k : ℕ) : table.turn (wadd tick 1) k = table.turn tick (k + 1) := by
  rw [turn, turn, wadd, Nat.mod_add_mod, Nat.add_assoc, Nat.add_comm 1]

/-- The APIC id at an index, zero beyond the table. -/
def idAt (i : ℕ) : ℕ := table.apicID.getD i 0

theorem map_idAt_range : (List.range table.processorCount).map table.idAt = table.apicID := by
  refine List.ext_getElem (by simp [processorCount]) fun i _ hi => ?_
  rw [List.getElem_map, List.getElem_range]
  exact List.getD_eq_getElem _ _ hi

theorem idAt_mem {i : ℕ} (hi : i < table.processorCount) : table.idAt i ∈ table.apicID := by
  rw [idAt, List.getD_eq_getElem _ _ hi]
  exact List.getElem_mem hi

theorem rrPreemptIPI_eq (tick : ℕ) : table.rrPreemptIPI tick =
    if table.idAt (tick % table.processorCount) < table.processorCount then
      .ok (.send (table.idAt (table.idAt (tick % table.processorCount))) IPI.preempt)
    else .error .outOfBounds := by
  have hlt : tick % table.processorCount < table.apicID.length :=
    Nat.mod_lt _ table.processorCount_pos
  have hid : table.idAt (tick % table.processorCount) = table.apicID[tick % table.processorCount] :=
    List.getD_eq_getElem _ _ hlt
  rw [rrPreemptIPI, List.getElem?_eq_getElem hlt, hid]
  dsimp only
  rw [sendIPI]
  split
  · rename_i hnone
    rw [if_neg (by simpa [processorCount] using hnone)]
  · rename_i id hsome
    obtain ⟨hlt', rfl⟩ := List.getElem?_eq_some_iff.mp hsome
    rw [if_pos (show _ < table.processorCount from hlt'), idAt, List.getD_eq_getElem _ _ hlt']

/-- **The interrupts of `n` ticks**: the id of each turn is an index, and the id found there is the
destination. -/
theorem rtcInterrupts_eq_ok {ipis : List IPI} : table.rtcInterrupts n tick = .ok ipis ↔
    (∀ k < n, table.idAt (table.turn (wadd tick 1) k) < table.processorCount) ∧
      ipis = (List.range n).map fun k =>
        IPI.send (table.idAt (table.idAt (table.turn (wadd tick 1) k))) IPI.preempt := by
  induction n generalizing tick ipis with
  | zero => simp [rtcInterrupts, eq_comm]
  | succ n ih =>
    have hfirst : wadd tick 1 % table.processorCount = table.turn (wadd tick 1) 0 := by
      rw [turn, Nat.add_zero,
        Nat.mod_eq_of_lt (show wadd tick 1 < wordSize from Nat.mod_lt _ (by decide))]
    rw [rtcInterrupts, rtcInterrupt, rrPreemptIPI_eq, hfirst, Nat.forall_lt_succ_left,
      List.range_succ_eq_map, List.map_cons, List.map_map]
    simp only [Function.comp_def, ← turn_wadd table (wadd tick 1)]
    split
    · rename_i e he
      split at he
      · cases he
      · rename_i hout
        exact ⟨fun h => (by cases h), fun h => absurd h.1.1 hout⟩
    · rename_i tick' ipi hok
      split at hok
      · rename_i hin
        cases hok
        constructor
        · intro h
          obtain ⟨rest, hrest, rfl⟩ := Fault.map_eq_ok h
          obtain ⟨hall, rfl⟩ := ih.mp hrest
          exact ⟨⟨hin, hall⟩, rfl⟩
        · rintro ⟨⟨-, hall⟩, rfl⟩
          rw [ih.mpr ⟨hall, rfl⟩]
          rfl
      · cases hok

/-! ## Every processor once -/

theorem add_mod_injOn {n v x y : ℕ} (hx : x < n) (hy : y < n) (h : (v + x) % n = (v + y) % n) :
    x = y :=
  (Nat.ModEq.add_left_cancel' v h).eq_of_lt_of_lt hx hy

/-- **The turns of `n` ticks in a row are different** unless the tick counter wraps round in
between. -/
theorem nodup_turns_iff (hv : tick < wordSize) :
    ((List.range table.processorCount).map (table.turn tick)).Nodup ↔
      tick + table.processorCount ≤ wordSize ∨ table.processorCount ∣ wordSize := by
  obtain ⟨n, hn⟩ : ∃ n, table.processorCount = n := ⟨_, rfl⟩
  have hpos : 0 < n := hn ▸ table.processorCount_pos
  have hturn : ∀ k, table.turn tick k = (tick + k) % wordSize % n := fun k => by rw [turn, hn]
  rw [List.nodup_map_iff_inj_on List.nodup_range, hn]
  simp only [List.mem_range, hturn]
  constructor
  · intro hinj
    by_contra hno
    rw [not_or, not_le] at hno
    obtain ⟨hwrap, hdvd⟩ := hno
    have hsplit : n * (wordSize / n) + wordSize % n = wordSize := Nat.div_add_mod _ _
    have hρ : 0 < wordSize % n := Nat.pos_of_ne_zero fun h => hdvd (Nat.dvd_of_mod_eq_zero h)
    have hρn : wordSize % n < n := Nat.mod_lt _ hpos
    generalize wordSize % n = ρ at hsplit hρ hρn
    obtain ⟨k, hk⟩ : ∃ k, tick + k = wordSize := ⟨wordSize - tick, by omega⟩
    -- the tick zero comes `k` ticks after `tick`; two turns on different sides of it are the same
    rcases le_or_gt ρ k with hle | hgt
    · have hbefore : (tick + (k - ρ)) % wordSize % n = 0 := by
        rw [show tick + (k - ρ) = n * (wordSize / n) by omega,
          Nat.mod_eq_of_lt (show n * (wordSize / n) < wordSize by omega), Nat.mul_mod_right]
      have hzero : (tick + k) % wordSize % n = 0 := by rw [hk, Nat.mod_self, Nat.zero_mod]
      have := hinj (k - ρ) (by omega) k (by omega) (hbefore.trans hzero.symm)
      omega
    · have hbefore : (tick + 0) % wordSize % n = ρ - k := by
        rw [Nat.add_zero, Nat.mod_eq_of_lt hv, show tick = ρ - k + n * (wordSize / n) by omega,
          Nat.add_mul_mod_self_left, Nat.mod_eq_of_lt (by omega)]
      have hafter : (tick + ρ) % wordSize % n = ρ - k := by
        rw [show tick + ρ = ρ - k + wordSize by omega, Nat.add_mod_right,
          Nat.mod_eq_of_lt (show ρ - k < wordSize by omega), Nat.mod_eq_of_lt (by omega)]
      have := hinj 0 hpos ρ hρn (hbefore.trans hafter.symm)
      omega
  · rintro (hwrap | hdvd) x hx y hy hxy
    · rw [Nat.mod_eq_of_lt (show tick + x < wordSize by omega),
        Nat.mod_eq_of_lt (show tick + y < wordSize by omega)] at hxy
      exact add_mod_injOn hx hy hxy
    · rw [Nat.mod_mod_of_dvd _ hdvd, Nat.mod_mod_of_dvd _ hdvd] at hxy
      exact add_mod_injOn hx hy hxy

theorem perm_range {l : List ℕ} {n : ℕ} (hlen : l.length = n) (hnodup : l.Nodup)
    (hlt : ∀ x ∈ l, x < n) : l.Perm (List.range n) :=
  (hnodup.subperm fun x hx => List.mem_range.mpr (hlt x hx)).perm_of_length_le
    (by rw [List.length_range, hlen])

/-- The turns of a round, and the destinations that they lead to. -/
def turns (tick : ℕ) : List ℕ := (List.range table.processorCount).map (table.turn tick)

def dests (tick : ℕ) : List ℕ := (table.turns tick).map fun i => table.idAt (table.idAt i) % 2 ^ 8

theorem turns_perm (h : (table.turns tick).Nodup) :
    (table.turns tick).Perm (List.range table.processorCount) :=
  perm_range (by simp [turns]) h fun x hx => by
    obtain ⟨k, -, rfl⟩ := List.mem_map.mp hx
    exact table.turn_lt tick k

/-- The ids of a table are all indices if those met in a round are. -/
theorem ids_perm (h : ∀ id ∈ table.apicID, id < table.processorCount) :
    table.apicID.Perm (List.range table.processorCount) := perm_range rfl table.nodup h

/-- **A round that leads to every id once.** -/
theorem dests_perm_iff (hv : tick < wordSize) :
    ((∀ i ∈ table.turns tick, table.idAt i < table.processorCount) ∧
      table.apicID.Perm (table.dests tick)) ↔ (∀ id ∈ table.apicID, id < table.processorCount) ∧
      table.processorCount ≤ 2 ^ 8 ∧
      (tick + table.processorCount ≤ wordSize ∨ table.processorCount ∣ wordSize) := by
  rw [← table.nodup_turns_iff hv]
  constructor
  · rintro ⟨hin, hperm⟩
    have hturns : (table.turns tick).Nodup := List.Nodup.of_map _ (hperm.nodup_iff.mp table.nodup)
    have hmeet : table.apicID.Perm ((table.turns tick).map table.idAt) := by
      rw [← table.map_idAt_range]
      exact ((table.turns_perm hturns).map _).symm
    have hlt : ∀ id ∈ table.apicID, id < table.processorCount := fun id hid => by
      obtain ⟨i, hi, rfl⟩ := List.mem_map.mp (hmeet.mem_iff.mp hid)
      exact hin i hi
    refine ⟨hlt, ?_, hturns⟩
    -- the largest index is an id, and a destination is a byte
    have hpos := table.processorCount_pos
    have hlast : table.processorCount - 1 ∈ table.apicID :=
      (table.ids_perm hlt).mem_iff.mpr (List.mem_range.mpr (by omega))
    obtain ⟨i, -, hi⟩ := List.mem_map.mp (hperm.mem_iff.mp hlast)
    have : table.idAt (table.idAt i) % 2 ^ 8 < 2 ^ 8 := Nat.mod_lt _ (by decide)
    omega
  · rintro ⟨hlt, hbyte, hturns⟩
    have hin : ∀ i ∈ table.turns tick, table.idAt i < table.processorCount := fun i hi =>
      hlt _ (table.idAt_mem (List.mem_range.mp ((table.turns_perm hturns).mem_iff.mp hi)))
    refine ⟨hin, ?_⟩
    have hids :
        ((List.range table.processorCount).map table.idAt).Perm
        (List.range table.processorCount) := by
      rw [table.map_idAt_range]
      exact table.ids_perm hlt
    have hdests : table.dests tick = ((table.turns tick).map table.idAt).map table.idAt := by
      rw [dests, List.map_map]
      refine List.map_congr_left fun i hi => Nat.mod_eq_of_lt ?_
      exact lt_of_lt_of_le (hlt _ (table.idAt_mem (hin i hi))) hbyte
    calc table.apicID = (List.range table.processorCount).map table.idAt :=
          table.map_idAt_range.symm
      _ |>.Perm (((List.range table.processorCount).map table.idAt).map table.idAt) :=
          (hids.map _).symm
      _ |>.Perm (table.dests tick) := by
        rw [hdests]
        exact (((table.turns_perm hturns).map _).map _).symm

/-- **Round-robin preemption reaches every processor once in `n` ticks exactly if the APIC ids are
indices** — and bytes, and the tick counter does not wrap round within the `n` ticks (or `n` divides
`2 ^ 64`). -/
theorem rrPreempt_reaches_all_iff :
    (∃ ipis, table.rtcInterrupts table.processorCount tick = .ok ipis ∧
      ∀ id ∈ table.apicID, ipis.count ⟨id, IPI.preempt⟩ = 1) ↔
      (∀ id ∈ table.apicID, id < table.processorCount) ∧ table.processorCount ≤ 2 ^ 8 ∧
      (wadd tick 1 + table.processorCount ≤ wordSize ∨ table.processorCount ∣ wordSize) := by
  have hv : wadd tick 1 < wordSize := Nat.mod_lt _ (by decide)
  have hipis : ((List.range table.processorCount).map fun k =>
      IPI.send (table.idAt (table.idAt (table.turn (wadd tick 1) k))) IPI.preempt) =
      (table.dests (wadd tick 1)).map fun id => IPI.mk id IPI.preempt := by
    rw [dests, turns, List.map_map, List.map_map]
    rfl
  have hinj : Function.Injective fun id => IPI.mk id IPI.preempt := fun _ _ h => (IPI.mk.inj h).1
  have hlen : (table.dests (wadd tick 1)).length = table.apicID.length := by
    simp [dests, turns, processorCount]
  rw [← table.dests_perm_iff hv]
  constructor
  · rintro ⟨ipis, hok, hcount⟩
    obtain ⟨hin, rfl⟩ := table.rtcInterrupts_eq_ok.mp hok
    refine ⟨fun i hi => ?_, (table.nodup.subperm fun id hid => ?_).perm_of_length_le hlen.le⟩
    · obtain ⟨k, hk, rfl⟩ := List.mem_map.mp hi
      exact hin k (List.mem_range.mp hk)
    · have := hcount id hid
      rw [hipis, List.count_map_of_injective _ _ hinj] at this
      exact List.count_pos_iff.mp (by omega)
  · rintro ⟨hin, hperm⟩
    refine ⟨_, table.rtcInterrupts_eq_ok.mpr
      ⟨fun k hk => hin _ (List.mem_map_of_mem (List.mem_range.mpr hk)), rfl⟩, fun id hid => ?_⟩
    rw [hipis, List.count_map_of_injective _ _ hinj, ← hperm.count_eq]
    exact List.count_eq_one_of_mem table.nodup hid

/-- Two processors with the APIC ids 0 and 2. -/
def evenIds : ProcessorTable := ⟨[0, 2], by decide, by decide⟩

/-- **The first tick indexes the table with an APIC id**, beyond its end. -/
theorem rrPreempt_evenIds : evenIds.rtcInterrupts 2 0 = .error .outOfBounds := by decide

end ProcessorTable

end Kos
