import KosKernel.Gdb.Server

/-!
# Gdb/Replies — how long the replies are

The replies are built in `out`, which has 4096 bytes.  All of them are short but two: the text of
`m` has two digits for each byte that the packet asks for, and the list of the processors has three
characters for each of them.  Neither length is tested (`reply_fits_iff`).
-/

namespace Kos

namespace Gdb

/-- The `k`-th address from `addr` on can be read. -/
def Host.Readable (h : Host) (addr k : ℕ) : Prop := h.readable ((addr + k) % wordSize) = true

namespace Server

variable {h : Host} {s : Server} {o : Outcome} {self sigval : ℕ}

/-! ## Reading memory -/

theorem readable_zero {addr : ℕ} (haddr : addr < wordSize) : h.Readable addr 0 ↔
      h.readable addr = true := by
  rw [Host.Readable, Nat.add_zero, Nat.mod_eq_of_lt haddr]

theorem readable_succ {addr k : ℕ} : h.Readable (wadd addr 1) k ↔ h.Readable addr (k + 1) := by
  rw [Host.Readable, Host.Readable, wadd, Nat.mod_add_mod, Nat.add_assoc, Nat.add_comm 1 k]

/-- **How far `mem2hex` gets**: to the first address that it cannot read, if there is one. -/
theorem readLoop_length {mem : ℕ → UInt8} {bytes : List UInt8} {faulted : Bool} :
    ∀ {count addr : ℕ}, addr < wordSize → readLoop h.readable mem count addr = (bytes, faulted) →
    (∀ k < bytes.length, h.Readable addr k) ∧ if faulted then bytes.length < count ∧
      ¬h.Readable addr bytes.length else bytes.length = count := by
  intro count
  induction count generalizing bytes with
  | zero =>
    intro addr _ hread
    cases hread
    exact ⟨by simp, rfl⟩
  | succ count ih =>
    intro addr haddr hread
    rw [readLoop] at hread
    split at hread
    · rename_i hfirst
      cases hrest : readLoop h.readable mem count (wadd addr 1) with
      | mk rest f =>
      rw [hrest] at hread
      cases hread
      obtain ⟨hall, hend⟩ := ih (Nat.mod_lt _ (by decide)) hrest
      refine ⟨fun k hk => ?_, ?_⟩
      · cases k with
        | zero => exact (readable_zero haddr).mpr hfirst
        | succ k => exact readable_succ.mp (hall k (by simpa using hk))
      · rw [List.length_cons]
        split
        · rename_i hfault
          rw [if_pos hfault] at hend
          exact ⟨by omega, fun hr => hend.2 (readable_succ.mpr hr)⟩
        · rename_i hfault
          rw [if_neg hfault] at hend
          omega
    · rename_i hfirst
      cases hread
      exact ⟨by simp, by simp, fun hr => hfirst ((readable_zero haddr).mp hr)⟩

/-- The bytes of memory that a packet asks for. -/
def memoryRange : List Char → Option (ℕ × ℕ)
  | 'm' :: ptr => (addrLength ptr).map fun (addr, length, _) => (addr, intCount length)
  | _ => none

/-- The condition: there are at most 2047 bytes to be read, or one of the first 2049 cannot be read;
and the list is for at most 1365 processors. -/
structure Fits (h : Host) (packet : List Char) : Prop where
  memory : ∀ addr count, memoryRange packet = some (addr, count) →
    count ≤ 2047 ∨ ∃ k ≤ 2048, k < count ∧ ¬h.Readable addr k
  list : asksForAll packet = true → h.count ≤ 1365

variable {ptr : List Char}

theorem handleReadMemory_fits_iff :
    (s.handleReadMemory h ptr).out.extent ≤ 4096 ↔
      ∀ addr count, memoryRange ('m' :: ptr) = some (addr, count) →
      count ≤ 2047 ∨ ∃ k ≤ 2048, k < count ∧ ¬h.Readable addr k := by
  cases haddr : addrLength ptr with
  | none =>
    simp only [handleReadMemory, haddr, memoryRange]
    exact iff_of_true (by simp [reply, Out.strcpy, Out.write]) (by simp)
  | some p =>
    obtain ⟨addr, length, rest⟩ := p
    have hlt := addrLength_lt haddr
    have hrange : (∀ addr' count, memoryRange ('m' :: ptr) = some (addr', count) →
        count ≤ 2047 ∨ ∃ k ≤ 2048, k < count ∧ ¬h.Readable addr' k) ↔
        (intCount length ≤ 2047 ∨ ∃ k ≤ 2048, k < intCount length ∧ ¬h.Readable addr k) := by
      simp [memoryRange, haddr]
    rw [hrange]
    simp only [handleReadMemory, haddr]
    cases hread : readLoop h.readable s.stub.mem (intCount length) addr with
    | mk bytes faulted =>
    obtain ⟨hall, hend⟩ := readLoop_length hlt hread
    cases faulted with
    | false =>
      have hcount : bytes.length = intCount length := hend
      simp only [reply, Out.write, length_hexText, Bool.false_eq_true, if_false]
      constructor
      · intro hle
        exact .inl (by omega)
      · rintro (hle | ⟨k, -, hk, hno⟩)
        · omega
        · exact absurd (hall k (hcount ▸ hk)) hno
    | true =>
      obtain ⟨hlen, hno⟩ : bytes.length < intCount length ∧ ¬h.Readable addr bytes.length := hend
      simp only [reply, if_true]
      constructor
      · intro hle
        exact .inr ⟨bytes.length, by omega, hlen, hno⟩
      · rintro (hle | ⟨k, hk, -, hno'⟩)
        · omega
        · have : bytes.length ≤ k := not_lt.mp fun hlt => hno' (hall k hlt)
          omega

/-! ## The other packets -/

theorem length_threadList (n : ℕ) : (threadList (n + 1)).length = 3 * (n + 1) := by
  induction n with
  | zero => rfl
  | succ n ih =>
    rw [threadList, List.length_cons] at ih ⊢
    rw [List.range_succ, List.flatMap_append, List.length_append, List.flatMap_singleton,
      if_pos n.succ_pos]
    have hpair : ([','] ++ hexPair (n + 1 + 1)).length = 3 := rfl
    omega

theorem threadList_fits_iff (count : ℕ) : (Out.write (threadList count)).extent ≤ 4096 ↔
      count ≤ 1365 := by
  cases count with
  | zero => decide
  | succ n =>
    simp only [Out.write, length_threadList]
    omega

/-- What the packets for breakpoints and memory writes are answered with. -/
def Answer (r : String) : Prop := r = "" ∨ r = "OK" ∨ r = "E01"

variable {stub : Stub} {result : String × Stub}

theorem handleSetSoftBreak_answer {t : Target} (hr : handleSetSoftBreak t stub ptr = .ok result) :
    Answer result.1 := by
  rw [handleSetSoftBreak] at hr
  split at hr
  · exact Except.ok.inj hr ▸ .inr (.inr rfl)
  · split at hr
    · dsimp only at hr
      split at hr
      · cases hr
      split at hr
      · exact Except.ok.inj hr ▸ .inr (.inl rfl)
      · exact Except.ok.inj hr ▸ .inr (.inr rfl)
    · exact Except.ok.inj hr ▸ .inr (.inr rfl)

theorem handleRemoveSoftBreak_answer {t : Target}
    (hr : handleRemoveSoftBreak t stub ptr = .ok result) : Answer result.1 := by
  rw [handleRemoveSoftBreak] at hr
  split at hr
  · exact Except.ok.inj hr ▸ .inr (.inr rfl)
  · split at hr
    · exact Except.ok.inj hr ▸ .inr (.inr rfl)
    · split at hr
      · exact Except.ok.inj hr ▸ .inr (.inl rfl)
      · exact Except.ok.inj hr ▸ .inr (.inr rfl)

theorem softBreak_answer {handler : List Char → Except Fault (String × Stub)}
    (hhandler : ∀ ptr result, handler ptr = .ok result → Answer result.1)
    (hr : softBreak stub handler ptr = .ok result) : Answer result.1 := by
  rw [softBreak] at hr
  split at hr
  · exact Except.ok.inj hr ▸ .inl rfl
  · split at hr
    · exact hhandler _ _ hr
    · exact Except.ok.inj hr ▸ .inr (.inr rfl)

theorem handleWriteMemory_answer (t : Target) (stub : Stub) (ptr : List Char) :
    Answer (handleWriteMemory t stub ptr).1 := by
  rw [handleWriteMemory]
  split
  · exact .inr (.inr rfl)
  · split
    · dsimp only
      split
      · exact .inr (.inr rfl)
      · exact .inr (.inl rfl)
    · exact .inr (.inr rfl)

theorem handlePacket_answer {t : Target} {packet : List Char}
    (hr : Gdb.handlePacket t stub packet = .ok result) : Answer result.1 := by
  unfold Gdb.handlePacket at hr
  split at hr
  · exact Except.ok.inj hr ▸ handleWriteMemory_answer _ _ _
  · exact softBreak_answer (fun _ _ => handleSetSoftBreak_answer) hr
  · exact softBreak_answer (fun _ _ => handleRemoveSoftBreak_answer) hr
  · exact Except.ok.inj hr ▸ .inl rfl

theorem withStub_extent (hr : Answer result.1) : (s.withStub result).out.extent ≤ 4 := by
  have hout : (s.withStub result).out = if result.1 = "" then .empty else .strcpy result.1 := rfl
  rw [hout]
  obtain hr | hr | hr := hr
  · rw [hr]
    decide
  · rw [hr]
    decide
  · rw [hr]
    decide

theorem parse_extent {v : VCont} {result : Out × VCont} (hr : v.parse ptr = .ok result) :
    result.1.extent ≤ 14 := by
  have hempty {v' : VCont} (hr : (.ok (Out.empty, v') : Except Fault (Out × VCont)) = .ok result) :
      result.1.extent ≤ 14 :=
    Except.ok.inj hr ▸ (by decide : 1 ≤ 14)
  rw [VCont.parse] at hr
  split at hr
  · dsimp only at hr
    split at hr
    · exact Except.ok.inj hr ▸ (by decide : (Out.strcpy "vCont;c;C;s;S").extent ≤ 14)
    · split at hr
      · cases hr
      split at hr
      · split at hr
        · exact hempty hr
        · split at hr
          · exact hempty hr
          · exact hempty hr
      · exact hempty hr
  · exact hempty hr

theorem length_regSlice (regs : ℕ → UInt8) (offset count : ℕ) :
    (regSlice regs offset count).length = count := by
  rw [regSlice, List.length_map, List.length_range']

theorem register_width {regno offset width : ℕ} (hreg : register regno = some (offset, width)) :
    width ≤ 8 := by
  rw [register] at hreg
  split at hreg
  · cases hreg
    exact le_rfl
  · obtain ⟨-, hreg⟩ := Option.ite_none_right_eq_some.mp hreg
    cases hreg
    decide

theorem registerAt_width {input rest : List Char} {offset width : ℕ}
    (hreg : registerAt input = some ((offset, width), rest)) : width ≤ 8 := by
  obtain ⟨⟨regno, input'⟩, -, hreg⟩ := Option.bind_eq_some_iff.mp hreg
  obtain ⟨-, hreg⟩ := Option.ite_none_right_eq_some.mp hreg
  obtain ⟨reg, hreg, heq⟩ := Option.map_eq_some_iff.mp hreg
  obtain ⟨rfl, -⟩ := Prod.mk.inj heq
  exact register_width hreg

theorem fits_of_none {packet : List Char} (hm : memoryRange packet = none)
    (hq : asksForAll packet = false) : Fits h packet :=
  ⟨by simp [hm], by simp [hq]⟩

/-- **Two replies have no bound.**  Every reply fits into `out` if and only if the packet meets the
condition: an `m` packet for too many bytes, or for too many before the first that cannot be read,
writes beyond the end, and so does the list of too many processors. -/
theorem reply_fits_iff {packet : List Char} (ho : s.handlePacket h self sigval packet = .ok o) :
    o.out.extent ≤ 4096 ↔ Fits h packet := by
  have hshort (n : ℕ) (hn : n ≤ 4096) (hle : o.out.extent ≤ n) (hm : memoryRange packet = none)
      (hq : asksForAll packet = false) : o.out.extent ≤ 4096 ↔ Fits h packet :=
    iff_of_true (hle.trans hn) (fits_of_none hm hq)
  unfold handlePacket at ho
  split at ho
  · obtain ⟨o', ho', rfl⟩ := Fault.map_eq_ok ho
    obtain ⟨hall, rfl⟩ | ⟨hno, hshort' | ⟨_, -, -, hle⟩⟩ := handleQuery_cases ho'
    · refine (threadList_fits_iff h.count).trans
        ⟨fun hcount => ⟨by simp [memoryRange], fun _ => hcount⟩, ?_⟩
      exact fun hfits => hfits.list hall
    · exact hshort 43 (by decide) hshort'.1 rfl hno
    · exact hshort 79 (by decide) hle rfl hno
  · obtain ⟨result, hr, rfl⟩ := Fault.map_eq_ok ho
    exact hshort 14 (by decide) (parse_extent hr) rfl rfl
  · cases ho
    refine hshort 4 (by decide) ?_ rfl rfl
    rw [handleThreadAlive]
    split
    · split
      · exact (by decide : 3 ≤ 4)
      · exact le_rfl
    · exact le_rfl
  · cases ho
    refine hshort 34 (by decide) ?_ rfl rfl
    simp [handleReasonTargetHalted, Out.write, length_hexText, length_regSlice, hexPair]
  · cases ho
    refine hshort 329 (by decide) ?_ rfl rfl
    simp [handleReadRegisters, Out.write, length_hexText, length_regSlice, regBytes]
  · cases ho
    exact hshort 3 (by decide) le_rfl rfl rfl
  · cases ho
    refine hshort 17 (by decide) ?_ rfl rfl
    rw [handleReadRegister]
    split
    · rename_i hreg
      have hwidth := registerAt_width hreg
      simp only [Out.write, length_hexText, length_regSlice]
      omega
    · exact (by decide : 4 ≤ 17)
  · cases ho
    refine hshort 4 (by decide) ?_ rfl rfl
    rw [handleWriteRegister]
    split
    · exact (by decide : 3 ≤ 4)
    · exact le_rfl
  · cases ho
    refine hshort 4 (by decide) ?_ rfl rfl
    rw [handleH]
    split
    · exact (by decide : 3 ≤ 4)
    · exact le_rfl
  · cases ho
    exact handleReadMemory_fits_iff.trans ⟨fun hm => ⟨hm, by simp [asksForAll]⟩,
      fun hfits => hfits.memory⟩
  · cases ho
    exact hshort 1 (by decide) le_rfl rfl rfl
  · obtain ⟨result, hr, rfl⟩ := Fault.map_eq_ok ho
    exact hshort 4 (by decide) (withStub_extent (handlePacket_answer hr)) rfl rfl
  · obtain ⟨result, hr, rfl⟩ := Fault.map_eq_ok ho
    exact hshort 4 (by decide) (withStub_extent (handlePacket_answer hr)) rfl rfl
  · obtain ⟨result, hr, rfl⟩ := Fault.map_eq_ok ho
    exact hshort 4 (by decide) (withStub_extent (handlePacket_answer hr)) rfl rfl
  · rename_i hq _ _ _ _ _ _ _ _ hm _ _ _ _
    cases ho
    refine hshort 4 (by decide) le_rfl ?_ ?_
    · rw [memoryRange]
      exact hm
    · rw [asksForAll]
      exact hq

/-- One processor that can read everything. -/
def allReadable : Host := ⟨fun _ => true, fun _ => true, 1⟩

theorem reply_fits_iff_m : ∃ o, fresh.handlePacket allReadable 0 5 "m1000,10".toList = .ok o ∧
    o.out.extent ≤ 4096 := by
  have hrange : memoryRange "m1000,10".toList = some (0x1000, 16) := by decide
  have ho : fresh.handlePacket allReadable 0 5 "m1000,10".toList =
      .ok (fresh.unselect.handleReadMemory allReadable "1000,10".toList) := rfl
  refine ⟨_, ho, (reply_fits_iff ho).mpr ⟨fun addr count h => .inl ?_, ?_⟩⟩
  · obtain ⟨-, rfl⟩ := Prod.mk.inj (Option.some.inj (hrange.symm.trans h))
    decide
  · exact fun h => absurd h (by decide)

/-- **Beyond the end**: the digits of 2048 bytes and their zero. -/
theorem reply_past_out : ∃ o, fresh.handlePacket allReadable 0 5 "m0,800".toList = .ok o ∧
    4096 < o.out.extent := by
  have ho : fresh.handlePacket allReadable 0 5 "m0,800".toList =
      .ok (fresh.unselect.handleReadMemory allReadable "0,800".toList) := rfl
  have hrange : memoryRange ('m' :: "0,800".toList) = some (0, 2048) := by decide
  refine ⟨_, ho, not_le.mp fun hle => ?_⟩
  obtain hle | ⟨k, -, -, hno⟩ := handleReadMemory_fits_iff.mp hle 0 2048 hrange
  · exact absurd hle (by decide)
  · exact hno rfl

end Server

end Gdb

end Kos
