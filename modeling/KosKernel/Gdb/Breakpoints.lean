import KosKernel.Machine.Memory
import KosKernel.Machine.SpinLock
import KosKernel.Lib.Runs
import Mathlib.Data.List.Infix

/-!
# Gdb/Breakpoints — software breakpoints of the debugger stub

The `Z0`, `z0` and `M` packets of `gdb/Gdb.cc`, from the text in the packet buffer on.  Setting a
breakpoint saves the byte at its address in `bpMap` and writes `0xCC` over it; removing it writes
the saved byte back and keeps the entry.

Seen from one address a run is the list of the sets and removes there (`history`).  A set that
follows a set saves the `0xCC` of the first one, and the byte that was there is lost
(`softBreak_transparent_iff`).
-/

namespace Kos

open Function Runs

namespace Gdb

/-! ## The code -/

/-- `char2hex`. -/
def char2hex (ch : Char) : ℤ :=
  if '0' ≤ ch ∧ ch ≤ '9' then ch.toNat - '0'.toNat
  else if 'a' ≤ ch ∧ ch ≤ 'f' then ch.toNat - 'a'.toNat + 10
  else if 'A' ≤ ch ∧ ch ≤ 'F' then ch.toNat - 'A'.toNat + 10
  else -1

/-- A digit is below 16, and it is not behind `f`. -/
theorem char2hex_range (ch : Char) : char2hex ch < 16 ∧ (0 ≤ char2hex ch → ch.toNat < 103) := by
  have hle {c d : Char} (h : c ≤ d) : c.toNat ≤ d.toNat := h
  have hdigit : '0'.toNat = 48 ∧ '9'.toNat = 57 := ⟨rfl, rfl⟩
  have hlower : 'a'.toNat = 97 ∧ 'f'.toNat = 102 := ⟨rfl, rfl⟩
  have hupper : 'A'.toNat = 65 ∧ 'F'.toNat = 70 := ⟨rfl, rfl⟩
  unfold char2hex
  split_ifs with h₁ h₂ h₃
  · have := hle h₁.2
    omega
  · have := hle h₂.2
    omega
  · have := hle h₃.2
    omega
  · omega

/-- The loop of `hexToInt`: the number of digits, their value as a `long`, and the rest of the
buffer. -/
def hexLoop : List Char → ℕ → ℕ → ℕ × ℕ × List Char
  | [], numChars, intValue => (numChars, intValue, [])
  | ch :: rest, numChars, intValue =>
    if 0 ≤ char2hex ch then
      hexLoop rest (numChars + 1) ((intValue * 16 + (char2hex ch).toNat) % wordSize)
    else (numChars, intValue, ch :: rest)

/-- `hexToInt`: the value and the rest, if there is a digit. -/
def hexToInt (ptr : List Char) : Option (ℕ × List Char) :=
  match hexLoop ptr 0 0 with
  | (numChars, intValue, rest) => if numChars = 0 then none else some (intValue, rest)

/-- `hexToInt(&in, &addr) && *in++ == ',' && hexToInt(&in, &length)`. -/
def addrLength (input : List Char) : Option (ℕ × ℕ × List Char) :=
  (hexToInt input).bind fun (addr, rest) =>
    if rest.head? = some ',' then
      (hexToInt rest.tail).map fun (length, rest) => (addr, length, rest)
    else none

/-- The addresses `get_char` and `set_char` can access without a fault, and the address of
`_Unwind_DebugHook`. -/
structure Target where
  readable : ℕ → Bool
  writable : ℕ → Bool
  hookAddr : ℕ

/-- Memory, `bpMap` and `_Unwind_DebugHook_break`. -/
structure Stub where
  mem : ℕ → UInt8
  bpMap : ℕ → Option UInt8
  hookBreak : Bool

variable (t : Target) (s : Stub)

/-- `handleSetSoftBreak`: the reply and the new state.  The loop of the source returns after one
address. -/
def handleSetSoftBreak (input : List Char) : Except Fault (String × Stub) :=
  match addrLength input with
  | none => .ok ("E01", s)
  | some (addr, length, _) =>
    if t.readable addr then
      let opCode := s.mem addr
      let s := { s with bpMap := update s.bpMap addr (some opCode) }
      if length ≠ 1 then .error .kassert
      else if t.writable addr then
        .ok ("OK", { s with
          mem := update s.mem addr 0xCC
          hookBreak := addr = t.hookAddr || s.hookBreak })
      else .ok ("E01", s)
    else .ok ("E01", s)

/-- `handleRemoveSoftBreak`; the entry of `bpMap` stays. -/
def handleRemoveSoftBreak (input : List Char) : Except Fault (String × Stub) :=
  match addrLength input with
  | none => .ok ("E01", s)
  | some (addr, _, _) =>
    match s.bpMap addr with
    | none => .ok ("E01", s)
    | some opCode =>
      if t.writable addr then
        .ok ("OK", { s with
          mem := update s.mem addr opCode
          hookBreak := !decide (addr = t.hookAddr) && s.hookBreak })
      else .ok ("E01", s)

/-- The byte of two digits; `char2hex` of anything else is `-1`. -/
def hexByte (a b : Char) : UInt8 := .ofNat ((char2hex a * 16 + char2hex b) % 256).toNat

/-- `hex2mem` with the fault handler enabled: the memory, and whether the handler was called. -/
def hex2mem (t : Target) : ℕ → List Char → ℕ → (ℕ → UInt8) → (ℕ → UInt8) × Bool
  | 0, _, _, mem => (mem, false)
  | count + 1, buf, addr, mem =>
    if t.writable addr then
      hex2mem t count (buf.drop 2) (wadd addr 1)
        (update mem addr (hexByte (buf.getD 0 '\x00') (buf.getD 1 '\x00')))
    else (mem, true)

/-- The iterations of a loop up to an `int` that is given as a `long`. -/
def intCount (length : ℕ) : ℕ := if length % 2 ^ 32 < 2 ^ 31 then length % 2 ^ 32 else 0

/-- `handleWriteMemory`. -/
def handleWriteMemory (input : List Char) : String × Stub :=
  match addrLength input with
  | none => ("E01", s)
  | some (addr, length, rest) =>
    if rest.head? = some ':' then
      let (mem, faulted) := hex2mem t (intCount length) rest.tail addr s.mem
      (if faulted then "E01" else "OK", { s with mem })
    else ("E01", s)

/-- The cases `Z` and `z` of `handlePacket`: only type `0` has a handler. -/
def softBreak (handler : List Char → Except Fault (String × Stub)) (ptr : List Char) :
    Except Fault (String × Stub) :=
  match hexToInt ptr with
  | none => .ok ("", s)
  | some (type, rest) => if type = 0 then handler rest.tail else .ok ("E01", s)

/-- The cases `M`, `Z` and `z` of `handlePacket`.  The other packets leave memory and `bpMap` alone;
`Server.handlePacket` answers them. -/
def handlePacket : List Char → Except Fault (String × Stub)
  | 'M' :: ptr => .ok (handleWriteMemory t s ptr)
  | 'Z' :: ptr => softBreak s (handleSetSoftBreak t s) ptr
  | 'z' :: ptr => softBreak s (handleRemoveSoftBreak t s) ptr
  | _ => .ok ("", s)

/-- A step of a session: a packet whose handling returns. -/
def step (packet : List Char) : Option Stub :=
  (handlePacket t s packet).toOption.map Prod.snd

/-! ## What a packet is about -/

/-- The address of a breakpoint packet, after its first letter. -/
def breakAddr (ptr : List Char) : Option ℕ :=
  match hexToInt ptr with
  | none => none
  | some (type, rest) => if type = 0 then (addrLength rest.tail).map Prod.fst else none

/-- A packet that sets (`true`) or removes (`false`) a breakpoint, and where. -/
def breakEvent : List Char → Option (Bool × ℕ)
  | 'Z' :: ptr => (breakAddr ptr).map (true, ·)
  | 'z' :: ptr => (breakAddr ptr).map (false, ·)
  | _ => none

/-- The first address an `M` packet writes to, and how many there are. -/
def writeRange : List Char → ℕ × ℕ
  | 'M' :: ptr =>
    match addrLength ptr with
    | none => (0, 0)
    | some (addr, length, rest) => if rest.head? = some ':' then (addr, intCount length) else (0, 0)
  | _ => (0, 0)

def Writes (a : ℕ) (p : List Char) : Prop :=
  ∃ i < (writeRange p).2, a = ((writeRange p).1 + i) % wordSize

instance (a : ℕ) (p : List Char) : Decidable (Writes a p) :=
  inferInstanceAs (Decidable (∃ i < (writeRange p).2, a = ((writeRange p).1 + i) % wordSize))

/-- The sets and removes at one address, in order. -/
def history (a : ℕ) (packets : List (List Char)) : List Bool :=
  packets.filterMap fun p => (breakEvent p).bind fun (set, addr) => if addr = a then some set
    else none

/-! ## A session seen from one address -/

variable {t : Target} {s s' : Stub} {a : ℕ}

/-- The byte at an address and its entry of `bpMap`, after a set or a remove there. -/
def atAddr (t : Target) (a : ℕ) : Bool → UInt8 × Option UInt8 → UInt8 × Option UInt8
  | true, (byte, saved) =>
    if t.readable a then (if t.writable a then 0xCC else byte, some byte) else (byte, saved)
  | false, (byte, saved) =>
    (if t.writable a then saved.getD byte else byte, saved)

/-- A parsed number fits a `long`. -/
theorem hexLoop_lt : ∀ (ptr : List Char) (n v : ℕ), v < wordSize → (hexLoop ptr n v).2.1 < wordSize
  | [], _, _, hv => hv
  | ch :: rest, n, v, hv => by
    rw [hexLoop]
    split
    · exact hexLoop_lt rest _ _ (Nat.mod_lt _ (by decide))
    · exact hv

variable {ptr : List Char}

theorem hexToInt_lt {rest : List Char} {v : ℕ} (h : hexToInt ptr = some (v, rest)) :
    v < wordSize := by
  have hlt := hexLoop_lt ptr 0 0 (by decide)
  rw [hexToInt] at h
  split at h
  rename_i heq
  rw [heq] at hlt
  obtain ⟨-, h⟩ := Option.ite_none_left_eq_some.mp h
  cases h
  exact hlt

variable {input : List Char}

theorem addrLength_lt {rest : List Char} {addr length : ℕ}
    (h : addrLength input = some (addr, length, rest)) : addr < wordSize := by
  obtain ⟨⟨v, r⟩, hv, h⟩ := Option.bind_eq_some_iff.mp h
  obtain ⟨-, h⟩ := Option.ite_none_right_eq_some.mp h
  obtain ⟨q, -, hq⟩ := Option.map_eq_some_iff.mp h
  cases hq
  exact hexToInt_lt hv

/-- `hex2mem` writes nowhere else. -/
theorem hex2mem_of_ne (t : Target) (count : ℕ) : ∀ (buf : List Char) {addr : ℕ} (mem : ℕ → UInt8),
    addr < wordSize → (∀ i < count, a ≠ (addr + i) % wordSize) →
    (hex2mem t count buf addr mem).1 a = mem a := by
  induction count with
  | zero => intros; rfl
  | succ count ih =>
    intro buf addr mem haddr hne
    rw [hex2mem]
    split
    · have h0 : a ≠ addr := by simpa [Nat.mod_eq_of_lt haddr] using hne 0 (by omega)
      rw [ih _ _ (show wadd addr 1 < wordSize from Nat.mod_lt _ (by decide)), update_of_ne h0]
      intro i hi
      rw [wadd, Nat.mod_add_mod, Nat.add_assoc, Nat.add_comm 1]
      exact hne (i + 1) (by omega)
    · rfl

variable {reply : String}

theorem handleSetSoftBreak_at (h : handleSetSoftBreak t s input = .ok (reply, s')) :
    (s'.mem a, s'.bpMap a) = if (addrLength input).map Prod.fst = some a
      then atAddr t a true (s.mem a, s.bpMap a) else (s.mem a, s.bpMap a) := by
  unfold handleSetSoftBreak at h
  cases hp : addrLength input with
  | none =>
    rw [hp] at h
    cases h
    rfl
  | some q =>
    obtain ⟨addr, length, rest⟩ := q
    rw [hp] at h
    dsimp only at h
    simp only [Option.map_some, Option.some.injEq]
    by_cases ha : addr = a
    · subst ha
      rw [if_pos rfl, atAddr]
      split at h
      · split at h
        · cases h
        split at h
        · cases h
          simp [*]
        · cases h
          simp [*]
      · cases h
        simp [*]
    · rw [if_neg ha]
      have hne : a ≠ addr := Ne.symm ha
      split at h
      · split at h
        · cases h
        split at h <;>
        · cases h
          simp [hne]
      · cases h
        rfl

theorem handleRemoveSoftBreak_at (h : handleRemoveSoftBreak t s input = .ok (reply, s')) :
    (s'.mem a, s'.bpMap a) = if (addrLength input).map Prod.fst = some a
      then atAddr t a false (s.mem a, s.bpMap a) else (s.mem a, s.bpMap a) := by
  unfold handleRemoveSoftBreak at h
  cases hp : addrLength input with
  | none =>
    rw [hp] at h
    cases h
    rfl
  | some q =>
    obtain ⟨addr, length, rest⟩ := q
    rw [hp] at h
    dsimp only at h
    simp only [Option.map_some, Option.some.injEq]
    cases hb : s.bpMap addr with
    | none =>
      rw [hb] at h
      cases h
      split
      · rename_i ha
        subst ha
        simp [atAddr, hb]
      · rfl
    | some opCode =>
      rw [hb] at h
      dsimp only at h
      by_cases ha : addr = a
      · subst ha
        rw [if_pos rfl, atAddr, hb]
        split at h <;>
        · cases h
          simp [*]
      · rw [if_neg ha]
        have hne : a ≠ addr := Ne.symm ha
        split at h <;>
        · cases h
          simp [hne]

theorem handleWriteMemory_at (h : ¬ Writes a ('M' :: ptr)) :
    ((handleWriteMemory t s ptr).2.mem a, (handleWriteMemory t s ptr).2.bpMap a)
      = (s.mem a, s.bpMap a) := by
  unfold handleWriteMemory
  cases hp : addrLength ptr with
  | none => rfl
  | some q =>
    obtain ⟨addr, length, rest⟩ := q
    dsimp only
    by_cases hcolon : rest.head? = some ':'
    · have hrange : writeRange ('M' :: ptr) = (addr, intCount length) := by
        simp only [writeRange, hp, hcolon, if_true]
      rw [Writes, hrange] at h
      rw [if_pos hcolon]
      have hsame := hex2mem_of_ne t (intCount length) rest.tail s.mem (addrLength_lt hp)
        fun i hi he => h ⟨i, hi, he⟩
      exact Prod.ext hsame rfl
    · rw [if_neg hcolon]

/-- A breakpoint packet in the history of an address. -/
theorem history_singleton {p : List Char} {set : Bool} {addr : Option ℕ}
    (h : breakEvent p = addr.map (set, ·)) (a : ℕ) : history a [p] = if addr = some a then [set]
      else [] := by
  cases addr with
  | none => simp [history, h]
  | some x =>
    by_cases hx : x = a
    · simp [history, h, hx]
    · simp [history, h, hx]

/-- A breakpoint packet does to an address what its handler does, or nothing. -/
theorem softBreak_at {handler : List Char → Except Fault (String × Stub)} {set : Bool}
    (hh : ∀ input reply s', handler input = .ok (reply, s') →
      (s'.mem a, s'.bpMap a) = if (addrLength input).map Prod.fst = some a then
    atAddr t a set (s.mem a, s.bpMap a) else (s.mem a, s.bpMap a))
    (h : softBreak s handler ptr = .ok (reply, s')) :
    (s'.mem a, s'.bpMap a) = (if breakAddr ptr = some a then [set] else []).foldl
      (fun x e => atAddr t a e x) (s.mem a, s.bpMap a) := by
  unfold softBreak at h
  cases hp : hexToInt ptr with
  | none =>
    rw [hp] at h
    cases h
    simp [breakAddr, hp]
  | some q =>
    obtain ⟨type, rest⟩ := q
    rw [hp] at h
    dsimp only at h
    by_cases htype : type = 0
    · rw [if_pos htype] at h
      have hb : breakAddr ptr = (addrLength rest.tail).map Prod.fst := by
        simp only [breakAddr, hp, htype, if_true]
      rw [hh _ _ _ h, hb]
      split <;> rfl
    · rw [if_neg htype] at h
      cases h
      simp [breakAddr, hp, htype]

/-- **One packet, seen from an address it does not write to**: the set or remove there, if it is
one. -/
theorem step_at {p : List Char} (hs : step t s p = some s') (hw : ¬ Writes a p) :
    (s'.mem a, s'.bpMap a) =
      (history a [p]).foldl (fun x e => atAddr t a e x) (s.mem a, s.bpMap a) := by
  obtain ⟨⟨reply, s₁⟩, hok, rfl⟩ := Option.map_eq_some_iff.mp hs
  have h : handlePacket t s p = .ok (reply, s₁) := by
    cases hr : handlePacket t s p with
    | error e => rw [hr] at hok; cases hok
    | ok r => rw [hr] at hok; exact congrArg _ (Option.some.inj hok)
  have hnone : breakEvent p = none → history a [p] = [] := fun he => by simp [history, he]
  unfold handlePacket at h
  split at h
  · rw [hnone rfl]
    obtain ⟨-, rfl⟩ := Prod.mk.inj (Except.ok.inj h)
    exact handleWriteMemory_at hw
  · rename_i ptr
    rw [history_singleton (show breakEvent ('Z' :: ptr) = (breakAddr ptr).map (true, ·) from rfl)]
    exact softBreak_at (fun _ _ _ => handleSetSoftBreak_at) h
  · rename_i ptr
    rw [history_singleton (show breakEvent ('z' :: ptr) = (breakAddr ptr).map (false, ·) from rfl)]
    exact softBreak_at (fun _ _ _ => handleRemoveSoftBreak_at) h
  · rename_i hM hZ hz
    cases h
    rw [hnone]
    · rfl
    · unfold breakEvent
      split
      · exact absurd rfl (hZ _)
      · exact absurd rfl (hz _)
      · rfl

/-- **A session, seen from an address it does not write to.** -/
theorem run_at : ∀ {ps : List (List Char)} {s : Stub}, run (step t) s ps = some s' →
    (∀ p ∈ ps, ¬ Writes a p) → (s'.mem a, s'.bpMap a)
      = (history a ps).foldl (fun x e => atAddr t a e x) (s.mem a, s.bpMap a)
  | [], s, h, _ => by
    cases h
    rfl
  | p :: ps, s, h, hw => by
    obtain ⟨s₁, hs, hrun⟩ := run_cons.mp h
    have happ : history a (p :: ps) = history a [p] ++ history a ps :=
      List.filterMap_append (l := [p])
    rw [run_at hrun fun q hq => hw q (List.mem_cons_of_mem _ hq),
      step_at hs (hw p List.mem_cons_self), happ, List.foldl_append]

/-! ## What is left in memory -/

/-- Two sets in a row, at the end of a history or before. -/
theorem twice_concat (h : List Bool) (e : Bool) :
    [true, true] <:+: h ++ [e] ↔ [true, true] <:+: h ∨ (e = true ∧ h.getLast? = some true) := by
  rw [List.infix_concat_iff, or_comm]
  refine or_congr_right ?_
  rw [List.getLast?_eq_some_iff]
  constructor
  · rintro ⟨l, hl⟩
    obtain ⟨hl, he⟩ :=
      List.append_inj' (show (l ++ [true]) ++ [true] = h ++ [e] by simpa using hl) rfl
    exact ⟨(List.singleton_inj.mp he).symm, l, hl.symm⟩
  · rintro ⟨rfl, l, rfl⟩
    exact ⟨l, by simp⟩

/-- **The byte and its entry after a history of sets and removes** at an address that can be read
and written: the entry holds the first byte, unless there have been two sets in a row. -/
theorem foldl_atAddr (hr : t.readable a = true) (hwr : t.writable a = true) (byte : UInt8)
    (h : List Bool) : (true ∉ h → h.foldl (fun x e => atAddr t a e x) (byte, none) = (byte, none)) ∧
    (true ∈ h → ∃ v, (if [true, true] <:+: h then v = 0xCC else v = byte) ∧
      h.foldl (fun x e => atAddr t a e x) (byte, none) = (if h.getLast? = some true then 0xCC
        else v, some v)) := by
  induction h using List.reverseRecOn with
  | nil => exact ⟨fun _ => rfl, fun h => absurd h (by simp)⟩
  | append_singleton h e ih =>
    obtain ⟨hno, hyes⟩ := ih
    rw [List.foldl_append, List.foldl_cons, List.foldl_nil]
    simp only [twice_concat, List.getLast?_concat, List.mem_append, List.mem_singleton,
      Option.some.injEq]
    cases e with
    | false =>
      -- a remove: the entry stays, and its byte is written back
      refine ⟨fun h => ?_, fun h => ?_⟩
      · rw [hno (by simpa using h), atAddr, if_pos hwr, Option.getD_none]
      · obtain ⟨v, hv, hfold⟩ := hyes (by simpa using h)
        exact ⟨v, by simpa using hv, by rw [hfold]; simp [atAddr, hwr]⟩
    | true =>
      refine ⟨fun h => absurd rfl (fun h' => h (Or.inr h')), fun _ => ?_⟩
      by_cases hset : true ∈ h
      · -- a further set saves what it finds: the byte, or `0xCC` right after a set
        obtain ⟨v, hv, hfold⟩ := hyes hset
        refine ⟨if h.getLast? = some true then 0xCC else v,
          ?_, by rw [hfold]; simp [atAddr, hr, hwr]⟩
        by_cases hlast : h.getLast? = some true
        · simp [hlast]
        · simpa [hlast] using hv
      · have hempty : ¬ [true, true] <:+: h := fun hi => hset (hi.subset (by simp))
        have hlast : h.getLast? ≠ some true := fun hl => hset (List.mem_of_getLast? hl)
        exact ⟨byte, by simp [hempty, hlast], by rw [hno hset]; simp [atAddr, hr, hwr]⟩

/-- Elsewhere nothing happens to the byte. -/
theorem foldl_atAddr_inaccessible (h : ¬ (t.readable a = true ∧ t.writable a = true))
    (byte : UInt8) (l : List Bool) :
    (l.foldl (fun x e => atAddr t a e x) (byte, none)).1 = byte := by
  suffices hall : ∀ saved, (t.readable a = false → saved = none) →
      (l.foldl (fun x e => atAddr t a e x) (byte, saved)).1 = byte from hall none fun _ => rfl
  induction l with
  | nil => exact fun _ _ => rfl
  | cons e l ih =>
    intro saved hsaved
    rw [List.foldl_cons]
    cases hr : t.readable a with
    | false =>
      obtain rfl := hsaved hr
      have he : atAddr t a e (byte, none) = (byte, none) := by cases e <;> simp [atAddr, hr]
      rw [he]
      exact ih none fun _ => rfl
    | true =>
      have hwr : t.writable a = false := by simpa [hr] using h
      obtain ⟨v, he⟩ : ∃ v, atAddr t a e (byte, saved) = (byte, v) := by
        cases e <;> simp [atAddr, hr, hwr]
      rw [he]
      exact ih v (by simp [hr])

/-- **Software breakpoints at an address are transparent exactly if it is not set twice in a row.**
In a session that starts without breakpoints and has no `M` packet to the address: while the
breakpoint is set the byte is `0xCC`, and after it has been removed the byte is the first one unless
a set has followed a set — or the byte was `0xCC` anyway. -/
theorem softBreak_transparent_iff {s₀ : Stub} {packets : List (List Char)}
    (hrun : run (step t) s₀ packets = some s) (hnew : s₀.bpMap a = none)
    (hother : ∀ p ∈ packets, ¬ Writes a p) :
    (t.readable a = true → t.writable a = true → (history a packets).getLast? = some true →
      s.mem a = 0xCC) ∧
    ((history a packets).getLast? = some false →
      (s.mem a = s₀.mem a ↔ s₀.mem a = 0xCC ∨
        ¬ (t.readable a = true ∧ t.writable a = true ∧ [true, true] <:+: history a packets))) := by
  have hat := run_at hrun hother
  rw [hnew] at hat
  by_cases hacc : t.readable a = true ∧ t.writable a = true
  · obtain ⟨hr, hwr⟩ := hacc
    obtain ⟨hno, hyes⟩ := foldl_atAddr hr hwr (s₀.mem a) (history a packets)
    refine ⟨fun _ _ hlast => ?_, fun hlast => ?_⟩
    · obtain ⟨v, -, hfold⟩ := hyes (List.mem_of_getLast? hlast)
      rw [hfold, if_pos hlast] at hat
      exact (Prod.mk.inj hat).1
    · by_cases hset : true ∈ history a packets
      · obtain ⟨v, hv, hfold⟩ := hyes hset
        rw [hfold, hlast, if_neg (by simp)] at hat
        rw [(Prod.mk.inj hat).1]
        by_cases htwice : [true, true] <:+: history a packets
        · rw [if_pos htwice] at hv
          simp [hv, hr, hwr, htwice, eq_comm]
        · rw [if_neg htwice] at hv
          simp [hv, htwice]
      · rw [hno hset] at hat
        have htwice : ¬ [true, true] <:+: history a packets := fun hi => hset (hi.subset (by simp))
        exact iff_of_true (Prod.mk.inj hat).1 (Or.inr fun h => htwice h.2.2)
  · have hbyte := foldl_atAddr_inaccessible hacc (s₀.mem a) (history a packets)
    rw [← hat] at hbyte
    exact ⟨fun hr hwr => absurd ⟨hr, hwr⟩ hacc,
      fun _ => iff_of_true hbyte (Or.inr fun h => hacc ⟨h.1, h.2.1⟩)⟩

/-- All of memory accessible and full of `nop`s. -/
def nops : Stub := { mem := fun _ => 0x90, bpMap := fun _ => none, hookBreak := false }

def everywhere : Target := { readable := fun _ => true, writable := fun _ => true, hookAddr := 0 }

/-- Set, removed, removed again and set and removed once more, with a write to the next byte. -/
theorem softBreak_transparent_repeated : ∃ s, run (step everywhere) nops
    ["Z0,1000,1".toList, "M1001,1:00".toList, "z0,1000,1".toList, "z0,1000,1".toList,
      "Z0,1000,1".toList, "z0,1000,1".toList] = some s ∧ s.mem 0x1001 = 0 ∧
      s.mem 0x1000 = nops.mem 0x1000 :=
  exists_run_and (by decide +kernel) fun _ hrun _ =>
    ((softBreak_transparent_iff hrun rfl (by decide +kernel)).2 (by decide +kernel)).mpr
      (Or.inr fun h => absurd h.2.2 (by decide +kernel))

/-- **The byte is lost when a breakpoint is set twice.** -/
theorem softBreak_set_twice : ∃ s, run (step everywhere) nops
    ["Z0,1000,1".toList, "Z0,1000,1".toList, "z0,1000,1".toList] = some s ∧
      nops.mem 0x1000 = 0x90 ∧ s.mem 0x1000 = 0xCC :=
  exists_run (by decide +kernel)

end Gdb

end Kos
