import KosKernel.Gdb.Packets
import KosKernel.Gdb.Turns

/-!
# Gdb/Server — the packets of the debugger stub

`handlePacket` of `gdb/Gdb.cc` with all its handlers, from the text in the receive buffer on.  The
text is the memory from the command letter on, so what stands behind the zero at the end of the
packet belongs to it.

The registers of a processor are the bytes of `reg64buf` and `reg32buf`, which follow each other.
`cpus` is the memory from the array on; the indices that a packet uses are recorded, whether they
are within the array or not (`indices_in_range`).
-/

namespace Kos

open Runs

namespace Gdb

/-! ## The state -/

/-- `GdbCpu`. -/
structure GdbCpu where
  regs : ℕ → UInt8
  state : CpuState

structure VCont where
  action : Char
  signal : ℕ
  tid : ℕ

/-- What the packets work on; `htid` is `Htid`, `hookAddr` is `_Unwind_DebugHook_addr`. -/
structure Server where
  stub : Stub
  hookAddr : ℕ
  cpus : ℕ → GdbCpu
  htid : ℤ
  vCont : VCont

/-- The addresses that `get_char` and `set_char` can access without a fault, and
`Machine::getProcessorCount()`. -/
structure Host where
  readable : ℕ → Bool
  writable : ℕ → Bool
  count : ℕ

/-- The text in `out`, and how many bytes of `out` have been written to. -/
structure Out where
  text : List Char
  extent : ℕ

/-- What a packet leads to: the reply, the packets that were sent before it, the indices into
`cpus`, and the state. -/
structure Outcome where
  out : Out
  sent : List (List Char)
  used : List ℕ
  server : Server

def nul : Char := Char.ofNat 0

/-- `out[0] = 0`. -/
def Out.empty : Out := ⟨[], 1⟩

/-- A text with its zero, as `strcpy` writes it. -/
def Out.write (text : List Char) : Out := ⟨text, text.length + 1⟩

def Out.strcpy (text : String) : Out := .write text.toList

/-- `hexchars[n >> 4]` and `hexchars[n % 16]`; beyond the table of the digits there is a zero. -/
def hexPair (n : ℕ) : List Char := [hexchars.getD (n / 16) nul, hexchars.getD (n % 16) nul]

/-- The text that `mem2hex` writes for bytes. -/
def hexText (bytes : List UInt8) : List Char := bytes.flatMap fun b => hexPair b.toNat

/-- A `long` as an `int`. -/
def toInt (v : ℕ) : ℤ := if v % 2 ^ 32 < 2 ^ 31 then v % 2 ^ 32 else v % 2 ^ 32 - 2 ^ 32

/-- An `int` as an `mword`. -/
def toWord (v : ℤ) : ℕ := (v % wordSize).toNat

namespace VCont

/-- `VCont::parse`. -/
def parse (v : VCont) (input : List Char) : Except Fault (Out × VCont) :=
  if "Cont".toList.isPrefixOf input then
    let input := input.drop 4
    if input.head? = some '?' then .ok (.strcpy "vCont;c;C;s;S", v)
    else if v.action ≠ nul then .error .kassert
    else if input.head? = some ';' then
      let a := input.tail.headD nul
      let input := input.tail.tail
      let signalled := a = 'C' ∨ a = 'S'
      let digits := if signalled then hexToInt (input.dropWhile (· = ' ')) else some (0, input)
      match digits with
      | none => .ok (.empty, { v with signal := 0 })
      | some (signal, input) =>
        let thread := if input.head? = some ':' then hexToInt input.tail else some (limit, input)
        match thread with
        | none => .ok (.empty, { v with signal, tid := 0 })
        | some (tid, _) =>
          let a := if signalled then a.toLower else a
          .ok (.empty, ⟨if a = 'c' ∨ a = 's' then a else v.action, signal, tid⟩)
    else .ok (.empty, v)
  else .ok (.empty, v)

/-- `VCont::detach`. -/
def detach : VCont := ⟨'c', 0, limit⟩

end VCont

namespace Server

def target (h : Host) (s : Server) : Target := ⟨h.readable, h.writable, s.hookAddr⟩

section

variable (s : Server)

/-- A reply without further effects. -/
def reply (out : Out) : Outcome := ⟨out, [], [], s⟩

/-! ## Queries -/

def handle_qSupported (input : List Char) : Option Outcome :=
  if "Supported".toList.isPrefixOf input then some (s.reply (.strcpy "PacketSize=1000")) else none

def handle_qC (self : ℕ) (input : List Char) : Option Outcome :=
  if input.head? = some 'C' then some (s.reply (.write ('Q' :: 'C' :: hexPair (self + 1))))
    else none

variable (input : List Char)

def handle_qAttached : Option Outcome :=
  if "Attached".toList.isPrefixOf input then some (s.reply (.strcpy "0")) else none

def handle_qOffsets : Option Outcome :=
  if "Offsets".toList.isPrefixOf input then some (s.reply (.strcpy "Text=0;Data=0;Bss=0")) else none

def symbolName : List UInt8 := "_Unwind_DebugHook".toList.map byte

def handle_qSymbol : Option Outcome :=
  if "Symbol::".toList.isPrefixOf input then
    some (s.reply (.write ("qSymbol:".toList ++ hexText symbolName)))
  else none

/-- The bytes that `hex2mem` reads. -/
def hexBytes (count : ℕ) (buf : List Char) : List UInt8 :=
  (List.range count).map fun i => hexByte (buf.getD (2 * i) nul) (buf.getD (2 * i + 1) nul)

def handle_qSymbolResponse : Except Fault (Option Outcome) :=
  if "Symbol:".toList.isPrefixOf input then
    match hexToInt (input.drop 7) with
    | some (addr, rest) =>
      if hexBytes symbolName.length rest.tail = symbolName then
        .ok (some ({ s with hookAddr := addr }.reply (.strcpy "OK")))
      else .error .kassert
    | none => .ok none
  else .ok none

/-- Sends the empty packet that is in `out`. -/
def handle_qTStatus : Option Outcome :=
  if "TStatus".toList.isPrefixOf input then some ⟨.empty, [[]], [], s⟩ else none

/-- The list of the processors. -/
def threadList (count : ℕ) : List Char :=
  'm' :: (List.range count).flatMap fun i => (if i > 0 then [','] else []) ++ hexPair (i + 1)

def handle_qfThreadInfo (count : ℕ) (input : List Char) : Option Outcome :=
  if "fThreadInfo".toList.isPrefixOf input then some (s.reply (.write (threadList count))) else none

def handle_qsThreadInfo (input : List Char) : Option Outcome :=
  if "sThreadInfo".toList.isPrefixOf input then some (s.reply (.strcpy "l")) else none

def stateText : CpuState → String
  | .unknown => "Unknown"
  | .stopped => "Stopped"
  | .running => "Running"

/-- The text of `snprintf`, at most 39 characters. -/
def extraInfo (idx : ℕ) (state : CpuState) : List Char :=
  ("CPU " ++ toString idx ++ " [" ++ stateText state ++ "]").toList.take 39

def handle_qThreadExtraInfo (input : List Char) : Option Outcome :=
  if "ThreadExtraInfo".toList.isPrefixOf input then
    (hexToInt (input.drop 16)).map fun (threadId, _) =>
      let idx := wsub threadId 1
      ⟨.write (hexText ((extraInfo idx (s.cpus idx).state).map byte)), [], [idx], s⟩
  else none

end

/-- The case `q` of `handlePacket`: the first handler that knows the query. -/
def handleQuery (h : Host) (self : ℕ) (s : Server) (input : List Char) : Except Fault Outcome :=
  match [s.handle_qSupported input, s.handle_qC self input, s.handle_qAttached input,
    s.handle_qOffsets input, s.handle_qSymbol input].findSome? id with
  | some o => .ok o
  | none =>
    (s.handle_qSymbolResponse input).map fun response =>
      ([response, s.handle_qTStatus input, s.handle_qfThreadInfo h.count input,
        s.handle_qsThreadInfo input, s.handle_qThreadExtraInfo input].findSome? id).getD
        (s.reply (.strcpy "qUnimplemented"))

/-! ## Threads and registers -/

def handleThreadAlive (h : Host) (s : Server) (input : List Char) : Outcome :=
  match hexToInt input with
  | some (threadId, _) =>
    s.reply (.strcpy (if 1 ≤ threadId ∧ threadId ≤ h.count then "OK" else "E01"))
  | none => s.reply (.strcpy "E01")

/-- The number of bytes in `reg64buf` and `reg32buf`. -/
def regBytes : ℕ := 17 * 8 + 7 * 4

/-- The offset of the program counter, the last register of 64 bits. -/
def ripOffset : ℕ := 16 * 8

/-- The bytes of a register file, from an offset on. -/
def regSlice (regs : ℕ → UInt8) (offset count : ℕ) : List UInt8 :=
  (List.range' offset count).map regs

section

variable (s : Server)

/-- The id that a packet is for: the one that an `H` packet has set, or that of the processor that
serves the packets. -/
def threadId (self : ℕ) : ℤ := if s.htid ≠ -2 then s.htid else self + 1

/-- Its index into `cpus`. -/
def index (self : ℕ) : ℕ := toWord (s.threadId self - 1)

/-- `Htid = -2`. -/
def unselect : Server := { s with htid := -2 }

def handleReasonTargetHalted (self sigval : ℕ) : Outcome :=
  let idx := s.index self
  let text :=
    'T' :: hexPair sigval ++ "thread:".toList ++ hexPair (toWord (s.threadId self)) ++ [';'] ++
    hexPair 16 ++ [':'] ++ hexText (regSlice (s.cpus idx).regs ripOffset 8) ++ [';']
  ⟨.write text, [], [idx], s.unselect⟩

def handleReadRegisters (self : ℕ) : Outcome :=
  let idx := s.index self
  ⟨.write (hexText (regSlice (s.cpus idx).regs 0 regBytes)), [], [idx], s.unselect⟩

/-- `hex2mem` into the registers of a processor. -/
def writeRegs (idx offset count : ℕ) (buf : List Char) : Server :=
  { s with
    cpus := Function.update s.cpus idx
      { s.cpus idx with regs := (hex2mem everywhere count buf offset (s.cpus idx).regs).1 } }

def handleWriteRegisters (self : ℕ) (input : List Char) : Outcome :=
  let idx := s.index self
  ⟨.strcpy "OK", [], [idx], (s.writeRegs idx 0 regBytes input).unselect⟩

/-- The offset of a register among the bytes, if there is one with this number, and its width. -/
def register (regno : ℕ) : Option (ℕ × ℕ) :=
  if regno < 17 then some (8 * regno, 8)
  else if regno - 17 < 7 then some (17 * 8 + 4 * (regno - 17), 4)
  else none

/-- `hexToInt(&in, &regno) && *in++ == '='`, and the register with that number. -/
def registerAt (input : List Char) : Option ((ℕ × ℕ) × List Char) :=
  (hexToInt input).bind fun (regno, rest) =>
    if rest.head? = some '=' then (register regno).map fun reg => (reg, rest.tail) else none

def handleReadRegister (self : ℕ) (input : List Char) : Outcome :=
  let idx := s.index self
  match registerAt input with
  | some ((offset, width), _) =>
    ⟨.write (hexText (regSlice (s.cpus idx).regs offset width)), [], [idx], s.unselect⟩
  | none => s.unselect.reply (.strcpy "E01")

def handleWriteRegister (self : ℕ) (input : List Char) : Outcome :=
  let idx := s.index self
  match registerAt input with
  | some ((offset, width), rest) =>
    ⟨.strcpy "OK", [], [idx], (s.writeRegs idx offset width rest).unselect⟩
  | none => s.unselect.reply (.strcpy "E01")

/-- The thread that an `H` packet selects. -/
def selected (input : List Char) : Option ℤ :=
  if input.head? = some 'g' then
    (hexToInt input.tail).bind fun (threadId, _) =>
      if 0 < threadId ∧ threadId < 2 ^ 63 then some (toInt threadId) else none
  else none

def handleH (input : List Char) : Outcome :=
  match selected input with
  | some tid => { s with htid := tid }.reply (.strcpy "OK")
  | none => s.reply (.strcpy "E01")

end

/-! ## Memory -/

/-- The bytes that `mem2hex` reads from memory, and whether the fault handler was called. -/
def readLoop (readable : ℕ → Bool) (mem : ℕ → UInt8) : ℕ → ℕ → List UInt8 × Bool
  | 0, _ => ([], false)
  | count + 1, addr =>
    if readable addr then
      let (bytes, faulted) := readLoop readable mem count (wadd addr 1)
      (mem addr :: bytes, faulted)
    else ([], true)

def handleReadMemory (h : Host) (s : Server) (input : List Char) : Outcome :=
  match addrLength input with
  | some (addr, length, _) =>
    let (bytes, faulted) := readLoop h.readable s.stub.mem (intCount length) addr
    -- the digits in front of the fault are in `out` already
    if faulted then s.reply ⟨"E01".toList, max 4 (2 * bytes.length)⟩
      else s.reply (.write (hexText bytes))
  | none => s.reply (.strcpy "E01")

/-- A handler of `Stub` as a handler of the server. -/
def withStub (s : Server) (result : String × Stub) : Outcome :=
  { s with stub := result.2 }.reply (if result.1 = "" then .empty else .strcpy result.1)

/-! ## A packet -/

/-- `handlePacket` up to the reply.  `self` is the processor that serves the packets. -/
def handlePacket (h : Host) (self sigval : ℕ) (s : Server) : List Char → Except Fault Outcome
  | 'q' :: ptr => (s.handleQuery h self ptr).map fun o => { o with server := o.server.unselect }
  | 'v' :: ptr => (s.vCont.parse ptr).map fun (out, vCont) => { s with vCont }.unselect.reply out
  | 'T' :: ptr => .ok (s.unselect.handleThreadAlive h ptr)
  | '?' :: _ => .ok (s.handleReasonTargetHalted self sigval)
  | 'g' :: _ => .ok (s.handleReadRegisters self)
  | 'G' :: ptr => .ok (s.handleWriteRegisters self ptr)
  | 'p' :: ptr => .ok (s.handleReadRegister self ptr)
  | 'P' :: ptr => .ok (s.handleWriteRegister self ptr)
  | 'H' :: ptr => .ok (s.handleH ptr)
  | 'm' :: ptr => .ok (s.unselect.handleReadMemory h ptr)
  | 'k' :: _ => .ok ({ s with vCont := .detach }.unselect.reply .empty)
  | packet@('M' :: _) | packet@('Z' :: _) | packet@('z' :: _) =>
    (Gdb.handlePacket (s.target h) s.stub packet).map s.unselect.withStub
  | _ => .ok (s.unselect.reply (.strcpy "E01"))

/-! ## What a query can do -/

section Queries

variable {h : Host} {s : Server} {o : Outcome} {self : ℕ} {input : List Char}

theorem head?_of_isPrefixOf {c : Char} {cs : List Char} (hp : (c :: cs).isPrefixOf input = true) :
    input.head? = some c := by
  obtain ⟨rest, rfl⟩ := List.isPrefixOf_iff_prefix.mp hp
  rfl

/-- The reply is short, and `cpus` is not used. -/
def Short (o : Outcome) : Prop := o.out.extent ≤ 43 ∧ o.used = []

theorem short_reply {text : List Char} (htext : text.length ≤ 42) : Short (s.reply (.write text)) :=
  ⟨Nat.succ_le_succ htext, rfl⟩

theorem short_of_ite {p : Prop} [Decidable p] {text : List Char} (htext : text.length ≤ 42)
    (hne : p → input.head? ≠ some 'f')
    (ho : (if p then some (s.reply (.write text)) else none) = some o) :
    Short o ∧ input.head? ≠ some 'f' := by
  obtain ⟨hp, ho⟩ := Option.ite_none_right_eq_some.mp ho
  exact ⟨Option.some.inj ho ▸ short_reply htext, hne hp⟩

theorem ne_of_isPrefixOf {c : Char} {cs : List Char} (hc : c ≠ 'f')
    (hp : (c :: cs).isPrefixOf input = true) : input.head? ≠ some 'f' := by
  rw [head?_of_isPrefixOf hp]
  exact fun h => hc (Option.some.inj h)

/-- The handlers in front of `handle_qSymbolResponse`. -/
theorem short_of_first
    (ho : [s.handle_qSupported input, s.handle_qC self input, s.handle_qAttached input,
    s.handle_qOffsets input, s.handle_qSymbol input].findSome? id = some o) :
    Short o ∧ input.head? ≠ some 'f' := by
  obtain ⟨x, hx, hsome⟩ := List.exists_of_findSome?_eq_some ho
  simp only [List.mem_cons, List.not_mem_nil, or_false] at hx
  rcases hx with rfl | rfl | rfl | rfl | rfl
  · exact short_of_ite (by decide) (ne_of_isPrefixOf (by decide)) hsome
  · exact short_of_ite (by simp [hexPair]) (fun hp => by rw [hp]; decide) hsome
  · exact short_of_ite (by decide) (ne_of_isPrefixOf (by decide)) hsome
  · exact short_of_ite (by decide) (ne_of_isPrefixOf (by decide)) hsome
  · exact short_of_ite (by decide) (ne_of_isPrefixOf (by decide)) hsome

theorem short_of_response (ho : s.handle_qSymbolResponse input = .ok (some o)) :
    Short o ∧ input.head? ≠ some 'f' := by
  rw [handle_qSymbolResponse] at ho
  split at ho
  · rename_i hp
    split at ho
    · split at ho
      · obtain rfl := Option.some.inj (Except.ok.inj ho)
        exact ⟨short_reply (by decide), ne_of_isPrefixOf (by decide) hp⟩
      · cases ho
    · cases Except.ok.inj ho
  · cases Except.ok.inj ho

theorem length_hexText (bytes : List UInt8) : (hexText bytes).length = 2 * bytes.length := by
  induction bytes with
  | nil => rfl
  | cons b bytes ih =>
    rw [hexText, List.flatMap_cons, List.length_append, List.length_cons]
    rw [hexText] at ih
    rw [ih]
    simp only [hexPair, List.length_cons, List.length_nil]
    omega

/-- The thread whose state a packet asks for. -/
def asksFor : List Char → Option ℕ
  | 'q' :: ptr =>
    if "ThreadExtraInfo".toList.isPrefixOf ptr then (hexToInt (ptr.drop 16)).map Prod.fst else none
  | _ => none

/-- The packet asks for the list of the processors. -/
def asksForAll : List Char → Bool
  | 'q' :: ptr => "fThreadInfo".toList.isPrefixOf ptr
  | _ => false

theorem asksForAll_of_head (hne : input.head? ≠ some 'f') : asksForAll ('q' :: input) = false := by
  by_contra h
  exact hne (head?_of_isPrefixOf (Bool.not_eq_false _ ▸ h))

theorem extraInfo_extent (idx : ℕ) (state : CpuState) :
    (Out.write (hexText ((extraInfo idx state).map byte))).extent ≤ 79 := by
  have hlen : (extraInfo idx state).length ≤ 39 := List.length_take_le _ _
  simp only [Out.write, length_hexText, List.length_map]
  omega

/-- **What a query can do**: it is for the list of the processors, or for the state of one of them,
or it has a short reply that does not look at `cpus`. -/
theorem handleQuery_cases (ho : s.handleQuery h self input = .ok o) :
    asksForAll ('q' :: input) = true ∧ o = s.reply (.write (threadList h.count)) ∨
      asksForAll ('q' :: input) = false ∧ (Short o ∨
        ∃ tid, asksFor ('q' :: input) = some tid ∧ o.used = [wsub tid 1] ∧ o.out.extent ≤ 79) := by
  rw [handleQuery] at ho
  split at ho
  · rename_i hfirst
    cases ho
    obtain ⟨hshort, hne⟩ := short_of_first hfirst
    exact .inr ⟨asksForAll_of_head hne, .inl hshort⟩
  · obtain ⟨response, hresponse, hlater⟩ := Fault.map_eq_ok ho
    cases hfind : [response, s.handle_qTStatus input, s.handle_qfThreadInfo h.count input,
        s.handle_qsThreadInfo input, s.handle_qThreadExtraInfo input].findSome? id with
    | none =>
      rw [hfind] at hlater
      have hall :=
        List.findSome?_eq_none_iff.mp hfind (s.handle_qfThreadInfo h.count input) (by simp)
      have hno : asksForAll ('q' :: input) = false := by
        by_contra hp
        rw [id, handle_qfThreadInfo, if_pos (Bool.not_eq_false _ ▸ hp)] at hall
        cases hall
      exact .inr ⟨hno, .inl (hlater ▸ short_reply (by decide))⟩
    | some o' =>
      rw [hfind] at hlater
      obtain rfl : o' = o := hlater
      obtain ⟨x, hx, hsome⟩ := List.exists_of_findSome?_eq_some hfind
      simp only [List.mem_cons, List.not_mem_nil, or_false] at hx
      rcases hx with rfl | rfl | rfl | rfl | rfl
      · obtain rfl : x = some o' := hsome
        obtain ⟨hshort, hne⟩ := short_of_response hresponse
        exact .inr ⟨asksForAll_of_head hne, .inl hshort⟩
      · obtain ⟨hp, ho⟩ := Option.ite_none_right_eq_some.mp hsome
        exact .inr ⟨asksForAll_of_head (ne_of_isPrefixOf (by decide) hp),
          .inl (Option.some.inj ho ▸ ⟨(by decide : 1 ≤ 43), rfl⟩)⟩
      · obtain ⟨hp, ho⟩ := Option.ite_none_right_eq_some.mp hsome
        exact .inl ⟨hp, (Option.some.inj ho).symm⟩
      · obtain ⟨hshort, hne⟩ := short_of_ite (by decide) (ne_of_isPrefixOf (by decide)) hsome
        exact .inr ⟨asksForAll_of_head hne, .inl hshort⟩
      · obtain ⟨hp, ho⟩ := Option.ite_none_right_eq_some.mp hsome
        obtain ⟨⟨tid, rest⟩, htid, rfl⟩ := Option.map_eq_some_iff.mp ho
        refine .inr ⟨asksForAll_of_head (ne_of_isPrefixOf (by decide) hp), .inr ⟨tid, ?_, rfl, ?_⟩⟩
        · rw [asksFor, if_pos hp, htid]
          rfl
        · exact extraInfo_extent _ _

end Queries

/-- A packet, with the processor that serves it. -/
structure Request (count : ℕ) where
  self : Fin count
  sigval : ℕ
  packet : List Char

/-- One packet after the other. -/
def step (h : Host) (s : Server) (r : Request h.count) : Option Server :=
  (s.handlePacket h r.self r.sigval r.packet).toOption.map Outcome.server

/-! ## The selected thread -/

/-- The thread that a packet selects. -/
def selects : List Char → Option ℤ
  | 'H' :: ptr => selected ptr
  | _ => none

/-- The condition on a packet: the ids that it selects or asks for are those of processors, and an
`H` packet that selects nothing does not follow one that selects. -/
structure Fit (h : Host) (s : Server) (r : Request h.count) : Prop where
  selects : ∀ tid ∈ selects r.packet, 1 ≤ tid ∧ tid ≤ h.count
  asks : ∀ tid ∈ asksFor r.packet, 1 ≤ tid ∧ tid ≤ h.count
  resets : r.packet.head? = some 'H' → Server.selects r.packet = none → s.htid = -2

instance (h : Host) (s : Server) (r : Request h.count) : Decidable (Fit h s r) :=
  decidable_of_iff ((∀ tid ∈ selects r.packet, 1 ≤ tid ∧ tid ≤ h.count) ∧
      (∀ tid ∈ asksFor r.packet, 1 ≤ tid ∧ tid ≤ h.count) ∧
      (r.packet.head? = some 'H' → selects r.packet = none → s.htid = -2))
    ⟨fun h => ⟨h.1, h.2.1, h.2.2⟩, fun h => ⟨h.selects, h.asks, h.resets⟩⟩

/-- What is expected of a packet: it keeps to the array, and leaves no thread selected unless it has
selected one. -/
def Expected (h : Host) (s : Server) (r : Request h.count) : Prop :=
  ∀ o, s.handlePacket h r.self r.sigval r.packet = .ok o →
    (∀ i ∈ o.used, i < h.count) ∧ (selects r.packet = none → o.server.htid = -2)

/-- **The invariant**: no thread is selected, or one that exists. -/
def Selected (count : ℕ) (s : Server) : Prop := s.htid = -2 ∨ 1 ≤ s.htid ∧ s.htid ≤ count

variable {h : Host} {s : Server} {r : Request h.count} {o : Outcome}

theorem toWord_lt {v : ℤ} {n : ℕ} (h₀ : 0 ≤ v) (h₁ : v < n) : toWord v < n := by
  unfold toWord wordSize
  omega

theorem wsub_one_lt {v n : ℕ} (h₀ : 1 ≤ v) (h₁ : v ≤ n) : wsub v 1 < n := by
  unfold wsub wordSize
  omega

theorem index_lt (hsel : s.Selected h.count) (self : Fin h.count) : s.index self < h.count := by
  have hself := self.isLt
  have hid : 1 ≤ s.threadId self ∧ s.threadId self ≤ h.count := by
    rw [threadId]
    split
    · rename_i hne
      exact hsel.resolve_left hne
    · omega
  exact toWord_lt (by omega) (by omega)

/-- **What a packet can do to the selection**: an `H` packet may select a thread; every other packet
uses the selected thread, or the one it asks for, and leaves none selected. -/
theorem handlePacket_used {self sigval : ℕ} {packet : List Char}
    (ho : s.handlePacket h self sigval packet = .ok o) :
    (∃ ptr, packet = 'H' :: ptr ∧ o = s.handleH ptr) ∨ packet.head? ≠ some 'H' ∧
      o.server.htid = -2 ∧ ∀ i ∈ o.used, i = s.index self ∨ ∃ tid, asksFor packet = some tid ∧
      i = wsub tid 1 := by
  -- the handlers that do not look at `cpus`
  have hreply {s' : Server} {out : Out} (hs' : s'.htid = -2) : (s'.reply out).server.htid = -2 ∧
      ∀ i ∈ (s'.reply out).used, i = s.index self ∨ ∃ tid, asksFor packet = some tid ∧
        i = wsub tid 1 :=
    ⟨hs', by simp [reply]⟩
  unfold handlePacket at ho
  split at ho
  · obtain ⟨o', ho', rfl⟩ := Fault.map_eq_ok ho
    refine .inr ⟨by simp, rfl, fun i hi => ?_⟩
    obtain ⟨-, rfl⟩ | ⟨-, hshort | ⟨tid, htid, hused, -⟩⟩ := handleQuery_cases ho'
    · simp [reply] at hi
    · simp [hshort.2] at hi
    · simp only [hused, List.mem_singleton] at hi
      exact .inr ⟨tid, htid, hi⟩
  · obtain ⟨_, -, rfl⟩ := Fault.map_eq_ok ho
    exact .inr ⟨by simp, hreply rfl⟩
  · rw [handleThreadAlive] at ho
    split at ho
    · exact .inr ⟨by simp, Except.ok.inj ho ▸ hreply rfl⟩
    · exact .inr ⟨by simp, Except.ok.inj ho ▸ hreply rfl⟩
  · cases ho
    exact .inr ⟨by simp, rfl, fun i hi => .inl (List.mem_singleton.mp hi)⟩
  · cases ho
    exact .inr ⟨by simp, rfl, fun i hi => .inl (List.mem_singleton.mp hi)⟩
  · cases ho
    exact .inr ⟨by simp, rfl, fun i hi => .inl (List.mem_singleton.mp hi)⟩
  · rw [handleReadRegister] at ho
    split at ho
    · cases ho
      exact .inr ⟨by simp, rfl, fun i hi => .inl (List.mem_singleton.mp hi)⟩
    · exact .inr ⟨by simp, Except.ok.inj ho ▸ hreply rfl⟩
  · rw [handleWriteRegister] at ho
    split at ho
    · cases ho
      exact .inr ⟨by simp, rfl, fun i hi => .inl (List.mem_singleton.mp hi)⟩
    · exact .inr ⟨by simp, Except.ok.inj ho ▸ hreply rfl⟩
  · exact .inl ⟨_, rfl, (Except.ok.inj ho).symm⟩
  · rw [handleReadMemory] at ho
    split at ho
    · dsimp only at ho
      split at ho
      · exact .inr ⟨by simp, Except.ok.inj ho ▸ hreply rfl⟩
      · exact .inr ⟨by simp, Except.ok.inj ho ▸ hreply rfl⟩
    · exact .inr ⟨by simp, Except.ok.inj ho ▸ hreply rfl⟩
  · exact .inr ⟨by simp, Except.ok.inj ho ▸ hreply rfl⟩
  · obtain ⟨_, -, rfl⟩ := Fault.map_eq_ok ho
    exact .inr ⟨by simp, hreply rfl⟩
  · obtain ⟨_, -, rfl⟩ := Fault.map_eq_ok ho
    exact .inr ⟨by simp, hreply rfl⟩
  · obtain ⟨_, -, rfl⟩ := Fault.map_eq_ok ho
    exact .inr ⟨by simp, hreply rfl⟩
  · rename_i hno _ _ _ _ _
    refine .inr ⟨fun hH => ?_, Except.ok.inj ho ▸ hreply rfl⟩
    obtain ⟨ptr, rfl⟩ := List.head?_eq_some_iff.mp hH
    exact hno ptr rfl

/-- **One packet**: it is as expected, and the invariant holds after it. -/
theorem expected_of_fit (hsel : s.Selected h.count) (hfit : Fit h s r) :
    Expected h s r ∧ ∀ s', s.step h r = some s' → s'.Selected h.count := by
  have hone (o : Outcome) (ho : s.handlePacket h r.self r.sigval r.packet = .ok o) :
      ((∀ i ∈ o.used, i < h.count) ∧ (selects r.packet = none → o.server.htid = -2)) ∧
        o.server.Selected h.count := by
    obtain ⟨ptr, hptr, rfl⟩ | ⟨-, hhtid, hused⟩ := handlePacket_used ho
    · have hselects : selects r.packet = selected ptr := by rw [hptr, selects]
      rw [handleH]
      cases hs : selected ptr with
      | none =>
        have hreset := hfit.resets (by rw [hptr]; rfl) (hselects.trans hs)
        exact ⟨⟨by simp [reply], fun _ => hreset⟩, hsel⟩
      | some tid =>
        refine ⟨⟨by simp [reply], fun hnone => ?_⟩, .inr (hfit.selects tid (hselects.trans hs))⟩
        cases hs.symm.trans (hselects.symm.trans hnone)
    · refine ⟨⟨fun i hi => ?_, fun _ => hhtid⟩, .inl hhtid⟩
      obtain hi | ⟨tid, htid, hi⟩ := hused i hi
      · exact hi ▸ index_lt hsel r.self
      · obtain ⟨hpos, hle⟩ := hfit.asks tid htid
        exact hi ▸ wsub_one_lt hpos hle
  refine ⟨fun o ho => (hone o ho).1, fun s' hs' => ?_⟩
  obtain ⟨o, ho, rfl⟩ := Option.map_eq_some_iff.mp hs'
  exact (hone o (Fault.toOption_eq_some ho)).2

theorem expected_run {rs : List (Request h.count)} (hsel : s.Selected h.count)
    (hg : Guarded (step h) (Fit h) s rs) : Guarded (step h) (Expected h) s rs := by
  induction rs generalizing s with
  | nil => trivial
  | cons r rs ih =>
    obtain ⟨hexp, hnext⟩ := expected_of_fit hsel hg.1
    exact ⟨hexp, fun s' hs' => ih (hnext s' hs') (hg.2 s' hs')⟩

/-- **Every index is within the array, and a selection lasts for one packet**, in every run of
packets, from any processors, that meet the condition. -/
theorem indices_in_range {rs : List (Request h.count)} (hs : s.htid = -2)
    (hg : Guarded (step h) (Fit h) s rs) : Guarded (step h) (Expected h) s rs :=
  expected_run (.inl hs) hg

/-- Two processors, no memory. -/
def twoCpus : Host := ⟨fun _ => false, fun _ => false, 2⟩

def fresh : Server := ⟨nops, 0, fun _ => ⟨fun _ => 0, .stopped⟩, -2, ⟨nul, 0, 0⟩⟩

/-- A packet that processor 0 serves. -/
def request (packet : String) : Request twoCpus.count := ⟨⟨0, by decide⟩, 5, packet.toList⟩

theorem indices_in_range_hg : Guarded (step twoCpus) (Expected twoCpus) fresh
    [request "Hg2", request "g", request "qThreadExtraInfo,2", request "Hc0", request "?"] :=
  indices_in_range rfl (guarded_of_decide (by decide))

/-- **Beyond the array, and later than the next packet**: `Hg5` makes `g` use the entry 4 of two,
and an `Hc` packet in between does not undo `Hg2`. -/
theorem hg_out_of_range : (∃ s o, run (step twoCpus) fresh [request "Hg5"] = some s ∧
      s.handlePacket twoCpus 0 5 "g".toList = .ok o ∧ o.used = [4]) ∧
    ∃ s o, run (step twoCpus) fresh [request "Hg2", request "Hc0"] = some s ∧
      s.handlePacket twoCpus 0 5 "g".toList = .ok o ∧ o.used = [1] :=
  ⟨⟨_, _, rfl, rfl, by decide⟩, ⟨_, _, rfl, rfl, by decide⟩⟩

end Server

end Gdb

end Kos
