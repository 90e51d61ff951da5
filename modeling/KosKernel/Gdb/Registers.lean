import KosKernel.Gdb.Server

/-!
# Gdb/Registers — reading back what was written

The packets `g`, `G`, `p` and `P` for the registers of the selected processor.  What `G` and `P`
write is what `g` then shows, digit for digit.  But `handleReadRegister` has the parser of
`handleWriteRegister`: it wants a `=` behind the number of the register, which `p` does not have
(`registers_consistent_iff`).
-/

namespace Kos

open Function

namespace Gdb

/-! ## Digits -/

/-- The digit for the value of a digit is that digit in lower case. -/
theorem hexchars_char2hex {c : Char} (hc : 0 ≤ char2hex c) :
    hexchars.getD (char2hex c).toNat nul = c.toLower := by
  have hall : ∀ n < 103, 0 ≤ char2hex (Char.ofNat n) →
      hexchars.getD (char2hex (Char.ofNat n)).toNat nul = (Char.ofNat n).toLower := by
        decide +kernel
  have hlt := (char2hex_range c).2 hc
  rw [← Char.ofNat_toNat c] at hc ⊢
  exact hall c.toNat hlt hc

theorem toNat_hexByte {a b : Char} (ha : 0 ≤ char2hex a) (hb : 0 ≤ char2hex b) :
    (hexByte a b).toNat = 16 * (char2hex a).toNat + (char2hex b).toNat := by
  have hlt₁ := (char2hex_range a).1
  have hlt₂ := (char2hex_range b).1
  rw [hexByte, UInt8.toNat_ofNat']
  omega

/-- Two digits come back in lower case. -/
theorem hexPair_hexByte {a b : Char} (ha : 0 ≤ char2hex a) (hb : 0 ≤ char2hex b) :
    hexPair (hexByte a b).toNat = [a.toLower, b.toLower] := by
  have hlt₁ := (char2hex_range a).1
  have hlt₂ := (char2hex_range b).1
  have hhigh : (hexByte a b).toNat / 16 = (char2hex a).toNat := by
    rw [toNat_hexByte ha hb]
    omega
  have hlow : (hexByte a b).toNat % 16 = (char2hex b).toNat := by
    rw [toNat_hexByte ha hb]
    omega
  rw [hexPair, hhigh, hlow, hexchars_char2hex ha, hexchars_char2hex hb]

namespace Server

theorem hexBytes_cons (count : ℕ) (a b : Char) (ds : List Char) :
    hexBytes (count + 1) (a :: b :: ds) = hexByte a b :: hexBytes count ds := by
  rw [hexBytes, List.range_succ_eq_map, List.map_cons, List.map_map]
  rfl

variable {count : ℕ} {rest : List Char}

/-- **The digits come back**, in lower case. -/
theorem hexText_hexBytes {ds : List Char} (hlen : ds.length = 2 * count)
    (hhex : ∀ c ∈ ds, 0 ≤ char2hex c) :
    hexText (hexBytes count (ds ++ rest)) = ds.map Char.toLower := by
  induction count generalizing ds with
  | zero =>
    obtain rfl := List.length_eq_zero_iff.mp hlen
    rfl
  | succ count ih =>
    cases ds with
    | nil => simp at hlen
    | cons a ds =>
      cases ds with
      | nil =>
        rw [List.length_singleton] at hlen
        omega
      | cons b ds =>
        obtain ⟨ha, hb, hds⟩ : 0 ≤ char2hex a ∧ 0 ≤ char2hex b ∧ ∀ c ∈ ds, 0 ≤ char2hex c := by
          simpa using hhex
        have hlen' : ds.length = 2 * count := by
          rw [List.length_cons, List.length_cons] at hlen
          omega
        rw [List.cons_append, List.cons_append, hexBytes_cons, hexText, List.flatMap_cons,
          hexPair_hexByte ha hb, ← hexText, ih hlen' hds]
        rfl

/-! ## Register files -/

/-- The bytes that `hex2mem` writes. -/
theorem hex2mem_at {buf : List Char} {offset : ℕ} {regs : ℕ → UInt8} {i : ℕ}
    (hlt : offset + count < wordSize) :
    (hex2mem everywhere count buf offset regs).1 i = if offset ≤ i ∧
      i < offset + count then hexByte (buf.getD (2 * (i - offset)) nul)
      (buf.getD (2 * (i - offset) + 1) nul) else regs i := by
  induction count generalizing buf offset regs i with
  | zero =>
    rw [if_neg (by omega)]
    rfl
  | succ count ih =>
    have hnext : wadd offset 1 = offset + 1 := wadd_of_lt (by omega)
    have hone : hex2mem everywhere (count + 1) buf offset regs =
        hex2mem everywhere count (buf.drop 2) (offset + 1)
        (update regs offset (hexByte (buf.getD 0 nul) (buf.getD 1 nul))) := by
      have hwritable : everywhere.writable offset = true := rfl
      rw [hex2mem, if_pos hwritable, hnext]
      rfl
    have hdrop (k : ℕ) : (buf.drop 2).getD k nul = buf.getD (2 + k) nul := by
      rw [List.getD_eq_getElem?_getD, List.getD_eq_getElem?_getD, List.getElem?_drop]
    rw [hone, ih (by omega)]
    rcases lt_trichotomy i offset with hi | rfl | hi
    · rw [if_neg (by omega), if_neg (by omega), update_of_ne (by omega)]
    · rw [if_neg (by omega), if_pos (by omega), update_self, Nat.sub_self]
    · by_cases hin : i < offset + (count + 1)
      · have hsub : i - offset = i - (offset + 1) + 1 := by omega
        rw [if_pos (by omega), if_pos (by omega), hsub, hdrop, hdrop]
        congr 2 <;> omega
      · rw [if_neg (by omega), if_neg (by omega), update_of_ne (by omega)]

variable {offset : ℕ}

theorem regSlice_hex2mem {buf : List Char} {regs : ℕ → UInt8} (hlt : offset + count < wordSize) :
    regSlice (hex2mem everywhere count buf offset regs).1 offset count = hexBytes count buf := by
  rw [regSlice, hexBytes, List.range'_eq_map_range, List.map_map]
  refine List.map_congr_left fun i hi => ?_
  rw [List.mem_range] at hi
  rw [comp_apply, hex2mem_at hlt, if_pos (by omega), Nat.add_sub_cancel_left]

variable {n : ℕ}

theorem regSlice_hex2mem_of_disjoint {i : ℕ} {buf : List Char} {regs : ℕ → UInt8}
    (hlt : offset + count < wordSize) (hdisj : i + n ≤ offset ∨ offset + count ≤ i) :
    regSlice (hex2mem everywhere count buf offset regs).1 i n = regSlice regs i n := by
  refine List.map_congr_left fun j hj => ?_
  rw [List.mem_range'_1] at hj
  rw [hex2mem_at hlt, if_neg (by omega)]

variable {width : ℕ}

/-- A register between the bytes in front of it and those behind it. -/
theorem regSlice_split (regs : ℕ → UInt8) (hle : offset + width ≤ regBytes) :
    regSlice regs 0 regBytes = regSlice regs 0 offset ++ regSlice regs offset width ++
      regSlice regs (offset + width) (regBytes - (offset + width)) := by
  have hfront :
      List.range' 0 offset ++ List.range' offset width = List.range' 0 (offset + width) := by
    simpa using List.range'_append_1 (s := 0) (m := offset) (n := width)
  have hback :
      List.range' 0 (offset + width) ++ List.range' (offset + width) (regBytes - (offset + width)) =
      List.range' 0 regBytes := by
    simpa [Nat.add_sub_cancel' hle] using
      List.range'_append_1 (s := 0) (m := offset + width) (n := regBytes - (offset + width))
  rw [regSlice, regSlice, regSlice, regSlice, ← List.map_append, ← List.map_append, hfront, hback]

/-! ## The packets -/

/-- The text of the reply to a packet. -/
def replyText (h : Host) (self sigval : ℕ) (s : Server) (packet : List Char) : Option (List Char) :=
  (s.handlePacket h self sigval packet).toOption.map fun o => o.out.text

/-- The state after a packet, with the same thread selected again. -/
def after (h : Host) (self sigval : ℕ) (s : Server) (packet : List Char) : Option Server :=
  (s.handlePacket h self sigval packet).toOption.map fun o => { o.server with htid := s.htid }

/-- The digits of a register in the reply to `g`. -/
def digitsAt (offset width : ℕ) (text : List Char) : List Char :=
  (text.drop (2 * offset)).take (2 * width)

variable {h : Host} {self sigval : ℕ} {s : Server}

theorem exists_register (hn : n < 24) : ∃ offset width, register n = some (offset, width) ∧
    0 < width ∧ offset + width ≤ regBytes := by
  rw [register]
  split
  · exact ⟨_, _, rfl, by decide, by rw [regBytes]; omega⟩
  · rw [if_pos (by omega)]
    exact ⟨_, _, rfl, by decide, by rw [regBytes]; omega⟩

/-- The registers of the selected thread. -/
def regsOf (s : Server) (self : ℕ) : ℕ → UInt8 := (s.cpus (s.index self)).regs

theorem replyText_g (g : List Char) :
    s.replyText h self sigval ('g' :: g) =
      some (hexText (regSlice (s.regsOf self) 0 regBytes)) := by
  simp only [replyText, handlePacket, handleReadRegisters, Except.toOption, Option.map_some,
    Out.write, regsOf]

/-- What a packet writes is in the registers of the thread, when the same thread is selected
again. -/
theorem regsOf_writeRegs (s : Server) (self offset count : ℕ) (buf : List Char) :
    regsOf { (s.writeRegs (s.index self) offset count buf).unselect with htid := s.htid } self =
      (hex2mem everywhere count buf offset (s.regsOf self)).1 := by
  have hcpu : (s.writeRegs (s.index self) offset count buf).cpus (s.index self) =
      { s.cpus (s.index self) with
        regs := (hex2mem everywhere count buf offset (s.regsOf self)).1 } :=
    update_self ..
  exact congrArg GdbCpu.regs hcpu

/-- The reply to `g` in three parts. -/
theorem hexText_split (regs : ℕ → UInt8) (hle : offset + width ≤ regBytes) :
    hexText (regSlice regs 0 regBytes) = hexText (regSlice regs 0 offset) ++
      hexText (regSlice regs offset width) ++
      hexText (regSlice regs (offset + width) (regBytes - (offset + width))) := by
  rw [regSlice_split regs hle, hexText, List.flatMap_append, List.flatMap_append]
  rfl

theorem length_slice (regs : ℕ → UInt8) (offset count : ℕ) :
    (hexText (regSlice regs offset count)).length = 2 * count := by
  rw [length_hexText, regSlice, List.length_map, List.length_range']

theorem digitsAt_eq (regs : ℕ → UInt8) (hle : offset + width ≤ regBytes) :
    digitsAt offset width (hexText (regSlice regs 0 regBytes)) =
      hexText (regSlice regs offset width) := by
  rw [digitsAt, hexText_split regs hle, List.append_assoc, List.drop_left' (length_slice _ _ _),
    List.take_left' (length_slice _ _ _)]

/-- A `P` packet changes the digits of its register. -/
theorem hexText_written (hle : offset + width ≤ regBytes) {v : List Char}
    (hlen : v.length = 2 * width) (hhex : ∀ c ∈ v, 0 ≤ char2hex c) (regs : ℕ → UInt8) :
    hexText (regSlice (hex2mem everywhere width (v ++ rest) offset regs).1 0 regBytes) =
      hexText (regSlice regs 0 offset) ++ v.map Char.toLower ++
      hexText (regSlice regs (offset + width) (regBytes - (offset + width))) := by
  have hlt : offset + width < wordSize := hle.trans_lt (by decide)
  rw [hexText_split _ hle, regSlice_hex2mem hlt, hexText_hexBytes hlen hhex,
    regSlice_hex2mem_of_disjoint hlt (.inl (by omega)),
      regSlice_hex2mem_of_disjoint hlt (.inr le_rfl)]

theorem registerAt_eq {ptr : List Char} {reg : ℕ × ℕ} (hptr : hexToInt ptr = some (n, rest))
    (hreg : register n = some reg) :
    registerAt ptr = if rest.head? = some '=' then some (reg, rest.tail) else none := by
  simp only [registerAt, hptr, Option.bind_some, hreg, Option.map_some]

/-- **What was written comes back, but not to `p`.**  After a `G` packet, `g` shows its digits in
lower case; after a `P` packet, `g` shows the new digits in the place of the register and is the
same elsewhere; and `p` shows the digits of the register if and only if there is a `=` behind its
number. -/
theorem registers_consistent_iff (h : Host) (self sigval : ℕ) (s : Server) :
    (∀ ds rest g, ds.length = 2 * regBytes → (∀ c ∈ ds, 0 ≤ char2hex c) →
      (s.after h self sigval ('G' :: (ds ++ rest))).bind (fun s' =>
        s'.replyText h self sigval ('g' :: g)) = some (ds.map Char.toLower)) ∧
    ∀ ptr n, n < 24 → ∃ offset width, register n = some (offset, width) ∧
      (∀ v rest g, hexToInt ptr = some (n, '=' :: (v ++ rest)) → v.length = 2 * width →
        (∀ c ∈ v, 0 ≤ char2hex c) →
        ∃ front old back, front.length = 2 * offset ∧ old.length = 2 * width ∧
          s.replyText h self sigval ('g' :: g) = some (front ++ old ++ back) ∧
          (s.after h self sigval ('P' :: ptr)).bind (fun s' =>
            s'.replyText h self sigval ('g' :: g)) = some (front ++ v.map Char.toLower ++ back)) ∧
      ∀ rest g, hexToInt ptr = some (n, rest) →
        (s.replyText h self sigval ('p' :: ptr) =
          (s.replyText h self sigval ('g' :: g)).map (digitsAt offset width) ↔
        rest.head? = some '=') := by
  refine ⟨fun ds rest g hlen hhex => ?_, fun ptr n hn => ?_⟩
  · have hall : hexText (regSlice
        (hex2mem everywhere regBytes (ds ++ rest) 0 (s.regsOf self)).1 0 regBytes) = _ :=
      hexText_written (by decide) hlen hhex (s.regsOf self)
    rw [after, handlePacket]
    simp only [Except.toOption, Option.map_some, Option.bind_some, replyText_g,
      handleWriteRegisters, regsOf_writeRegs, hall]
    simp [regSlice, hexText]
  · obtain ⟨offset, width, hreg, hpos, hle⟩ := exists_register hn
    refine ⟨offset, width, hreg, fun v rest g hptr hlen hhex => ?_, fun rest g hptr => ?_⟩
    · have hat : registerAt ptr = some ((offset, width), v ++ rest) := registerAt_eq hptr hreg
      refine ⟨hexText (regSlice (s.regsOf self) 0 offset),
        hexText (regSlice (s.regsOf self) offset width),
        hexText (regSlice (s.regsOf self) (offset + width) (regBytes - (offset + width))),
        length_slice _ _ _, length_slice _ _ _, ?_, ?_⟩
      · rw [replyText_g, hexText_split _ hle]
      · simp only [after, handlePacket, handleWriteRegister, hat, Except.toOption, Option.map_some,
          Option.bind_some, replyText_g, regsOf_writeRegs, hexText_written hle hlen hhex]
    · have hat := registerAt_eq hptr hreg
      rw [replyText_g, Option.map_some, digitsAt_eq _ hle]
      simp only [replyText, handlePacket, handleReadRegister, hat, Except.toOption, Option.map_some]
      by_cases heq : rest.head? = some '='
      · simp only [if_pos heq]
        exact iff_of_true rfl heq
      · simp only [if_neg heq]
        refine iff_of_false (fun h => ?_) heq
        have hlen : 3 = 2 * width :=
          (congrArg List.length (Option.some.inj h)).trans (length_slice _ _ _)
        omega

/-- With a `=` behind the number, register 3 after it has been written. -/
theorem registers_consistent_iff_equals :
    ∃ s, fresh.after twoCpus 0 5 ('P' :: "3=0123456789ABCDEF".toList) = some s ∧
      s.replyText twoCpus 0 5 "p3=".toList = some "0123456789abcdef".toList ∧
      s.replyText twoCpus 0 5 "p3=".toList =
      (s.replyText twoCpus 0 5 ['g']).map (digitsAt 24 8) := by
  refine ⟨_, rfl, by decide +kernel, ?_⟩
  obtain ⟨offset, width, hreg, -, hp⟩ := (registers_consistent_iff twoCpus 0 5 _).2 "3=".toList 3
    (by decide)
  cases hreg
  exact (hp ['='] [] (by decide)).mpr rfl

/-- **`p` with the number of a register only** is refused. -/
theorem readRegister_refused : fresh.replyText twoCpus 0 5 ['p', '0', nul] = some "E01".toList ∧
    (fresh.replyText twoCpus 0 5 ['g', nul]).map (digitsAt 0 8) =
      some "0000000000000000".toList := by
  decide +kernel

end Server

end Gdb

end Kos
