import KosKernel.Devices.PCI

/-!
# Devices/PCIDevice — writing configuration registers and decoding the BARs

`writeConfig` of `devices/PCI.h` always writes a whole word to the data port: the bytes of the word
that are not part of the register become 0 (`writeConfig_exact_iff`).

`findCdiDriver` of `extern/cdi/cdi_glue.cc` finds out how large a BAR is with `getBARSize`, which
writes all ones and reads back.  What it reads still has the type bits, and they end up in the
length.  Only memory BARs of 32 bits that are not prefetchable have none
(`findCdiDriver_decodes_iff`).
-/

namespace Kos

namespace PCI

/-! ## Writing a register -/

/-- What the data port reads after a word has been written to it at `c`. -/
def Space.write (cfg : Space) (c : Config) (w : BitVec 32) : Space :=
  fun c' => if c' = c then w else cfg c'

def writeConfig (cfg : Space) (width : ℕ) (bus dev func reg : UInt8) (value : BitVec 32) :
    Except Fault Space :=
  let shift := reg.toNat % 4 * 8
  if width + shift ≤ 32 then
    .ok (cfg.write (config bus dev func (reg / 4)) ((value &&& bitmask width) <<< shift))
  else .error .kassert

/-- A byte of a configuration word. -/
def byte (cfg : Space) (c : Config) (k : ℕ) : BitVec 8 := (cfg c).extractLsb' (8 * k) 8

/-- The byte `k` of the word that the register is in belongs to the register. -/
def InRegister (width : ℕ) (reg : UInt8) (k : ℕ) : Prop :=
  reg.toNat % 4 ≤ k ∧ k < reg.toNat % 4 + width / 8

/-- After a write the register has the new value, and nothing else has changed. -/
structure Written (cfg : Space) (width : ℕ) (bus dev func reg : UInt8) (value : BitVec 32)
    (cfg' : Space) : Prop where
  value : readConfig cfg' width bus dev func reg = .ok (BitVec.ofNat 32 (value.toNat % 2 ^ width))
  others : ∀ c, ∀ k < 4, ¬ (c = config bus dev func (reg / 4) ∧ InRegister width reg k) →
    byte cfg' c k = byte cfg c k

variable {width : ℕ}

theorem getLsbD_bitmask {i : ℕ} (hw : width ≤ 32) :
    (bitmask width).getLsbD i = decide (i < width) := by
  rw [bitmask]
  split
  case isTrue h => rw [h, BitVec.getLsbD_allOnes]
  case isFalse h =>
    have hlt : 2 ^ width < 2 ^ 32 := Nat.pow_lt_pow_right (by decide) (by omega)
    have hpos := Nat.two_pow_pos width
    have hnat : (1 <<< width - 1 : BitVec 32).toNat = 2 ^ width - 1 := by
      rw [BitVec.natCast_eq_ofNat, BitVec.toNat_sub, BitVec.toNat_ofNat, Nat.shiftLeft_eq, one_mul]
      change (2 ^ 32 - 1 + 2 ^ width % 2 ^ 32) % 2 ^ 32 = _
      omega
    rw [← BitVec.testBit_toNat, hnat, Nat.testBit_two_pow_sub_one]

theorem and_bitmask (hw : width ≤ 32) (value : BitVec 32) :
    value &&& bitmask width = BitVec.ofNat 32 (value.toNat % 2 ^ width) := by
  refine BitVec.eq_of_getLsbD_eq fun i hi => ?_
  rw [BitVec.getLsbD_and, getLsbD_bitmask hw, BitVec.getLsbD_ofNat, Nat.testBit_mod_two_pow]
  simp [hi, Bool.and_comm, BitVec.testBit_toNat]

/-- The bits of the word that is written. -/
theorem getLsbD_shifted {shift i : ℕ} (hfit : width + shift ≤ 32) (hi : i < 32)
    (value : BitVec 32) : ((value &&& bitmask width) <<< shift).getLsbD i =
      (decide (shift ≤ i ∧ i < shift + width) && value.getLsbD (i - shift)) := by
  rw [BitVec.getLsbD_shiftLeft]
  by_cases h : i < shift
  · simp [h]
  · rw [BitVec.getLsbD_and, getLsbD_bitmask (by omega)]
    simp only [hi, decide_true, h, decide_false, Bool.not_false, Bool.true_and, Bool.and_comm]
    congr 1
    rw [decide_eq_decide]
    omega

/-- The value is read back. -/
theorem unshift {shift : ℕ} (hfit : width + shift ≤ 32) (value : BitVec 32) :
    (((value &&& bitmask width) <<< shift) >>> shift) &&& bitmask width =
      value &&& bitmask width := by
  refine BitVec.eq_of_getLsbD_eq fun i hi => ?_
  rw [BitVec.getLsbD_and, BitVec.getLsbD_and, getLsbD_bitmask (by omega),
    BitVec.getLsbD_ushiftRight]
  by_cases h : i < width
  · rw [getLsbD_shifted hfit (by omega)]
    simp [h, Nat.add_comm shift]
  · simp [h]

variable {k : ℕ}

/-- The other bytes of the word become 0. -/
theorem byte_shifted {reg : UInt8} (hfit : width + reg.toNat % 4 * 8 ≤ 32)
    (hw : width = 8 ∨ width = 16 ∨ width = 32) (hk : k < 4) (hout : ¬ InRegister width reg k)
    (value : BitVec 32) :
    ((value &&& bitmask width) <<< (reg.toNat % 4 * 8)).extractLsb' (8 * k) 8 = 0 := by
  refine BitVec.eq_of_getLsbD_eq fun i hi => ?_
  have hno : ¬ (reg.toNat % 4 * 8 ≤ 8 * k + i ∧ 8 * k + i < reg.toNat % 4 * 8 + width) := by
    rintro ⟨hle, hlt⟩
    refine hout ⟨by omega, ?_⟩
    rcases hw with rfl | rfl | rfl <;> omega
  rw [BitVec.getLsbD_extractLsb', getLsbD_shifted hfit (by omega), decide_eq_false hno]
  simp

/-- **A write is exact if and only if the other bytes of the word are 0 before.** -/
theorem writeConfig_exact_iff (cfg : Space) {width : ℕ} (hw : width = 8 ∨ width = 16 ∨ width = 32)
    (bus dev func reg : UInt8) (hfit : width + reg.toNat % 4 * 8 ≤ 32) (value : BitVec 32) :
    (∃ cfg', writeConfig cfg width bus dev func reg value = .ok cfg' ∧
        Written cfg width bus dev func reg value cfg') ↔
      ∀ k < 4, ¬ InRegister width reg k → byte cfg (config bus dev func (reg / 4)) k = 0 := by
  rw [writeConfig, if_pos hfit]
  constructor
  · rintro ⟨cfg', h, hwritten⟩ k hk hout
    cases h
    rw [← hwritten.others _ k hk fun hin => hout hin.2, byte, Space.write, if_pos rfl]
    exact byte_shifted hfit hw hk hout value
  · intro h
    refine ⟨_, rfl, ?_, fun c k hk hout => ?_⟩
    · rw [readConfig, if_pos hfit, Space.write, if_pos rfl, unshift hfit, and_bitmask (by omega)]
    · by_cases hc : c = config bus dev func (reg / 4)
      · subst hc
        have hout' := fun hin => hout ⟨rfl, hin⟩
        rw [h k hk hout', byte, Space.write, if_pos rfl]
        exact byte_shifted hfit hw hk hout' value
      · rw [byte, Space.write, if_neg hc, byte]

/-- The status register is 0 when the command register is written. -/
theorem writeConfig_exact_iff_command :
    ∃ cfg', writeConfig (fun _ => 0x00000004) 16 0 3 0 4 7 = .ok cfg' ∧
      Written (fun _ => 0x00000004) 16 0 3 0 4 7 cfg' := by
  refine (writeConfig_exact_iff _ (by decide) 0 3 0 4 (by decide) 7).mpr fun k hk hout => ?_
  have hupper : k = 2 ∨ k = 3 := by
    have : ¬ (0 ≤ k ∧ k < 2) := hout
    omega
  rcases hupper with rfl | rfl <;> decide

/-- **Writing the command register clears the status register.** -/
theorem writeConfig_clobbers : ¬ ∃ cfg', writeConfig (fun _ => 0x02b00004) 16 0 3 0 4 7 = .ok cfg' ∧
    Written (fun _ => 0x02b00004) 16 0 3 0 4 7 cfg' := by
  rintro ⟨cfg', h, hwritten⟩
  cases h
  exact absurd (hwritten.others (config 0 3 0 1) 2 (by decide) fun hin =>
    absurd hin.2.2 (by decide)) (by decide)

/-! ## Base address registers -/

/-- A register of which only the `writable` bits can be changed. -/
structure Bar where
  writable : BitVec 32
  value : BitVec 32
  deriving DecidableEq

def Bar.write (r : Bar) (v : BitVec 32) : Bar :=
  ⟨r.writable, (v &&& r.writable) ||| (r.value &&& ~~~r.writable)⟩

/-- `PCI::BAR`, which reads a whole word. -/
def bar (regs : List Bar) (idx : ℕ) : BitVec 32 := (regs[idx]?.map Bar.value).getD 0

/-- `PCI::BAR::write`. -/
def writeBar (regs : List Bar) (idx : ℕ) (v : BitVec 32) : List Bar := regs.modify idx (·.write v)

/-- `getBARSize`, with the registers that it leaves. -/
def getBARSize (regs : List Bar) (idx : ℕ) : BitVec 32 × List Bar :=
  let orig := bar regs idx
  let regs := writeBar regs idx 0xffffffff
  let mask := bar regs idx
  (~~~mask + 1, writeBar regs idx orig)

inductive ResType
  | memory | ioports
  deriving DecidableEq

/-- `cdi_pci_resource`. -/
structure Resource where
  type : ResType
  start : BitVec 64
  length : BitVec 64
  index : ℕ
  address : BitVec 64 := 0
  deriving DecidableEq

/-- The loop of `findCdiDriver` over the BARs from `i` on.  Each round goes on by a register or
two. -/
def addBars (numBars : ℕ) : ℕ → ℕ → List Bar → List Resource →
      Except Fault (List Resource × List Bar)
  | 0, _, regs, resources => .ok (resources, regs)
  | rounds + 1, i, regs, resources =>
    if numBars ≤ i then .ok (resources, regs)
    else if bar regs i = 0 then addBars numBars rounds (i + 1) regs resources
    else
      let b := bar regs i
      let (size, regs) := getBARSize regs i
      let length := size.setWidth 64
      if b &&& 1 ≠ 0 then
        -- `cdi_list_push` puts the resource in front
        addBars numBars rounds (i + 1) regs
          (⟨.ioports, (b &&& 0xfffffffc).setWidth 64, length &&& 0xffff, i, 0⟩ :: resources)
      else if (b &&& 6) >>> 1 = 0 then
        addBars numBars rounds (i + 1) regs (⟨.memory, (b &&& 0xfffffff0).setWidth 64, length, i,
          0⟩ :: resources)
      else if (b &&& 6) >>> 1 = 2 then
        let start := (b &&& 0xfffffff0).setWidth 64 + (bar regs (i + 1)).setWidth 64 <<< 32
        let (high, regs) := getBARSize regs (i + 1)
        addBars numBars rounds (i + 2) regs (⟨.memory, start, length + high.setWidth 64 <<< 32, i,
          0⟩ :: resources)
      else .error .kassert

/-- The part of `findCdiDriver` that adds the BARs of a device, whose header has type 0. -/
def findCdiDriver (regs : List Bar) : Except Fault (List Resource × List Bar) :=
  addBars 6 6 0 regs []

/-! ## Devices -/

/-- What a BAR stands for; its size is `2 ^ k`. -/
inductive Range
  | none
  /-- ports; a narrow BAR decodes 16 bits of the address -/
  | io (wide : Bool) (k : ℕ) (base : BitVec 32)
  | mem32 (prefetchable : Bool) (k : ℕ) (base : BitVec 32)
  | mem64 (prefetchable : Bool) (k : ℕ) (base : BitVec 64)

namespace Range

/-- The bits of an address that select a range of `2 ^ k` bytes. -/
def select (w k : ℕ) : BitVec w := BitVec.allOnes w <<< k

def ioSelect (wide : Bool) (k : ℕ) : BitVec 32 := select 32 k &&& if wide then BitVec.allOnes 32
      else 0xffff

/-- The size is a power of two that the registers can express, and the base is aligned. -/
def Valid : Range → Prop
  | none => True
  | io wide k base => 2 ≤ k ∧ k < (if wide then 32 else 16) ∧ base &&& ioSelect wide k = base
  | mem32 _ k base => 4 ≤ k ∧ k < 32 ∧ base &&& select 32 k = base
  | mem64 _ k base => 4 ≤ k ∧ k < 64 ∧ base &&& select 64 k = base

instance : DecidablePred Valid
  | none => inferInstanceAs (Decidable True)
  | io _ _ _ => inferInstanceAs (Decidable (_ ∧ _ ∧ _))
  | mem32 _ _ _ => inferInstanceAs (Decidable (_ ∧ _ ∧ _))
  | mem64 _ _ _ => inferInstanceAs (Decidable (_ ∧ _ ∧ _))

def prefetchBit (prefetchable : Bool) : BitVec 32 := if prefetchable then 8 else 0

/-- The registers, by the rules of PCI: the type bits cannot be changed, and neither can those below
the size. -/
def bars : Range → List Bar
  | none => [⟨0, 0⟩]
  | io wide k base => [⟨ioSelect wide k, base ||| 1⟩]
  | mem32 prefetchable k base => [⟨select 32 k, base ||| prefetchBit prefetchable⟩]
  | mem64 prefetchable k base =>
    [⟨(select 64 k).setWidth 32, base.setWidth 32 ||| (4 ||| prefetchBit prefetchable)⟩,
      ⟨(select 64 k).extractLsb' 32 32, base.extractLsb' 32 32⟩]

/-- The resource that should be recorded for the range in register `i`. -/
def resource (i : ℕ) : Range → List Resource
  | none => []
  | io _ k base => [⟨.ioports, base.setWidth 64, 1#64 <<< k, i, 0⟩]
  | mem32 _ k base => [⟨.memory, base.setWidth 64, 1#64 <<< k, i, 0⟩]
  | mem64 _ k base => [⟨.memory, base, 1#64 <<< k, i, 0⟩]

/-- The resources for the ranges from register `i` on. -/
def gather (f : ℕ → Range → List Resource) : ℕ → List Range → List Resource
  | _, [] => []
  | i, r :: rs => f i r ++ gather f (i + r.bars.length) rs

end Range

/-- A device with six BAR registers. -/
structure Layout where
  ranges : List Range
  valid : ∀ r ∈ ranges, r.Valid
  six : (ranges.flatMap Range.bars).length = 6

/-- The BARs are decoded: each has its resource, and the registers are as before. -/
def Decoded (d : Layout) : Prop :=
  findCdiDriver (d.ranges.flatMap Range.bars) =
    .ok ((Range.gather Range.resource 0 d.ranges).reverse, d.ranges.flatMap Range.bars)

/-- No BAR, or one of 32 bits for memory that is not prefetchable and not at 0. -/
def Range.Plain : Range → Prop
  | none => True
  | mem32 prefetchable _ base => prefetchable = false ∧ base ≠ 0
  | io _ _ _ => False
  | mem64 _ _ _ => False

/-! ## What is recorded -/

/-- The size that `getBARSize` finds. -/
def Bar.size (r : Bar) : BitVec 32 := ~~~(r.writable ||| r.value) + 1

theorem Bar.write_value (r : Bar) (v : BitVec 32) : (r.write v).write r.value = r := by
  rw [Bar.write, Bar.write, Bar.mk.injEq]
  refine ⟨rfl, ?_⟩
  ext i hi
  cases hw : r.writable[i] <;> simp [hw]

theorem bar_eq {regs : List Bar} {i : ℕ} {r : Bar} (h : regs[i]? = some r) :
    bar regs i = r.value := by
  rw [bar, h]
  rfl

/-- **`getBARSize` leaves the registers as they are.** -/
theorem getBARSize_eq {regs : List Bar} {i : ℕ} {r : Bar} (h : regs[i]? = some r) :
    getBARSize regs i = (r.size, regs) := by
  have hmask : bar (writeBar regs i 0xffffffff) i = r.writable ||| r.value := by
    rw [bar, writeBar, List.getElem?_modify_eq, h]
    change (BitVec.allOnes 32 &&& r.writable) ||| (r.value &&& ~~~r.writable) = _
    rw [BitVec.allOnes_and]
    ext j hj
    cases hw : r.writable[j] <;> simp [hw]
  rw [getBARSize, hmask, bar_eq h, Bar.size, Prod.mk.injEq]
  refine ⟨rfl, List.ext_getElem? fun j => ?_⟩
  rw [writeBar, writeBar, List.getElem?_modify, List.getElem?_modify]
  by_cases hj : i = j
  · subst hj
    simp [h, Bar.write_value]
  · simp [hj]

/-- What is recorded for a register that is a range of its own. -/
def Bar.record (r : Bar) (i : ℕ) : List Resource :=
  if r.value = 0 then []
  else if r.value &&& 1 ≠ 0 then
    [⟨.ioports, (r.value &&& 0xfffffffc).setWidth 64, r.size.setWidth 64 &&& 0xffff, i, 0⟩]
  else [⟨.memory, (r.value &&& 0xfffffff0).setWidth 64, r.size.setWidth 64, i, 0⟩]

variable {r : Range}

namespace Range

/-- The resource that is recorded for the range in register `i`. -/
def recorded (i : ℕ) (r : Range) : List Resource :=
  match r.bars with
  | [lo] => lo.record i
  | [lo, hi] =>
    [⟨.memory, (lo.value &&& 0xfffffff0).setWidth 64 + hi.value.setWidth 64 <<< 32,
      lo.size.setWidth 64 + hi.size.setWidth 64 <<< 32, i, 0⟩]
  | _ => []

variable {m : BitVec 32}

/-- The code sees the type of a BAR in its lowest bits. -/
theorem and_of_low {b : BitVec 32} (hm : (m.setWidth 4).setWidth 32 = m) :
    b &&& m = (b.setWidth 4 &&& m.setWidth 4).setWidth 32 := by
  conv_lhs => rw [← hm]
  refine BitVec.eq_of_getLsbD_eq fun i hi => ?_
  by_cases h : i < 4 <;> simp [hi, h]

theorem select_low : ∀ k < 64, 4 ≤ k → (select 64 k).setWidth 4 = 0 := by decide

theorem select32_low : ∀ k < 32, 4 ≤ k → (select 32 k).setWidth 4 = 0 := by decide

theorem select_and : ∀ k < 32, 4 ≤ k → select 32 k &&& 0xfffffff0 = select 32 k := by decide

theorem size_select : ∀ k < 32, (~~~select 32 k + 1).setWidth 64 = 1#64 <<< k := by decide

variable {base : BitVec 32}

theorem select_base (h : base &&& select 32 k = base) : select 32 k ||| base = select 32 k := by
  rw [← h, BitVec.and_comm]
  ext i hi
  cases hw : (select 32 k)[i] <;> simp [hw]

variable {s : BitVec 32}

/-- The low bits of a memory range's first register are its type bits. -/
theorem low_of_aligned {type : BitVec 32} (hs : s.setWidth 4 = 0) (h : base &&& s = base) :
    (base ||| type).setWidth 4 = type.setWidth 4 := by
  rw [← h, BitVec.setWidth_or, BitVec.setWidth_and, hs]
  simp

theorem and_type {type : BitVec 32} (hs : s.setWidth 4 = 0) (h : base &&& s = base)
    (hm : (m.setWidth 4).setWidth 32 = m) : (base ||| type) &&& m = type &&& m := by
  rw [and_of_low hm, low_of_aligned hs h, ← and_of_low hm]

theorem io_type (base : BitVec 32) : (base ||| 1) &&& 1 ≠ 0 := by
  intro h0
  have hlow := congrArg (BitVec.setWidth 1) h0
  rw [BitVec.setWidth_and, BitVec.setWidth_or] at hlow
  generalize base.setWidth 1 = b at hlow
  revert hlow
  decide +revert

theorem ne_zero_of_and {b : BitVec 32} (h : b &&& m ≠ 0) :
    b ≠ 0 := fun h0 => h (by rw [h0]; exact BitVec.zero_and)

/-- They are part of the size. -/
theorem size_low {n : ℕ} (hn : n ≤ 32) {v : BitVec 32} (hs : s.setWidth n = 0) :
    (Bar.size ⟨s, v⟩).setWidth n = ~~~v.setWidth n + (1#32).setWidth n := by
  rw [Bar.size, BitVec.setWidth_add _ _ hn, BitVec.setWidth_not hn, BitVec.setWidth_or, hs]
  exact congrArg (~~~· + _) BitVec.zero_or

theorem one_shl_low {n : ℕ} (hk : n ≤ k) : (1#64 <<< k).setWidth n = 0 := by
  ext i hi
  have : i < k := by omega
  simp [this]

theorem ioSelect_low : ∀ k < 32, 2 ≤ k → ∀ wide, (ioSelect wide k).setWidth 1 = 0 := by decide

/-- A port BAR is recorded with an odd length. -/
theorem io_length {wide : Bool} (hk : 2 ≤ k) (hlt : k < 32) (base : BitVec 32) :
    ((Bar.size ⟨ioSelect wide k, base ||| 1⟩).setWidth 64 &&& 0xffff).setWidth 1 = 1 := by
  rw [BitVec.setWidth_and, BitVec.setWidth_setWidth_of_le _ (by decide), size_low (by decide)
    (ioSelect_low k hlt hk wide), BitVec.setWidth_or]
  generalize base.setWidth 1 = b
  decide +revert

/-- The lower half of an aligned base. -/
theorem low_half (hk : 4 ≤ k) (hlt : k < 64) {base : BitVec 64}
    (hbase : base &&& select 64 k = base) : ((select 64 k).setWidth 32).setWidth 4 = 0 ∧
      base.setWidth 32 &&& (select 64 k).setWidth 32 = base.setWidth 32 := by
  constructor
  · rw [BitVec.setWidth_setWidth_of_le _ (by decide), select_low k hlt hk]
  · rw [← BitVec.setWidth_and, hbase]

/-- A 64-bit BAR is recorded with a length that is no multiple of 8. -/
theorem mem64_length {prefetchable : Bool} (hk : 4 ≤ k) (hlt : k < 64) {base : BitVec 64}
    (hbase : base &&& select 64 k = base) (hi : BitVec 32) :
    ((Bar.size ⟨(select 64 k).setWidth 32,
      base.setWidth 32 ||| (4 ||| prefetchBit prefetchable)⟩).setWidth 64 +
      hi.setWidth 64 <<< 32).setWidth 4 ≠ 0 := by
  obtain ⟨hs, hb⟩ := low_half hk hlt hbase
  have hhigh : (hi.setWidth 64 <<< 32).setWidth 4 = 0 := by
    ext i hi
    have : i < 32 := by omega
    simp
  rw [BitVec.setWidth_add _ _ (by decide), hhigh, BitVec.setWidth_setWidth_of_le _ (by decide),
    size_low (by decide) hs, low_of_aligned hs hb]
  cases prefetchable <;> decide

/-- **The recorded resource is right for plain ranges only.** -/
theorem recorded_eq_iff (h : r.Valid) (i : ℕ) : r.recorded i = r.resource i ↔ r.Plain := by
  cases r with
  | none => simp [recorded, Bar.record, resource, bars, Plain]
  | io wide k base =>
    obtain ⟨hk, hlt, -⟩ := h
    have hlt : k < 32 := by split at hlt <;> omega
    rw [recorded, bars, Plain, iff_false]
    dsimp only
    rw [Bar.record, if_neg (ne_zero_of_and (io_type base)), if_pos (io_type base)]
    intro heq
    have hlen := congrArg (BitVec.setWidth 1) (congrArg Resource.length (List.cons.inj heq).1)
    rw [io_length hk hlt, one_shl_low (by omega)] at hlen
    exact absurd hlen (by decide)
  | mem32 prefetchable k base =>
    obtain ⟨hk, hlt, hbase⟩ := h
    have hs := select32_low k hlt hk
    have hlow :
        (base ||| prefetchBit prefetchable).setWidth 4 = (prefetchBit prefetchable).setWidth 4 :=
      low_of_aligned hs hbase
    have hmem : ¬ ((base ||| prefetchBit prefetchable) &&& 1 ≠ 0) := by
      rw [and_type hs hbase (by decide)]
      cases prefetchable <;> decide
    rw [recorded, bars, Plain]
    dsimp only
    rw [Bar.record, if_neg hmem]
    cases prefetchable with
    | true =>
      refine ⟨fun heq => ?_, fun hp => absurd hp.1 (by decide)⟩
      split at heq
      · cases heq
      have hlen := congrArg (BitVec.setWidth 4) (congrArg Resource.length (List.cons.inj heq).1)
      rw [one_shl_low hk, BitVec.setWidth_setWidth_of_le _ (by decide), size_low (by decide) hs,
        hlow] at hlen
      exact absurd hlen (by decide)
    | false =>
      rw [show base ||| prefetchBit false = base from BitVec.or_zero, resource]
      split
      case isTrue h0 => exact iff_of_false (by simp) fun hp => hp.2 h0
      case isFalse h0 =>
        refine iff_of_true ?_ ⟨rfl, h0⟩
        have hstart : base &&& 0xfffffff0 = base := by
          rw [← hbase, BitVec.and_assoc, select_and k hlt hk]
        rw [Bar.size, select_base hbase, size_select k hlt, hstart]
  | mem64 prefetchable k base =>
    obtain ⟨hk, hlt, hbase⟩ := h
    rw [Plain, iff_false]
    intro heq
    have hlen := congrArg (BitVec.setWidth 4) (congrArg Resource.length (List.cons.inj heq).1)
    rw [one_shl_low hk] at hlen
    exact mem64_length hk hlt hbase _ hlen

theorem bars_length_pos (r : Range) : 0 < r.bars.length := by cases r <;> exact Nat.succ_pos _

theorem index_recorded {i : ℕ} : ∀ x ∈ r.recorded i, x.index = i := by
  intro x hx
  rw [recorded] at hx
  split at hx
  · rw [Bar.record] at hx
    split_ifs at hx
    · cases hx
    · rw [List.mem_singleton.mp hx]
    · rw [List.mem_singleton.mp hx]
  · rw [List.mem_singleton.mp hx]
  · cases hx

/-- At most one resource is recorded. -/
theorem reverse_recorded (i : ℕ) (r : Range) : (r.recorded i).reverse = r.recorded i := by
  rw [recorded]
  split
  · rw [Bar.record]
    split_ifs <;> rfl
  · rfl
  · rfl

theorem index_resource {i : ℕ} : ∀ x ∈ r.resource i, x.index = i := by
  cases r <;> simp [resource]

section gather

variable {f g : ℕ → Range → List Resource}

theorem le_index_gather (hf : ∀ i r, ∀ x ∈ f i r, x.index = i) (rs : List Range) (i) :
    ∀ x ∈ gather f i rs, i ≤ x.index := by
  induction rs generalizing i with
  | nil => intro x hx; cases hx
  | cons r rs ih =>
    intro x hx
    rcases List.mem_append.mp hx with hx | hx
    · exact (hf i r x hx).ge
    · exact (Nat.le_add_right _ _).trans (ih _ x hx)

/-- The resources of the first range are those with its index. -/
theorem filter_gather (hf : ∀ i r, ∀ x ∈ f i r, x.index = i) (i : ℕ) (r : Range) (rs : List Range) :
    (gather f i (r :: rs)).filter (·.index = i) = f i r := by
  rw [gather, List.filter_append, List.filter_eq_self.mpr fun x hx => by simpa using hf i r x hx,
    List.filter_eq_nil_iff.mpr fun x hx => ?_, List.append_nil]
  have h1 := le_index_gather hf rs _ x hx
  have h2 := r.bars_length_pos
  simp only [decide_eq_true_eq]
  omega

theorem gather_eq_iff (hf : ∀ i r, ∀ x ∈ f i r, x.index = i) (hg : ∀ i r, ∀ x ∈ g i r, x.index = i)
    {p : Range → Prop} (rs : List Range) (hp : ∀ r ∈ rs, ∀ i, f i r = g i r ↔ p r) :
    ∀ i, gather f i rs = gather g i rs ↔ ∀ r ∈ rs, p r := by
  induction rs with
  | nil => simp [gather]
  | cons r rs ih =>
    intro i
    have hrest := ih (fun r' hr' => hp r' (List.mem_cons_of_mem _ hr')) (i + r.bars.length)
    rw [List.forall_mem_cons, ← hp r List.mem_cons_self i, ← hrest]
    constructor
    · intro h
      have hhead : f i r = g i r := by rw [← filter_gather hf i r rs, h, filter_gather hg i r rs]
      rw [gather, gather, hhead] at h
      exact ⟨hhead, List.append_cancel_left h⟩
    · rintro ⟨hhead, htail⟩
      rw [gather, gather, hhead, htail]

end gather

end Range

section round

variable {i rounds : ℕ} {regs : List Bar} {lo hi : Bar} (hlt : i < 6) (hlo : regs[i]? = some lo)
  (resources : List Resource)

include hlt hlo

/-- A round at a range of one register. -/
theorem addBars_one (hwidth : lo.value &&& 1 ≠ 0 ∨ (lo.value &&& 6) >>> 1 = 0) :
    addBars 6 (rounds + 1) i regs resources =
      addBars 6 rounds (i + 1) regs (lo.record i ++ resources) := by
  rw [addBars, if_neg (by omega), getBARSize_eq hlo, bar_eq hlo, Bar.record]
  by_cases h0 : lo.value = 0
  · rw [if_pos h0, if_pos h0, List.nil_append]
  · rw [if_neg h0, if_neg h0]
    by_cases hio : lo.value &&& 1 ≠ 0
    · simp only [if_pos hio, List.singleton_append]
    · simp only [if_neg hio, if_pos (hwidth.resolve_left hio), List.singleton_append]

/-- A round at a range of two. -/
theorem addBars_two (hhi : regs[i + 1]? = some hi) (hmem : ¬ (lo.value &&& 1 ≠ 0))
    (hwidth : (lo.value &&& 6) >>> 1 = 2) :
    addBars 6 (rounds + 1) i regs resources = addBars 6 rounds (i + 2) regs
      (⟨.memory, (lo.value &&& 0xfffffff0).setWidth 64 + hi.value.setWidth 64 <<< 32,
        lo.size.setWidth 64 + hi.size.setWidth 64 <<< 32, i, 0⟩ :: resources) := by
  have hne : lo.value ≠ 0 := fun h0 => by
    rw [h0] at hwidth
    cases hwidth
  rw [addBars, if_neg (by omega), getBARSize_eq hlo, bar_eq hlo, if_neg hne]
  have h2 : ¬ ((2 : BitVec 32) = 0) := by decide
  simp only [if_neg hmem, hwidth, if_neg h2, getBARSize_eq hhi, bar_eq hhi, if_true]

end round

/-- **One round of the loop records one range.** -/
theorem addBars_step (hr : r.Valid) {pre post : List Bar} {rounds : ℕ} (hlt : pre.length < 6)
    (resources : List Resource) :
    addBars 6 (rounds + 1) pre.length (pre ++ r.bars ++ post) resources =
      addBars 6 rounds (pre.length + r.bars.length) (pre ++ r.bars ++ post)
        (r.recorded pre.length ++ resources) := by
  have hreg : ∀ lo rest, r.bars = lo :: rest → (pre ++ r.bars ++ post)[pre.length]? = some lo :=
    fun lo rest h => by
    simp [h]
  cases r with
  | none => exact addBars_one hlt (hreg _ _ rfl) resources (.inr rfl)
  | io wide k base => exact addBars_one hlt (hreg _ _ rfl) resources (.inl (Range.io_type base))
  | mem32 prefetchable k base =>
    obtain ⟨hk, hklt, hbase⟩ := hr
    refine addBars_one hlt (hreg _ _ rfl) resources (.inr ?_)
    rw [Range.and_type (Range.select32_low k hklt hk) hbase (by decide)]
    cases prefetchable <;> decide
  | mem64 prefetchable k base =>
    obtain ⟨hk, hklt, hbase⟩ := hr
    obtain ⟨hs, hb⟩ := Range.low_half hk hklt hbase
    refine addBars_two hlt (hreg _ _ rfl) resources (by simp [Range.bars]) ?_ ?_
    · rw [Range.and_type hs hb (by decide)]
      cases prefetchable <;> decide
    · rw [Range.and_type hs hb (by decide)]
      cases prefetchable <;> decide

/-- **The loop records one range after the other** and leaves the registers as they are. -/
theorem addBars_eq (rs : List Range) (pre : List Bar) (rounds : ℕ) (resources : List Resource)
    (hvalid : (∀ r ∈ rs, r.Valid)) (hsix : (pre ++ rs.flatMap Range.bars).length = 6)
    (hrounds : 6 ≤ pre.length + rounds) :
    addBars 6 rounds pre.length (pre ++ rs.flatMap Range.bars) resources =
      .ok ((Range.gather Range.recorded pre.length rs).reverse ++ resources, pre ++
        rs.flatMap Range.bars) := by
  induction rs generalizing pre rounds resources with
  | nil =>
    rw [List.flatMap_nil, List.append_nil] at *
    cases rounds with
    | zero => rfl
    | succ rounds => rw [addBars, if_pos hsix.ge]; rfl
  | cons r rs ih =>
    have hpos := r.bars_length_pos
    rw [List.flatMap_cons, ← List.append_assoc] at *
    have hlt : pre.length < 6 := by simp only [List.length_append] at hsix; omega
    obtain ⟨rounds, rfl⟩ := Nat.exists_eq_succ_of_ne_zero (by omega : rounds ≠ 0)
    rw [addBars_step (hvalid r List.mem_cons_self) hlt, ← List.length_append,
      ih _ _ _ (fun r' hr' => hvalid r' (List.mem_cons_of_mem _ hr')) hsix
        (by rw [List.length_append]; omega), Range.gather, List.reverse_append,
        Range.reverse_recorded, List.length_append]
    simp only [List.append_assoc]

/-- **The BARs of a device are decoded if and only if they are plain.** -/
theorem findCdiDriver_decodes_iff (d : Layout) : Decoded d ↔ ∀ r ∈ d.ranges, r.Plain := by
  have hloop := addBars_eq d.ranges [] 6 [] d.valid d.six (by decide)
  rw [List.nil_append, List.length_nil, List.append_nil] at hloop
  rw [Decoded, findCdiDriver, hloop, Except.ok.injEq, Prod.mk.injEq, and_iff_left rfl,
    List.reverse_inj]
  exact Range.gather_eq_iff (fun _ _ => Range.index_recorded) (fun _ _ => Range.index_resource)
    d.ranges (fun r hr i => Range.recorded_eq_iff (d.valid r hr) i) 0

/-- A network card with 128 KB of memory at `0xfebc0000` and 64 ports at `0xc000`. -/
def netCard : Layout where
  ranges := [.mem32 false 17 0xfebc0000, .io true 6 0xc000, .none, .none, .none, .none]
  valid := by decide
  six := rfl

/-- **The ports of the card are recorded with a length of 63.** -/
theorem netCard_not_decoded : ¬ Decoded netCard := by
  unfold Decoded
  decide

end PCI

end Kos
