import KosKernel.Lib.Walks
import KosKernel.Machine.SpinLock

/-!
# Devices/PCI — the enumeration of the PCI functions

`checkAllBuses`, `checkBus`, `checkDevice` and `checkFunction` of `devices/PCI.cc`, over the
configuration registers of `devices/PCI.h`.  The configuration space is a word for each `Config`,
which the enumeration only reads; its debug output is left out, and with it the registers that are
read for nothing else.

The enumeration follows a bridge whenever it meets one, so it is a walk in the sense of `Lib/Walks`,
and two things go wrong.  Bridges that lead back to their own bus make it run for ever, and bridges
that share a bus make it list the functions there twice.  With several host controllers it starts
from the buses of those that are *not* there, because the test of the vendor is inverted.
`checkAllBuses_exact_iff` says for which configuration spaces the list is right nevertheless.
-/

namespace Kos

open Walks

structure PCIDevice where
  bus : UInt8
  dev : UInt8
  func : UInt8
  irq : UInt8
  deriving DecidableEq

/-- The entry is for this function. -/
def PCIDevice.At (p : PCIDevice) (bus dev func : UInt8) : Prop :=
  p.bus = bus ∧ p.dev = dev ∧ p.func = func

instance (p : PCIDevice) (bus dev func : UInt8) : Decidable (p.At bus dev func) :=
  inferInstanceAs (Decidable (_ ∧ _ ∧ _))

namespace PCI

def maxBus : ℕ := 8
def maxDevice : ℕ := 32
def maxFunction : ℕ := 8

/-! ## Configuration registers -/

/-- The address of a configuration word.  The two lowest bits of the word that is written to
`AddressPort` are zero, the highest is one, and the reserved bits do not count. -/
structure Config where
  bus : BitVec 8
  device : BitVec 5
  function : BitVec 3
  register : BitVec 6
  deriving DecidableEq

/-- The constructor of the bit field, which cuts its arguments to the widths. -/
def config (bus dev func reg : UInt8) : Config :=
  ⟨bus.toBitVec, dev.toBitVec.setWidth 5, func.toBitVec.setWidth 3, reg.toBitVec.setWidth 6⟩

/-- What the data port reads at each address. -/
def Space : Type := Config → BitVec 32

def bitmask (width : ℕ) : BitVec 32 := if width = 32 then BitVec.allOnes 32 else (1 <<< width) - 1

/-- What a register holds. -/
def field (cfg : Space) (reg width bus dev func : UInt8) : BitVec 32 :=
  (cfg (config bus dev func (reg / 4)) >>> (reg.toNat % 4 * 8)) &&& bitmask (width.toNat * 8)

def readConfig (cfg : Space) (width : ℕ) (bus dev func reg : UInt8) : Except Fault (BitVec 32) :=
  let shift := reg.toNat % 4 * 8
  if width + shift ≤ 32 then
    .ok ((cfg (config bus dev func (reg / 4)) >>> shift) &&& bitmask width)
  else .error .kassert

/-- Reading a `Register<reg,width>` with an offset. -/
def read (reg width : UInt8) (cfg : Space) (bus dev func off : UInt8) : Except Fault (BitVec 32) :=
  readConfig cfg (width.toNat * 8) bus dev func (reg + off * width)

section

variable (cfg : Space)

def vendorID (bus dev func : UInt8) := read 0 2 cfg bus dev func 0
def subClass (bus dev func : UInt8) := read 10 1 cfg bus dev func 0
def classCode (bus dev func : UInt8) := read 11 1 cfg bus dev func 0
def headerType (bus dev func : UInt8) := read 14 1 cfg bus dev func 0
def interruptLine (bus dev func : UInt8) := read 60 1 cfg bus dev func 0
def secondaryBus (bus dev func : UInt8) := read 25 1 cfg bus dev func 0

/-- The conversion to `uint8_t`. -/
def toByte (w : BitVec 32) : UInt8 := ⟨w.setWidth 8⟩

/-! ## The enumeration -/

/-- The values of the counter in `for (uint8_t i = lo; i < hi; i++)`. -/
def bytes (lo hi : ℕ) : List UInt8 := (List.range' lo (hi - lo)).map UInt8.ofNat

def checkFunction (checkBus : UInt8 → List PCIDevice → Except Fault (List PCIDevice))
    (bus dev func : UInt8) (pciDevList : List PCIDevice) : Except Fault (List PCIDevice) := do
  let ht ← headerType cfg bus dev func
  if ht &&& 0x7f = 0x00 then
    let il ← interruptLine cfg bus dev func
    return pciDevList ++ [⟨bus, dev, func, toByte il⟩]
  else if ht &&& 0x7f = 0x01 then
    let sb ← secondaryBus cfg bus dev func
    let code ← classCode cfg bus dev func
    let sub ← subClass cfg bus dev func
    -- the bus is put on `busList`, which the loop at the end goes through
    let busList := if code = 0x06 ∧ sub = 0x04 then [sb] else []
    busList.foldlM (fun devs sb => checkBus (toByte sb) devs) pciDevList
  else if ht &&& 0x7f = 0x02 then
    return pciDevList
  else
    throw .kassert

def checkDevice (checkBus : UInt8 → List PCIDevice → Except Fault (List PCIDevice))
    (bus dev : UInt8) (pciDevList : List PCIDevice) : Except Fault (List PCIDevice) := do
  let vendor ← vendorID cfg bus dev 0
  if vendor = 0xffff then return pciDevList
  else
    let devs ← checkFunction cfg checkBus bus dev 0 pciDevList
    let ht ← headerType cfg bus dev 0
    if ht &&& 0x80 ≠ 0 then
      (bytes 1 maxFunction).foldlM (fun devs func => do
        let vendor ← vendorID cfg bus dev func
        if vendor ≠ 0xffff then checkFunction cfg checkBus bus dev func devs else return devs) devs
    else return devs

/-- The recursion through the bridges is bounded by the fuel, and runs for ever if no fuel is
enough. -/
def checkBus (cfg : Space) : ℕ → UInt8 → List PCIDevice → Except Fault (List PCIDevice)
  | 0, _, _ => .error .diverge
  | fuel + 1, bus, pciDevList =>
    (bytes 0 maxDevice).foldlM
    (fun devs dev => checkDevice cfg (checkBus cfg fuel) bus dev devs) pciDevList

def checkAllBuses (fuel : ℕ) (pciDevList : List PCIDevice) : Except Fault (List PCIDevice) := do
  let ht ← headerType cfg 0 0 0
  if ht &&& 0x80 = 0 then checkBus cfg fuel 0 pciDevList
  else
    (bytes 0 maxBus).foldlM (fun devs func => do
      let vendor ← vendorID cfg 0 0 func
      if vendor = 0xffff then checkBus cfg fuel func devs else return devs) pciDevList

end

/-! ## Functions, bridges and buses of a configuration space -/

section spec

variable (cfg : Space) (bus dev func : UInt8)

def HasVendor : Prop := field cfg 0 2 bus dev func ≠ 0xffff
def MultiFunction : Prop := field cfg 14 1 bus dev 0 &&& 0x80 ≠ 0

instance : Decidable (HasVendor cfg bus dev func) := inferInstanceAs (Decidable (_ ≠ _))
instance : Decidable (MultiFunction cfg bus dev) := inferInstanceAs (Decidable (_ ≠ _))

/-- The function exists: a device has a function 0, and others only if it says so. -/
def Present : Prop :=
  dev.toNat < maxDevice ∧ func.toNat < maxFunction ∧ HasVendor cfg bus dev 0 ∧
    (func = 0 ∨ MultiFunction cfg bus dev ∧ HasVendor cfg bus dev func)

instance : Decidable (Present cfg bus dev func) := inferInstanceAs (Decidable (_ ∧ _))

/-- The layout of the configuration registers. -/
def HeaderIs (t : BitVec 32) : Prop := field cfg 14 1 bus dev func &&& 0x7f = t

instance (t : BitVec 32) : Decidable (HeaderIs cfg bus dev func t) :=
  inferInstanceAs (Decidable (_ = _))

/-- A function with a header of type 0. -/
def Device : Prop := Present cfg bus dev func ∧ HeaderIs cfg bus dev func 0

instance : Decidable (Device cfg bus dev func) := inferInstanceAs (Decidable (_ ∧ _))

/-- A bridge between PCI buses. -/
def Bridge : Prop :=
  Present cfg bus dev func ∧ HeaderIs cfg bus dev func 1 ∧
    field cfg 11 1 bus dev func = 0x06 ∧ field cfg 10 1 bus dev func = 0x04

instance : Decidable (Bridge cfg bus dev func) := inferInstanceAs (Decidable (_ ∧ _))

/-- The bus behind a bridge. -/
def behind : UInt8 := toByte (field cfg 25 1 bus dev func)

/-- Functions have headers of the types 0, 1 and 2 only. -/
def Typed : Prop :=
  ∀ bus dev func, Present cfg bus dev func →
    HeaderIs cfg bus dev func 0 ∨ HeaderIs cfg bus dev func 1 ∨ HeaderIs cfg bus dev func 2

/-- A bridge leads from one bus to another. -/
def BridgeTo (b c : UInt8) : Prop := ∃ dev func, Bridge cfg b dev func ∧ behind cfg b dev func = c

/-- The bus of a host controller.  If there are several of them, they are the functions of device 0
on bus 0, and each has the bus of its number. -/
def HostBus : Prop :=
  if MultiFunction cfg 0 0 then bus.toNat < maxBus ∧ HasVendor cfg 0 0 bus else bus = 0

instance : Decidable (HostBus cfg bus) :=
  inferInstanceAs (Decidable (if MultiFunction cfg 0 0 then _ ∧ HasVendor cfg 0 0 bus else bus = 0))

/-- A bus that `checkAllBuses` starts from. -/
def StartBus : Prop :=
  if MultiFunction cfg 0 0 then bus.toNat < maxBus ∧ ¬ HasVendor cfg 0 0 bus else bus = 0

instance : Decidable (StartBus cfg bus) :=
  inferInstanceAs (Decidable (if MultiFunction cfg 0 0 then _ ∧ ¬ HasVendor cfg 0 0 bus
    else bus = 0))

/-- Bridges lead to the bus from a host controller. -/
def Reachable : Prop := ∃ host, HostBus cfg host ∧ Relation.ReflTransGen (BridgeTo cfg) host bus

/-- Bridges lead to the bus from where `checkAllBuses` starts. -/
def Scanned : Prop := ∃ start, StartBus cfg start ∧ Relation.ReflTransGen (BridgeTo cfg) start bus

/-- The list has each function with a header of type 0 behind the host controllers once, and no
function that does not exist. -/
def Exact (devs : List PCIDevice) : Prop :=
  (∀ bus dev func, Device cfg bus dev func → Reachable cfg bus →
    devs.countP (fun p => p.At bus dev func) = 1) ∧
  ∀ p ∈ devs, Present cfg p.bus p.dev p.func

end spec

/-- How the enumeration comes to a bus: it starts there, or there is a bridge. -/
inductive Hop
  | start (bus : UInt8)
  | bridge (bus dev func : UInt8)
  deriving DecidableEq

def Hop.target (cfg : Space) : Hop → UInt8
  | .start bus => bus
  | .bridge bus dev func => behind cfg bus dev func

def Hop.Leaves (cfg : Space) (b : UInt8) : Hop → Prop
  | .start _ => False
  | .bridge bus dev func => bus = b ∧ Bridge cfg bus dev func

/-- The hops lead to the bus, the first of them to where the enumeration starts and the others over
bridges. -/
def Route (cfg : Space) : List Hop → UInt8 → Prop
  | .start s :: hops, bus => StartBus cfg s ∧ Trail (Hop.Leaves cfg) (Hop.target cfg) hops s bus
  | _, _ => False

/-! ## The enumeration as a walk -/

section walk

variable {cfg : Space} {b bus dev func : UInt8}

theorem mem_bytes {lo hi : ℕ} (h : hi ≤ 256) : b ∈ bytes lo hi ↔ lo ≤ b.toNat ∧ b.toNat < hi := by
  simp only [bytes, List.mem_map, List.mem_range'_1]
  constructor
  · rintro ⟨n, hn, rfl⟩
    rw [UInt8.toNat_ofNat_of_lt' (by change n < 256; omega)]
    omega
  · intro hb
    exact ⟨b.toNat, by omega, UInt8.ofNat_toNat⟩

theorem nodup_bytes {lo hi : ℕ} (h : hi ≤ 256) : (bytes lo hi).Nodup := by
  refine List.Nodup.map_on (fun n hn m hm heq => ?_) (List.nodup_range' ..)
  rw [List.mem_range'_1] at hn hm
  have := congrArg UInt8.toNat heq
  rwa [UInt8.toNat_ofNat_of_lt' (by change n < 256; omega),
    UInt8.toNat_ofNat_of_lt' (by change m < 256; omega)] at this

/-- The entry that is made for a function. -/
def entry (cfg : Space) (bus dev func : UInt8) : PCIDevice :=
  ⟨bus, dev, func, toByte (field cfg 60 1 bus dev func)⟩

/-- What `checkFunction` finds. -/
def functionPart (cfg : Space) (bus dev func : UInt8) : List (PCIDevice ⊕ Hop) :=
  if Device cfg bus dev func then [.inl (entry cfg bus dev func)]
  else if Bridge cfg bus dev func then [.inr (.bridge bus dev func)]
  else []

def busPart (cfg : Space) (bus : UInt8) : List (PCIDevice ⊕ Hop) :=
  (bytes 0 maxDevice).flatMap fun dev => (bytes 0 maxFunction).flatMap fun func =>
    functionPart cfg bus dev func

def hostPart (cfg : Space) : List (PCIDevice ⊕ Hop) :=
  (bytes 0 maxBus).flatMap fun bus => if StartBus cfg bus then [.inr (.start bus)] else []

variable {n : ℕ} {checkBus' : UInt8 → List PCIDevice → Except Fault (List PCIDevice)}
  {l : List PCIDevice}

/-- The registers are read without a fault, so the functions branch on what they hold. -/
theorem checkFunction_eq : checkFunction cfg checkBus' bus dev func l =
    if HeaderIs cfg bus dev func 0 then .ok (l ++ [entry cfg bus dev func])
    else if HeaderIs cfg bus dev func 1 then
      (if field cfg 11 1 bus dev func = 0x06 ∧ field cfg 10 1 bus dev func = 0x04
        then [field cfg 25 1 bus dev func] else []).foldlM
    (fun devs sb => checkBus' (toByte sb) devs) l
    else if HeaderIs cfg bus dev func 2 then .ok l else .error .kassert := rfl

theorem checkDevice_eq : checkDevice cfg checkBus' bus dev l =
    if HasVendor cfg bus dev 0 then
      checkFunction cfg checkBus' bus dev 0 l >>= fun devs =>
        if MultiFunction cfg bus dev then
          (bytes 1 maxFunction).foldlM (fun devs func =>
            if HasVendor cfg bus dev func then checkFunction cfg checkBus' bus dev func devs
      else .ok devs) devs
        else .ok devs
    else .ok l :=
  (ite_not ..).symm

theorem checkAllBuses_eq : checkAllBuses cfg n l =
    if MultiFunction cfg 0 0 then
      (bytes 0 maxBus).foldlM (fun devs func =>
        if HasVendor cfg 0 0 func then .ok devs else checkBus cfg n func devs) l
    else checkBus cfg n 0 l := by
  have hstart :
      (fun devs func => if HasVendor cfg 0 0 func then .ok devs else checkBus cfg n func devs) =
      fun devs func => if field cfg 0 2 0 0 func = 0xffff then checkBus cfg n func devs
        else .ok devs := by
    funext devs func
    exact ite_not ..
  rw [hstart]
  exact (ite_not ..).symm

/-- What is found when a bus is visited. -/
def visit (cfg : Space) (n : ℕ) (hop : Hop) : Option (List (List Hop × PCIDevice)) :=
  walk (busPart cfg) (Hop.target cfg) n (hop.target cfg)

/-- The visitor of a bus does what the walk of depth `n` does. -/
def Follows (cfg : Space) (n : ℕ)
    (checkBus' : UInt8 → List PCIDevice → Except Fault (List PCIDevice)) : Prop :=
  ∀ b l, checkBus' b l =
    (walk (busPart cfg) (Hop.target cfg) n b).elim (.error .diverge) fun found =>
      .ok (l ++ found.map Prod.snd)

theorem functionPart_of_not_present (h : ¬ Present cfg bus dev func) :
    functionPart cfg bus dev func = [] := by
  rw [functionPart, if_neg fun hd => h hd.1, if_neg fun hb => h hb.1]

theorem checkFunction_emits (htyped : Typed cfg) (hbus : Follows cfg n checkBus')
    (hp : Present cfg bus dev func) :
    Emits .diverge (visit cfg n) (checkFunction cfg checkBus' bus dev func)
      (functionPart cfg bus dev func) := by
  intro l
  rw [checkFunction_eq]
  obtain h | h | h := htyped bus dev func hp
  · rw [if_pos h, functionPart, if_pos ⟨hp, h⟩]
    exact Emits.item _ l
  · have hne : ¬ HeaderIs cfg bus dev func 0 := fun h0 => absurd (h0.symm.trans h) (by decide)
    have hdev : ¬ Device cfg bus dev func := fun hd => hne hd.2
    rw [if_neg hne, if_pos h, functionPart, if_neg hdev]
    by_cases hb : field cfg 11 1 bus dev func = 0x06 ∧ field cfg 10 1 bus dev func = 0x04
    · rw [if_pos hb, if_pos ⟨hp, h, hb⟩]
      simp only [List.foldlM_cons, List.foldlM_nil, bind_pure]
      exact Emits.link (fun l => hbus (behind cfg bus dev func) l) l
    · rw [if_neg hb, if_neg fun hbr => hb hbr.2.2]
      exact Emits.nil l
  · have hne0 : ¬ HeaderIs cfg bus dev func 0 := fun h0 => absurd (h0.symm.trans h) (by decide)
    have hne1 : ¬ HeaderIs cfg bus dev func 1 := fun h1 => absurd (h1.symm.trans h) (by decide)
    rw [if_neg hne0, if_neg hne1, if_pos h, functionPart, if_neg fun hd => hne0 hd.2,
      if_neg fun hb => hne1 hb.2.1]
    exact Emits.nil l

/-- Functions from 1 on, which exist if the device says so. -/
theorem restPart_emits (htyped : Typed cfg) (hbus : Follows cfg n checkBus')
    (hdev : dev.toNat < maxDevice) (h0 : HasVendor cfg bus dev 0) :
    Emits .diverge (visit cfg n) (fun devs => if MultiFunction cfg bus dev then
          (bytes 1 maxFunction).foldlM (fun devs func =>
            if HasVendor cfg bus dev func then checkFunction cfg checkBus' bus dev func devs
      else .ok devs) devs
        else .ok devs)
      ((bytes 1 maxFunction).flatMap (functionPart cfg bus dev)) := by
  have hbytes : ∀ func ∈ bytes 1 maxFunction, func.toNat < maxFunction ∧ func ≠ 0 := by
    intro func hfunc
    obtain ⟨hlo, hhi⟩ := (mem_bytes (by decide)).mp hfunc
    refine ⟨hhi, ?_⟩
    rintro rfl
    exact absurd hlo (by decide)
  by_cases hmulti : MultiFunction cfg bus dev
  · simp only [if_pos hmulti]
    refine Emits.foldlM fun func hfunc => ?_
    obtain ⟨hhi, hne⟩ := hbytes func hfunc
    by_cases hv : HasVendor cfg bus dev func
    · simp only [if_pos hv]
      exact checkFunction_emits htyped hbus ⟨hdev, hhi, h0, .inr ⟨hmulti, hv⟩⟩
    · simp only [if_neg hv]
      rw [functionPart_of_not_present fun hp => hp.2.2.2.elim hne fun h => hv h.2]
      exact Emits.nil
  · simp only [if_neg hmulti]
    rw [List.flatMap_eq_nil_iff.mpr fun func hfunc => functionPart_of_not_present fun hp =>
      hp.2.2.2.elim (hbytes func hfunc).2 fun h => hmulti h.1]
    exact Emits.nil

theorem checkDevice_emits (htyped : Typed cfg) (hbus : Follows cfg n checkBus')
    (hdev : dev.toNat < maxDevice) :
    Emits .diverge (visit cfg n) (checkDevice cfg checkBus' bus dev)
      ((bytes 0 maxFunction).flatMap (functionPart cfg bus dev)) := by
  intro l
  rw [checkDevice_eq]
  by_cases h0 : HasVendor cfg bus dev 0
  · rw [if_pos h0, show bytes 0 maxFunction = 0 :: bytes 1 maxFunction from rfl, List.flatMap_cons]
    have hp : Present cfg bus dev 0 := ⟨hdev, by decide, h0, .inl rfl⟩
    exact (checkFunction_emits htyped hbus hp).bind (restPart_emits htyped hbus hdev h0) l
  · rw [if_neg h0,
      List.flatMap_eq_nil_iff.mpr fun func _ => functionPart_of_not_present fun hp => h0 hp.2.2.1]
    exact Emits.nil l

/-- **The enumeration of a bus is a walk** that follows the bridges. -/
theorem checkBus_follows (htyped : Typed cfg) (n : ℕ) : Follows cfg n (checkBus cfg n) := by
  induction n with
  | zero => exact fun b l => rfl
  | succ n ih =>
    intro b l
    exact Emits.foldlM (fun dev hdev =>
      checkDevice_emits htyped ih ((mem_bytes (by decide)).mp hdev).2) l

theorem checkAllBuses_emits (htyped : Typed cfg) (n : ℕ) :
    Emits .diverge (visit cfg n) (checkAllBuses cfg n) (hostPart cfg) := by
  intro l
  have hstart : ∀ b, Emits .diverge (visit cfg n) (checkBus cfg n b) [.inr (.start b)] := fun b =>
    Emits.link fun l => checkBus_follows htyped n b l
  rw [checkAllBuses_eq]
  by_cases hmulti : MultiFunction cfg 0 0
  · rw [if_pos hmulti]
    refine Emits.foldlM (fun func hfunc => ?_) l
    have hiff : StartBus cfg func ↔ ¬ HasVendor cfg 0 0 func := by
      rw [StartBus, if_pos hmulti]
      exact and_iff_right ((mem_bytes (by decide)).mp hfunc).2
    by_cases hv : HasVendor cfg 0 0 func
    · simp only [if_pos hv, if_neg (mt hiff.mp (not_not.mpr hv))]
      exact Emits.nil
    · simp only [if_neg hv, if_pos (hiff.mpr hv)]
      exact hstart func
  · have hiff : ∀ b, StartBus cfg b ↔ b = 0 := fun b => by rw [StartBus, if_neg hmulti]
    have hrest : (bytes 1 maxBus).flatMap (fun bus =>
        if StartBus cfg bus then [(.inr (.start bus) : PCIDevice ⊕ Hop)] else []) = [] := by
      refine List.flatMap_eq_nil_iff.mpr fun b hb => if_neg fun hs => ?_
      obtain rfl := (hiff b).mp hs
      exact absurd ((mem_bytes (by decide)).mp hb).1 (by decide)
    rw [if_neg hmulti, hostPart, show bytes 0 maxBus = 0 :: bytes 1 maxBus from rfl,
      List.flatMap_cons, hrest, if_pos ((hiff 0).mpr rfl)]
    exact hstart 0 l

/-! ## What the walk meets -/

theorem inl_mem_busPart {p : PCIDevice} :
    .inl p ∈ busPart cfg b ↔ ∃ dev func, Device cfg b dev func ∧ p = entry cfg b dev func := by
  have hpart : ∀ dev func, .inl p ∈ functionPart cfg b dev func ↔
      Device cfg b dev func ∧ p = entry cfg b dev func := by
    intro dev func
    rw [functionPart]
    split_ifs <;> simp [*]
  simp only [busPart, List.mem_flatMap, hpart]
  constructor
  · rintro ⟨dev, -, func, -, h⟩
    exact ⟨dev, func, h⟩
  · rintro ⟨dev, func, h⟩
    refine ⟨dev, (mem_bytes (by decide)).mpr ⟨Nat.zero_le _, h.1.1.1⟩, func, ?_, h⟩
    exact (mem_bytes (by decide)).mpr ⟨Nat.zero_le _, h.1.1.2.1⟩

theorem inr_mem_busPart {hop : Hop} : .inr hop ∈ busPart cfg b ↔ hop.Leaves cfg b := by
  have hpart : ∀ dev func, .inr hop ∈ functionPart cfg b dev func ↔
      Bridge cfg b dev func ∧ hop = .bridge b dev func := by
    intro dev func
    rw [functionPart]
    split_ifs with hd hb
    · have hb : ¬ Bridge cfg b dev func := fun hb => absurd (hd.2.symm.trans hb.2.1) (by decide)
      simp [hb]
    · simp [hb]
    · simp [hb]
  simp only [busPart, List.mem_flatMap, hpart]
  constructor
  · rintro ⟨dev, -, func, -, h, rfl⟩
    exact ⟨rfl, h⟩
  · intro h
    cases hop with
    | start s => exact h.elim
    | bridge bus dev func =>
      obtain ⟨rfl, h⟩ := h
      refine ⟨dev, (mem_bytes (by decide)).mpr ⟨Nat.zero_le _, h.1.1⟩, func, ?_, h, rfl⟩
      exact (mem_bytes (by decide)).mpr ⟨Nat.zero_le _, h.1.2.1⟩

theorem inr_mem_hostPart {hop : Hop} : .inr hop ∈ hostPart cfg ↔
      ∃ s, StartBus cfg s ∧ hop = .start s := by
  have hlt : ∀ s, StartBus cfg s → s.toNat < maxBus := by
    intro s hs
    rw [StartBus] at hs
    split_ifs at hs
    · exact hs.1
    · rw [hs]
      decide
  simp only [hostPart, List.mem_flatMap, List.mem_ite_nil_right, List.mem_singleton, Sum.inr.injEq]
  constructor
  · rintro ⟨s, -, hs, rfl⟩
    exact ⟨s, hs, rfl⟩
  · rintro ⟨s, hs, rfl⟩
    exact ⟨s, (mem_bytes (by decide)).mpr ⟨Nat.zero_le _, hlt s hs⟩, hs, rfl⟩

theorem inl_not_mem_hostPart {p : PCIDevice} : .inl p ∉ hostPart cfg := by
  simp [hostPart]

/-- The device and the function that an element of a bus is for. -/
def origin : PCIDevice ⊕ Hop → UInt8 × UInt8
  | .inl p => (p.dev, p.func)
  | .inr (.bridge _ dev func) => (dev, func)
  | .inr (.start s) => (s, s)

theorem origin_functionPart {x : PCIDevice ⊕ Hop} (hx : x ∈ functionPart cfg bus dev func) :
    origin x = (dev, func) := by
  rw [functionPart] at hx
  split_ifs at hx
  · obtain rfl := List.mem_singleton.mp hx
    rfl
  · obtain rfl := List.mem_singleton.mp hx
    rfl
  · cases hx

theorem nodup_busPart : (busPart cfg b).Nodup := by
  have hpart : ∀ dev func, (functionPart cfg b dev func).Nodup := by
    intro dev func
    rw [functionPart]
    split_ifs <;> simp
  refine nodup_flatMap_of_tag (fun x => (origin x).1) (nodup_bytes (by decide)) (fun dev _ => ?_) ?_
  · refine nodup_flatMap_of_tag (fun x => (origin x).2) (nodup_bytes (by decide))
      (fun func _ => hpart dev func) ?_
    intro func _ x hx
    rw [origin_functionPart hx]
  · intro dev _ x hx
    obtain ⟨func, -, hx⟩ := List.mem_flatMap.mp hx
    rw [origin_functionPart hx]

theorem nodup_hostPart : (hostPart cfg).Nodup := by
  refine nodup_flatMap_of_tag (fun x => (origin x).1) (nodup_bytes (by decide)) (fun s _ => ?_) ?_
  · split_ifs <;> simp
  · intro s _ x hx
    rw [List.mem_ite_nil_right, List.mem_singleton] at hx
    rw [hx.2]
    rfl

/-! ## When the list is right -/

variable {found : List (List Hop × PCIDevice)} {devs : List PCIDevice}

theorem checkAllBuses_eq_ok (htyped : Typed cfg) :
    checkAllBuses cfg n [] = .ok devs ↔
      ∃ found, collect (visit cfg n) (hostPart cfg) = some found ∧ found.map Prod.snd = devs := by
  rw [checkAllBuses_emits htyped n []]
  cases collect (visit cfg n) (hostPart cfg) <;> simp

/-- The list has an entry for each route to the bus of a device. -/
theorem mem_found (h : collect (visit cfg n) (hostPart cfg) = some found) {hops : List Hop}
    {p : PCIDevice} : (hops, p) ∈ found ↔ ∃ bus dev func, Route cfg hops bus ∧
      Device cfg bus dev func ∧ p = entry cfg bus dev func := by
  have hwalk : ∀ {b behind rest}, walk (busPart cfg) (Hop.target cfg) n b = some behind →
      ((rest, p) ∈ behind ↔ ∃ c, Trail (Hop.Leaves cfg) (Hop.target cfg) rest b c ∧
        .inl p ∈ busPart cfg c) :=
    fun h => mem_walk (fun _ _ => inr_mem_busPart) h
  rw [mem_collect h]
  constructor
  · rintro (⟨-, hp⟩ | ⟨hop, rest, behind, rfl, hhop, hbehind, hmem⟩)
    · exact (inl_not_mem_hostPart hp).elim
    · obtain ⟨s, hs, rfl⟩ := inr_mem_hostPart.mp hhop
      obtain ⟨c, htrail, hp⟩ := (hwalk hbehind).mp hmem
      obtain ⟨dev, func, hdev, rfl⟩ := inl_mem_busPart.mp hp
      exact ⟨c, dev, func, ⟨hs, htrail⟩, hdev, rfl⟩
  · rintro ⟨c, dev, func, hroute, hdev, rfl⟩
    obtain ⟨s, rest, rfl, hs, htrail⟩ : ∃ s rest, hops = .start s :: rest ∧ StartBus cfg s ∧
        Trail (Hop.Leaves cfg) (Hop.target cfg) rest s c := by
      rcases hops with _ | ⟨s | _, rest⟩
      · exact hroute.elim
      · exact ⟨s, rest, rfl, hroute⟩
      · exact hroute.elim
    have hhop := inr_mem_hostPart.mpr ⟨s, hs, rfl⟩
    have hsome := isSome_collect.mp (Option.isSome_iff_exists.mpr ⟨found, h⟩) _ hhop
    obtain ⟨behind, hbehind⟩ := Option.isSome_iff_exists.mp hsome
    refine .inr ⟨_, rest, behind, rfl, hhop, hbehind, (hwalk hbehind).mpr ⟨c, htrail, ?_⟩⟩
    exact inl_mem_busPart.mpr ⟨dev, func, hdev, rfl⟩

/-- A device is listed once for each route to its bus. -/
theorem countP_found (h : collect (visit cfg n) (hostPart cfg) = some found)
    (hdev : Device cfg bus dev func) :
    (found.map Prod.snd).countP (fun p => p.At bus dev func) = 1 ↔ ∃! hops, Route cfg hops bus := by
  have hnodup : found.Nodup :=
    nodup_collect h nodup_hostPart fun _ _ hk => nodup_walk (fun _ => nodup_busPart) hk
  have hmem : ∀ hops p, ((hops, p) ∈ found ∧ p.At bus dev func) ↔
      Route cfg hops bus ∧ p = entry cfg bus dev func := by
    intro hops p
    rw [mem_found h]
    constructor
    · rintro ⟨⟨bus, dev, func, hroute, -, rfl⟩, rfl, rfl, rfl⟩
      exact ⟨hroute, rfl⟩
    · rintro ⟨hroute, rfl⟩
      exact ⟨⟨bus, dev, func, hroute, hdev, rfl⟩, rfl, rfl, rfl⟩
  rw [countP_snd_eq_one hnodup]
  constructor
  · rintro ⟨⟨hops, p⟩, hx, huniq⟩
    refine ⟨hops, ((hmem hops p).mp hx).1, fun hops' hroute => ?_⟩
    exact congrArg Prod.fst (huniq (hops', _) ((hmem hops' _).mpr ⟨hroute, rfl⟩))
  · rintro ⟨hops, hroute, huniq⟩
    refine ⟨(hops, entry cfg bus dev func), (hmem hops _).mpr ⟨hroute, rfl⟩, ?_⟩
    rintro ⟨hops', p⟩ hx
    obtain ⟨hroute', rfl⟩ := (hmem hops' p).mp hx
    rw [huniq hops' hroute']

/-- **Termination**: no bus that the enumeration comes to leads back to itself. -/
theorem terminates_iff : (∃ n, (collect (visit cfg n) (hostPart cfg)).isSome) ↔
    ∀ b, Scanned cfg b → ¬ Relation.TransGen (BridgeTo cfg) b b := by
  have : Finite UInt8 := Finite.of_injective UInt8.toFin fun _ _ => UInt8.toFin_inj.mp
  have hbridge : ∀ b c, BridgeTo cfg b c ↔ ∃ hop, .inr hop ∈ busPart cfg b ∧
      Hop.target cfg hop = c := by
    intro b c
    simp only [inr_mem_busPart]
    constructor
    · rintro ⟨dev, func, hb, rfl⟩
      exact ⟨.bridge b dev func, ⟨rfl, hb⟩, rfl⟩
    · rintro ⟨_ | ⟨_, dev, func⟩, hleaves, rfl⟩
      · exact hleaves.elim
      · obtain ⟨rfl, hb⟩ := hleaves
        exact ⟨dev, func, hb, rfl⟩
  constructor
  · rintro ⟨n, hn⟩ b ⟨s, hs, hsb⟩
    have hwalk := isSome_collect.mp hn _ (inr_mem_hostPart.mpr ⟨s, hs, rfl⟩)
    exact (exists_walk_iff hbridge).mp ⟨n, hwalk⟩ b hsb
  · intro h
    refine exists_collect_walk fun hop hhop => ?_
    obtain ⟨s, hs, rfl⟩ := inr_mem_hostPart.mp hhop
    exact (exists_walk_iff hbridge).mpr fun b hsb => h b ⟨s, hs, hsb⟩

end walk

/-- **The enumeration ends with the right list** if and only if no bus that it comes to leads back
to itself and there is exactly one route to each bus with a device behind a host controller. -/
theorem checkAllBuses_exact_iff (cfg : Space) (htyped : Typed cfg) :
    (∃ fuel devs, checkAllBuses cfg fuel [] = .ok devs ∧ Exact cfg devs) ↔
      (∀ bus, Scanned cfg bus → ¬ Relation.TransGen (BridgeTo cfg) bus bus) ∧
      ∀ bus dev func, Device cfg bus dev func → Reachable cfg bus →
        ∃! hops, Route cfg hops bus := by
  rw [← terminates_iff]
  constructor
  · rintro ⟨n, devs, hdevs, hexact⟩
    obtain ⟨found, hfound, rfl⟩ := (checkAllBuses_eq_ok htyped).mp hdevs
    refine ⟨⟨n, Option.isSome_iff_exists.mpr ⟨found, hfound⟩⟩, fun bus dev func hdev hreach => ?_⟩
    exact (countP_found hfound hdev).mp (hexact.1 bus dev func hdev hreach)
  · rintro ⟨⟨n, hn⟩, hroutes⟩
    obtain ⟨found, hfound⟩ := Option.isSome_iff_exists.mp hn
    refine ⟨n, found.map Prod.snd, (checkAllBuses_eq_ok htyped).mpr ⟨found, hfound, rfl⟩, ?_, ?_⟩
    · exact fun bus dev func hdev hreach =>
        (countP_found hfound hdev).mpr (hroutes bus dev func hdev hreach)
    · intro p hp
      obtain ⟨⟨hops, p⟩, hmem, rfl⟩ := List.mem_map.mp hp
      obtain ⟨bus, dev, func, -, hdev, rfl⟩ := (mem_found hfound).mp hmem
      exact hdev.1

/-- Bus 0 with devices of one function each, given by their header types, and nothing else.  Bridges
lead back to bus 0. -/
def bus0 (headers : List (BitVec 32)) : Space := fun c =>
  if c.bus = 0 ∧ c.function = 0 ∧ c.device.toNat < headers.length then
    if c.register = 0 then 0x12378086
    else if c.register = 2 then 0x06040000
    else if c.register = 3 then headers.getD c.device.toNat 0 <<< 16
    else 0
  else BitVec.allOnes 32

theorem header_bus0 {headers : List (BitVec 32)} {bus dev func : UInt8}
    (hp : Present (bus0 headers) bus dev func) :
    ∃ t ∈ headers, field (bus0 headers) 14 1 bus dev func = (t <<< 16 >>> 16) &&& 0xff := by
  have hv : HasVendor (bus0 headers) bus dev func := by
    obtain ⟨-, -, h0, rfl | ⟨-, hv⟩⟩ := hp
    · exact h0
    · exact hv
  by_cases hthere : (config bus dev func 0).bus = 0 ∧ (config bus dev func 0).function = 0 ∧
      (config bus dev func 0).device.toNat < headers.length
  · refine ⟨headers.getD (config bus dev func 0).device.toNat 0, ?_, ?_⟩
    · rw [← List.getElem_eq_getD (h := hthere.2.2) 0]
      exact List.getElem_mem _
    · have hword : bus0 headers (config bus dev func 3) =
          headers.getD (config bus dev func 0).device.toNat 0 <<< 16 := (if_pos hthere).trans rfl
      rw [← hword]
      rfl
  · refine absurd ?_ hv
    have hword : bus0 headers (config bus dev func 0) = BitVec.allOnes 32 := if_neg hthere
    change bus0 headers (config bus dev func 0) >>> 0 &&& 0xffff = 0xffff
    rw [hword]
    decide

theorem typed_bus0 {headers : List (BitVec 32)}
    (h : ∀ t ∈ headers, (t <<< 16 >>> 16) &&& 0xff &&& 0x7f ∈ [(0 : BitVec 32), 1, 2]) :
    Typed (bus0 headers) := by
  intro bus dev func hp
  obtain ⟨t, ht, hfield⟩ := header_bus0 hp
  simpa [HeaderIs, hfield] using h t ht

/-- A host controller and one more function. -/
theorem checkAllBuses_exact_iff_bus0 :
    ∃ fuel devs, checkAllBuses (bus0 [0, 0]) fuel [] = .ok devs ∧ Exact (bus0 [0, 0]) devs := by
  have hno : ∀ b dev func, ¬ Bridge (bus0 [0, 0]) b dev func := by
    rintro b dev func ⟨hp, hheader, -⟩
    obtain ⟨t, ht, hfield⟩ := header_bus0 hp
    obtain rfl : t = 0 := by simpa using ht
    rw [HeaderIs, hfield] at hheader
    exact absurd hheader (by decide)
  refine (checkAllBuses_exact_iff _ (typed_bus0 (by simp))).mpr
    ⟨fun bus _ hcycle => ?_, fun bus dev func _ ⟨host, hhost, hpath⟩ => ?_⟩
  · obtain ⟨-, ⟨dev, func, hbridge, -⟩, -⟩ := Relation.TransGen.head'_iff.mp hcycle
    exact hno _ dev func hbridge
  · rcases hpath.cases_head with rfl | ⟨-, ⟨dev, func, hbridge, -⟩, -⟩
    · obtain rfl : host = 0 := by rwa [HostBus, if_neg (by decide +kernel)] at hhost
      refine ⟨[.start 0], ⟨by decide +kernel, rfl⟩, fun hops hroute => ?_⟩
      match hops with
      | .start s :: [] => rw [show s = 0 from hroute.2]
      | .start s :: .bridge b dev func :: hops => exact absurd hroute.2.1.2 (hno b dev func)
    · exact absurd hbridge (hno _ dev func)

/-- A bridge from bus 0 to bus 0 is followed for ever.  A host controller that says it is one of
several is the only function there is, and the list stays empty. -/
theorem checkAllBuses_inexact :
    (Typed (bus0 [0, 1]) ∧ ∀ fuel devs, checkAllBuses (bus0 [0, 1]) fuel [] ≠ .ok devs) ∧
    Typed (bus0 [0x80]) ∧ Device (bus0 [0x80]) 0 0 0 ∧ Reachable (bus0 [0x80]) 0 ∧
      checkAllBuses (bus0 [0x80]) 1 [] = .ok [] := by
  have htyped : Typed (bus0 [0, 1]) := typed_bus0 (by simp)
  refine ⟨⟨htyped, fun fuel devs hok => ?_⟩, typed_bus0 (by simp), by decide +kernel,
    ⟨0, by decide +kernel, .refl⟩, by decide +kernel⟩
  obtain ⟨found, hfound, -⟩ := (checkAllBuses_eq_ok htyped).mp hok
  refine terminates_iff.mp ⟨fuel,
    Option.isSome_iff_exists.mpr ⟨found, hfound⟩⟩ 0 ⟨0, by decide +kernel, .refl⟩ ?_
  exact .single ⟨1, 0, by decide +kernel, by decide +kernel⟩

end PCI

end Kos
