import KosKernel.Machine.PageWalk

/-!
# Machine/Entries — the bits of page entries

An entry is put together from an address, flags and the `P` and `PS` bits, which do not overlap; the
lemmas read the parts back.
-/

namespace Kos

open PageEntry

namespace Paging

variable {N : ℕ} {e : PageEntry}

theorem status_zero : status 0 = .available := by decide

variable {a : PageEntry}

theorem and_eq_zero_of_le {b c : PageEntry} (h : a &&& b = 0) (hc : c &&& b = c) : a &&& c = 0 := by
  rw [← hc, BitVec.and_comm c b, ← BitVec.and_assoc, h]
  exact BitVec.zero_and

theorem and_eq_self_of_and_not {m : PageEntry} (h : a &&& ~~~m = 0) : a &&& m = a := by
  have hsplit : a &&& m ||| a &&& ~~~m = a := by
    ext i
    simp [← Bool.and_or_distrib_left]
  rw [h] at hsplit
  simpa using hsplit

variable {pma type : PageEntry}

theorem present_leaf_true : (leaf N true pma type).present = true := by
  have hP : P.getLsbD 0 = true := by decide
  simp [leaf, PageEntry.present, hP]

theorem present_leaf {present : Bool} (hpma : pma &&& ~~~ADDR = 0)
    (htype : type &&& (P ||| PS ||| ADDR) = 0) : (leaf N present pma type).present = present := by
  have hbit : ∀ {a : PageEntry}, a &&& P = 0 → a.getLsbD 0 = false := fun {a} h => by
    have hP : P.getLsbD 0 = true := by decide
    rw [← Bool.and_true (a.getLsbD 0), ← hP, ← BitVec.getLsbD_and, h]
    rfl
  have h1 : pma.getLsbD 0 = false := hbit (and_eq_zero_of_le hpma (by decide))
  have h2 : type.getLsbD 0 = false := hbit (and_eq_zero_of_le htype (by decide))
  have h3 : (pageBit N).getLsbD 0 = false := by
    unfold pageBit
    split
    · decide
    · decide
  have h4 : (if present then P else 0).getLsbD 0 = present := by
    cases present
    · decide
    · decide
  rw [PageEntry.present, leaf, BitVec.getLsbD_or, BitVec.getLsbD_or, BitVec.getLsbD_or, h1, h2,
    h3, h4]
  rfl

theorem or_and (a b c : PageEntry) : (a ||| b) &&& c = (a &&& c) ||| (b &&& c) := by
  ext i
  simp [Bool.and_or_distrib_right]

theorem addr_leaf {present : Bool} (hpma : pma &&& ~~~ADDR = 0)
    (htype : type &&& (P ||| PS ||| ADDR) = 0) : (leaf N present pma type).addr = pma := by
  have h1 := and_eq_self_of_and_not hpma
  have h2 : type &&& ADDR = 0 := and_eq_zero_of_le htype (by decide)
  have h3 : pageBit N &&& ADDR = 0 := by
    unfold pageBit
    split
    · decide
    · decide
  have h4 : (if present then P else 0) &&& ADDR = 0 := by
    cases present
    · decide
    · decide
  rw [addr, leaf, or_and, or_and, or_and, h1, h2, h3, h4]
  simp

theorem getLsbD_ADDR : ∀ i < 64, ADDR.getLsbD i = decide (12 ≤ i ∧ i < 52) := by decide

/-- The address of a frame has no other bits. -/
theorem ofNat_frame {f : ℕ} (hf : f < 2 ^ 40) :
    BitVec.ofNat 64 (f * sps) &&& ~~~ADDR = 0 ∧ (BitVec.ofNat 64 (f * sps)).toNat = f * sps := by
  have hlt : f * sps < 2 ^ 52 := by
    rw [show sps = 4096 from rfl]
    omega
  refine ⟨BitVec.eq_of_getLsbD_eq fun i hi => ?_, ?_⟩
  · rw [BitVec.getLsbD_and, BitVec.getLsbD_ofNat, BitVec.getLsbD_not, getLsbD_ADDR i hi,
      show BitVec.getLsbD (0 : PageEntry) i = false from BitVec.getLsbD_zero]
    rcases lt_or_ge i 12 with h12 | h12
    · simp [testBit_of_mod (show f * sps % 2 ^ 12 = 0 from Nat.mul_mod_left _ _) h12]
    · rcases lt_or_ge i 52 with h52 | h52
      · simp [h12, h52]
      · have hbit : (f * sps).testBit i = false :=
          Nat.testBit_lt_two_pow (lt_of_lt_of_le hlt (Nat.pow_le_pow_right (by decide) h52))
        simp [hbit]
  · rw [BitVec.toNat_ofNat]
    exact Nat.mod_eq_of_lt (hlt.trans (by decide))

theorem addr_mod (e : PageEntry) : e.addr.toNat % sps = 0 := by
  rw [show sps = 2 ^ 12 from rfl, mod_two_pow_eq_zero_iff]
  intro i hi
  rw [BitVec.testBit_toNat, addr, BitVec.getLsbD_and, getLsbD_ADDR i (by omega)]
  simp [not_le.mpr hi]

/-- The entry that `mapTable` writes. -/
theorem addr_table (h : pma &&& ~~~ADDR = 0) : (pma ||| pageTable).addr = pma := by
  rw [addr, or_and, and_eq_self_of_and_not h, show pageTable &&& ADDR = 0 by decide]
  simp

theorem present_or_P (e : PageEntry) : (e ||| P).present = true := by
  rw [present, BitVec.getLsbD_or, show P.getLsbD 0 = true by decide, Bool.or_true]

/-- The entry that `fault` writes. -/
theorem addr_faulted (a e : PageEntry) : (a ||| e &&& ~~~ADDR ||| P).addr = a &&& ADDR := by
  have hmask : e &&& ~~~ADDR &&& ADDR = 0 := by
    rw [BitVec.and_assoc, show ~~~ADDR &&& ADDR = 0 by decide]
    exact BitVec.and_zero
  rw [addr, or_and, or_and, hmask, show P &&& ADDR = 0 by decide]
  simp

theorem addr_fault (h : pma &&& ~~~ADDR = 0) (e : PageEntry) :
    (pma ||| e &&& ~~~ADDR ||| P).addr = pma := by
  rw [addr_faulted, and_eq_self_of_and_not h]

theorem isPage_faulted {N : ℕ} {e : PageEntry} (h : isPage N e = true) :
    isPage N (a ||| e &&& ~~~ADDR ||| P) = true := by
  rw [isPage, Bool.and_eq_true, Bool.or_eq_true] at h ⊢
  refine ⟨h.1, h.2.imp_right fun hl => ?_⟩
  have hmask : (~~~ADDR).getLsbD 7 = true := by decide
  rw [large] at hl ⊢
  rw [BitVec.getLsbD_or, BitVec.getLsbD_or, BitVec.getLsbD_and, hl, hmask, Bool.and_true,
    Bool.or_true, Bool.true_or]

end Paging

end Kos
