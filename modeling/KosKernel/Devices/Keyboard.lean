import KosKernel.Lib.Runs
import KosKernel.Machine.SpinLock
import Mathlib.Tactic.IntervalCases

/-!
# Devices/Keyboard — scan codes to keys

`irqHandlerInternal` of `devices/Keyboard.cc`, which turns the bytes of the keyboard into key codes.
The bytes 0xE0, 0xE1 and 0xF0 announce an extended key, the pause key and the release of a key; any
other byte is translated from the AT to the XT set and looked up there.  `scanCodeSet` is 2, since
the code that could change it is not compiled.

The table of the XT set ends at 0x58.  The translation of 40 bytes lies behind its end, bytes from
0x80 on and repeated prefixes fail an assertion, and all other bytes are safe in the right state:
`decoder_safe_iff`.

Of a modifier there are two keys and one flag.  The flag is right as long as no key is released
while the other one is down: `modifiers_tracked`.
-/

namespace Kos

open Function Runs

/-- A `KeyCode`: a character, or one of the numbers from 0x1000 on that stand for the other keys. -/
inductive Key
  | char (c : ℕ)
  | f1 | f2 | f3 | f4 | f5 | f6 | f7 | f8 | f9
  | f10 | f11 | f12 | prtScr | scrollLock | pause | capsLock | lshift | lctrl
  | lalt | lgui | rshift | rctrl | ralt | rgui | up | down | left
  | right | insert | home | endKey | pgUp | pgDown | kpDot | kp0 | kp1
  | kp2 | kp3 | kp4 | kp5 | kp6 | kp7 | kp8 | kp9 | kpNumLock
  | kpDivide | kpAsterisk | kpMinus | kpPlus | kpEnter | unknown
  deriving DecidableEq

namespace Key

def backspace : Key := .char 0x08
def tab : Key := .char 0x09
def enter : Key := .char 0x0A
def escape : Key := .char 0x1B
def delete : Key := .char 0x7F

/-- A row of the table whose second entry is `KEY_UNKNOWN`. -/
def plain (key : Key) : Key × Key := (key, .unknown)
def ascii (c : Char) : Key × Key := plain (.char c.toNat)

/-- The keys of the XT set, without prefix and with it. -/
def tableXTtoKey : List (Key × Key) :=
  [plain .unknown, plain escape, ascii '1', ascii '2', ascii '3', ascii '4', ascii '5', ascii '6',
   ascii '7', ascii '8', ascii '9', ascii '0', ascii '-', ascii '=', plain backspace, plain tab,
     ascii 'q', ascii 'w', ascii 'e', ascii 'r', ascii 't', ascii 'y', ascii 'u', ascii 'i',
     ascii 'o', ascii 'p', ascii '[', ascii ']', (enter, .kpEnter), (.lctrl, .rctrl), ascii 'a',
     ascii 's', ascii 'd', ascii 'f', ascii 'g', ascii 'h', ascii 'j', ascii 'k', ascii 'l',
     ascii ';', plain (.char 0x27), plain (.char 0x60), (.lshift, .prtScr), plain (.char 0x5C),
     ascii 'z', ascii 'x', ascii 'c', ascii 'v', ascii 'b', ascii 'n', ascii 'm', ascii ',',
     ascii '.', (.char '/'.toNat, .kpDivide), plain .rshift,
   (.kpAsterisk, .prtScr), (.lalt, .ralt), ascii ' ', plain .capsLock, plain .f1, plain .f2,
     plain .f3, plain .f4, plain .f5, plain .f6, plain .f7, plain .f8, plain .f9, plain .f10,
     plain .kpNumLock, plain .scrollLock, (.kp7, .home), (.kp8, .up), (.kp9, .pgUp), plain .kpMinus,
     (.kp4, .left), plain .kp5, (.kp6, .right), plain .kpPlus, (.kp1, .endKey), (.kp2, .down),
     (.kp3, .pgDown), (.kp0, .insert), (.kpDot, delete), plain .unknown, plain .unknown,
     plain .unknown, plain .f11, plain .f12]

/-- From the AT set to the XT set. -/
def tableATtoXT : List ℕ :=
  [0xff, 0x43, 0x41, 0x3f, 0x3d, 0x3b, 0x3c, 0x58, 0x64, 0x44, 0x42, 0x40, 0x3e, 0x0f, 0x29, 0x59,
   0x65, 0x38, 0x2a, 0x70, 0x1d, 0x10, 0x02, 0x5a, 0x66, 0x71, 0x2c, 0x1f, 0x1e, 0x11, 0x03, 0x5b,
   0x67, 0x2e, 0x2d, 0x20, 0x12, 0x05, 0x04, 0x5c, 0x68, 0x39, 0x2f, 0x21, 0x14, 0x13, 0x06, 0x5d,
   0x69, 0x31, 0x30, 0x23, 0x22, 0x15, 0x07, 0x5e, 0x6a, 0x72, 0x32, 0x24, 0x16, 0x08, 0x09, 0x5f,
   0x6b, 0x33, 0x25, 0x17, 0x18, 0x0b, 0x0a, 0x60, 0x6c, 0x34, 0x35, 0x26, 0x27, 0x19, 0x0c, 0x61,
   0x6d, 0x73, 0x28, 0x74, 0x1a, 0x0d, 0x62, 0x6e, 0x3a, 0x36, 0x1c, 0x1b, 0x75, 0x2b, 0x63, 0x76,
   0x55, 0x56, 0x77, 0x78, 0x79, 0x7a, 0x0e, 0x7b, 0x7c, 0x4f, 0x7d, 0x4b, 0x47, 0x7e, 0x7f, 0x6f,
   0x52, 0x53, 0x50, 0x4c, 0x4d, 0x48, 0x01, 0x45, 0x57, 0x4e, 0x51, 0x4a, 0x37, 0x49, 0x46, 0x54]

/-! ## What a key is sent as -/

/-- The characters above the digits and signs. -/
def tableShift : List (ℕ × ℕ) :=
  [('1'.toNat, '!'.toNat), ('2'.toNat, '@'.toNat), ('3'.toNat, '#'.toNat), ('4'.toNat, '$'.toNat),
   ('5'.toNat, '%'.toNat), ('6'.toNat, '^'.toNat), ('7'.toNat, '&'.toNat), ('8'.toNat, '*'.toNat),
   ('9'.toNat, '('.toNat), ('0'.toNat, ')'.toNat), ('-'.toNat, '_'.toNat), ('='.toNat, '+'.toNat),
   (','.toNat, '<'.toNat), ('.'.toNat, '>'.toNat), ('/'.toNat, '?'.toNat), (';'.toNat, ':'.toNat),
   (0x27, 0x22), ('['.toNat, 0x7B), (']'.toNat, 0x7D), (0x60, '~'.toNat), (0x5C, '|'.toNat)]

/-- The keypad with `KEY_KP_NUMLOCK`. -/
def numlocked : Key → Option Key
  | .kpDot => some (.char '.'.toNat)
  | .kp0 => some (.char '0'.toNat)
  | .kp1 => some (.char '1'.toNat)
  | .kp2 => some (.char '2'.toNat)
  | .kp3 => some (.char '3'.toNat)
  | .kp4 => some (.char '4'.toNat)
  | .kp5 => some (.char '5'.toNat)
  | .kp6 => some (.char '6'.toNat)
  | .kp7 => some (.char '7'.toNat)
  | .kp8 => some (.char '8'.toNat)
  | .kp9 => some (.char '9'.toNat)
  | _ => none

/-- The last switch, for the rest of the keypad. -/
def keypad : Key → Key
  | .kpDot => delete
  | .kp0 => .insert
  | .kp1 => .endKey
  | .kp2 => .down
  | .kp3 => .pgDown
  | .kp4 => .left
  | .kp5 => .unknown
  | .kp6 => .right
  | .kp7 => .home
  | .kp8 => .up
  | .kp9 => .pgUp
  | .kpDivide => .char '/'.toNat
  | .kpAsterisk => .char '*'.toNat
  | .kpMinus => .char '-'.toNat
  | .kpPlus => .char '+'.toNat
  | .kpEnter => enter
  | key => key

/-- `key >= 'a' && key <= 'z'`. -/
def isLetter : Key → Bool
  | .char c => 'a'.toNat ≤ c && c ≤ 'z'.toNat
  | _ => false

/-- `key -= n`. -/
def lower (n : ℕ) : Key → Key
  | .char c => .char (c - n)
  | key => key

/-- The character that `shift` makes of one that is no letter. -/
def shifted : Key → Option Key
  | .char c => (tableShift.lookup c).map .char
  | _ => none

end Key

/-- A `Keyboard`; `kbq` are the codes in its queue. -/
structure Keyboard where
  isBreak : Bool
  shift : Bool
  alt : Bool
  ctrl : Bool
  led : ℕ
  acks : ℤ
  extended : ℕ
  kbq : List Key

namespace Keyboard

open Key

def init : Keyboard := ⟨false, false, false, false, 0, 0, 0, []⟩

variable (k : Keyboard)

def getNumlock : Bool := k.led.testBit 1
def getCapslock : Bool := k.led.testBit 2

/-- `kbq.trySend`, for a queue of 256 places. -/
def trySend (key : Key) : Keyboard :=
  if k.kbq.length < 256 then { k with kbq := k.kbq ++ [key] } else k

/-- The key code for a key that is pressed. -/
def translate (key : Key) : Key :=
  if (k.shift || k.getCapslock) && key.isLetter then key.lower 32
  else if k.ctrl && key.isLetter then key.lower 96
  else
    match (if k.shift then key.shifted else none) with
    | some key => key
    | none => ((if k.getNumlock then key.numlocked else none)).getD key.keypad

/-- A lock key: its bit in `led` is flipped and sent to the keyboard, which acknowledges both
bytes. -/
def toggle (bit : ℕ) : Keyboard :=
  { k with led := k.led ^^^ bit, acks := k.acks + 2 }

/-- A key is pressed; `none` stands for `Reboot()`. -/
def press (key : Key) : Option Keyboard :=
  match key with
  | .lctrl | .rctrl => some { k with ctrl := true }
  | .lshift | .rshift => some { k with shift := true }
  | .lalt | .ralt => some { k with alt := true }
  | .scrollLock => some (k.toggle 1)
  | .kpNumLock => some (k.toggle 2)
  | .capsLock => some (k.toggle 4)
  | key =>
    if k.alt && k.ctrl && key = delete then none
    else some ((if k.alt then k.trySend escape else k).trySend (k.translate key))

/-- A key is released. -/
def release (key : Key) : Keyboard :=
  match key with
  | .lctrl | .rctrl => { k with ctrl := false }
  | .lshift | .rshift => { k with shift := false }
  | .lalt | .ralt => { k with alt := false }
  | _ => k

/-- The key of a scan code is known. -/
def onKey (key : Key) : Option Keyboard :=
  if k.isBreak then some ({ k with extended := 0, isBreak := false }.release key)
  else { k with extended := 0 }.press key

/-- The loop of `irqHandlerInternal` for one byte. -/
def scan (code : ℕ) : Except Fault (Option Keyboard) :=
  if code = 0xE0 then if k.extended = 0 then .ok (some { k with extended := 1 })
    else .error .kassert
  else if code = 0xE1 then if k.extended = 0 then .ok (some { k with extended := 2 })
    else .error .kassert
  else if code = 0xFA then .ok (some { k with acks := k.acks - 1 })
  else if code = 0xF0 then .ok (some { k with isBreak := true })
  else
    match tableATtoXT[code]? with
    | none => .error .kassert
    | some xt =>
      if k.extended = 2 ∧ xt = 0x1D then .ok (some { k with extended := 3 })
      else if k.extended = 3 ∧ xt = 0x45 then .ok (k.onKey .pause)
      else if k.extended ≤ 1 then
        match tableXTtoKey[xt]? with
        | some row => .ok (k.onKey (if k.extended = 0 then row.1 else row.2))
        | none => .error .outOfBounds
      else .error .kassert

/-! ## Which bytes are safe -/

/-- The bytes of the AT set whose translation lies behind the table of the XT set. -/
def unmapped : List ℕ :=
  [0x00, 0x08, 0x0F, 0x10, 0x13, 0x17, 0x18, 0x19, 0x1F, 0x20, 0x27, 0x28, 0x2F, 0x30, 0x37, 0x38,
    0x39, 0x3F, 0x40, 0x47, 0x48, 0x4F, 0x50, 0x51, 0x53, 0x56, 0x57, 0x5C, 0x5E, 0x5F, 0x62, 0x63,
    0x64, 0x65, 0x67, 0x68, 0x6A, 0x6D, 0x6E, 0x6F]

/-- A byte that stands for a key of the table. -/
def mapped (code : ℕ) : Bool := decide (code < 0x80) && !unmapped.contains code

/-- A byte that is safe in the state before it: prefixes are not repeated, what follows 0xE1 is the
rest of the pause key, and other bytes stand for keys. -/
def accepts (code : ℕ) : Bool :=
  if code = 0xE0 ∨ code = 0xE1 then k.extended = 0
  else if code = 0xFA ∨ code = 0xF0 then true
  else
    match k.extended with
    | 0 | 1 => mapped code
    | 2 => code = 0x14
    | 3 => code = 0x77
    | _ => false

/-- The two tables together. -/
theorem table_entry {code : ℕ} (h : code < 0x80) :
    ∃ xt, tableATtoXT[code]? = some xt ∧ (xt = 0x1D ↔ code = 0x14) ∧ (xt = 0x45 ↔ code = 0x77) ∧
      ((tableXTtoKey[xt]?).isSome ↔ mapped code = true) := by
  have hall : ∀ code < 0x80, (tableATtoXT[code]?).any (fun xt => decide ((xt = 0x1D ↔ code = 0x14) ∧
      (xt = 0x45 ↔ code = 0x77) ∧ ((tableXTtoKey[xt]?).isSome ↔ mapped code = true))) = true := by
    decide +kernel
  obtain ⟨xt, hxt, hentry⟩ := (Option.any_eq_true _ _).mp (hall code h)
  exact ⟨xt, hxt, of_decide_eq_true hentry⟩

theorem table_none {code : ℕ} (h : ¬ code < 0x80) : tableATtoXT[code]? = none :=
  List.getElem?_eq_none (not_lt.mp h)

variable {k k' : Keyboard} {code : ℕ}

/-- **One byte**: no assertion fails and no table is left exactly for the bytes that are
accepted. -/
theorem scan_ok_iff (k : Keyboard) (code : ℕ) : (∃ r, k.scan code = .ok r) ↔
      k.accepts code = true := by
  rw [scan, accepts]
  by_cases h0 : code = 0xE0
  · by_cases hext : k.extended = 0 <;> simp [h0, hext]
  by_cases h1 : code = 0xE1
  · by_cases hext : k.extended = 0 <;> simp [h1, hext]
  by_cases h2 : code = 0xFA
  · simp [h2]
  by_cases h3 : code = 0xF0
  · simp [h3]
  simp only [h0, h1, h2, h3, if_false, or_self]
  by_cases hlt : code < 0x80
  · obtain ⟨xt, hxt, h1D, h45, hkey⟩ := table_entry hlt
    simp only [hxt, h1D, h45]
    match hext : k.extended with
    | 0 | 1 =>
      cases hrow : tableXTtoKey[xt]? with
      | none =>
        rw [hrow] at hkey
        simpa using hkey
      | some row =>
        rw [hrow] at hkey
        simpa using hkey
    | 2 => by_cases hcode : code = 0x14 <;> simp [hcode]
    | 3 => by_cases hcode : code = 0x77 <;> simp [hcode]
    | n + 4 => simp
  · have hout : mapped code = false := by simp [mapped, hlt]
    have h14 : code ≠ 0x14 := by omega
    have h77 : code ≠ 0x77 := by omega
    rw [table_none hlt]
    match k.extended with
    | 0 | 1 => simp [hout]
    | 2 => simp [h14]
    | 3 => simp [h77]
    | n + 4 => simp

/-- The byte is the last one of a key. -/
def completes (k : Keyboard) (code : ℕ) : Bool :=
  code != 0xE0 && code != 0xE1 && code != 0xFA && code != 0xF0 && k.extended != 2

theorem release_state (k : Keyboard) (key : Key) :
    (k.release key).extended = k.extended ∧ (k.release key).isBreak = k.isBreak := by
  unfold release
  split <;> exact ⟨rfl, rfl⟩

theorem trySend_state (k : Keyboard) (key : Key) :
    (k.trySend key).extended = k.extended ∧ (k.trySend key).isBreak = k.isBreak := by
  rw [trySend]
  split <;> exact ⟨rfl, rfl⟩

theorem press_state {key : Key} (h : k.press key = some k') :
    k'.extended = k.extended ∧ k'.isBreak = k.isBreak := by
  unfold press at h
  split at h
  case h_10 =>
    split_ifs at h
    · cases h
      have hlast := trySend_state (k.trySend escape) (k.translate key)
      have hesc := trySend_state k escape
      exact ⟨hlast.1.trans hesc.1, hlast.2.trans hesc.2⟩
    · cases h
      exact trySend_state k _
  all_goals
    cases h
    exact ⟨rfl, rfl⟩

/-- **A complete key** leaves no prefix behind. -/
theorem onKey_state {key : Key} (h : k.onKey key = some k') :
    k'.extended = 0 ∧ k'.isBreak = false := by
  rw [onKey] at h
  split_ifs at h with hbreak
  · cases h
    exact release_state _ key
  · have hstate := press_state h
    exact ⟨hstate.1, hstate.2.trans (by simpa using hbreak)⟩

theorem scan_completes (hc : k.completes code = true) (h : k.scan code = .ok (some k')) :
    k'.extended = 0 ∧ k'.isBreak = false := by
  simp only [completes, Bool.and_eq_true, bne_iff_ne, ne_eq] at hc
  obtain ⟨⟨⟨⟨h0, h1⟩, h2⟩, h3⟩, hext⟩ := hc
  rw [scan] at h
  simp only [h0, h1, h2, h3, hext, if_false, false_and] at h
  split at h
  · cases h
  rename_i xt _
  by_cases hpause : k.extended = 3 ∧ xt = 0x45
  · rw [if_pos hpause] at h
    exact onKey_state (Except.ok.inj h)
  · rw [if_neg hpause] at h
    split at h
    · split at h
      · exact onKey_state (Except.ok.inj h)
      · cases h
    · cases h

end Keyboard

/-! ## Many bytes -/

section Feed

variable {σ α : Type} {scan : σ → α → Except Fault (Option σ)} {s s' : σ} {as bs : List α}

/-- One input after the other, until a fault or the end. -/
def feed (scan : σ → α → Except Fault (Option σ)) : σ → List α → Except Fault (Option σ)
  | s, [] => .ok (some s)
  | s, a :: as =>
    match scan s a with
    | .ok (some s') => feed scan s' as
    | r => r

theorem feed_singleton (s : σ) (a : α) : feed scan s [a] = scan s a := by
  rw [feed]
  split
  · rename_i t h
    rw [h]
    rfl
  · rfl

theorem feed_cons {a : α} (h : scan s a = .ok (some s')) :
    feed scan s (a :: as) = feed scan s' as := by
  rw [feed, h]

/-- A step that goes on. -/
def stepOf (scan : σ → α → Except Fault (Option σ)) (s : σ) (a : α) : Option σ :=
  (scan s a).toOption.join

theorem stepOf_eq_some {a : α} : stepOf scan s a = some s' ↔ scan s a = .ok (some s') := by
  rw [stepOf]
  cases scan s a with
  | error => simp [Except.toOption]
  | ok r => simp [Except.toOption]

theorem feed_eq_some : feed scan s as = .ok (some s') ↔ run (stepOf scan) s as = some s' := by
  induction as generalizing s with
  | nil => simp [feed]
  | cons a as ih =>
    rw [feed, run_cons]
    cases hscan : scan s a with
    | error => simp [stepOf_eq_some, hscan]
    | ok r =>
      cases r with
      | none => simp [stepOf_eq_some, hscan]
      | some t => simp [stepOf_eq_some, hscan, ih]

/-- **No fault** where each input is safe in the state before it. -/
theorem feed_ok_of_guarded {P : σ → Prop} {C : σ → α → Prop}
    (hok : ∀ s a, P s → C s a → ∃ r, scan s a = .ok r)
    (hstep : ∀ s a s', P s → C s a → stepOf scan s a = some s' → P s') (hs : P s)
    (hguard : Guarded (stepOf scan) C s as) : ∃ r, feed scan s as = .ok r := by
  induction as generalizing s with
  | nil => exact ⟨_, rfl⟩
  | cons a as ih =>
    obtain ⟨hC, hrest⟩ := hguard
    obtain ⟨r, hr⟩ := hok s a hs hC
    rw [feed, hr]
    cases r with
    | none => exact ⟨_, rfl⟩
    | some t =>
      have ht := stepOf_eq_some.mpr hr
      exact ih (hstep s a t hs hC ht) (hrest t ht)

/-- …and only there, if that is what makes an input safe. -/
theorem feed_ok_iff {C : σ → α → Prop} (hiff : ∀ s a, (∃ r, scan s a = .ok r) ↔ C s a) :
    (∃ r, feed scan s as = .ok r) ↔ Guarded (stepOf scan) C s as := by
  refine ⟨fun h => ?_, feed_ok_of_guarded (P := fun _ => True) (fun s a _ => (hiff s a).mpr)
    (fun _ _ _ _ _ _ => trivial) trivial⟩
  induction as generalizing s with
  | nil => trivial
  | cons a as ih =>
    rw [feed] at h
    refine ⟨(hiff s a).mp ?_, fun t ht => ih ?_⟩
    · cases hscan : scan s a with
      | error => simp [hscan] at h
      | ok r => exact ⟨r, rfl⟩
    · rwa [stepOf_eq_some.mp ht] at h

end Feed

namespace Keyboard

open Key

variable {k k' : Keyboard} {code : ℕ}

/-- **The decoder is safe** on the bytes that it accepts, and leaves no prefix behind. -/
theorem decoder_safe_iff (codes : List ℕ) :
    ((∃ r, feed scan init codes = .ok r) ∧
      ∀ pre code k k', pre ++ [code] <+: codes → feed scan init pre = .ok (some k) →
      k.completes code = true → k.scan code = .ok (some k') →
        k'.extended = 0 ∧ k'.isBreak = false) ↔
      Guarded (stepOf scan) (fun k code => k.accepts code = true) init codes := by
  rw [feed_ok_iff scan_ok_iff]
  exact and_iff_left fun pre code k k' _ _ hc h => scan_completes hc h

/-- An arrow key goes down and up, and the pause key. -/
theorem decoder_safe_arrow :
    (∃ r, feed scan init [0xE0, 0x75, 0xE0, 0xF0, 0x75, 0xE1, 0x14, 0x77, 0xE1, 0xF0, 0x14, 0xF0,
      0x77] = .ok r) :=
  ((decoder_safe_iff _).mpr (guarded_of_decide (by decide +kernel))).1

/-- The key F7, a key that the table does not have, and a prefix that is sent twice. -/
theorem decoder_fails :
    feed scan init [0x83] = .error .kassert ∧ feed scan init [0xE0, 0x1F] = .error .outOfBounds ∧
      feed scan init [0xE0, 0xE0] = .error .kassert :=
  ⟨rfl, rfl, rfl⟩

/-! ## Modifiers -/

/-- A key as the keyboard sends it: with the prefix 0xE0 or without, and its byte. -/
abbrev PhysKey : Type := Bool × ℕ

inductive Modifier
  | shift
  | ctrl
  | alt
  deriving DecidableEq

namespace Modifier

def left : Modifier → PhysKey
  | .shift => (false, 0x12)
  | .ctrl => (false, 0x14)
  | .alt => (false, 0x11)

def right : Modifier → PhysKey
  | .shift => (false, 0x59)
  | .ctrl => (true, 0x14)
  | .alt => (true, 0x11)

end Modifier

def flag (k : Keyboard) : Modifier → Bool
  | .shift => k.shift
  | .ctrl => k.ctrl
  | .alt => k.alt

/-- A key is pressed, repeated or released. -/
inductive KeyEvent
  | make (key : PhysKey)
  | brk (key : PhysKey)
  | pause (released : Bool)

/-- The bytes that the keyboard sends. -/
def KeyEvent.codes : KeyEvent → List ℕ
  | .make (false, code) => [code]
  | .make (true, code) => [0xE0, code]
  | .brk (false, code) => [0xF0, code]
  | .brk (true, code) => [0xE0, 0xF0, code]
  | .pause false => [0xE1, 0x14, 0x77]
  | .pause true => [0xE1, 0xF0, 0x14, 0xF0, 0x77]

/-- A keyboard, and the keys that are down. -/
structure Tracker where
  keyboard : Keyboard
  down : PhysKey → Bool

namespace Tracker

def init : Tracker := ⟨.init, fun _ => false⟩

def press (down : PhysKey → Bool) : KeyEvent → PhysKey → Bool
  | .make key => update down key true
  | .brk key => update down key false
  | .pause _ => down

def event (t : Tracker) (e : KeyEvent) : Except Fault (Option Tracker) :=
  (feed scan t.keyboard e.codes).map (Option.map fun k => ⟨k, press t.down e⟩)

/-- A key of the table; and a modifier is not released while the other key of its kind is down. -/
def allowed (t : Tracker) : KeyEvent → Bool
  | .make key => mapped key.2
  | .brk key => mapped key.2 && [Modifier.shift, .ctrl, .alt].all fun m =>
      !(key == m.left && t.down m.right) && !(key == m.right && t.down m.left)
  | .pause _ => true

end Tracker

/-- The entry of the table for a key. -/
def keyOf (key : PhysKey) : Key :=
  match tableATtoXT[key.2]?.bind fun xt => tableXTtoKey[xt]? with
  | some row => if key.1 then row.2 else row.1
  | none => .unknown

/-- The modifier of a key. -/
def modifierOf : Key → Option Modifier
  | .lshift | .rshift => some .shift
  | .lctrl | .rctrl => some .ctrl
  | .lalt | .ralt => some .alt
  | _ => none

/-- The tables have each modifier at its two places, and nowhere else. -/
theorem modifierOf_keyOf {key : PhysKey} (h : mapped key.2 = true) (m : Modifier) :
    modifierOf (keyOf key) = some m ↔ key = m.left ∨ key = m.right := by
  have hall : ∀ code < 0x80, ∀ ext, ∀ m ∈ [Modifier.shift, .ctrl, .alt],
      modifierOf (keyOf (ext, code)) = some m ↔ (ext, code) = m.left ∨ (ext, code) = m.right := by
    decide +kernel
  have hlt : key.2 < 0x80 := by
    simp only [mapped, Bool.and_eq_true, decide_eq_true_eq] at h
    exact h.1
  exact hall key.2 hlt key.1 m (by cases m <;> simp)

theorem press_flag {key : Key} (h : k.press key = some k') (m : Modifier) :
    k'.flag m = (k.flag m || decide (modifierOf key = some m)) := by
  have hsend : ∀ (k : Keyboard) (key : Key), (k.trySend key).flag m = k.flag m := fun k key => by
    rw [trySend]
    split <;> rfl
  unfold press at h
  split at h
  case h_10 hl hr hls hrs hla hra _ _ _ =>
    have hnone : modifierOf key = none := by
      unfold modifierOf
      split <;> simp_all
    rw [hnone]
    split_ifs at h
    · cases h
      rw [hsend, hsend]
      simp
    · cases h
      rw [hsend]
      simp
  all_goals
    cases h
    cases m <;> simp [flag, modifierOf, toggle]

theorem release_flag (k : Keyboard) (key : Key) (m : Modifier) :
    (k.release key).flag m = (k.flag m && !decide (modifierOf key = some m)) := by
  unfold release modifierOf
  split <;> cases m <;> simp [flag]

/-- A byte of a key, after its prefixes. -/
theorem scan_key (hext : k.extended ≤ 1) (h : mapped code = true) :
    k.scan code = .ok (k.onKey (keyOf (decide (k.extended = 1), code))) := by
  have hlt : code < 0x80 := by
    simp only [mapped, Bool.and_eq_true, decide_eq_true_eq] at h
    exact h.1
  obtain ⟨xt, hxt, -, -, hkey⟩ := table_entry hlt
  obtain ⟨row, hrow⟩ := Option.isSome_iff_exists.mp (hkey.mpr h)
  have hother : code ≠ 0xE0 ∧ code ≠ 0xE1 ∧ code ≠ 0xFA ∧ code ≠ 0xF0 := by omega
  have h2 : k.extended ≠ 2 := by omega
  have h3 : k.extended ≠ 3 := by omega
  rw [scan, keyOf]
  simp only [hother.1, hother.2.1, hother.2.2.1, hother.2.2.2, h2, h3, if_false, false_and, hext,
    if_true, hxt, Option.bind_some, hrow]
  obtain h0 | h1 : k.extended = 0 ∨ k.extended = 1 := by omega
  · simp [h0]
  · simp [h1]

/-- What an event does to the keyboard. -/
def apply (k : Keyboard) : KeyEvent → Option Keyboard
  | .make key => k.press (keyOf key)
  | .brk key => some (k.release (keyOf key))
  | .pause false => k.press .pause
  | .pause true => some (k.release .pause)

/-- **The bytes of a key** press or release it. -/
theorem feed_codes {e : KeyEvent} {t : Tracker} (hext : k.extended = 0) (hbreak : k.isBreak = false)
    (ht : t.allowed e = true) : feed scan k e.codes = .ok (k.apply e) := by
  obtain ⟨isBreak, shift, alt, ctrl, led, acks, extended, kbq⟩ := k
  dsimp only at hext hbreak
  subst hext hbreak
  cases e with
  | make key =>
    obtain ⟨ext, code⟩ := key
    have h : mapped code = true := ht
    cases ext with
    | false => exact (feed_singleton _ _).trans (scan_key (Nat.zero_le 1) h)
    | true => exact (feed_cons rfl).trans ((feed_singleton _ _).trans (scan_key le_rfl h))
  | brk key =>
    obtain ⟨ext, code⟩ := key
    have h : mapped code = true := (Bool.and_eq_true_iff.mp ht).1
    cases ext with
    | false => exact (feed_cons rfl).trans ((feed_singleton _ _).trans (scan_key (Nat.zero_le 1) h))
    | true =>
      exact (feed_cons rfl).trans
        ((feed_cons rfl).trans ((feed_singleton _ _).trans (scan_key le_rfl h)))
  | pause released =>
    cases released with
    | false => exact (feed_cons rfl).trans ((feed_cons rfl).trans (feed_singleton _ _))
    | true =>
      exact (feed_cons rfl).trans
        ((feed_cons rfl).trans ((feed_cons rfl).trans
        ((feed_cons rfl).trans (feed_singleton _ _))))

namespace Tracker

variable {t t' : Tracker} {e : KeyEvent}

/-- The flags agree with the keys that are down. -/
structure Agrees (t : Tracker) : Prop where
  extended : t.keyboard.extended = 0
  isBreak : t.keyboard.isBreak = false
  flag : ∀ m : Modifier, t.keyboard.flag m = (t.down m.left || t.down m.right)

theorem agrees_init : Agrees init := ⟨rfl, rfl, fun m => by cases m <;> rfl⟩

theorem Agrees.event_eq (h : t.Agrees) (he : t.allowed e = true) :
    t.event e = .ok ((t.keyboard.apply e).map fun k => ⟨k, press t.down e⟩) := by
  rw [event, feed_codes h.extended h.isBreak he]
  rfl

/-- The keyboard is ready for the next key. -/
theorem apply_state (hext : k.extended = 0) (hbreak : k.isBreak = false) (h : k.apply e = some k') :
    k'.extended = 0 ∧ k'.isBreak = false := by
  have hpress : ∀ {key}, k.press key = some k' → k'.extended = 0 ∧ k'.isBreak = false := fun h =>
    ⟨(press_state h).1.trans hext, (press_state h).2.trans hbreak⟩
  have hrelease : ∀ key, (k.release key).extended = 0 ∧ (k.release key).isBreak = false :=
    fun key =>
    ⟨(release_state k key).1.trans hext, (release_state k key).2.trans hbreak⟩
  unfold apply at h
  split at h
  · exact hpress h
  · exact Option.some.inj h ▸ hrelease _
  · exact hpress h
  · exact Option.some.inj h ▸ hrelease _

theorem left_ne_right (m : Modifier) : m.left ≠ m.right := by cases m <;> decide

/-- **One event** keeps the flags in agreement. -/
theorem Agrees.step (h : t.Agrees) (he : t.allowed e = true) (hstep : stepOf event t e = some t') :
    t'.Agrees := by
  have hevent := stepOf_eq_some.mp hstep
  rw [h.event_eq he, Except.ok.injEq, Option.map_eq_some_iff] at hevent
  obtain ⟨k', happly, rfl⟩ := hevent
  obtain ⟨hext, hbreak⟩ := apply_state h.extended h.isBreak happly
  refine ⟨hext, hbreak, fun m => ?_⟩
  have hflag := h.flag m
  have hne := left_ne_right m
  dsimp only
  cases e with
  | make key =>
    rw [press_flag happly m, hflag]
    have hmapped : mapped key.2 = true := he
    simp only [modifierOf_keyOf hmapped, press]
    by_cases hl : key = m.left
    · simp [hl]
    · by_cases hr : key = m.right
      · simp [hr]
      · simp [hl, hr, update_of_ne (Ne.symm hl), update_of_ne (Ne.symm hr)]
  | brk key =>
    obtain ⟨hmapped, hother⟩ := Bool.and_eq_true_iff.mp he
    have hm := List.all_eq_true.mp hother m (by cases m <;> simp)
    cases happly
    rw [release_flag, hflag]
    simp only [modifierOf_keyOf hmapped, press]
    by_cases hl : key = m.left
    · -- the right one is not down
      simp only [hl, BEq.rfl, Bool.true_and, Bool.and_eq_true, Bool.not_eq_true'] at hm
      simp [hl, hm.1, update_of_ne hne.symm]
    · by_cases hr : key = m.right
      · simp only [hr, BEq.rfl, Bool.true_and, Bool.and_eq_true, Bool.not_eq_true'] at hm
        simp [hr, hm.2, update_of_ne hne]
      · simp [hl, hr, update_of_ne (Ne.symm hl), update_of_ne (Ne.symm hr)]
  | pause released =>
    cases released with
    | false =>
      have hpress : t.keyboard.press .pause = some k' := happly
      rw [press_flag hpress m, hflag]
      simp [modifierOf, press]
    | true =>
      cases happly
      rw [release_flag, hflag]
      simp [modifierOf, press]

/-- **Modifiers are tracked** as long as none is released while the other key of its kind is
down. -/
theorem modifiers_tracked {es : List KeyEvent}
    (hes : Guarded (stepOf event) (fun t e => t.allowed e = true) init es) :
    (∃ r, feed event init es = .ok r) ∧ ∀ t, feed event init es = .ok (some t) →
      ∀ m : Modifier, t.keyboard.flag m = (t.down m.left || t.down m.right) := by
  have hstep : ∀ t e t', Agrees t → t.allowed e = true → stepOf event t e = some t' → Agrees t' :=
    fun t e t' h he hs => h.step he hs
  refine ⟨feed_ok_of_guarded (fun t e h he => ⟨_, h.event_eq he⟩) hstep agrees_init hes,
    fun t ht => ?_⟩
  exact (invariant_of_guarded (hstep _ _ _) agrees_init hes (feed_eq_some.mp ht)).flag

/-- Both shift keys in turn, and a letter with the right control key. -/
def turns : List KeyEvent :=
  [.make (false, 0x12), .brk (false, 0x12), .make (false, 0x59), .make (true, 0x14),
    .make (false, 0x1C), .pause false]

theorem modifiers_tracked_turns : ∃ t, feed event init turns = .ok (some t) ∧
    t.keyboard.flag .shift = (t.down (false, 0x12) || t.down (false, 0x59)) := by
  have hes : Guarded (stepOf event) (fun t e => t.allowed e = true) init turns :=
    guarded_of_decide (by decide +kernel)
  exact ⟨_, rfl, (modifiers_tracked hes).2 _ rfl .shift⟩

/-- The right shift key is released while the left one is down. -/
theorem shift_forgotten :
    ∃ t, feed event init [.make (false, 0x12), .make (false, 0x59), .brk (false, 0x59)] =
      .ok (some t) ∧ t.down Modifier.shift.left = true ∧ t.keyboard.shift = false :=
  ⟨_, rfl, rfl, rfl⟩

end Tracker

end Keyboard

end Kos
