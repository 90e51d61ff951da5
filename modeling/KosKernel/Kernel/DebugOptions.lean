import Mathlib.Data.List.Infix
import KosKernel.Generic.Bitmap

/-!
# Kernel/DebugOptions — the debug levels on the command line

`DBG::init` of `kernel/Output.cc`.  The command line is cut at its commas in place, each word is
compared with the names in `options`, and the index of the one name that it abbreviates is the level
to set.  The names `perf` and `pci` stand the other way round in `options` than in `DBG::Level`, so
each of the two words sets the level of the other (`init_enables_iff`).
-/

namespace Kos

namespace DBG

/-- `DBG::Level`. -/
inductive Level
  | acpi
  | boot
  | basic
  | cdi
  | devices
  | error
  | frame
  | file
  | gdbDebug
  | gdbEnable
  | kernMem
  | libc
  | lwip
  | memAcpi
  | paging
  | pci
  | perf
  | process
  | scheduler
  | tests
  | threads
  | vm
  | warning
  deriving DecidableEq

def Level.toNat (l : Level) : ℕ := l.ctorIdx

def options : List String :=
  ["acpi", "boot", "basic", "cdi", "devices", "error", "frame", "file", "gdbdebug", "gdbenable",
    "kmem", "libc", "lwip", "memacpi", "paging", "perf", "pci", "process", "scheduler", "tests",
    "threads", "vm", "warning"]

/-! ## The C library -/

def nul : Char := Char.ofNat 0

/-- The C string at a pointer, in the memory from there on. -/
def cstr (mem : List Char) : List Char := mem.takeWhile (· ≠ nul)

def strlen (mem : List Char) : ℕ := (cstr mem).length

/-- `strchr`, as an offset. -/
def strchr (mem : List Char) (c : Char) : Option ℕ := (cstr mem).findIdx? (· == c)

/-- `!strncmp`. -/
def strncmp : List Char → List Char → ℕ → Bool
  | _, _, 0 => true
  | s, t, n + 1 =>
    let c := s.headD nul
    if c ≠ t.headD nul then false
    else if c = nul then true
    else strncmp s.tail t.tail n

/-! ## Parsing -/

/-- The result of the search for a word: the `level`, or the way out through `nextoption`. -/
inductive Found
  | unmatched
  | level (i : ℕ)
  | multiple

/-- The loop over `options`, from the index `i` on. -/
def scan (test : String → Bool) : List String → ℕ → Option ℕ → Found
  | [], _, none => .unmatched
  | [], _, some i => .level i
  | o :: os, i, level =>
    if test o then
      match level with
      | none => scan test os (i + 1) (some i)
      | some _ => .multiple
    else scan test os (i + 1) level

/-- The memory from `dstring` on, the levels, and what has been printed. -/
structure State where
  mem : List Char
  levels : Bitmap 1
  out : List String

namespace State

def poke (s : State) (i : ℕ) (c : Char) : State := { s with mem := s.mem.set i c }

def print (s : State) (msg : Bool) (line : String) : State :=
  if msg then { s with out := s.out ++ [line] } else s

/-- What follows the search for a word. -/
def enable (s : State) (msg : Bool) (word : List Char) : Found → State
  | .multiple => s.print msg ("multiple matches for debug option: " ++ String.ofList word)
  | .level i =>
    { s with levels := s.levels.set i }.print msg
      ("matched debug option: " ++ String.ofList word ++ "=" ++ (options[i]?).getD "")
  | .unmatched => s.print msg ("unmatched debug option: " ++ String.ofList word)

/-- The word between two offsets. -/
def word (s : State) (msg : Bool) (wordstart wordend : ℕ) : State :=
  let mem := s.mem.drop wordstart
  s.enable msg (cstr mem)
    (scan (fun o => strncmp mem (o.toList ++ [nul]) (wordend - wordstart)) options 0 none)

end State

/-- The loop over the words; `stop` is the offset `end`. -/
def initLoop (msg : Bool) (stop : ℕ) : ℕ → ℕ → State → Option State
  | 0, _, _ => none
  | fuel + 1, wordstart, s =>
    let wordend := ((strchr (s.mem.drop wordstart) ',').map (wordstart + ·)).getD stop
    let s := (s.poke wordend nul).word msg wordstart wordend
    if wordend = stop then some s else initLoop msg stop fuel (wordend + 1) (s.poke wordend ',')

/-- `DBG::init`; the loop gets one round for each character and one more. -/
def init (msg : Bool) (s : State) : Option State :=
  initLoop msg (strlen s.mem) (strlen s.mem + 1) 0 { s with
    levels := s.levels.set Level.basic.toNat }

/-! ## What a word selects -/

/-- The name of a level. -/
def Level.name : Level → String
  | .acpi => "acpi"
  | .boot => "boot"
  | .basic => "basic"
  | .cdi => "cdi"
  | .devices => "devices"
  | .error => "error"
  | .frame => "frame"
  | .file => "file"
  | .gdbDebug => "gdbdebug"
  | .gdbEnable => "gdbenable"
  | .kernMem => "kmem"
  | .libc => "libc"
  | .lwip => "lwip"
  | .memAcpi => "memacpi"
  | .paging => "paging"
  | .pci => "pci"
  | .perf => "perf"
  | .process => "process"
  | .scheduler => "scheduler"
  | .tests => "tests"
  | .threads => "threads"
  | .vm => "vm"
  | .warning => "warning"

/-- The word is a non-empty prefix of the name of the level, and of no other name in `options`. -/
def Selects (w : List Char) (l : Level) : Prop :=
  w ≠ [] ∧ w <+: l.name.toList ∧ ∀ o ∈ options, w <+: o.toList → o = l.name

/-- The level that has the index of the name in `options`. -/
def Level.listed : Level → Level
  | .pci => .perf
  | .perf => .pci
  | l => l

theorem options_listed (l : Level) : options[l.listed.toNat]? = some l.name := by
  cases l <;> rfl

/-- All levels, in their order. -/
def Level.all : List Level :=
  [.acpi, .boot, .basic, .cdi, .devices, .error, .frame, .file, .gdbDebug, .gdbEnable, .kernMem,
    .libc, .lwip, .memAcpi, .paging, .pci, .perf, .process, .scheduler, .tests, .threads, .vm,
    .warning]

theorem all_toNat (l : Level) : Level.all[l.toNat]? = some l := by
  cases l <;> rfl

theorem toNat_injective : Function.Injective Level.toNat := fun l l' h =>
  Option.some.inj ((all_toNat l).symm.trans (h ▸ all_toNat l'))

@[simp] theorem listed_listed (l : Level) : l.listed.listed = l := by
  cases l <;> rfl

theorem exists_option {k : ℕ} {o : String} (h : options[k]? = some o) :
    ∃ l : Level, o = l.name ∧ k = l.listed.toNat := by
  have hall : ∀ k : Fin options.length, ∃ l ∈ Level.all, k = l.listed.toNat := by decide
  obtain ⟨hk, -⟩ := List.getElem?_eq_some_iff.mp h
  obtain ⟨l, -, rfl⟩ := hall ⟨k, hk⟩
  exact ⟨l, Option.some.inj (h.symm.trans (options_listed l)), rfl⟩

theorem options_nodup : options.Nodup := by decide

/-! ## The search for a word -/

variable {test : String → Bool} {j : ℕ}

theorem scan_some {i : ℕ} : ∀ {os : List String} {n : ℕ},
    scan test os n (some i) = .level j ↔ i = j ∧ ∀ o ∈ os, test o = false
  | [], n => by simp [scan]
  | o :: os, n => by
    rw [scan, List.forall_mem_cons]
    cases ho : test o
    · simp [scan_some]
    · simp

/-- The search finds the one index whose name passes the test. -/
theorem scan_none : ∀ {os : List String} {n : ℕ},
    scan test os n none = .level j ↔ ∃ k o, j = n + k ∧ os[k]? = some o ∧ test o = true ∧
      ∀ k' o', os[k']? = some o' → test o' = true → k' = k
  | [], n => by simp [scan]
  | o :: os, n => by
    rw [scan]
    cases ho : test o with
    | false =>
      rw [if_neg (by simp), scan_none]
      constructor
      · rintro ⟨k, o₁, rfl, hk, ho₁, honly⟩
        refine ⟨k + 1, o₁, by omega, hk, ho₁, fun k' o' hk' ho' => ?_⟩
        cases k' with
        | zero =>
          cases hk'
          simp [ho] at ho'
        | succ k' => exact congrArg (· + 1) (honly k' o' hk' ho')
      · rintro ⟨k, o₁, rfl, hk, ho₁, honly⟩
        cases k with
        | zero =>
          cases hk
          simp [ho] at ho₁
        | succ k =>
          exact ⟨k, o₁, by omega, hk, ho₁,
            fun k' o' hk' ho' => Nat.succ_injective (honly (k' + 1) o' hk' ho')⟩
    | true =>
      rw [if_pos rfl]
      refine scan_some.trans ⟨?_, ?_⟩
      · rintro ⟨rfl, hnone⟩
        refine ⟨0, o, rfl, rfl, ho, fun k' o' hk' ho' => ?_⟩
        cases k' with
        | zero => rfl
        | succ k' => simp [hnone o' (List.mem_of_getElem? hk')] at ho'
      · rintro ⟨k, o₁, rfl, -, -, honly⟩
        obtain rfl := honly 0 o rfl ho
        refine ⟨rfl, fun o' ho' => ?_⟩
        obtain ⟨k', hk'⟩ := List.mem_iff_getElem?.mp ho'
        by_contra hne
        exact absurd (honly (k' + 1) o' hk' (by simpa using hne)) (by simp)

theorem strncmp_iff {w o x : List Char} (hw : nul ∉ w) (ho : nul ∉ o) :
    strncmp (w ++ nul :: x) (o ++ [nul]) w.length = true ↔ w <+: o := by
  induction w generalizing o with
  | nil => simp [strncmp]
  | cons c w ih =>
    obtain ⟨hc, hw⟩ : c ≠ nul ∧ nul ∉ w := by simpa [eq_comm] using hw
    cases o with
    | nil => simp [strncmp, hc]
    | cons d o =>
      have ho' : nul ∉ o := fun h => ho (List.mem_cons_of_mem d h)
      by_cases hcd : c = d
      · subst hcd
        simp [strncmp, hc, ih hw ho']
      · simp [strncmp, hcd]

/-- The search for a word, by prefixes. -/
def find (w : List Char) : Found := scan (fun o => w.isPrefixOf o.toList) options 0 none

/-- **A word that selects a level finds the index of its name.** -/
theorem find_iff {w : List Char} : find w = .level j ↔ ∃ l, Selects w l ∧ j = l.listed.toNat := by
  rw [find, scan_none]
  simp only [Nat.zero_add, List.isPrefixOf_iff_prefix]
  constructor
  · rintro ⟨k, o, rfl, hk, ho, honly⟩
    obtain ⟨l, rfl, rfl⟩ := exists_option hk
    refine ⟨l, ⟨?_, ho, fun o' hmem ho' => ?_⟩, rfl⟩
    · -- the empty word is a prefix of the first two names
      rintro rfl
      have h₀ := honly 0 "acpi" rfl List.nil_prefix
      have h₁ := honly 1 "boot" rfl List.nil_prefix
      omega
    · obtain ⟨k', hk'⟩ := List.mem_iff_getElem?.mp hmem
      rw [honly k' o' hk' ho'] at hk'
      exact Option.some.inj (hk'.symm.trans hk)
  · rintro ⟨l, ⟨-, hpre, honly⟩, rfl⟩
    refine ⟨l.listed.toNat, l.name, rfl, options_listed l, hpre, fun k' o' hk' ho' => ?_⟩
    obtain rfl := honly o' (List.mem_of_getElem? hk') ho'
    obtain ⟨hlt, -⟩ := List.getElem?_eq_some_iff.mp hk'
    exact (List.getElem?_inj hlt options_nodup).mp (hk'.trans (options_listed l).symm)

theorem scan_congr {test' : String → Bool} : ∀ {os : List String} {n : ℕ} {level : Option ℕ},
    (∀ o ∈ os, test o = test' o) → scan test os n level = scan test' os n level
  | [], _, none, _ | [], _, some _, _ => rfl
  | o :: os, n, level, h => by
    have ih {level : Option ℕ} : scan test os (n + 1) level = scan test' os (n + 1) level :=
      scan_congr fun o' ho' => h o' (List.mem_cons_of_mem o ho')
    cases level with
    | none => simp only [scan, h o List.mem_cons_self, ih]
    | some _ => simp only [scan, h o List.mem_cons_self, ih]

theorem cstr_append {w x : List Char} (hw : nul ∉ w) : cstr (w ++ nul :: x) = w := by
  rw [cstr, List.takeWhile_append_of_pos]
  · simp
  · intro c hc
    simpa using ne_of_mem_of_not_mem hc hw

/-! ## The loop over the words -/

namespace State

variable {s : State} {msg : Bool} {d w x : List Char}

/-- A write of the character that is there. -/
theorem poke_eq (s : State) {d x : List Char} {c : Char} (hmem : s.mem = d ++ c :: x) :
    s.poke d.length c = s := by
  obtain ⟨mem, levels, out⟩ := s
  simp only at hmem
  simp [poke, hmem]

theorem enable_mem (s : State) (msg : Bool) (w : List Char) (f : Found) :
    (s.enable msg w f).mem = s.mem := by
  cases f <;> cases msg <;> rfl

/-- A cut is mended after the word. -/
theorem poke_enable_poke (s : State) {c : Char} (hmem : s.mem = d ++ c :: x) (msg : Bool)
    (w : List Char) (f : Found) :
    ((s.poke d.length nul).enable msg w f).poke d.length c = s.enable msg w f := by
  have hcomm : ((s.poke d.length nul).enable msg w f).poke d.length c =
      (s.enable msg w f).poke d.length c := by
    cases f <;> cases msg <;> simp [enable, print, poke]
  rw [hcomm, poke_eq _ ((s.enable_mem msg w f).trans hmem)]

theorem word_eq (hmem : s.mem = d ++ (w ++ nul :: x)) (hw : nul ∉ w) :
    s.word msg d.length (d.length + w.length) = s.enable msg w (find w) := by
  have hnul : ∀ o ∈ options, nul ∉ o.toList := by decide
  simp only [word, hmem, List.drop_left, cstr_append hw, Nat.add_sub_cancel_left]
  rw [find, scan_congr fun o ho => ?_]
  rw [Bool.eq_iff_iff, strncmp_iff hw (hnul o ho), List.isPrefixOf_iff_prefix]

end State

variable {msg : Bool}

/-- Enabling word after word. -/
def enableAll (msg : Bool) (s : State) (ws : List (List Char)) : State :=
  ws.foldl (fun s w => s.enable msg w (find w)) s

theorem initLoop_eq : ∀ {fuel : ℕ} {s : State} {d r x : List Char}, s.mem = d ++ (r ++ nul :: x) →
      nul ∉ r → r.length < fuel →
      initLoop msg (d ++ r).length fuel d.length s = some (enableAll msg s (r.splitOn ','))
  | fuel + 1, s, d, r, x, hmem, hr, hfuel => by
    rw [initLoop, hmem, List.drop_left, strchr, cstr_append hr]
    by_cases hcomma : ',' ∈ r
    · obtain ⟨w, r', rfl, hw⟩ := List.eq_append_cons_of_mem hcomma
      obtain ⟨hw', -, hr'⟩ : nul ∉ w ∧ nul ≠ ',' ∧ nul ∉ r' := by simpa using hr
      have hfind : (w ++ ',' :: r').findIdx? (· == ',') = some w.length := by
        have hnone : w.findIdx? (· == ',') = none := by
          simpa [List.findIdx?_eq_none_iff] using fun c hc => ne_of_mem_of_not_mem hc hw
        simp [List.findIdx?_append, List.findIdx?_cons, hnone]
      have hne : d.length + w.length ≠ (d ++ (w ++ ',' :: r')).length := by simp
      have hword : s.mem = (d ++ w) ++ ',' :: (r' ++ nul :: x) := by simp [hmem]
      have hcut : (s.poke (d.length + w.length) nul).mem = d ++ (w ++ nul :: (r' ++ nul :: x)) := by
        rw [← List.length_append]
        simp [State.poke, hword]
      rw [hfind, List.splitOn, List.splitOnP_append_cons _ _ (by simp)]
      simp only [Option.map_some, Option.getD_some, if_neg hne]
      rw [State.word_eq hcut hw', ← List.length_append, s.poke_enable_poke hword]
      have hsingle : w.splitOnP (· == ',') = [w] := List.splitOn_eq_singleton hw
      rw [hsingle]
      have hmem' : (s.enable msg w (find w)).mem = (d ++ w ++ [',']) ++ (r' ++ nul :: x) := by
        simp [State.enable_mem, hmem]
      have hlt : r'.length < fuel := by
        rw [List.length_append, List.length_cons] at hfuel
        omega
      have hrest := initLoop_eq hmem' hr' hlt
      have hlen : (d ++ w ++ [',']).length = (d ++ w).length + 1 := List.length_append
      have hstop : (d ++ w ++ [','] ++ r').length = (d ++ (w ++ ',' :: r')).length := by simp
      rw [hlen, hstop] at hrest
      exact hrest
    · have hnone : r.findIdx? (· == ',') = none := by
        simpa [List.findIdx?_eq_none_iff] using fun c hc => ne_of_mem_of_not_mem hc hcomma
      have hpoke : s.poke (d ++ r).length nul = s := s.poke_eq (by rw [hmem, ← List.append_assoc])
      rw [hnone, List.splitOn_eq_singleton hcomma]
      simp only [Option.map_none, Option.getD_none, hpoke, if_true]
      rw [List.length_append, State.word_eq hmem hr]
      rfl

/-! ## The levels -/

theorem toNat_lt (l : Level) : l.toNat < 64 * 1 := by
  cases l <;> decide

theorem print_levels (s : State) (line : String) : (s.print msg line).levels = s.levels := by
  cases msg <;> rfl

theorem enable_test (s : State) (w : List Char) (k : ℕ) :
    (s.enable msg w (find w)).levels.test k = true ↔ s.levels.test k = true ∨ ∃ l, Selects w l ∧
      k = l.listed.toNat := by
  cases hf : find w with
  | level i =>
    obtain ⟨l, hl, rfl⟩ := find_iff.mp hf
    have hsame {l' : Level} (hl' : Selects w l') : l'.listed.toNat = l.listed.toNat :=
      Found.level.inj ((find_iff.mpr ⟨l', hl', rfl⟩).symm.trans hf)
    rw [State.enable, print_levels, Bitmap.test_set _ (toNat_lt _), Bool.or_eq_true,
      decide_eq_true_iff, or_comm]
    refine or_congr_right ⟨fun hk => ⟨l, hl, hk.symm⟩, ?_⟩
    rintro ⟨l', hl', rfl⟩
    exact (hsame hl').symm
  | unmatched | multiple =>
    rw [State.enable, print_levels]
    refine (or_iff_left ?_).symm
    rintro ⟨l, hl, -⟩
    cases hf.symm.trans (find_iff.mpr ⟨l, hl, rfl⟩)

theorem enableAll_test (k : ℕ) :
    ∀ (ws : List (List Char)) (s : State), (enableAll msg s ws).levels.test k = true ↔
    s.levels.test k = true ∨ ∃ w ∈ ws, ∃ l, Selects w l ∧ k = l.listed.toNat
  | [], s => by simp [enableAll]
  | w :: ws, s => by
    rw [enableAll, List.foldl_cons]
    refine (enableAll_test k ws _).trans ?_
    rw [enable_test, or_assoc]
    simp

theorem enableAll_mem : ∀ (ws : List (List Char)) (s : State), (enableAll msg s ws).mem = s.mem
  | [], _ => rfl
  | _ :: ws, s => (enableAll_mem ws _).trans (s.enable_mem ..)

instance (w : List Char) (l : Level) : Decidable (Selects w l) :=
  inferInstanceAs (Decidable (_ ∧ _ ∧ _))

theorem Selects.mem_inits {w : List Char} {l : Level} (h : Selects w l) : w ∈ l.name.toList.inits :=
  (List.mem_inits _ _).mpr h.2.1

theorem selects_pci {w : List Char} : Selects w .pci ↔ w ∈ ["pc".toList, "pci".toList] := by
  have hinits : ∀ w ∈ Level.pci.name.toList.inits, Selects w .pci →
      w ∈ ["pc".toList, "pci".toList] := by decide
  have hall : ∀ w ∈ ["pc".toList, "pci".toList], Selects w .pci := by decide
  exact ⟨fun h => hinits w h.mem_inits h, hall w⟩

theorem selects_perf {w : List Char} :
    Selects w .perf ↔ w ∈ ["pe".toList, "per".toList, "perf".toList] := by
  have hinits : ∀ w ∈ Level.perf.name.toList.inits, Selects w .perf →
      w ∈ ["pe".toList, "per".toList, "perf".toList] := by decide
  have hall : ∀ w ∈ ["pe".toList, "per".toList, "perf".toList], Selects w .perf := by decide
  exact ⟨fun h => hinits w h.mem_inits h, hall w⟩

section Init

variable {s : State} {line rest : List Char} (hmem : s.mem = line ++ nul :: rest)
  (hline : nul ∉ line)

include hmem hline

theorem init_eq :
    init msg s = some (enableAll msg { s with levels := s.levels.set Level.basic.toNat }
      (line.splitOn ',')) := by
  have hlen : strlen s.mem = line.length := by rw [strlen, hmem, cstr_append hline]
  rw [init, hlen]
  exact initLoop_eq (d := []) hmem hline (Nat.lt_succ_self _)

/-- What `DBG::init` does: the levels that are set are those at the indices of the names. -/
theorem init_spec (msg : Bool) : ∃ s', init msg s = some s' ∧ s'.mem = s.mem ∧
    ∀ k, s'.levels.test k = true ↔ s.levels.test k = true ∨ k = Level.basic.toNat ∨
      ∃ w ∈ line.splitOn ',', ∃ l, Selects w l ∧ k = l.listed.toNat := by
  refine ⟨_, init_eq hmem hline, enableAll_mem .., fun k => ?_⟩
  rw [enableAll_test, Bitmap.test_set _ (toNat_lt _), Bool.or_eq_true, decide_eq_true_iff, or_assoc,
    eq_comm (b := k), or_left_comm]

end Init

/-- Some word selects the level. -/
def Asked (ws : List (List Char)) (l : Level) : Prop := ∃ w ∈ ws, Selects w l

theorem exists_toNat (ws : List (List Char)) (l : Level) :
    (∃ w ∈ ws, ∃ l', Selects w l' ∧ l.toNat = l'.toNat) ↔ Asked ws l := by
  constructor
  · rintro ⟨w, hw, l', hl', heq⟩
    exact ⟨w, hw, toNat_injective heq ▸ hl'⟩
  · rintro ⟨w, hw, hl⟩
    exact ⟨w, hw, l, hl, rfl⟩

theorem exists_listed (ws : List (List Char)) (l : Level) :
    (∃ w ∈ ws, ∃ l', Selects w l' ∧ l.toNat = l'.listed.toNat) ↔ Asked ws l.listed := by
  constructor
  · rintro ⟨w, hw, l', hl', heq⟩
    rw [toNat_injective heq, listed_listed]
    exact ⟨w, hw, hl'⟩
  · rintro ⟨w, hw, hl⟩
    exact ⟨w, hw, l.listed, hl, by rw [listed_listed]⟩

/-- Apart from `pci` and `perf`, each name has the index of its level. -/
theorem exists_listed_of_ne {ws : List (List Char)} {k : ℕ} (hpci : k ≠ Level.pci.toNat)
    (hperf : k ≠ Level.perf.toNat) :
    (∃ w ∈ ws, ∃ l, Selects w l ∧ k = l.listed.toNat) ↔ ∃ w ∈ ws, ∃ l, Selects w l ∧
      k = l.toNat := by
  have hlisted (l : Level) : k = l.listed.toNat ↔ k = l.toNat := by
    cases l with
    | pci => exact iff_of_false hperf hpci
    | perf => exact iff_of_false hpci hperf
    | _ => exact Iff.rfl
  simp only [hlisted]

theorem swapped_iff {p q a b : Prop} : (p ∨ b ↔ p ∨ a) ∧ (q ∨ a ↔ q ∨ b) ↔ (a ↔ b) ∨ p ∧ q := by
  tauto

/-- **Two names change places.**  On every command line, `DBG::init` ends, leaves the memory as it
was, and has no further effect on the levels when it runs again.  It enables just `Basic` and the
levels that the words select if and only if `pci` and `perf` are both asked for or both not, or are
both enabled before. -/
theorem init_enables_iff {s : State} {line rest : List Char} (hmem : s.mem = line ++ nul :: rest)
    (hline : nul ∉ line) (msg : Bool) :
    ∃ s', init msg s = some s' ∧ s'.mem = s.mem ∧
      (∀ msg', ∃ s'', init msg' s' = some s'' ∧ s''.mem = s'.mem ∧
        s''.levels.test = s'.levels.test) ∧
      ((∀ k, s'.levels.test k = true ↔ s.levels.test k = true ∨ k = Level.basic.toNat ∨
          ∃ w ∈ line.splitOn ',', ∃ l, Selects w l ∧ k = l.toNat) ↔
        ((∃ w ∈ line.splitOn ',', w ∈ ["pc".toList, "pci".toList]) ↔
            ∃ w ∈ line.splitOn ',', w ∈ ["pe".toList, "per".toList, "perf".toList]) ∨
          s.levels.test Level.pci.toNat = true ∧ s.levels.test Level.perf.toNat = true) := by
  obtain ⟨s', hs', hmem', htest⟩ := init_spec hmem hline msg
  refine ⟨s', hs', hmem', fun msg' => ?_, ?_⟩
  · obtain ⟨s'', hs'', hmem'', htest'⟩ := init_spec (hmem'.trans hmem) hline msg'
    refine ⟨s'', hs'', hmem'', funext fun k => Bool.eq_iff_iff.mpr ?_⟩
    rw [htest', or_iff_left_of_imp]
    exact fun h => (htest k).mpr (.inr h)
  · simp only [← selects_pci, ← selects_perf, htest]
    change _ ↔ (Asked (line.splitOn ',') .pci ↔ Asked (line.splitOn ',') .perf) ∨ _
    have hpci : Level.pci.toNat ≠ Level.basic.toNat := by decide
    have hperf : Level.perf.toNat ≠ Level.basic.toNat := by decide
    rw [← swapped_iff]
    constructor
    · intro h
      have h₁ := h Level.pci.toNat
      have h₂ := h Level.perf.toNat
      rw [exists_listed, exists_toNat] at h₁ h₂
      simp only [hpci, hperf, false_or] at h₁ h₂
      exact ⟨h₁, h₂⟩
    · rintro ⟨h₁, h₂⟩ k
      by_cases hk : k = Level.pci.toNat
      · rw [hk, exists_listed, exists_toNat]
        simp only [hpci, false_or]
        exact h₁
      by_cases hk' : k = Level.perf.toNat
      · rw [hk', exists_listed, exists_toNat]
        simp only [hperf, false_or]
        exact h₂
      rw [exists_listed_of_ne hk hk']

/-- A command line with two words, one of them an abbreviation. -/
theorem init_enables_iff_words :
    ∃ s', init false ⟨"sched,warning".toList ++ [nul], .zero, []⟩ = some s' ∧
    s'.mem = "sched,warning".toList ++ [nul] ∧ ∀ k, s'.levels.test k = true ↔
      (Bitmap.zero : Bitmap 1).test k = true ∨ k = Level.basic.toNat ∨
      ∃ w ∈ "sched,warning".toList.splitOn ',', ∃ l, Selects w l ∧ k = l.toNat := by
  have hnul : nul ∉ "sched,warning".toList := by decide
  obtain ⟨s', hs', hmem, -, hiff⟩ :=
    init_enables_iff (s := ⟨"sched,warning".toList ++ [nul], .zero, []⟩)
    rfl hnul false
  exact ⟨s', hs', hmem, hiff.mpr (.inl (by decide))⟩

/-- The word `pci` enables the level `Perf`. -/
theorem init_pci_sets_perf : ∃ s', init false ⟨"pci".toList ++ [nul], .zero, []⟩ = some s' ∧
    s'.levels.test Level.perf.toNat = true ∧ s'.levels.test Level.pci.toNat = false :=
  ⟨_, rfl, by decide, by decide⟩

end DBG

end Kos
