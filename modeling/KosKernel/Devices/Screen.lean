import Mathlib.Data.List.Induction
import Mathlib.Order.Nat

/-!
# Devices/Screen — segments of the screen

`Screen` and `ScreenSegment` of `devices/Screen.h`.  The screen has 25 lines of 160 bytes, two for
each character; a segment is a range of lines with a position of its own, and `buffer` is a copy of
the video memory that can be read.

A write changes bytes of its segment only, and what it does depends on these bytes only
(`write_congr`). So segments that share no line do not disturb each other, in whatever order they
are written.
-/

namespace Kos

open Function

namespace Screen

def xmax : ℕ := 160
def ymax : ℕ := 25

end Screen

/-- The two copies of the screen, by bytes, and the cursor. -/
structure Screen where
  buffer : ℕ → UInt8
  video : ℕ → UInt8
  cursor : ℕ

namespace Screen

/-- `memmove` and `memcpy` of `n` bytes from `mem + src` to `out + dst`. -/
def copy (out mem : ℕ → UInt8) (dst src n : ℕ) : ℕ → UInt8 := fun a =>
  if dst ≤ a ∧ a < dst + n then mem (a - dst + src) else out a

/-- `memset`. -/
def fill (mem : ℕ → UInt8) (dst : ℕ) (v : UInt8) (n : ℕ) : ℕ → UInt8 := fun a =>
  if dst ≤ a ∧ a < dst + n then v else mem a

variable (s : Screen)

def scroll (offset length : ℕ) : Screen :=
  let buffer := copy s.buffer s.buffer offset (offset + xmax) (length - xmax)
  let buffer := fill buffer (offset + length - xmax) 0 xmax
  { s with buffer, video := copy s.video buffer offset offset length }

def setcursor (position : ℕ) : Screen := { s with cursor := position / 2 }

@[simp] theorem buffer_setcursor (position : ℕ) : (s.setcursor position).buffer = s.buffer := rfl

@[simp] theorem video_setcursor (position : ℕ) : (s.setcursor position).video = s.video := rfl

def offset (firstline : ℕ) : ℕ := (firstline - 1) * xmax

def length (firstline lastline : ℕ) : ℕ := (1 + lastline - firstline) * xmax

/-- A byte of both copies. -/
def put (a : ℕ) (v : UInt8) : Screen :=
  { s with buffer := update s.buffer a v, video := update s.video a v }

/-- The first half of `putchar`: the character, and the new position. -/
def print (c : UInt8) (position : ℕ) : Screen × ℕ :=
  if c = 10 then (s, (position / xmax + 1) * xmax)
  else ((s.put position c).put (position + 1) 0x07, position + 2)

def putchar (c : UInt8) (position offset length : ℕ) : Screen × ℕ :=
  let (s, position) := s.print c position
  if offset + length ≤ position then
    ((s.scroll offset length).setcursor (position - xmax), position - xmax)
  else (s.setcursor position, position)

end Screen

/-- The arguments of the constructor of `ScreenSegment`, for lines of the screen and a start line
among them; `startline = 0` is the default. -/
structure ScreenSegment where
  firstline : ℕ
  lastline : ℕ
  startline : ℕ := 0
  first_pos : 1 ≤ firstline
  first_le : firstline ≤ lastline
  last_le : lastline ≤ Screen.ymax
  start_le : startline ≤ lastline

namespace ScreenSegment

open Screen

variable {s s' : Screen} {seg : ScreenSegment} {c : UInt8} {position a : ℕ}

def offset (seg : ScreenSegment) : ℕ := Screen.offset seg.firstline

def length (seg : ScreenSegment) : ℕ := Screen.length seg.firstline seg.lastline

section

variable (seg : ScreenSegment)

/-- The position that the constructor sets. -/
def start : ℕ :=
  if seg.firstline < seg.startline then Screen.offset seg.startline else Screen.offset seg.firstline

/-- `write`, with the position. -/
def write (p : Screen × ℕ) (c : UInt8) : Screen × ℕ :=
  p.1.putchar c p.2 seg.offset seg.length

/-- The byte belongs to a line of the segment. -/
def Inside (a : ℕ) : Prop := seg.offset ≤ a ∧ a < seg.offset + seg.length

/-- A position between two writes. -/
def PositionOk (position : ℕ) : Prop := position % 2 = 0 ∧ seg.Inside position

/-- The segment shows the same on both screens. -/
def Same (s s' : Screen) : Prop :=
  ∀ a, seg.Inside a → s.buffer a = s'.buffer a ∧ s.video a = s'.video a

end

/-- Two segments have no line in common. -/
def Disjoint (seg seg' : ScreenSegment) : Prop :=
  seg.lastline < seg'.firstline ∨ seg'.lastline < seg.firstline

/-! ## One write -/

/-- Segments consist of lines. -/
theorem exists_lines (seg : ScreenSegment) :
    ∃ m n, seg.offset = 160 * m ∧ seg.length = 160 * (n + 1) := by
  refine ⟨seg.firstline - 1, seg.lastline - seg.firstline, Nat.mul_comm .., ?_⟩
  have := seg.first_le
  rw [length, Screen.length, Nat.mul_comm]
  congr 1
  omega

theorem positionOk_start (seg : ScreenSegment) : seg.PositionOk seg.start := by
  have h1 := seg.first_pos
  have h2 := seg.first_le
  have h3 := seg.start_le
  unfold PositionOk Inside start offset length Screen.offset Screen.length xmax
  split <;> omega

/-- What `print` does with the position. -/
theorem print_position (h : seg.PositionOk position) : (s.print c position).2 % 2 = 0 ∧
    seg.offset < (s.print c position).2 ∧ (s.print c position).2 ≤ seg.offset + seg.length := by
  obtain ⟨m, n, hm, hn⟩ := seg.exists_lines
  obtain ⟨heven, hge, hlt⟩ := h
  rw [print]
  split
  · simp only [xmax]
    omega
  · dsimp only
    omega

theorem print_outside (h : seg.PositionOk position) (ha : ¬ seg.Inside a) :
    (s.print c position).1.buffer a = s.buffer a ∧ (s.print c position).1.video a = s.video a := by
  obtain ⟨m, n, hm, hn⟩ := seg.exists_lines
  obtain ⟨heven, hge, hlt⟩ := h
  rw [print]
  split
  · exact ⟨rfl, rfl⟩
  · have h1 : a ≠ position := by rintro rfl; exact ha ⟨hge, hlt⟩
    have h2 : a ≠ position + 1 := by rintro rfl; exact ha ⟨by omega, by omega⟩
    simp [put, h1, h2]

theorem scroll_outside (ha : ¬ seg.Inside a) :
    (s.scroll seg.offset seg.length).buffer a = s.buffer a ∧
      (s.scroll seg.offset seg.length).video a = s.video a := by
  obtain ⟨m, n, hm, hn⟩ := seg.exists_lines
  rw [Inside] at ha
  have h1 : ¬ (seg.offset + seg.length - xmax ≤ a ∧ a < seg.offset + seg.length - xmax + xmax) := by
    simp only [xmax]
    omega
  have h2 : ¬ (seg.offset ≤ a ∧ a < seg.offset + (seg.length - xmax)) := by
    simp only [xmax]
    omega
  simp only [scroll, copy, fill, if_neg h1, if_neg h2, if_neg ha, and_self]

/-- The two ways a write can end: in the segment, or at its end, where the segment is scrolled. -/
theorem write_eq (h : seg.PositionOk position) :
    (s.print c position).2 < seg.offset + seg.length ∧
        seg.write (s, position) c =
      ((s.print c position).1.setcursor (s.print c position).2, (s.print c position).2) ∨
      (s.print c position).2 = seg.offset + seg.length ∧
      ∃ pos, pos + xmax = seg.offset + seg.length ∧
      seg.write (s, position) c =
      (((s.print c position).1.scroll seg.offset seg.length).setcursor pos, pos) := by
  obtain ⟨m, n, hm, hn⟩ := seg.exists_lines
  obtain ⟨-, -, hle⟩ := print_position (s := s) (c := c) h
  rcases Nat.lt_or_eq_of_le hle with hlt | heq
  · refine .inl ⟨hlt, ?_⟩
    rw [write, putchar]
    exact if_neg (Nat.not_le.mpr hlt)
  · refine .inr ⟨heq, (s.print c position).2 - xmax, by rw [heq]; simp only [xmax]; omega, ?_⟩
    rw [write, putchar]
    exact if_pos heq.symm.le

/-- **A write changes bytes of its segment only.** -/
theorem write_outside (h : seg.PositionOk position) (ha : ¬ seg.Inside a) :
    (seg.write (s, position) c).1.buffer a = s.buffer a ∧
      (seg.write (s, position) c).1.video a = s.video a := by
  obtain ⟨hb, hv⟩ := print_outside (s := s) (c := c) h ha
  obtain ⟨-, heq⟩ | ⟨-, pos, -, heq⟩ := write_eq (s := s) (c := c) h
  · rw [heq, buffer_setcursor, video_setcursor]
    exact ⟨hb, hv⟩
  · obtain ⟨hb', hv'⟩ := scroll_outside (s := (s.print c position).1) ha
    rw [heq, buffer_setcursor, video_setcursor]
    exact ⟨hb'.trans hb, hv'.trans hv⟩

/-- **The position stays even and in the segment.** -/
theorem positionOk_write (h : seg.PositionOk position) :
    seg.PositionOk (seg.write (s, position) c).2 := by
  obtain ⟨m, n, hm, hn⟩ := seg.exists_lines
  obtain ⟨heven, hgt, -⟩ := print_position (s := s) (c := c) h
  obtain ⟨hlt, heq⟩ | ⟨-, pos, hpos, heq⟩ := write_eq (s := s) (c := c) h
  · rw [heq]
    exact ⟨heven, Nat.le_of_lt hgt, hlt⟩
  · rw [heq]
    simp only [PositionOk, Inside, xmax] at hpos ⊢
    omega

theorem Same.print (hsame : seg.Same s s') :
    seg.Same (s.print c position).1 (s'.print c position).1 := by
  intro a ha
  obtain ⟨hb, hv⟩ := hsame a ha
  rw [Screen.print, Screen.print]
  split
  · exact ⟨hb, hv⟩
  · simp [put, update_apply, hb, hv]

/-- After `scroll` the video memory shows the buffer. -/
theorem video_scroll (ha : seg.Inside a) :
    (s.scroll seg.offset seg.length).video a = (s.scroll seg.offset seg.length).buffer a := by
  rw [Screen.scroll]
  dsimp only
  rw [copy, if_pos (show _ ∧ _ from ha), Nat.sub_add_cancel ha.1]

theorem Same.scroll (hsame : seg.Same s s') :
    seg.Same (s.scroll seg.offset seg.length) (s'.scroll seg.offset seg.length) := by
  obtain ⟨m, n, hm, hn⟩ := seg.exists_lines
  have hbuf : ∀ a, seg.Inside a → (s.scroll seg.offset seg.length).buffer a =
      (s'.scroll seg.offset seg.length).buffer a := fun a ha => by
    simp only [Screen.scroll, fill, copy]
    split
    · rfl
    · split
      · refine (hsame _ ⟨?_, ?_⟩).1 <;> simp only [xmax] at * <;> omega
      · exact (hsame a ha).1
  refine fun a ha => ⟨hbuf a ha, ?_⟩
  rw [video_scroll ha, video_scroll ha, hbuf a ha]

theorem Same.setcursor (hsame : seg.Same s s') (pos : ℕ) :
    seg.Same (s.setcursor pos) (s'.setcursor pos) := hsame

theorem print_snd (s s' : Screen) (c : UInt8) (position : ℕ) :
    (s.print c position).2 = (s'.print c position).2 := by
  rw [Screen.print, Screen.print]
  split <;> rfl

/-- **What a write shows depends on the bytes of the segment only.** -/
theorem write_congr (hsame : seg.Same s s') :
    seg.Same (seg.write (s, position) c).1 (seg.write (s', position) c).1 ∧
    (seg.write (s, position) c).2 = (seg.write (s', position) c).2 := by
  rw [write, write, putchar, putchar]
  dsimp only
  rw [print_snd s s']
  split
  · exact ⟨hsame.print.scroll.setcursor _, rfl⟩
  · exact ⟨hsame.print.setcursor _, rfl⟩

/-! ## Runs -/

variable {ι : Type} [DecidableEq ι]

/-- One of several segments is written. -/
def step (segs : ι → ScreenSegment) (p : Screen × (ι → ℕ)) (w : ι × UInt8) : Screen × (ι → ℕ) :=
  let r := (segs w.1).write (p.1, p.2 w.1) w.2
  (r.1, update p.2 w.1 r.2)

/-- The screen and the positions after a sequence of writes. -/
def writes (segs : ι → ScreenSegment) (s : Screen) (ws : List (ι × UInt8)) : Screen × (ι → ℕ) :=
  ws.foldl (step segs) (s, fun i => (segs i).start)

/-- What a segment shows if nothing else is written. -/
def alone (seg : ScreenSegment) (s : Screen) (cs : List UInt8) : Screen × ℕ :=
  cs.foldl seg.write (s, seg.start)

theorem not_inside_of_disjoint {seg' : ScreenSegment} (h : seg.Disjoint seg') (ha : seg.Inside a) :
    ¬ seg'.Inside a := by
  have h1 := seg.first_pos
  have h2 := seg'.first_pos
  have h3 := seg.first_le
  have h4 := seg'.first_le
  simp only [Inside, offset, length, Screen.offset, Screen.length, xmax] at ha ⊢
  rcases h with h | h <;> omega

section

variable {segs : ι → ScreenSegment} {ws : List (ι × UInt8)}

theorem writes_append (w : ι × UInt8) :
    writes segs s (ws ++ [w]) = step segs (writes segs s ws) w := by
  rw [writes, List.foldl_append]
  rfl

/-- **The positions stay even and in their segments**, in every run. -/
theorem positionOk_writes (i : ι) : (segs i).PositionOk ((writes segs s ws).2 i) := by
  induction ws using List.reverseRecOn with
  | nil => exact (segs i).positionOk_start
  | append_singleton ws w ih =>
    rw [writes_append, step]
    dsimp only
    by_cases hi : i = w.1
    · subst hi
      rw [update_self]
      exact positionOk_write ih
    · rwa [update_of_ne hi]

/-- **Each segment shows what it would show alone.** -/
theorem same_alone (hdisj : ∀ i j, i ≠ j → (segs i).Disjoint (segs j)) (i : ι) :
    (segs i).Same (writes segs s ws).1 ((segs i).alone s ((ws.filter (·.1 = i)).map Prod.snd)).1 ∧
      (writes segs s ws).2 i = ((segs i).alone s ((ws.filter (·.1 = i)).map Prod.snd)).2 := by
  induction ws using List.reverseRecOn with
  | nil => exact ⟨fun _ _ => ⟨rfl, rfl⟩, rfl⟩
  | append_singleton ws w ih =>
    obtain ⟨hsame, hpos⟩ := ih
    rw [writes_append, step, List.filter_append, List.map_append]
    dsimp only
    by_cases hi : w.1 = i
    · subst hi
      have hone : [w].filter (·.1 = w.1) = [w] := by simp
      rw [hone, alone, List.foldl_append, update_self, hpos]
      exact write_congr hsame
    · have hnone : [w].filter (·.1 = i) = [] := by simp [hi]
      rw [hnone, List.map_nil, List.append_nil, update_of_ne (Ne.symm hi)]
      refine ⟨fun a ha => ?_, hpos⟩
      obtain ⟨hb, hv⟩ :=
        write_outside (c := w.2) (s := (writes segs s ws).1) (positionOk_writes w.1)
        (not_inside_of_disjoint (hdisj i w.1 (Ne.symm hi)) ha)
      exact ⟨hb.trans (hsame a ha).1, hv.trans (hsame a ha).2⟩

end

/-! ## What a segment shows -/

/-- Every line has moved up by one, and the last one is clear. -/
def Scrolled (seg : ScreenSegment) (s s' : Screen) : Prop :=
  ∀ a, seg.Inside a → s'.video a = s'.buffer a ∧
    s'.buffer a = if a + xmax < seg.offset + seg.length then s.buffer (a + xmax) else 0

theorem scrolled (s : Screen) : seg.Scrolled s (s.scroll seg.offset seg.length) := by
  obtain ⟨m, n, hm, hn⟩ := seg.exists_lines
  intro a ha
  refine ⟨video_scroll ha, ?_⟩
  obtain ⟨hge, hlt⟩ := ha
  simp only [Screen.scroll, fill, copy]
  by_cases h : a + xmax < seg.offset + seg.length
  · rw [if_pos h, if_neg (by omega), if_pos (by simp only [xmax] at *; omega)]
    congr 1
    omega
  · rw [if_neg h, if_pos (by simp only [xmax] at *; omega)]

theorem Scrolled.setcursor (h : seg.Scrolled s s') (pos : ℕ) :
    seg.Scrolled s (s'.setcursor pos) := h

/-- A write to a segment does what it should. -/
structure WriteOk (seg : ScreenSegment) (s : Screen) (position : ℕ) (c : UInt8) : Prop where
  outside : ∀ a, ¬ seg.Inside a → (seg.write (s, position) c).1.buffer a = s.buffer a ∧
    (seg.write (s, position) c).1.video a = s.video a
  /-- the position would leave the segment -/
  scrolled : (s.print c position).2 = seg.offset + seg.length →
    seg.Scrolled (s.print c position).1 (seg.write (s, position) c).1
  /-- it stays in the segment -/
  printed : (s.print c position).2 ≠ seg.offset + seg.length →
    (seg.write (s, position) c).1 = (s.print c position).1.setcursor (s.print c position).2

/-- **Segments do not interfere.**  However the segments are written, each position stays even and
in its segment, each write changes bytes of its segment only, and scrolls it when the position would
leave it; and segments that share no line show what each of them would show alone. -/
theorem segments_do_not_interfere (segs : ι → ScreenSegment) (s : Screen) (ws : List (ι × UInt8)) :
    (∀ i, (segs i).PositionOk ((writes segs s ws).2 i)) ∧
      (∀ i c, (segs i).WriteOk (writes segs s ws).1 ((writes segs s ws).2 i) c) ∧
      ((∀ i j, i ≠ j → (segs i).Disjoint (segs j)) → ∀ i,
        (segs i).Same (writes segs s ws).1
          ((segs i).alone s ((ws.filter (·.1 = i)).map Prod.snd)).1) := by
  refine ⟨positionOk_writes, fun i c => ?_, fun hdisj i => (same_alone hdisj i).1⟩
  have hpos : (segs i).PositionOk ((writes segs s ws).2 i) := positionOk_writes i
  refine ⟨fun a ha => write_outside hpos ha, fun hend => ?_, fun hend => ?_⟩
  · obtain ⟨hlt, -⟩ | ⟨-, pos, -, heq⟩ := write_eq (s := (writes segs s ws).1) (c := c) hpos
    · exact absurd hend (Nat.ne_of_lt hlt)
    · rw [heq]
      exact (scrolled _).setcursor pos
  · obtain ⟨-, heq⟩ | ⟨hat, -⟩ := write_eq (s := (writes segs s ws).1) (c := c) hpos
    · rw [heq]
    · exact absurd hat hend

/-- `top_screen` and `bot_screen`. -/
def screens : Bool → ScreenSegment
  | true => ⟨1, 20, 2, by decide, by decide, by decide, by decide⟩
  | false => ⟨21, 25, 0, by decide, by decide, by decide, by decide⟩

/-- Two letters, one on each of the kernel's two segments. -/
theorem segments_do_not_interfere_screens :
    (screens true).Same (writes screens ⟨fun _ => 0, fun _ => 0, 0⟩ [(false, 66), (true, 65)]).1
      ((screens true).alone ⟨fun _ => 0, fun _ => 0, 0⟩ [65]).1 :=
  (segments_do_not_interfere screens _
    [(false, 66), (true, 65)]).2.2 (by unfold Disjoint; decide) true

end ScreenSegment

end Kos
