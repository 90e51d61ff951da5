import KosKernel.Gdb.Breakpoints

/-!
# Gdb/Packets — the frames of the remote protocol

`getpacket` and `putpacket` of `gdb/Gdb.cc`.  A packet is `$`, its payload, `#` and two check
digits. `getpacket` is given here by the places where it waits in `getbyte`, one byte at a time, so
that it is defined on every stream.

Two things go wrong at the edges.  `char2hex` of a character that is no digit is `-1`, and
`getpacket` does not look: two such characters stand for the checksum `0xEF`
(`getpacket_correct_iff`).  And the test for a sequence number reads `buffer[2]` also when the
payload is shorter than that, so it sees what an earlier packet has left there (`roundTrip_iff`).
-/

namespace Kos

open Function

namespace Gdb

/-! ## The code -/

/-- An ASCII character as a byte. -/
def byte (c : Char) : UInt8 := c.toUInt8

/-- `checksum += ch` in a `char`. -/
def addByte (checksum : ℕ) (ch : UInt8) : ℕ := (checksum + ch.toNat) % 256

/-- Where `getpacket` waits for the next byte. -/
inductive Mode
  /-- for `$` -/
  | start
  /-- in the loop over the payload -/
  | data (count checksum : ℕ)
  /-- for the first check digit -/
  | digit₁ (checksum : ℕ)
  | digit₂ (checksum xmitcsum : ℕ)
  /-- `getpacket` has returned the address of `buffer[ptr]` -/
  | done (ptr : ℕ)
  deriving DecidableEq

/-- A call of `getpacket`: the memory from `buffer` on, and what has been sent back. -/
structure Receiver where
  mode : Mode
  buffer : ℕ → UInt8
  sent : List UInt8

namespace Receiver

/-- The head of the loop over the payload, and what follows the loop when the buffer is full. -/
def loop (buflen count checksum : ℕ) (r : Receiver) : Receiver :=
  if count < buflen - 1 then { r with mode := .data count checksum }
  else { r with mode := .start, buffer := update r.buffer count 0 }

/-- The sequence number, if there is one, and the address that is returned. -/
def accept (r : Receiver) : Receiver :=
  if r.buffer 2 = byte ':' then
    { r with mode := .done 3, sent := r.sent ++ [byte '+', r.buffer 0, r.buffer 1] }
  else { r with mode := .done 0, sent := r.sent ++ [byte '+'] }

/-- `getpacket` goes on with the byte `ch`. -/
def take (buflen : ℕ) (r : Receiver) (ch : UInt8) : Receiver :=
  match r.mode with
  | .start => if ch = byte '$' then r.loop buflen 0 0 else r
  | .data count checksum =>
    if ch = byte '$' then r.loop buflen 0 0
    else if ch = byte '#' then
      { r with mode := .digit₁ checksum, buffer := update r.buffer count 0 }
    else
      { r with buffer := update r.buffer count ch }.loop buflen (count + 1) (addByte checksum ch)
  | .digit₁ checksum =>
    { r with mode := .digit₂ checksum (char2hex (.ofUInt8 ch) * 16 % 256).toNat }
  | .digit₂ checksum xmitcsum =>
    if checksum ≠ ((xmitcsum + char2hex (.ofUInt8 ch)) % 256).toNat then
      { r with mode := .start, sent := r.sent ++ [byte '-'] }
    else r.accept
  | .done _ => r

end Receiver

/-- `getpacket(buffer, buflen)` on a stream of bytes. -/
def getpacket (buflen : ℕ) (buffer : ℕ → UInt8) (stream : List UInt8) : Receiver :=
  stream.foldl (Receiver.take buflen) ⟨.start, buffer, []⟩

/-- The sum of the bytes, in a `char`. -/
def checksum (payload : List UInt8) : ℕ := payload.foldl addByte 0

def hexchars : List Char := "0123456789abcdef".toList

def hexchar (n : ℕ) : UInt8 := byte (hexchars.getD n '0')

/-- What `putpacket` sends for a payload. -/
def frame (payload : List UInt8) : List UInt8 :=
  byte '$' :: (payload ++ [byte '#', hexchar (checksum payload / 16),
    hexchar (checksum payload % 16)])

/-- The payload: the bytes in front of the first zero. -/
def payload (buffer : List UInt8) : List UInt8 := buffer.takeWhile (· ≠ 0)

/-- `putpacket`, given the bytes that come back: all that it sends until a `+` is heard. -/
def putpacket (buffer : List UInt8) : List UInt8 → Option (List UInt8)
  | [] => none
  | ch :: answers =>
    if ch = byte '+' then some (frame (payload buffer))
    else (putpacket buffer answers).map (frame (payload buffer) ++ ·)

/-! ## The buffer -/

/-- Bytes stored one after the other. -/
def store (buffer : ℕ → UInt8) : ℕ → List UInt8 → ℕ → UInt8
  | _, [] => buffer
  | i, b :: bs => store (update buffer i b) (i + 1) bs

variable {i : ℕ}

theorem store_of_notMem {j : ℕ} : ∀ {buffer : ℕ → UInt8} {bs : List UInt8}, j < i ∨
      i + bs.length ≤ j → store buffer i bs j = buffer j := by
  intro buffer bs h
  induction bs generalizing buffer i with
  | nil => rfl
  | cons b bs ih =>
    rw [List.length_cons] at h
    rw [store, ih (by omega), update_of_ne (by omega)]

theorem store_get {k : ℕ} {bs : List UInt8} {buffer : ℕ → UInt8} (hk : k < bs.length) :
    store buffer i bs (i + k) = bs[k] := by
  induction bs generalizing buffer i k with
  | nil => simp at hk
  | cons b bs ih =>
    rw [store]
    cases k with
    | zero =>
      rw [store_of_notMem (.inl (by omega))]
      exact update_self ..
    | succ k =>
      rw [show i + (k + 1) = i + 1 + k by omega, ih (by simpa using hk)]
      rfl

/-- The C string at an offset. -/
def IsString (buffer : ℕ → UInt8) (i : ℕ) (w : List UInt8) : Prop :=
  (∀ k b, w[k]? = some b → buffer (i + k) = b) ∧ buffer (i + w.length) = 0

/-- The buffer after a payload and its end. -/
def filled (buffer : ℕ → UInt8) (w : List UInt8) : ℕ → UInt8 := update (store buffer 0 w) w.length 0

theorem filled_isString (buffer : ℕ → UInt8) (w : List UInt8) : IsString (filled buffer w) 0 w := by
  refine ⟨fun k b hk => ?_, ?_⟩
  · obtain ⟨hlt, rfl⟩ := List.getElem?_eq_some_iff.mp hk
    rw [filled, update_of_ne (by omega), store_get hlt]
  · rw [filled, Nat.zero_add, update_self]

/-! ## Feeding a packet -/

/-- Neither `$` nor `#`. -/
def Clean (d : List UInt8) : Prop := byte '$' ∉ d ∧ byte '#' ∉ d

variable {count : ℕ}

namespace Receiver

variable {buflen : ℕ} {r : Receiver} {d : List UInt8}

/-- `getpacket` waits for a start, or is in the loop over a payload: a `$` begins a packet. -/
def Ready (r : Receiver) : Prop := r.mode = .start ∨ ∃ count c, r.mode = .data count c

theorem take_start (h : r.Ready) : r.take buflen (byte '$') = r.loop buflen 0 0 := by
  obtain h | ⟨count, c, h⟩ := h
  · rw [take, h]
    rfl
  · rw [take, h]
    rfl

/-- The loop over the payload, as long as there is room. -/
theorem feed_data {c : ℕ} : ∀ {r : Receiver} {d : List UInt8}, Clean d →
      count + d.length < buflen - 1 → d.foldl (take buflen) { r with mode := .data count c } =
      { r with mode := .data (count + d.length) (d.foldl addByte c),
               buffer := store r.buffer count d } := by
  intro r d hd hlen
  induction d generalizing r count c with
  | nil => rfl
  | cons b d ih =>
    obtain ⟨⟨hdollar, hd₁⟩, hhash, hd₂⟩ : (byte '$' ≠ b ∧ byte '$' ∉ d) ∧ byte '#' ≠ b ∧
        byte '#' ∉ d := by
      simpa [Clean] using hd
    rw [List.length_cons] at hlen
    have hone : take buflen { r with mode := .data count c } b =
        { { r with buffer := update r.buffer count b } with
          mode := .data (count + 1) (addByte c b) } := by
      simp only [take, if_neg hdollar.symm, if_neg hhash.symm, loop]
      rw [if_pos (by omega)]
    rw [List.foldl_cons, hone, ih ⟨hd₁, hd₂⟩ (by omega)]
    simp only [mk.injEq, Mode.data.injEq]
    exact ⟨⟨by rw [List.length_cons]; omega, rfl⟩, rfl, trivial⟩

end Receiver

/-- The check digits as the code reads them. -/
def digits (h₁ h₂ : UInt8) : ℕ :=
  ((char2hex (.ofUInt8 h₁) * 16 + char2hex (.ofUInt8 h₂)) % 256).toNat

/-- A complete packet. -/
def group (d : List UInt8) (h₁ h₂ : UInt8) : List UInt8 := byte '$' :: (d ++ [byte '#', h₁, h₂])

namespace Receiver

variable {buflen : ℕ} {r : Receiver} {d : List UInt8}

/-- After `$` and some of the payload. -/
theorem feed_cut (h : r.Ready) (hd : Clean d) (hlen : d.length + 2 ≤ buflen) :
    (byte '$' :: d).foldl (take buflen) r =
      { r with mode := .data d.length (checksum d), buffer := store r.buffer 0 d } := by
  rw [List.foldl_cons, take_start h, loop, if_pos (by omega), feed_data hd (by omega), Nat.zero_add]
  rfl

theorem feed_hash (h : r.Ready) (hd : Clean d) (hlen : d.length + 2 ≤ buflen) :
    (byte '$' :: (d ++ [byte '#'])).foldl (take buflen) r =
      { r with
        mode := .digit₁ (checksum d)
        buffer := update (store r.buffer 0 d) d.length 0 } := by
  rw [← List.cons_append, List.foldl_append, feed_cut h hd hlen]
  rfl

/-- The receiver when both check digits have been read. -/
def answer (r : Receiver) (d : List UInt8) (h₁ h₂ : UInt8) : Receiver :=
  let r := { r with buffer := update (store r.buffer 0 d) d.length 0 }
  if checksum d = digits h₁ h₂ then r.accept
    else { r with mode := .start, sent := r.sent ++ [byte '-'] }

/-- **A complete packet is answered.** -/
theorem feed_group (h : r.Ready) (hd : Clean d) (hlen : d.length + 2 ≤ buflen) (h₁ h₂ : UInt8) :
    (group d h₁ h₂).foldl (take buflen) r = r.answer d h₁ h₂ := by
  have hsplit : group d h₁ h₂ = (byte '$' :: (d ++ [byte '#'])) ++ [h₁, h₂] := by simp [group]
  have hsum : (((char2hex (.ofUInt8 h₁) * 16 % 256).toNat + char2hex (.ofUInt8 h₂)) % 256).toNat =
      digits h₁ h₂ := by
    rw [digits]
    omega
  rw [hsplit, List.foldl_append, feed_hash h hd hlen]
  simp only [List.foldl_cons, List.foldl_nil, take, hsum, answer]
  by_cases hc : checksum d = digits h₁ h₂
  · rw [if_neg (not_not.mpr hc), if_pos hc]
    rfl
  · rw [if_pos hc, if_neg hc]

/-- A payload that fills the buffer is dropped. -/
theorem feed_long (h : r.Ready) (hd : Clean d) (hlen : d.length + 1 = buflen) :
    ∃ buffer, (byte '$' :: d).foldl (take buflen) r = { r with mode := .start, buffer } := by
  rcases List.eq_nil_or_concat d with rfl | ⟨d, b, rfl⟩
  · rw [List.foldl_cons, take_start h, loop, if_neg (by rw [List.length_nil] at hlen; omega)]
    exact ⟨_, rfl⟩
  · obtain ⟨⟨hd₁, hdollar⟩, hd₂, hhash⟩ : (byte '$' ∉ d ∧ byte '$' ≠ b) ∧ byte '#' ∉ d ∧
        byte '#' ≠ b := by
      simpa [Clean] using hd
    rw [List.concat_eq_append, List.length_append, List.length_singleton] at hlen
    rw [List.concat_eq_append, ← List.cons_append, List.foldl_append,
      feed_cut h ⟨hd₁, hd₂⟩ (by omega)]
    simp only [List.foldl_cons, List.foldl_nil, take, if_neg hdollar.symm, if_neg hhash.symm, loop]
    rw [if_neg (by omega)]
    exact ⟨_, rfl⟩

end Receiver

/-! ## Every stream -/

section Streams

variable {buflen : ℕ} {buffer : ℕ → UInt8} {pre d stream : List UInt8}

theorem getpacket_append (pre bs : List UInt8) :
    getpacket buflen buffer (pre ++ bs) =
      bs.foldl (Receiver.take buflen) (getpacket buflen buffer pre) :=
  List.foldl_append

/-- What holds of a call at any time: it keeps to its buffer, and sends nothing but `-` before it
returns. -/
structure Receiver.Kept (buflen : ℕ) (buffer : ℕ → UInt8) (r : Receiver) : Prop where
  inside : ∀ i, buflen ≤ i → r.buffer i = buffer i
  dashes : (∀ p, r.mode ≠ .done p) → ∀ b ∈ r.sent, b = byte '-'
  room : ∀ count c, r.mode = .data count c → count + 1 < buflen

variable {r : Receiver}

theorem Receiver.Kept.write (h : r.Kept buflen buffer) (hcount : count < buflen) (ch : UInt8)
    (hi : buflen ≤ i) : update r.buffer count ch i = buffer i := by
  rw [update_of_ne (by omega), h.inside i hi]

theorem Receiver.Kept.loop (h : r.Kept buflen buffer) (hmode : ∀ p, r.mode ≠ .done p)
    (hcount : count < buflen) (c : ℕ) : (r.loop buflen count c).Kept buflen buffer := by
  rw [Receiver.loop]
  split
  · refine ⟨h.inside, fun _ => h.dashes hmode, fun count' c' hm => ?_⟩
    obtain ⟨rfl, rfl⟩ := Mode.data.inj hm
    omega
  · exact ⟨fun i => h.write hcount 0, fun _ => h.dashes hmode, fun _ _ hm => by cases hm⟩

theorem Receiver.Kept.take (h : r.Kept buflen buffer) (hb : 0 < buflen) (ch : UInt8) :
    (r.take buflen ch).Kept buflen buffer := by
  rw [Receiver.take]
  cases hm : r.mode with
  | start =>
    dsimp only
    split
    · exact h.loop (by simp [hm]) hb 0
    · exact h
  | data count c =>
    have hroom := h.room count c hm
    have hmode : ∀ p, r.mode ≠ .done p := by simp [hm]
    dsimp only
    split
    · exact h.loop hmode hb 0
    split
    · exact ⟨fun i => h.write (by omega) 0, fun _ => h.dashes hmode, fun _ _ hm => by cases hm⟩
    · have hstored : { r with buffer := update r.buffer count ch }.Kept buflen buffer :=
        ⟨fun i => h.write (by omega) ch, h.dashes, h.room⟩
      exact hstored.loop hmode (by omega) _
  | digit₁ c => exact ⟨h.inside, fun _ => h.dashes (by simp [hm]), fun _ _ hm => by cases hm⟩
  | digit₂ c x =>
    dsimp only
    split
    · refine ⟨h.inside, fun _ b hmem => ?_, fun _ _ hm => by cases hm⟩
      rcases List.mem_append.mp hmem with hmem | hmem
      · exact h.dashes (by simp [hm]) b hmem
      · exact List.mem_singleton.mp hmem
    · rw [Receiver.accept]
      split
      · exact ⟨h.inside, fun hm => absurd rfl (hm 3), fun _ _ hm => by cases hm⟩
      · exact ⟨h.inside, fun hm => absurd rfl (hm 0), fun _ _ hm => by cases hm⟩
  | done p => exact h

theorem kept_getpacket (hb : 0 < buflen) (stream : List UInt8) :
    (getpacket buflen buffer stream).Kept buflen buffer := by
  induction stream using List.reverseRecOn with
  | nil => exact ⟨fun _ _ => rfl, by simp [getpacket], by simp [getpacket]⟩
  | append_singleton stream b ih =>
    rw [getpacket_append]
    exact ih.take hb b

/-- A packet begins after `pre`, and its payload up to now is `d`. -/
structure Begins (buflen : ℕ) (buffer : ℕ → UInt8) (pre d : List UInt8) : Prop where
  ready : (getpacket buflen buffer pre).Ready
  clean : Clean d
  room : d.length + 2 ≤ buflen

/-- What has been read, by the place where `getpacket` waits. -/
def Shape (buflen : ℕ) (buffer : ℕ → UInt8) (stream : List UInt8) : Mode → Prop
  | .start => True
  | .data count c => ∃ pre d, stream = pre ++ byte '$' :: d ∧ Begins buflen buffer pre d ∧
      count = d.length ∧ c = checksum d
  | .digit₁ c => ∃ pre d, stream = pre ++ byte '$' :: (d ++ [byte '#']) ∧
      Begins buflen buffer pre d ∧ c = checksum d
  | .digit₂ c x => ∃ pre d h₁, stream = pre ++ byte '$' :: (d ++ [byte '#', h₁]) ∧
      Begins buflen buffer pre d ∧ c = checksum d ∧ x = (char2hex (.ofUInt8 h₁) * 16 % 256).toNat
  | .done _ => ∃ pre d h₁ h₂ post, stream = pre ++ group d h₁ h₂ ++ post ∧
      Begins buflen buffer pre d ∧ checksum d = digits h₁ h₂

/-- A new packet. -/
theorem shape_start (h : (getpacket buflen buffer stream).Ready) :
    Shape buflen buffer (stream ++ [byte '$'])
      ((getpacket buflen buffer stream).loop buflen 0 0).mode := by
  rw [Receiver.loop]
  split
  · exact ⟨stream, [], rfl,
      ⟨h, ⟨List.not_mem_nil, List.not_mem_nil⟩, by rw [List.length_nil]; omega⟩, rfl, rfl⟩
  · trivial

/-- One more byte of the payload. -/
theorem shape_data {b : UInt8} (h : Begins buflen buffer pre d) (hdollar : b ≠ byte '$')
    (hhash : b ≠ byte '#') : Shape buflen buffer (pre ++ byte '$' :: d ++ [b])
      (r.loop buflen (d.length + 1) (addByte (checksum d) b)).mode := by
  rw [Receiver.loop]
  split
  · have hclean : Clean (d ++ [b]) := by
      simpa [Clean, hdollar.symm, hhash.symm] using h.clean
    refine ⟨pre, d ++ [b], by simp, ⟨h.ready, hclean, ?_⟩, by simp, ?_⟩
    · rw [List.length_append, List.length_singleton]
      omega
    · rw [checksum, checksum, List.foldl_append]
      rfl
  · trivial

theorem shape_getpacket (stream : List UInt8) :
    Shape buflen buffer stream (getpacket buflen buffer stream).mode := by
  induction stream using List.reverseRecOn with
  | nil => trivial
  | append_singleton stream b ih =>
    rw [getpacket_append, List.foldl_cons, List.foldl_nil, Receiver.take]
    cases hm : (getpacket buflen buffer stream).mode with
    | start =>
      dsimp only
      split
      · rename_i hdollar
        exact hdollar ▸ shape_start (.inl hm)
      · rw [hm]
        trivial
    | data count c =>
      rw [hm] at ih
      dsimp only
      split
      · rename_i hdollar
        exact hdollar ▸ shape_start (.inr ⟨count, c, hm⟩)
      obtain ⟨pre, d, rfl, hbegins, rfl, rfl⟩ := ih
      split
      · rename_i hhash
        exact ⟨pre, d, by simp [hhash], hbegins, rfl⟩
      · exact shape_data hbegins ‹_› ‹_›
    | digit₁ c =>
      rw [hm] at ih
      obtain ⟨pre, d, rfl, hbegins, rfl⟩ := ih
      exact ⟨pre, d, b, by simp, hbegins, rfl, rfl⟩
    | digit₂ c x =>
      rw [hm] at ih
      obtain ⟨pre, d, h₁, rfl, hbegins, rfl, rfl⟩ := ih
      dsimp only
      split
      · trivial
      · rename_i hsum
        have hdone : ∃ pre' d' h₁' h₂' post, pre ++ byte '$' :: (d ++ [byte '#', h₁]) ++ [b] =
            pre' ++ group d' h₁' h₂' ++ post ∧ Begins buflen buffer pre' d' ∧
              checksum d' = digits h₁' h₂' := by
          refine ⟨pre, d, h₁, b, [], by simp [group], hbegins, (not_not.mp hsum).trans ?_⟩
          rw [digits]
          omega
        rw [Receiver.accept]
        split
        · exact hdone
        · exact hdone
    | done p =>
      rw [hm] at ih
      obtain ⟨pre, d, h₁, h₂, post, rfl, hbegins, hsum⟩ := ih
      dsimp only
      rw [hm]
      exact ⟨pre, d, h₁, h₂, post ++ [b], by simp, hbegins, hsum⟩

/-! ## Which packets are accepted -/

/-- The check digits are hexadecimal digits, and their value is the sum of the payload modulo
256. -/
def Valid (d : List UInt8) (h₁ h₂ : UInt8) : Prop :=
  0 ≤ char2hex (.ofUInt8 h₁) ∧ 0 ≤ char2hex (.ofUInt8 h₂) ∧
    char2hex (.ofUInt8 h₁) * 16 + char2hex (.ofUInt8 h₂) = ((d.map UInt8.toNat).sum % 256 : ℕ)

theorem foldl_addByte (d : List UInt8) (c : ℕ) (hc : c < 256) :
    d.foldl addByte c = (c + (d.map UInt8.toNat).sum) % 256 := by
  induction d generalizing c with
  | nil => exact (Nat.mod_eq_of_lt hc).symm
  | cons b d ih =>
    have hlt : addByte c b < 256 := Nat.mod_lt _ (by decide)
    rw [List.foldl_cons, ih _ hlt, List.map_cons, List.sum_cons, addByte]
    omega

theorem checksum_eq (d : List UInt8) : checksum d = (d.map UInt8.toNat).sum % 256 := by
  rw [checksum, foldl_addByte d 0 (by decide), Nat.zero_add]

variable {h₁ h₂ : UInt8}

theorem valid_iff : Valid d h₁ h₂ ↔
    0 ≤ char2hex (.ofUInt8 h₁) ∧ 0 ≤ char2hex (.ofUInt8 h₂) ∧ checksum d = digits h₁ h₂ := by
  have hlt₁ := (char2hex_range (.ofUInt8 h₁)).1
  have hlt₂ := (char2hex_range (.ofUInt8 h₂)).1
  rw [Valid, checksum_eq, digits]
  refine and_congr_right fun _ => and_congr_right fun _ => ?_
  omega

/-- After it has returned, a call takes no more bytes. -/
theorem feed_done {p : ℕ} (h : r.mode = .done p) (bs : List UInt8) :
    bs.foldl (Receiver.take buflen) r = r := by
  induction bs with
  | nil => rfl
  | cons b bs ih =>
    have hone : r.take buflen b = r := by rw [Receiver.take, h]
    rw [List.foldl_cons, hone, ih]

/-- What is expected of `getpacket` on a stream. -/
structure Correct (buflen : ℕ) (buffer : ℕ → UInt8) (stream : List UInt8) : Prop where
  /-- it returns only a valid packet: the payload is in the buffer, and what is returned points to
  its start, or behind the sequence number -/
  returns : ∀ p, (getpacket buflen buffer stream).mode = .done p → ∃ pre d h₁ h₂ post,
    stream = pre ++ group d h₁ h₂ ++ post ∧ Begins buflen buffer pre d ∧ Valid d h₁ h₂ ∧
      IsString (getpacket buflen buffer stream).buffer 0 d ∧
      p = if (getpacket buflen buffer stream).buffer 2 = byte ':' then 3 else 0
  /-- a valid packet is acknowledged -/
  accepts : ∀ pre d h₁ h₂ post, stream = pre ++ group d h₁ h₂ ++ post → Begins buflen buffer pre d →
    Valid d h₁ h₂ → ∃ p seq, (getpacket buflen buffer (pre ++ group d h₁ h₂)).mode = .done p ∧
      (getpacket buflen buffer (pre ++ group d h₁ h₂)).sent =
        (getpacket buflen buffer pre).sent ++ byte '+' :: seq
  /-- every other complete packet is answered with `-` -/
  rejects : ∀ pre d h₁ h₂ post, stream = pre ++ group d h₁ h₂ ++ post → Begins buflen buffer pre d →
    ¬Valid d h₁ h₂ → (getpacket buflen buffer (pre ++ group d h₁ h₂)).mode = .start ∧
      (getpacket buflen buffer (pre ++ group d h₁ h₂)).sent = (getpacket buflen buffer pre).sent ++
        [byte '-']
  /-- a payload that is too long is skipped -/
  skips : ∀ pre d post, stream = pre ++ byte '$' :: d ++ post →
    (getpacket buflen buffer pre).Ready → Clean d → d.length + 1 = buflen →
    (getpacket buflen buffer (pre ++ byte '$' :: d)).mode = .start ∧
      (getpacket buflen buffer (pre ++ byte '$' :: d)).sent = (getpacket buflen buffer pre).sent
  /-- within a payload, a `$` begins anew -/
  restarts : ∀ pre d post, stream = pre ++ byte '$' :: d ++ post → Begins buflen buffer pre d →
    (getpacket buflen buffer (pre ++ byte '$' :: d)).Ready ∧
      (getpacket buflen buffer (pre ++ byte '$' :: d)).sent = (getpacket buflen buffer pre).sent
  dashes : (∀ p, (getpacket buflen buffer stream).mode ≠ .done p) →
    ∀ b ∈ (getpacket buflen buffer stream).sent, b = byte '-'
  inside : ∀ i, buflen ≤ i → (getpacket buflen buffer stream).buffer i = buffer i

/-- The condition: no complete packet passes with check digits that are none. -/
def Checked (buflen : ℕ) (buffer : ℕ → UInt8) (stream : List UInt8) : Prop :=
  ∀ pre d h₁ h₂ post, stream = pre ++ group d h₁ h₂ ++ post → Begins buflen buffer pre d →
    checksum d = digits h₁ h₂ → 0 ≤ char2hex (.ofUInt8 h₁) ∧ 0 ≤ char2hex (.ofUInt8 h₂)

theorem Begins.answer (h : Begins buflen buffer pre d) (h₁ h₂ : UInt8) :
    getpacket buflen buffer (pre ++ group d h₁ h₂) =
      (getpacket buflen buffer pre).answer d h₁ h₂ := by
  rw [getpacket_append, Receiver.feed_group h.ready h.clean h.room]

theorem answer_accept (hsum : checksum d = digits h₁ h₂) :
    ∃ p seq, (r.answer d h₁ h₂).mode = .done p ∧
      (r.answer d h₁ h₂).sent = r.sent ++ byte '+' :: seq := by
  rw [Receiver.answer, if_pos hsum, Receiver.accept]
  split
  · exact ⟨3, _, rfl, rfl⟩
  · exact ⟨0, [], rfl, rfl⟩

/-- The packet with which a call returns. -/
theorem getpacket_of_accept (post : List UInt8) (h : Begins buflen buffer pre d)
    (hsum : checksum d = digits h₁ h₂) :
    IsString (getpacket buflen buffer (pre ++ group d h₁ h₂ ++ post)).buffer 0 d ∧
      (getpacket buflen buffer (pre ++ group d h₁ h₂ ++ post)).mode = .done
        (if (getpacket buflen buffer (pre ++ group d h₁ h₂ ++ post)).buffer 2 = byte ':'
          then 3 else 0) := by
  obtain ⟨p, -, hdone, -⟩ := answer_accept (r := getpacket buflen buffer pre) hsum
  rw [getpacket_append _ post, h.answer, feed_done hdone, Receiver.answer, if_pos hsum,
    Receiver.accept]
  have hstring := filled_isString (getpacket buflen buffer pre).buffer d
  split
  · exact ⟨hstring, rfl⟩
  · exact ⟨hstring, rfl⟩

theorem answer_reject (hsum : checksum d ≠ digits h₁ h₂) :
    (r.answer d h₁ h₂).mode = .start ∧ (r.answer d h₁ h₂).sent = r.sent ++ [byte '-'] := by
  rw [Receiver.answer, if_neg hsum]
  exact ⟨rfl, rfl⟩

/-- **Check digits that are none.**  On every stream, `getpacket` returns only a valid packet,
answers every other complete packet with `-`, skips what is too long or restarted, and keeps to its
buffer, if and only if no packet passes the comparison with check digits that are not hexadecimal:
`-1` stands for such a digit. -/
theorem getpacket_correct_iff (hb : 0 < buflen) (buffer : ℕ → UInt8) (stream : List UInt8) :
    Correct buflen buffer stream ↔ Checked buflen buffer stream := by
  constructor
  · intro h pre d h₁ h₂ post hstream hbegins hsum
    by_contra hno
    have hinvalid : ¬Valid d h₁ h₂ := fun hv => hno ⟨hv.1, hv.2.1⟩
    have hstart := (h.rejects pre d h₁ h₂ post hstream hbegins hinvalid).1
    obtain ⟨p, -, hdone, -⟩ := answer_accept (r := getpacket buflen buffer pre) hsum
    rw [hbegins.answer, hdone] at hstart
    cases hstart
  · intro h
    have hkept : (getpacket buflen buffer stream).Kept buflen buffer := kept_getpacket hb stream
    refine ⟨fun p hp => ?_, ?_, ?_, ?_, ?_, hkept.dashes, hkept.inside⟩
    · have hshape : Shape buflen buffer stream _ := shape_getpacket stream
      rw [hp] at hshape
      obtain ⟨pre, d, h₁, h₂, post, hstream, hbegins, hsum⟩ := hshape
      obtain ⟨hhex₁, hhex₂⟩ := h pre d h₁ h₂ post hstream hbegins hsum
      obtain ⟨hstring, hmode⟩ := getpacket_of_accept post hbegins hsum
      rw [← hstream] at hstring hmode
      exact ⟨pre, d, h₁, h₂, post, hstream, hbegins, valid_iff.mpr ⟨hhex₁, hhex₂, hsum⟩, hstring,
        Mode.done.inj (hp.symm.trans hmode)⟩
    · intro pre d h₁ h₂ post _ hbegins hv
      rw [hbegins.answer]
      exact answer_accept (valid_iff.mp hv).2.2
    · intro pre d h₁ h₂ post hstream hbegins hv
      rw [hbegins.answer]
      refine answer_reject fun hsum => hv ?_
      obtain ⟨hhex₁, hhex₂⟩ := h pre d h₁ h₂ post hstream hbegins hsum
      exact valid_iff.mpr ⟨hhex₁, hhex₂, hsum⟩
    · intro pre d post _ hready hclean hlen
      obtain ⟨buffer', hr⟩ := Receiver.feed_long hready hclean hlen
      rw [getpacket_append, hr]
      exact ⟨rfl, rfl⟩
    · intro pre d post _ hbegins
      rw [getpacket_append, Receiver.feed_cut hbegins.ready hbegins.clean hbegins.room]
      exact ⟨.inr ⟨_, _, rfl⟩, rfl⟩

theorem getpacket_correct_iff_frame : Correct 4096 (fun _ => 0) (frame [byte 'g']) := by
  refine (getpacket_correct_iff (by decide) _ _).mpr fun pre d h₁ h₂ post hstream hbegins _ => ?_
  have hframe : frame [byte 'g'] = [byte '$', byte 'g', byte '#', byte '6', byte '7'] := by decide
  rw [hframe] at hstream
  -- there is one `$`, and the payload ends at the first `#`
  cases pre with
  | cons b pre =>
    obtain ⟨-, hrest⟩ := List.cons.inj hstream
    have hmem : byte '$' ∈ [byte 'g', byte '#', byte '6', byte '7'] := by simp [hrest, group]
    exact absurd hmem (by decide)
  | nil =>
    obtain ⟨-, hrest⟩ := List.cons.inj hstream
    match d with
    | [] => exact absurd (List.cons.inj hrest).1 (by decide)
    | [b] =>
      simp only [List.cons_append, List.nil_append] at hrest
      obtain ⟨-, -, rfl, rfl, -⟩ := hrest
      decide
    | b :: b' :: d =>
      obtain ⟨-, hrest⟩ := List.cons.inj hrest
      have hb : byte '#' = b' := (List.cons.inj hrest).1
      exact absurd hbegins.clean.2 (by simp [hb])

/-- The letters `z` are no digits, but `-17` is the sum of `w` and `x` modulo 256. -/
theorem getpacket_takes_letters :
    (getpacket 4096 (fun _ => 0) (group [byte 'w', byte 'x'] (byte 'z') (byte 'z'))).mode =
      .done 0 ∧ char2hex (.ofUInt8 (byte 'z')) = -1 := by
  decide

/-! ## There and back -/

variable {w : List UInt8}

theorem payload_eq {junk : List UInt8} (hw : 0 ∉ w) : payload (w ++ 0 :: junk) = w := by
  rw [payload, List.takeWhile_append_of_pos]
  · simp
  · intro b hb
    simpa using ne_of_mem_of_not_mem hb hw

theorem putpacket_frame {buffer : List UInt8} : ∀ {answers bytes : List UInt8},
    putpacket buffer answers = some bytes → ∃ rest, bytes = frame (payload buffer) ++ rest
  | [], _, h => by cases h
  | ch :: answers, bytes, h => by
    rw [putpacket] at h
    split at h
    · exact ⟨[], by simpa using h.symm⟩
    · obtain ⟨rest, -, rfl⟩ := Option.map_eq_some_iff.mp h
      exact ⟨rest, rfl⟩

theorem frame_eq (w : List UInt8) :
    ∃ h₁ h₂, frame w = group w h₁ h₂ ∧ checksum w = digits h₁ h₂ := by
  have hdigits : ∀ n < 256, n = digits (hexchar (n / 16)) (hexchar (n % 16)) := by decide +kernel
  refine ⟨_, _, rfl, hdigits _ ?_⟩
  rw [checksum_eq]
  exact Nat.mod_lt _ (by decide)

theorem filled_of_lt (hi : w.length < i) : filled buffer w i = buffer i := by
  rw [filled, update_of_ne (by omega), store_of_notMem (.inr (by omega))]

/-- What `getpacket` reads for a sequence number. -/
theorem filled_colon_iff (hcolon : w[2]? ≠ some (byte ':')) :
    filled buffer w 2 = byte ':' ↔ w.length < 2 ∧ buffer 2 = byte ':' := by
  rcases lt_trichotomy w.length 2 with hlt | heq | hgt
  · rw [filled_of_lt hlt, and_iff_right hlt]
  · have hend := (filled_isString buffer w).2
    rw [Nat.zero_add, heq] at hend
    rw [hend]
    exact iff_of_false (by decide) fun h => absurd h.1 (by omega)
  · have hat := (filled_isString buffer w).1 2 w[2] (List.getElem?_eq_getElem hgt)
    rw [Nat.zero_add] at hat
    rw [hat]
    refine iff_of_false (fun h => hcolon ?_) fun h => absurd h.1 (by omega)
    rw [List.getElem?_eq_getElem hgt, h]

/-- The call that gets what `putpacket` sends. -/
theorem getpacket_put {junk answers bytes : List UInt8} (hlen : w.length ≤ 4094) (hclean : Clean w)
    (hnul : 0 ∉ w) (hput : putpacket (w ++ 0 :: junk) answers = some bytes) (buffer : ℕ → UInt8) :
    ∃ r : Receiver, r.buffer = filled buffer w ∧ getpacket 4096 buffer bytes = r.accept := by
  obtain ⟨rest, rfl⟩ := putpacket_frame hput
  obtain ⟨h₁, h₂, hframe, hsum⟩ := frame_eq w
  have hbegins : Begins 4096 buffer [] w := ⟨.inl rfl, hclean, by omega⟩
  have hanswer := hbegins.answer h₁ h₂
  obtain ⟨p, -, hdone, -⟩ := answer_accept (r := getpacket 4096 buffer []) hsum
  rw [List.nil_append] at hanswer
  rw [payload_eq hnul, hframe, getpacket_append, hanswer, feed_done hdone, Receiver.answer,
    if_pos hsum]
  exact ⟨_, rfl, rfl⟩

/-- **A stale sequence number.**  For every payload without `$`, `#`, a zero byte and a `:` at index
2, and every previous content of the buffer, what `putpacket` sends makes `getpacket` return this
payload if and only if it has two bytes, or the buffer had no `:` at index 2, or the payload happens
to stand behind it already. -/
theorem roundTrip_iff {w junk answers bytes : List UInt8} (hlen : w.length ≤ 4094)
    (hclean : Clean w) (hnul : 0 ∉ w) (hcolon : w[2]? ≠ some (byte ':'))
    (hput : putpacket (w ++ 0 :: junk) answers = some bytes) (buffer : ℕ → UInt8) :
    (∃ p, (getpacket 4096 buffer bytes).mode = .done p ∧
      IsString (getpacket 4096 buffer bytes).buffer p w) ↔
      2 ≤ w.length ∨ buffer 2 ≠ byte ':' ∨ IsString buffer 3 w := by
  obtain ⟨r, hbuffer, hr⟩ := getpacket_put hlen hclean hnul hput buffer
  have hiff : filled buffer w 2 = byte ':' ↔ _ := filled_colon_iff hcolon
  rw [hr, Receiver.accept, hbuffer]
  by_cases hstale : filled buffer w 2 = byte ':'
  · obtain ⟨hshort, hold⟩ := hiff.mp hstale
    have hsame : IsString (filled buffer w) 3 w ↔ IsString buffer 3 w := by
      have hbehind (k : ℕ) : filled buffer w (3 + k) = buffer (3 + k) := filled_of_lt (by omega)
      simp only [IsString, hbehind]
    rw [if_pos hstale]
    constructor
    · rintro ⟨p, hp, hstring⟩
      obtain rfl := Mode.done.inj hp
      exact .inr (.inr (hsame.mp (hbuffer ▸ hstring)))
    · rintro (h | h | h)
      · omega
      · exact absurd hold h
      · exact ⟨3, rfl, hbuffer ▸ hsame.mpr h⟩
  · rw [if_neg hstale]
    refine iff_of_true ⟨0, rfl, hbuffer ▸ filled_isString buffer w⟩ ?_
    by_cases hold : buffer 2 = byte ':'
    · exact .inl (not_lt.mp fun hshort => hstale (hiff.mpr ⟨hshort, hold⟩))
    · exact .inr (.inl hold)

/-- The packet `g`, into a buffer of zeros. -/
theorem roundTrip_iff_g : ∃ bytes, putpacket [byte 'g', 0] [byte '+'] = some bytes ∧
    ∃ p, (getpacket 4096 (fun _ => 0) bytes).mode = .done p ∧
      IsString (getpacket 4096 (fun _ => 0) bytes).buffer p [byte 'g'] := by
  have hclean : Clean [byte 'g'] := ⟨by decide, by decide⟩
  have hput : putpacket ([byte 'g'] ++ 0 :: []) [byte '+'] = some (frame [byte 'g']) := rfl
  exact ⟨_, hput,
    (roundTrip_iff (by decide) hclean (by decide) (by decide) hput _).mpr (.inr (.inl (by decide)))⟩

/-- The packet `g` after a packet with a `:` at index 2: it is taken for the text behind the `:`. -/
theorem roundTrip_stale : ∃ first second : Receiver,
    first = getpacket 4096 (fun _ => 0) (frame ("vX:12".toList.map byte)) ∧
      second = getpacket 4096 first.buffer (frame [byte 'g']) ∧
      second.mode = .done 3 ∧ second.buffer 3 = byte '1' :=
  ⟨_, _, rfl, rfl, by decide, by decide⟩

end Streams

end Gdb

end Kos
