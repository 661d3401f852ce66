import LoPhi.Lib.Interaction
import LoPhi.Server.Relay
import Mathlib.Data.Nat.Count

/-! # The end of a guest's connection

The loops of `hypervisor_connection` that read a packet add what `read` returns to `bytes_read`
without looking at it. After the last byte of the guest `read` returns 0 or -1: a 0 changes nothing,
and a -1 takes one from the count. `bytes_read` is an `int`; the loop over the header compares it
as an unsigned number, which -1 ends, and the loop over the content as a signed one, which ends
only where it wraps around. -/

namespace LoPhi.Server.Disconnect
open LoPhi.Lib.Interaction LoPhi.Server.Relay

/-- A number as an `int`. -/
def wrap32 (x : Int) : Int := (x + 2 ^ 31) % 2 ^ 32 - 2 ^ 31

/-- An `int` as a `size_t`. -/
def asSize (x : Int) : Int := x % 2 ^ 64

/-- The loops over the header and over the content of a packet. -/
inductive Loop where
  | header
  | body (packetSize : Int)

/-- Where the thread reads: at the head of its outer loop, or in one of the others. -/
inductive Place where
  | top
  | inner (l : Loop)

/-- The thread. `ends` counts the reads that met the end of the connection and is not in the
source. -/
structure Thread where
  place : Place
  bytesRead : Int
  buffer : List UInt8
  pos : Nat
  ends : Nat

/-- The bytes the buffer has after `got` was read to an offset. -/
def overwrite (buffer : List UInt8) (offset : Nat) (got : List UInt8) : List UInt8 :=
  buffer.take offset ++ got ++ buffer.drop (offset + got.length)

/-- The value of `read`. -/
def returned : Option (List UInt8) → Int
  | none => -1
  | some got => got.length

/-- The thread after a `read` at `buffer + offset`. -/
def Thread.store (t : Thread) (offset : Nat) (result : Option (List UInt8)) (bytesRead : Int) :
    Thread :=
  { t with
    bytesRead := bytesRead
    buffer := overwrite t.buffer offset (result.getD [])
    pos := t.pos + (result.getD []).length
    ends := if returned result ≤ 0 then t.ends + 1 else t.ends }

/-- From the condition of the loop over the content on. Forwarding the packet neither reads nor
changes the buffer. -/
def body (packetSize : Int) (t : Thread) : Progress Thread Unit :=
  if t.bytesRead < packetSize then .waiting { t with place := .inner (.body packetSize) }
  else .waiting { t with place := .top }

/-- From the condition of an inner loop on, up to the next `read` or to the cleanup. -/
def advance : Loop → Thread → Progress Thread Unit
  | .header, t =>
    -- `sizeof` makes the comparison unsigned
    if asSize t.bytesRead < headerSize then .waiting { t with place := .inner .header }
    else if (parseHeader t.buffer).check.isSome then .ended ()
    else body (parseHeader t.buffer).packetSize t
  | .body packetSize, t => body packetSize t

/-- What the thread does with the value of a `read`, up to the next or to the cleanup. -/
def step (t : Thread) (result : Option (List UInt8)) : Progress Thread Unit :=
  match t.place with
  | .top =>
    if returned result > 0 then advance .header (t.store 0 result (returned result))
    else .ended ()
  | .inner l =>
    -- the sum is a `long`, and an `int` keeps the low half of it
    advance l (t.store t.bytesRead.toNat result (wrap32 (t.bytesRead + returned result)))

/-- How many bytes the thread asks for. -/
def Thread.asked (t : Thread) : Int :=
  match t.place with
  | .top => headerSize
  | .inner .header => headerSize - t.bytesRead
  | .inner (.body packetSize) => packetSize - t.bytesRead

/-- `read`: some of the bytes that are left, and after them 0, or -1 if it fails. -/
def read (g : Guest) (fails : Nat → Bool) (t : Thread) : Option (List UInt8) :=
  if t.pos < g.stream.length then
    some ((g.stream.drop t.pos).take (min t.asked.toNat (max 1 (g.chunk t.pos))))
  else if fails t.ends then none else some []

/-- The thread after the meta data of its guest. The buffer holds what was there before. -/
def start (buffer : List UInt8) : Thread :=
  { place := .top, bytesRead := 0, buffer := buffer, pos := 0, ends := 0 }

/-- The thread reaches its cleanup. -/
def Ends (g : Guest) (fails : Nat → Bool) (buffer : List UInt8) : Prop :=
  Reaches step (read g fails) (.waiting (start buffer)) (.ended ())

/-- The buffer after some bytes were read to its beginning. -/
def held (buffer bytes : List UInt8) : List UInt8 := overwrite buffer 0 bytes

/-- The number of reads that must fail after the last byte: none between packets and after a header
that is refused; else as many as it takes to count `bytes_read` down. A header that the old
content of the buffer completes is looked at like any other. -/
def needed (buffer stream : List UInt8) : Nat :=
  if stream = [] then 0
  else if stream.length < headerSize then
    if (parseHeader (held buffer stream)).check.isSome ∨
        (parseHeader (held buffer stream)).packetSize < 0 then stream.length + 1
    else stream.length + 1 + 2 ^ 31
  else if (parseHeader stream).check.isSome then 0
  else if stream.length < (parseHeader stream).packetSize then stream.length + (2 ^ 31 + 1)
  else
    needed (held buffer (stream.take (max headerSize (parseHeader stream).packetSize.toNat)))
      (stream.drop (max headerSize (parseHeader stream).packetSize.toNat))
termination_by stream.length
decreasing_by
  rename_i _ hlen _ _
  unfold headerSize at hlen ⊢
  rw [List.length_drop]
  omega

/-! ## While there are bytes -/

/-- What is read behind the bytes that were read. -/
theorem overwrite_held (buffer bytes got : List UInt8) :
    overwrite (held buffer bytes) bytes.length got = held buffer (bytes ++ got) := by
  simp only [held, overwrite, List.take_zero, List.nil_append, Nat.zero_add]
  rw [List.take_left, ← List.drop_drop, List.drop_left, List.drop_drop, List.length_append,
    List.append_assoc]

theorem parseHeader_take {bytes : List UInt8} (h : headerSize ≤ bytes.length) :
    parseHeader (bytes.take headerSize) = parseHeader bytes := by
  have hlen : (bytes.take headerSize).length = headerSize := by
    rw [List.length_take, Nat.min_eq_left h]
  rw [← parseHeader_append hlen (bytes.drop headerSize), List.take_append_drop]

/-- A complete header is not affected by what was in the buffer. -/
theorem parseHeader_held {buffer bytes : List UInt8} (h : headerSize = bytes.length) :
    parseHeader (held buffer bytes) = parseHeader bytes :=
  parseHeader_append h.symm _

/-- The thread when it has read `bytes` of a packet. -/
def reading (buffer bytes : List UInt8) (pos : Nat) : Thread :=
  { place := .top, bytesRead := bytes.length, buffer := held buffer bytes, pos := pos, ends := 0 }

/-- Where a loop wants to come to. -/
def Loop.target : Loop → Int
  | .header => headerSize
  | .body packetSize => packetSize

theorem wrap32_eq {x : Int} (hlow : -2 ^ 31 ≤ x) (hhigh : x < 2 ^ 31) : wrap32 x = x := by
  unfold wrap32
  omega

theorem asked_inner (t : Thread) (l : Loop) :
    ({ t with place := .inner l } : Thread).asked = l.target - t.bytesRead := by
  cases l with
  | header => rfl
  | body packetSize => rfl

/-- A loop does not look at where the thread was. -/
theorem advance_place (l : Loop) (t : Thread) (place : Place) :
    advance l { t with place := place } = advance l t := by
  cases l with
  | header => rfl
  | body packetSize => rfl

theorem advance_more {l : Loop} {t : Thread} (hnonneg : 0 ≤ t.bytesRead)
    (hmore : t.bytesRead < l.target) (hlimit : l.target < 2 ^ 31) :
    advance l t = .waiting { t with place := .inner l } := by
  cases l with
  | header =>
    refine if_pos ?_
    have htarget : t.bytesRead < (headerSize : Int) := hmore
    unfold asSize
    unfold headerSize at htarget ⊢
    omega
  | body packetSize => exact if_pos hmore

/-- Some of what is taken, and the rest of it. -/
theorem take_take_drop {xs : List UInt8} {count total : Nat} (h : count ≤ total) :
    xs.take count ++ (xs.drop count).take (total - (xs.take count).length) = xs.take total := by
  by_cases hlen : count ≤ xs.length
  · rw [List.length_take, Nat.min_eq_left hlen, ← List.take_add, Nat.add_sub_cancel' h]
  · rw [List.drop_of_length_le (by omega), List.take_nil, List.append_nil,
      List.take_of_length_le (by omega), List.take_of_length_le (by omega)]

section Data
variable {g : Guest} {fails : Nat → Bool} {before rest : List UInt8}

/-- A `read` while there are bytes. -/
theorem read_data (fails : Nat → Bool) {t : Thread} (hstream : g.stream = before ++ rest)
    (hrest : rest ≠ []) (hpos : t.pos = before.length) {asked : Nat} (hasked : t.asked = asked) :
    read g fails t = some (rest.take (min asked (max 1 (g.chunk before.length)))) := by
  have hlen := List.length_pos_of_ne_nil hrest
  unfold read
  rw [if_pos (by rw [hstream, List.length_append]; omega), hpos, hstream, List.drop_left, hasked]
  rfl

/-- What some bytes do to a loop. -/
theorem step_data (l : Loop) (buffer bytes : List UInt8) (pos : Nat) {got : List UInt8}
    (hgot : got ≠ []) (hlimit : (bytes ++ got).length < 2 ^ 31) :
    step { reading buffer bytes pos with place := .inner l } (some got) =
      advance l (reading buffer (bytes ++ got) (pos + got.length)) := by
  have hlen := List.length_pos_of_ne_nil hgot
  have hpos : ¬ returned (some got) ≤ 0 := by
    show ¬ (got.length : Int) ≤ 0
    omega
  have hwrap : wrap32 ((bytes.length : Int) + got.length) = ((bytes ++ got).length : Int) := by
    rw [wrap32_eq (by omega) (by rw [List.length_append] at hlimit; omega), List.length_append]
    rfl
  refine Eq.trans ?_ (advance_place l (reading buffer (bytes ++ got) (pos + got.length)) (.inner l))
  refine congrArg (advance l) ?_
  unfold Thread.store
  rw [if_neg hpos]
  simp only [reading, returned, Option.getD_some, Int.toNat_natCast, overwrite_held, hwrap]

/-- An inner loop reads up to its target, or all there is. -/
theorem fill_reaches (fails : Nat → Bool) {l : Loop} {target : Nat} (htarget : l.target = target)
    (hlimit : target < 2 ^ 31) (buffer bytes : List UInt8) (hstream : g.stream = before ++ rest) :
    Reaches step (read g fails) (advance l (reading buffer bytes before.length))
      (advance l (reading buffer (bytes ++ rest.take (target - bytes.length))
        (before ++ rest.take (target - bytes.length)).length)) := by
  induction hn : min (target - bytes.length) rest.length using Nat.strong_induction_on
    generalizing before rest bytes with
  | _ n ih =>
    by_cases hnone : rest.take (target - bytes.length) = []
    · rw [hnone, List.append_nil, List.append_nil]
      exact .refl _
    · have hleft := List.length_pos_of_ne_nil hnone
      rw [List.length_take] at hleft
      have hrest : rest ≠ [] := List.ne_nil_of_length_pos (by omega)
      have hmore : advance l (reading buffer bytes before.length) =
          .waiting { reading buffer bytes before.length with place := .inner l } := by
        refine advance_more (Int.natCast_nonneg _) ?_ ?_
        · rw [htarget]
          exact (by omega : (bytes.length : Int) < target)
        · rw [htarget]
          exact (by omega : (target : Int) < 2 ^ 31)
      have hasked : ({ reading buffer bytes before.length with place := .inner l } : Thread).asked =
          (target - bytes.length : Nat) := by
        rw [asked_inner, htarget]
        exact (by omega : (target : Int) - bytes.length = (target - bytes.length : Nat))
      have hread := read_data fails hstream hrest rfl hasked
      generalize hcount : min (target - bytes.length) (max 1 (g.chunk before.length)) = count
        at hread
      have hlen : (rest.take count).length = min count rest.length := List.length_take
      have hgot : rest.take count ≠ [] := List.ne_nil_of_length_pos (by omega)
      have hstep := step_data l buffer bytes before.length hgot
        (by rw [List.length_append]; omega)
      rw [← List.length_append] at hstep
      have hleftover : target - (bytes ++ rest.take count).length =
          target - bytes.length - (rest.take count).length := by
        rw [List.length_append, Nat.sub_sub]
      have hlater := @ih (min (target - (bytes ++ rest.take count).length) (rest.drop count).length)
        (by rw [List.length_append, List.length_drop]; omega) (before ++ rest.take count)
        (rest.drop count) (bytes ++ rest.take count)
        (by rw [List.append_assoc, List.take_append_drop, hstream]) rfl
      rw [hleftover, List.append_assoc bytes, List.append_assoc before,
        take_take_drop (by omega)] at hlater
      rw [hmore]
      refine Reaches.trans (Reaches.next _) ?_
      rw [hread, hstep]
      exact hlater

/-- The head of the outer loop and the loop over the header read a header, or all there is. -/
theorem top_reaches (fails : Nat → Bool) (hstream : g.stream = before ++ rest) (hrest : rest ≠ [])
    (buffer : List UInt8) :
    Reaches step (read g fails) (.waiting (reading buffer [] before.length))
      (advance .header (reading buffer (rest.take headerSize)
        (before ++ rest.take headerSize).length)) := by
  have hpos := List.length_pos_of_ne_nil hrest
  have hasked : (reading buffer [] before.length).asked = (headerSize : Nat) := rfl
  have hread := read_data fails hstream hrest rfl hasked
  generalize hcount : min headerSize (max 1 (g.chunk before.length)) = count at hread
  have hlen : (rest.take count).length = min count rest.length := List.length_take
  have hsmall : count ≤ headerSize := by omega
  have hgot : rest.take count ≠ [] := List.ne_nil_of_length_pos (by unfold headerSize at *; omega)
  have hstep : step (reading buffer [] before.length) (some (rest.take count)) =
      advance .header (reading buffer (rest.take count) (before ++ rest.take count).length) := by
    have hmany : returned (some (rest.take count)) > 0 := by
      have := List.length_pos_of_ne_nil hgot
      show ((rest.take count).length : Int) > 0
      omega
    refine (if_pos hmany).trans (congrArg (advance .header) ?_)
    unfold Thread.store
    rw [if_neg (not_le.mpr hmany), List.length_append]
    rfl
  have hsplit : g.stream = (before ++ rest.take count) ++ rest.drop count := by
    rw [List.append_assoc, List.take_append_drop, hstream]
  have htarget : Loop.header.target = (headerSize : Nat) := rfl
  have hfill := fill_reaches fails htarget (by decide) buffer (rest.take count) hsplit
  rw [List.append_assoc before, take_take_drop hsmall] at hfill
  refine Reaches.trans (Reaches.next _) ?_
  rw [hread, hstep]
  exact hfill

end Data

/-! ## After the last byte -/

/-- How many of the first `m` reads after the last byte fail. -/
def failures (fails : Nat → Bool) (m : Nat) : Nat := Nat.count (fun k => fails k = true) m

theorem failures_succ (fails : Nat → Bool) (m : Nat) :
    failures fails (m + 1) = failures fails m + if fails m then 1 else 0 := Nat.count_succ _ m

theorem failures_mono (fails : Nat → Bool) {m n : Nat} (h : m ≤ n) :
    failures fails m ≤ failures fails n := Nat.count_monotone _ h

/-- The loop goes on. -/
def Loop.wants : Loop → Int → Prop
  | .header, bytesRead => asSize bytesRead < headerSize
  | .body packetSize, bytesRead => bytesRead < packetSize

theorem advance_wants {l : Loop} {t : Thread} (h : l.wants t.bytesRead) :
    advance l t = .waiting { t with place := .inner l } := by
  cases l with
  | header => exact if_pos h
  | body packetSize => exact if_pos h

theorem overwrite_nil (buffer : List UInt8) (offset : Nat) :
    overwrite buffer offset [] = buffer := by
  rw [overwrite, List.append_nil, List.length_nil, Nat.add_zero, List.take_append_drop]

section End
variable {g : Guest} {fails : Nat → Bool} {t : Thread}

theorem read_end (h : g.stream.length ≤ t.pos) :
    read g fails t = if fails t.ends then none else some [] := if_neg (Nat.not_lt.mpr h)

/-- At the head of the outer loop the thread leaves it. -/
theorem top_ends (h : g.stream.length ≤ t.pos) (hplace : t.place = .top) :
    Reaches step (read g fails) (.waiting t) (.ended ()) := by
  have hstep : step t (read g fails t) = .ended () := by
    unfold step
    rw [read_end h, hplace]
    cases fails t.ends with
    | true => rfl
    | false => rfl
  rw [← hstep]
  exact Reaches.next t

/-- In an inner loop a `read` counts down if it fails, and else changes nothing. -/
theorem step_end {l : Loop} (h : g.stream.length ≤ t.pos) (hplace : t.place = .inner l) :
    step t (read g fails t) = advance l { t with
      bytesRead := wrap32 (t.bytesRead - if fails t.ends then 1 else 0)
      ends := t.ends + 1 } := by
  rw [read_end h]
  obtain ⟨place, bytesRead, buffer, pos, ends⟩ := t
  obtain rfl : place = .inner l := hplace
  refine congrArg (advance l) ?_
  unfold Thread.store
  dsimp only
  cases fails ends with
  | true => simp [returned, overwrite_nil, Int.sub_eq_add_neg]
  | false => simp [returned, overwrite_nil]

/-- The thread when it has met the end of the connection `m` times. -/
def Thread.drained (t : Thread) (fails : Nat → Bool) (m : Nat) : Thread :=
  { t with
    bytesRead := t.bytesRead - (failures fails m - failures fails t.ends : Nat)
    ends := m }

theorem drained_self (t : Thread) (fails : Nat → Bool) : t.drained fails t.ends = t := by
  unfold Thread.drained
  rw [Nat.sub_self, Int.ofNat_zero, Int.sub_zero]

/-- One more `read`. -/
theorem drained_step {l : Loop} {m : Nat} (hpos : g.stream.length ≤ t.pos)
    (hplace : t.place = .inner l) (hm : t.ends ≤ m) :
    step (t.drained fails m) (read g fails (t.drained fails m)) =
      advance l { t.drained fails (m + 1) with
        bytesRead := wrap32 (t.drained fails (m + 1)).bytesRead } := by
  have hstep : step (t.drained fails m) (read g fails (t.drained fails m)) = _ :=
    step_end hpos hplace
  have hmono := failures_mono fails hm
  have hcount : (t.drained fails m).bytesRead - (if fails (t.drained fails m).ends then 1 else 0) =
      (t.drained fails (m + 1)).bytesRead := by
    unfold Thread.drained
    dsimp only
    rw [failures_succ]
    split <;> omega
  rw [hstep, hcount]
  rfl

section Drain
variable {l : Loop} {need : Nat} (hpos : g.stream.length ≤ t.pos) (hplace : t.place = .inner l)
  (hwants : ∀ c : Nat, c < need → l.wants (t.bytesRead - c) ∧
    -2 ^ 31 ≤ t.bytesRead - c ∧ t.bytesRead - c < 2 ^ 31)
include hpos hplace hwants

/-- While too few reads have failed the thread stays in the loop. -/
theorem drain_stays {j : Nat} (hj : failures fails (t.ends + j) < failures fails t.ends + need) :
    after step (fun _ => read g fails) (.waiting t) j =
      .waiting (t.drained fails (t.ends + j)) := by
  induction j with
  | zero =>
    rw [Nat.add_zero, drained_self]
    rfl
  | succ j ih =>
    have hmono := failures_mono fails (Nat.le_add_right t.ends j)
    have hnext := failures_mono fails (Nat.le_add_right (t.ends + j) 1)
    rw [← Nat.add_assoc] at hj ⊢
    rw [after_waiting (ih (Nat.lt_of_le_of_lt hnext hj)),
      drained_step hpos hplace (Nat.le_add_right t.ends j)]
    obtain ⟨hmore, hlow, hhigh⟩ :=
      hwants (failures fails (t.ends + j + 1) - failures fails t.ends) (by omega)
    have hwrap : wrap32 (t.drained fails (t.ends + j + 1)).bytesRead =
        (t.drained fails (t.ends + j + 1)).bytesRead := wrap32_eq hlow hhigh
    rw [hwrap]
    have hadvance := advance_wants (t := t.drained fails (t.ends + j + 1)) hmore
    rw [← hplace] at hadvance
    exact hadvance

/-- When enough of them have failed it leaves the loop. -/
theorem drain_leaves (hneed : 0 < need)
    (h : ∃ m, failures fails t.ends + need ≤ failures fails m) :
    ∃ m, failures fails m = failures fails t.ends + need ∧
      Reaches step (read g fails) (.waiting t) (advance l { t with
        bytesRead := wrap32 (t.bytesRead - need)
        ends := m }) := by
  -- the read that makes the count full is the first one after which it is
  have hfull := Nat.find_spec h
  have hfirst := fun m => Nat.find_min (m := m) h
  generalize Nat.find h = m at hfull hfirst
  have hlater : t.ends < m := by
    by_contra hle
    have hmono := failures_mono fails (Nat.le_of_not_lt hle)
    omega
  obtain ⟨j, rfl⟩ := Nat.exists_eq_add_of_lt hlater
  have hbefore := Nat.lt_of_not_le (hfirst (t.ends + j) (by omega))
  have hsucc := failures_succ fails (t.ends + j)
  have hexact : failures fails (t.ends + j + 1) = failures fails t.ends + need := by
    split at hsucc <;> omega
  refine ⟨t.ends + j + 1, hexact, j + 1, ?_⟩
  rw [after_waiting (drain_stays hpos hplace hwants hbefore),
    drained_step hpos hplace (Nat.le_add_right t.ends j)]
  unfold Thread.drained
  rw [hexact, Nat.add_sub_cancel_left]

/-- So whether the thread ends is decided by the number of failures, and by what is after the
loop. -/
theorem drain_iff (extra : Nat) (hneed : 0 < need)
    (hexit : ∀ m, failures fails m = failures fails t.ends + need →
      (Reaches step (read g fails) (advance l { t with
          bytesRead := wrap32 (t.bytesRead - need)
          ends := m }) (.ended ()) ↔
        ∃ n, failures fails t.ends + need + extra ≤ failures fails n)) :
    Reaches step (read g fails) (.waiting t) (.ended ()) ↔
      ∃ n, failures fails t.ends + need + extra ≤ failures fails n := by
  by_cases h : ∃ m, failures fails t.ends + need ≤ failures fails m
  · obtain ⟨m, hm, hleaves⟩ := drain_leaves hpos hplace hwants hneed h
    rw [hleaves.ended_iff]
    exact hexit m hm
  · have hfew : ∀ m, failures fails m < failures fails t.ends + need := by
      intro m
      by_contra hm
      exact h ⟨m, Nat.le_of_not_lt hm⟩
    refine iff_of_false ?_ ?_
    · rintro ⟨n, hn⟩
      rw [drain_stays hpos hplace hwants (hfew _)] at hn
      cases hn
    · rintro ⟨n, hn⟩
      have := hfew n
      omega

end Drain

/-- In the middle of a packet `bytes_read` has to wrap around. -/
theorem body_iff {packetSize : Int} (hpos : g.stream.length ≤ t.pos)
    (hplace : t.place = .inner (.body packetSize)) (hlow : -1 ≤ t.bytesRead)
    (hmore : t.bytesRead < packetSize) (hlimit : packetSize ≤ bufferSize) :
    Reaches step (read g fails) (.waiting t) (.ended ()) ↔
      ∃ n, failures fails t.ends + (t.bytesRead + (2 ^ 31 + 1)).toNat ≤ failures fails n := by
  unfold bufferSize maxBytesSent headerSize at hlimit
  have hwants : ∀ c : Nat, c < (t.bytesRead + (2 ^ 31 + 1)).toNat →
      (Loop.body packetSize).wants (t.bytesRead - c) ∧
        -2 ^ 31 ≤ t.bytesRead - c ∧ t.bytesRead - c < 2 ^ 31 := by
    intro c hc
    refine ⟨?_, by omega, by omega⟩
    show t.bytesRead - c < packetSize
    omega
  have hwrap : wrap32 (t.bytesRead - (t.bytesRead + (2 ^ 31 + 1)).toNat) = 2 ^ 31 - 1 := by
    unfold wrap32
    omega
  refine drain_iff hpos hplace hwants 0 (by omega) fun m hm => ?_
  refine iff_of_true ?_ ⟨m, by omega⟩
  have hleave : advance (.body packetSize) { t with bytesRead := 2 ^ 31 - 1, ends := m } =
      .waiting { t with place := .top, bytesRead := 2 ^ 31 - 1, ends := m } :=
    if_neg (by dsimp only; omega)
  rw [hwrap, hleave]
  exact top_ends hpos rfl

/-- In the middle of a header `bytes_read` has to come to -1, and what the buffer then holds is
taken for a header. -/
theorem header_iff (hpos : g.stream.length ≤ t.pos) (hplace : t.place = .inner .header)
    {read_ : Nat} (hread : t.bytesRead = read_) (hmore : read_ < headerSize) :
    Reaches step (read g fails) (.waiting t) (.ended ()) ↔
      ∃ n, failures fails t.ends +
        (if (parseHeader t.buffer).check.isSome ∨ (parseHeader t.buffer).packetSize < 0 then
          read_ + 1
        else read_ + 1 + 2 ^ 31) ≤ failures fails n := by
  unfold headerSize at hmore
  have hwants : ∀ c : Nat, c < read_ + 1 → Loop.header.wants (t.bytesRead - c) ∧
      -2 ^ 31 ≤ t.bytesRead - c ∧ t.bytesRead - c < 2 ^ 31 := by
    intro c hc
    refine ⟨?_, by omega, by omega⟩
    show asSize (t.bytesRead - c) < headerSize
    unfold asSize headerSize
    omega
  have hwrap : wrap32 (t.bytesRead - (read_ + 1 : Nat)) = -1 := by
    unfold wrap32
    omega
  have hleave : ∀ m, advance .header { t with bytesRead := -1, ends := m } =
      if (parseHeader t.buffer).check.isSome then .ended ()
      else body (parseHeader t.buffer).packetSize { t with bytesRead := -1, ends := m } := by
    intro m
    unfold advance
    exact if_neg (show ¬ asSize (-1) < headerSize by decide)
  by_cases hstale : (parseHeader t.buffer).check.isSome ∨ (parseHeader t.buffer).packetSize < 0
  · rw [if_pos hstale]
    refine drain_iff hpos hplace hwants 0 (Nat.succ_pos _) fun m hm => ?_
    refine iff_of_true ?_ ⟨m, hm.ge⟩
    rw [hwrap, hleave]
    by_cases hcheck : (parseHeader t.buffer).check.isSome
    · rw [if_pos hcheck]
      exact .refl _
    · have hskip : body (parseHeader t.buffer).packetSize { t with bytesRead := -1, ends := m } =
          .waiting { t with place := .top, bytesRead := -1, ends := m } :=
        if_neg (by have := hstale.resolve_left hcheck; dsimp only; omega)
      rw [if_neg hcheck, hskip]
      exact top_ends hpos rfl
  · obtain ⟨hcheck, hsize⟩ := not_or.mp hstale
    rw [if_neg hstale, ← Nat.add_assoc]
    refine drain_iff hpos hplace hwants (2 ^ 31) (Nat.succ_pos _) fun m hm => ?_
    have henter : body (parseHeader t.buffer).packetSize { t with bytesRead := -1, ends := m } =
        .waiting { t with
          place := .inner (.body (parseHeader t.buffer).packetSize)
          bytesRead := -1
          ends := m } :=
      if_pos (by dsimp only; omega)
    rw [hwrap, hleave, if_neg hcheck, henter]
    have hcount : ((-1 : Int) + (2 ^ 31 + 1)).toNat = 2 ^ 31 := by decide
    have hlimit := packetSize_le (Option.not_isSome_iff_eq_none.mp hcheck)
    rw [body_iff (by exact hpos) rfl (Int.le_refl (-1)) (by dsimp only; omega) hlimit]
    dsimp only
    rw [hcount, hm]

end End

/-! ## The whole connection -/

section Whole
variable {g : Guest} {fails : Nat → Bool} {before rest : List UInt8}

/-- A thread at the head of the outer loop does not look at `bytes_read`. -/
theorem top_ended_iff {t : Thread} (hplace : t.place = .top) (bytesRead : Int) :
    Reaches step (read g fails) (.waiting t) (.ended ()) ↔
      Reaches step (read g fails) (.waiting { t with bytesRead := bytesRead }) (.ended ()) := by
  have hsame : step t (read g fails t) = step { t with bytesRead := bytesRead }
      (read g fails { t with bytesRead := bytesRead }) := by
    obtain ⟨place, count, buffer, pos, ends⟩ := t
    obtain rfl : place = .top := hplace
    rfl
  rw [(Reaches.next t).ended_iff, hsame]
  exact ((Reaches.next _).ended_iff ()).symm

/-- What a complete header leads to. -/
theorem advance_header {buffer header : List UInt8} {pos : Nat} (h : headerSize = header.length) :
    advance .header (reading buffer header pos) =
      if (parseHeader header).check.isSome then .ended ()
      else body (parseHeader header).packetSize (reading buffer header pos) := by
  have hdone : ¬ asSize (reading buffer header pos).bytesRead < headerSize := by
    show ¬ asSize header.length < headerSize
    rw [← h]
    decide
  have hheader : parseHeader (reading buffer header pos).buffer = parseHeader header :=
    parseHeader_held h
  rw [advance, if_neg hdone, hheader]

/-- The header of the next packet. -/
theorem header_reaches (fails : Nat → Bool) (buffer : List UInt8)
    (hstream : g.stream = before ++ rest) (hlen : headerSize ≤ rest.length) :
    Reaches step (read g fails) (.waiting (reading buffer [] before.length))
      (if (parseHeader rest).check.isSome then .ended ()
        else body (parseHeader rest).packetSize (reading buffer (rest.take headerSize)
          (before ++ rest.take headerSize).length)) := by
  have hne : rest ≠ [] := List.ne_nil_of_length_pos (by unfold headerSize at hlen; omega)
  have hheader : headerSize = (rest.take headerSize).length := by
    rw [List.length_take, Nat.min_eq_left hlen]
  have htop := top_reaches fails hstream hne buffer
  rw [advance_header hheader, parseHeader_take hlen] at htop
  exact htop

/-- As much of a packet as there is. -/
theorem packet_reaches (fails : Nat → Bool) (buffer : List UInt8)
    (hstream : g.stream = before ++ rest) (hlen : headerSize ≤ rest.length)
    (hcheck : ¬ (parseHeader rest).check.isSome) :
    Reaches step (read g fails) (.waiting (reading buffer [] before.length))
      (body (parseHeader rest).packetSize (reading buffer
        (rest.take (max headerSize (parseHeader rest).packetSize.toNat))
        (before ++ rest.take (max headerSize (parseHeader rest).packetSize.toNat)).length)) := by
  have hheader := header_reaches fails buffer hstream hlen
  rw [if_neg hcheck] at hheader
  have hlimit := packetSize_le (Option.not_isSome_iff_eq_none.mp hcheck)
  unfold bufferSize maxBytesSent at hlimit
  by_cases hbody : (headerSize : Int) < (parseHeader rest).packetSize
  · have hmax : max headerSize (parseHeader rest).packetSize.toNat =
        (parseHeader rest).packetSize.toNat := Nat.max_eq_right (by omega)
    have htarget : (Loop.body (parseHeader rest).packetSize).target =
        ((parseHeader rest).packetSize.toNat : Nat) := by
      show (parseHeader rest).packetSize = _
      omega
    have hsplit : g.stream = (before ++ rest.take headerSize) ++ rest.drop headerSize := by
      rw [List.append_assoc, List.take_append_drop, hstream]
    have hfill := fill_reaches fails htarget (by unfold headerSize at *; omega) buffer
      (rest.take headerSize) hsplit
    rw [List.append_assoc before, take_take_drop (by omega)] at hfill
    rw [hmax]
    exact hheader.trans hfill
  · rw [Nat.max_eq_left (by omega)]
    exact hheader

/-- From the start of a packet on. -/
theorem ends_from_iff (buffer : List UInt8) (hstream : g.stream = before ++ rest) :
    Reaches step (read g fails) (.waiting (reading buffer [] before.length)) (.ended ()) ↔
      ∃ m, needed buffer rest ≤ failures fails m := by
  induction hn : rest.length using Nat.strong_induction_on generalizing before rest buffer with
  | _ n ih =>
    have hend : g.stream.length ≤ (before ++ rest).length := by rw [hstream]
    have hzero : failures fails 0 = 0 := Nat.count_zero _
    rw [needed]
    by_cases hnil : rest = []
    · subst hnil
      rw [List.append_nil] at hend
      rw [if_pos rfl]
      exact iff_of_true (top_ends hend rfl) ⟨0, Nat.zero_le _⟩
    rw [if_neg hnil]
    by_cases hshort : rest.length < headerSize
    · have htop := top_reaches fails hstream hnil buffer
      rw [List.take_of_length_le hshort.le, advance_more (Int.natCast_nonneg _)
        (show (rest.length : Int) < headerSize by omega) (by decide)] at htop
      rw [if_pos hshort, htop.ended_iff, header_iff hend rfl rfl hshort]
      show (∃ n, failures fails 0 + _ ≤ failures fails n) ↔ _
      rw [hzero]
      simp only [Nat.zero_add]
      rfl
    rw [if_neg hshort]
    have hlen := Nat.le_of_not_lt hshort
    by_cases hcheck : (parseHeader rest).check.isSome
    · have hheader := header_reaches fails buffer hstream hlen
      rw [if_pos hcheck] at hheader
      rw [if_pos hcheck]
      exact iff_of_true hheader ⟨0, Nat.zero_le _⟩
    rw [if_neg hcheck, (packet_reaches fails buffer hstream hlen hcheck).ended_iff]
    have hlimit := packetSize_le (Option.not_isSome_iff_eq_none.mp hcheck)
    by_cases hcut : (rest.length : Int) < (parseHeader rest).packetSize
    · have hinside : body (parseHeader rest).packetSize
          (reading buffer rest (before ++ rest).length) =
            .waiting { reading buffer rest (before ++ rest).length with
              place := .inner (.body (parseHeader rest).packetSize) } := if_pos hcut
      rw [if_pos hcut, List.take_of_length_le (by omega), hinside,
        body_iff hend rfl (show -1 ≤ (rest.length : Int) by omega) hcut hlimit]
      have hcount : ((rest.length : Int) + (2 ^ 31 + 1)).toNat = rest.length + (2 ^ 31 + 1) := by
        omega
      show (∃ n, failures fails 0 + ((rest.length : Int) + (2 ^ 31 + 1)).toNat ≤
        failures fails n) ↔ _
      rw [hzero, hcount]
      simp only [Nat.zero_add]
    · rw [if_neg hcut]
      generalize hwhole : max headerSize (parseHeader rest).packetSize.toNat = whole
      have htaken : (rest.take whole).length = whole := by
        rw [List.length_take]
        omega
      have hdone : body (parseHeader rest).packetSize
          (reading buffer (rest.take whole) (before ++ rest.take whole).length) =
            .waiting (reading buffer (rest.take whole) (before ++ rest.take whole).length) :=
        if_neg (show ¬ ((rest.take whole).length : Int) < _ by omega)
      have hsplit : g.stream = (before ++ rest.take whole) ++ rest.drop whole := by
        rw [List.append_assoc, List.take_append_drop, hstream]
      have hpositive : 0 < whole := by
        unfold headerSize at hwhole
        omega
      rw [hdone, top_ended_iff rfl 0]
      refine ih (rest.drop whole).length ?_ (held buffer (rest.take whole)) hsplit rfl
      rw [List.length_drop]
      unfold headerSize at hlen
      omega

end Whole

/-- **The thread of a guest ends if and only if** enough of the reads after its last byte fail: none
has to if that byte ends a packet or a header that is refused, and with reads that return 0 it
ends in no other case. -/
theorem ends_iff (g : Guest) (fails : Nat → Bool) (buffer : List UInt8) :
    Ends g fails buffer ↔
      ∃ m, needed buffer g.stream ≤ Nat.count (fun k => fails k = true) m :=
  ends_from_iff buffer (List.nil_append _).symm

/-- With reads that return 0. -/
theorem ends_zero_iff (g : Guest) (buffer : List UInt8) :
    Ends g (fun _ => false) buffer ↔ needed buffer g.stream = 0 := by
  have hnone : ∀ m, failures (fun _ => false) m = 0 := by
    intro m
    induction m with
    | zero => rfl
    | succ m ih => rw [failures_succ, ih, if_neg (by decide)]
  unfold Ends
  rw [show start buffer = reading buffer [] ([] : List UInt8).length from rfl,
    ends_from_iff buffer (List.nil_append _).symm]
  constructor
  · rintro ⟨m, hm⟩
    rw [hnone] at hm
    exact Nat.le_zero.mp hm
  · exact fun h => ⟨0, by rw [h]; exact Nat.zero_le _⟩

/-- With reads that return -1. -/
theorem ends_of_fails (g : Guest) (buffer : List UInt8) : Ends g (fun _ => true) buffer := by
  have hall : ∀ m, failures (fun _ => true) m = m := by
    intro m
    induction m with
    | zero => rfl
    | succ m ih => rw [failures_succ, ih, if_pos rfl]
  refine (ends_from_iff buffer (List.nil_append _).symm).mpr ⟨needed buffer g.stream, ?_⟩
  rw [hall]

/-- One byte of a header, and then the end of the connection: `read` returns 0 for ever. -/
theorem not_ends_oneByte : ¬ Ends ⟨[7], fun _ => 1⟩ (fun _ => false) (List.replicate 20 0) := by
  rw [ends_zero_iff, needed, if_neg (by decide), if_pos (by decide)]
  split
  · exact Nat.succ_ne_zero _
  · exact Nat.succ_ne_zero _

end LoPhi.Server.Disconnect
