import LoPhi.Capture.Tail

/-! # Captures that are cut off

The writer's process is terminated while it writes, so a capture can end anywhere. The reader takes
a header and then as much of the data as there is: a part of a header does not set the length, and
a part of the data is returned as if it were all. -/

namespace LoPhi.Capture.Truncated
open LoPhi.Lib.Struct LoPhi.Data.DataStruct
open LoPhi.Capture.Tail

/-- Iterating over the first `n` bytes of a capture gives the records that are complete there, and
then stops. -/
def ReadsUpTo (records : List Record) (n : Nat) : Prop :=
  readAll ((content records).take n) = ((complete records n).map Record.value, .stopIteration)

/-- The first `n` bytes of a capture end where a record ends, or before the first. -/
def AtBoundary (records : List Record) (n : Nat) : Prop :=
  ∃ before, before <+: records ∧ (content records).take n = content before

/-! ## Whole records -/

/-- What there is of a record whose header is complete. -/
theorem next_record (r : Record) (rest : List UInt8) (n : Nat) :
    next ((r.encode ++ rest).take (8 + n)) =
      .ok ((r.value.1, ((r.data ++ rest).take n).take r.data.length),
        ((r.data ++ rest).take n).drop r.data.length) := by
  have hdata := r.length_data
  have hlen : 8 ≤ ((r.encode ++ rest).take (8 + n)).length := by
    rw [List.length_take, List.length_append, r.length_encode]
    omega
  have hstamp : ((r.encode ++ rest).take (8 + n)).take 4 = r.stamp := by
    rw [List.take_take, Nat.min_eq_left (by omega), Record.encode, List.append_assoc,
      List.append_assoc, List.take_left' r.length_stamp]
  have hlength : (((r.encode ++ rest).take (8 + n)).drop 4).take 4 = beBytes 4 r.data.length := by
    rw [List.drop_take, List.take_take, Nat.min_eq_left (by omega), Record.encode,
      List.append_assoc, List.append_assoc, List.drop_left' r.length_stamp,
      List.take_left' (beBytes_length 4 _)]
  have hbody : ((r.encode ++ rest).take (8 + n)).drop 8 = (r.data ++ rest).take n := by
    rw [List.drop_take, r.body, Nat.add_sub_cancel_left]
  rw [next_long hlen, hstamp, hlength, hbody, beNat_beBytes,
    Nat.mod_eq_of_lt (by omega)]
  rfl

theorem next_whole (r : Record) (rest : List UInt8) :
    next (r.encode ++ rest) = .ok (r.value, rest) := by
  have hnext := next_record r rest (r.data ++ rest).length
  have hall : (r.encode ++ rest).take (8 + (r.data ++ rest).length) = r.encode ++ rest := by
    refine List.take_of_length_le ?_
    rw [List.length_append, List.length_append, r.length_encode]
    omega
  rw [hall, List.take_length, List.take_left, List.drop_left] at hnext
  exact hnext

theorem iterate_append (records : List Record) (fuel : Nat) (rest : List UInt8) :
    iterate (records.length + fuel) (content records ++ rest) =
      (records.map Record.value ++ (iterate fuel rest).1, (iterate fuel rest).2) := by
  induction records with
  | nil =>
    rw [List.length_nil, Nat.zero_add]
    rfl
  | cons r records ih =>
    rw [List.length_cons, Nat.succ_add, iterate, content_cons, List.append_assoc, next_whole]
    dsimp only
    rw [ih]
    rfl

theorem readAll_append (records : List Record) (rest : List UInt8) :
    ∃ fuel, rest.length < fuel ∧ readAll (content records ++ rest) =
      (records.map Record.value ++ (iterate fuel rest).1, (iterate fuel rest).2) := by
  have hlen := length_le_content records
  refine ⟨(content records ++ rest).length + 1 - records.length, ?_, ?_⟩
  · rw [List.length_append]
    omega
  · rw [← iterate_append, readAll, List.length_append, Nat.add_sub_cancel' (by omega)]

/-! ## The cut -/

/-- A capture that is cut in a header raises there. -/
theorem readAll_cut_header (before after : List Record) (r : Record) {n : Nat} (hpos : 0 < n)
    (h : n < 8) :
    readAll ((content (before ++ r :: after)).take ((content before).length + n)) =
      (before.map Record.value, .raised .typeError) := by
  have hlen := r.length_encode
  rw [content_append, List.take_length_add_append]
  obtain ⟨fuel, hfuel, hread⟩ := readAll_append before ((content (r :: after)).take n)
  have hrest : ((content (r :: after)).take n).length = n := by
    rw [List.length_take, content_cons, List.length_append]
    omega
  cases fuel with
  | zero => cases hfuel
  | succ fuel =>
    rw [hread, iterate, next_short (by omega) (by omega), List.append_nil]

/-- A capture that is cut after a header gives a record with what there is of the data. -/
theorem readAll_cut_data (before after : List Record) (r : Record) {n : Nat}
    (h : n < r.data.length) :
    readAll ((content (before ++ r :: after)).take ((content before).length + (8 + n))) =
      (before.map Record.value ++ [(r.value.1, r.data.take n)], .stopIteration) := by
  have hlen := r.length_encode
  rw [content_append, List.take_length_add_append, content_cons]
  obtain ⟨fuel, hfuel, hread⟩ :=
    readAll_append before ((r.encode ++ content after).take (8 + n))
  have hrest : ((r.encode ++ content after).take (8 + n)).length = 8 + n := by
    rw [List.length_take, List.length_append]
    omega
  have hshort : ((r.data ++ content after).take n).length ≤ r.data.length := by
    rw [List.length_take]
    omega
  match fuel with
  | 0 => cases hfuel
  | 1 => omega
  | fuel + 2 =>
    rw [hread, iterate, next_record, List.take_of_length_le hshort,
      List.drop_of_length_le hshort, List.take_append_of_le_length h.le]
    rfl

/-- At a boundary the records before it are those that are complete. -/
theorem complete_boundary {before after : List Record} {n : Nat}
    (h : (content (before ++ after)).take n = content before) :
    complete (before ++ after) n = before := by
  have hlen := congrArg List.length h
  rw [List.length_take, content_append, List.length_append] at hlen
  rw [complete_append (by omega)]
  by_cases hcut : n = (content before).length
  · rw [hcut, Nat.sub_self, complete_zero, List.append_nil]
  · have hafter := length_le_content after
    have hnil : after = [] := List.eq_nil_of_length_eq_zero (by omega)
    rw [hnil, complete, List.append_nil]

/-- **A capture that is cut off is read up to the cut if and only if the cut is between two
records.** -/
theorem readsUpTo_iff (records : List Record) (n : Nat) :
    ReadsUpTo records n ↔ AtBoundary records n := by
  constructor
  · intro hread
    unfold ReadsUpTo at hread
    have hsum := iterate_consumes (congrArg Prod.snd hread)
    -- the reader has gone through all the bytes, and these are the bytes of its records
    have hlen : ((content records).take n).length = (content (complete records n)).length := by
      rw [hsum, show (iterate _ ((content records).take n)).1 = _ from congrArg Prod.fst hread,
        content, List.length_flatMap, List.map_map]
      exact congrArg List.sum (List.map_congr_left fun r _ => r.length_encode.symm)
    have hcomplete := complete_prefix records n
    have hwhole : content (complete records n) <+: content records := by
      obtain ⟨after, hafter⟩ := hcomplete
      exact ⟨content after, by rw [← content_append, hafter]⟩
    have hcut := List.prefix_of_prefix_length_le (List.take_prefix n _) hwhole hlen.le
    exact ⟨complete records n, hcomplete, hcut.eq_of_length hlen⟩
  · rintro ⟨before, ⟨after, rfl⟩, hcut⟩
    unfold ReadsUpTo
    rw [complete_boundary hcut, hcut]
    obtain ⟨fuel, hfuel, hread⟩ := readAll_append before []
    rw [List.append_nil] at hread
    cases fuel with
    | zero => cases hfuel
    | succ fuel => exact hread.trans (by rw [iterate]; exact congrArg (·, _) (List.append_nil _))

/-- A record with one byte of data: cut in its header the reader raises, and cut after its header it
returns a record without data. -/
theorem not_readsUpTo_oneByte : ¬ ReadsUpTo [oneByte] 4 ∧ ¬ ReadsUpTo [oneByte] 8 := by
  constructor
  · intro h
    have hraised := readAll_cut_header [] [] oneByte (show 0 < 4 by decide) (by decide)
    rw [ReadsUpTo] at h
    have hend := congrArg Prod.snd (h.symm.trans hraised)
    cases hend
  · intro h
    have hshort := readAll_cut_data [] [] oneByte (show 0 < 1 by decide)
    rw [ReadsUpTo] at h
    have hrecords := congrArg (fun read => read.1.length) (h.symm.trans hshort)
    exact absurd hrecords (by decide)

end LoPhi.Capture.Truncated
