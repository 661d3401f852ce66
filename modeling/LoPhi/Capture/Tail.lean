import LoPhi.Lib.File
import LoPhi.Capture.ReadBack

/-! # Following a growing capture

`CaptureReaderTail.next` of `capture/__init__.py`. The writer appends to the file while it
is read, so each read sees the part of the content that is there at that moment; a schedule
gives its length, read by read. A call returns the records it finds complete and remembers
where the first incomplete one starts. -/

namespace LoPhi.Capture.Tail
open LoPhi.Lib.File LoPhi.Lib.Struct LoPhi.Data.DataStruct

/-- A record of a capture: four bytes of time, four of length, the data. -/
structure Record where
  stamp : List UInt8
  data : List UInt8
  length_stamp : stamp.length = 4
  length_data : data.length < 2 ^ 32

def Record.encode (r : Record) : List UInt8 := r.stamp ++ beBytes 4 r.data.length ++ r.data

/-- What is returned for a record. -/
def Record.value (r : Record) : Value Scalar × List UInt8 :=
  (.one (.float (widen (UInt32.ofNat (beNat r.stamp)))), r.data)

/-- The file once it is complete. -/
def content (records : List Record) : List UInt8 := records.flatMap Record.encode

/-- `visible k`: how much of the file is there at the `k`-th read. The file only grows. -/
structure Schedule where
  visible : Nat → Nat
  mono : Monotone visible

/-- `self.f.read(size)` at a position, as the `k`-th read. -/
def Schedule.read (sched : Schedule) (file : List UInt8) (k pos size : Nat) : List UInt8 :=
  readAt (file.take (sched.visible k)) pos size

/-- The tail reader: where it goes on, and how often it has read. -/
structure Reader where
  where_ : Nat
  reads : Nat

/-- The loop of `next` from a position; the reader's `where_` is that position. The result
is the list and the reader after it, or nothing without enough fuel. -/
def loop (sched : Schedule) (file : List UInt8) :
    Nat → Reader → List (Value Scalar × List UInt8) →
      Option (List (Value Scalar × List UInt8) × Reader)
  | 0, _, _ => none
  | fuel + 1, reader, ret =>
    let cap_header := capHeader.init none
    let header_data := sched.read file reader.reads reader.where_ (capHeader.len cap_header)
    let reader := { reader with reads := reader.reads + 1 }
    -- struct.calcsize('fI')
    if header_data.length < 8 then some (ret, reader)
    else
      let cap_header := capHeader.unpack cap_header header_data
      match cap_header.fields "length" with
      | .one (.int length) =>
        let packet_data := sched.read file reader.reads
          (reader.where_ + header_data.length) length.toNat
        let reader := { reader with reads := reader.reads + 1 }
        if packet_data.length < length.toNat then some (ret, reader)
        else
          loop sched file fuel
            { reader with where_ := reader.where_ + header_data.length + packet_data.length }
            (ret ++ [(cap_header.fields "timestamp", packet_data)])
      -- not after a header of eight bytes
      | _ => none

/-- `next`. Every turn of the loop but the last takes a header from the file. -/
def next (sched : Schedule) (file : List UInt8) (reader : Reader) :
    Option (List (Value Scalar × List UInt8) × Reader) :=
  loop sched file (file.length + 1) reader []

/-- A number of calls of `next`: the lists they return. -/
def calls (sched : Schedule) (file : List UInt8) :
    Nat → Reader → Option (List (List (Value Scalar × List UInt8)) × Reader)
  | 0, reader => some ([], reader)
  | n + 1, reader => do
    let (returned, reader) ← calls sched file n reader
    let (ret, reader) ← next sched file reader
    return (returned ++ [ret], reader)

/-- A new reader. -/
def init : Reader := { where_ := 0, reads := 0 }

/-- The records that are complete in the first `len` bytes. -/
def complete : List Record → Nat → List Record
  | [], _ => []
  | r :: records, len =>
    if r.encode.length ≤ len then r :: complete records (len - r.encode.length) else []

/-! ## Records and prefixes -/

theorem Record.length_encode (r : Record) : r.encode.length = 8 + r.data.length := by
  simp only [Record.encode, List.length_append, r.length_stamp, beBytes_length]

@[simp] theorem content_cons (r : Record) (records : List Record) :
    content (r :: records) = r.encode ++ content records := List.flatMap_cons

theorem content_append (before after : List Record) :
    content (before ++ after) = content before ++ content after := List.flatMap_append

theorem length_le_content (records : List Record) : records.length ≤ (content records).length := by
  induction records with
  | nil => exact Nat.le_refl 0
  | cons r records ih =>
    have := r.length_encode
    rw [content_cons, List.length_append, List.length_cons]
    omega

theorem complete_zero (records : List Record) : complete records 0 = [] := by
  cases records with
  | nil => rfl
  | cons r records =>
    have := r.length_encode
    exact if_neg (by omega)

/-- Complete records stay complete, and the rest is looked for after them. -/
theorem complete_append {before after : List Record} {len : Nat}
    (h : (content before).length ≤ len) :
    complete (before ++ after) len = before ++ complete after (len - (content before).length) := by
  induction before generalizing len with
  | nil => rfl
  | cons r before ih =>
    rw [content_cons, List.length_append] at h ⊢
    rw [List.cons_append, complete, if_pos (by omega), ih (by omega), Nat.sub_sub]
    rfl

theorem length_content_complete (records : List Record) (len : Nat) :
    (content (complete records len)).length ≤ len := by
  induction records generalizing len with
  | nil => exact Nat.zero_le len
  | cons r records ih =>
    unfold complete
    split
    · have := ih (len - r.encode.length)
      rw [content_cons, List.length_append]
      omega
    · exact Nat.zero_le len

theorem complete_prefix (records : List Record) (len : Nat) : complete records len <+: records := by
  induction records generalizing len with
  | nil => exact List.prefix_rfl
  | cons r records ih =>
    unfold complete
    split
    · exact List.cons_prefix_cons.mpr ⟨rfl, ih _⟩
    · exact List.nil_prefix

/-- Nothing is left out of a file that is all there. -/
theorem complete_all {records : List Record} {len : Nat} (h : (content records).length ≤ len) :
    complete records len = records := by
  have hall : complete (records ++ []) len = _ := complete_append h
  rwa [List.append_nil, complete, List.append_nil] at hall

/-! ## One call -/

/-- A read at the end of `before` sees what is there of the rest. -/
theorem Schedule.read_append (sched : Schedule) (before rest : List UInt8) (k size : Nat) :
    sched.read (before ++ rest) k before.length size =
      rest.take (min size (sched.visible k - before.length)) := by
  unfold Schedule.read readAt
  rw [List.drop_take, List.drop_left, List.take_take]

/-- A complete header of a record, and what it says. -/
theorem Record.header (r : Record) (rest : List UInt8) :
    ((r.encode ++ rest).take 8).length = 8 ∧
    (capHeader.unpack (capHeader.init none) ((r.encode ++ rest).take 8)).fields "timestamp" =
      r.value.1 ∧
    (capHeader.unpack (capHeader.init none) ((r.encode ++ rest).take 8)).fields "length" =
      .one (.int r.data.length) := by
  have hstamp := r.length_stamp
  have hdata := r.length_data
  have htake : (r.encode ++ rest).take 8 = r.stamp ++ beBytes 4 r.data.length := by
    rw [Record.encode, List.append_assoc]
    refine List.take_left' ?_
    rw [List.length_append, hstamp, beBytes_length]
  have hlen : (r.stamp ++ beBytes 4 r.data.length).length = 8 := by
    rw [List.length_append, hstamp, beBytes_length]
  obtain ⟨htime, hlength⟩ := capHeader_fields (o := capHeader.init none) hlen
  rw [List.take_left' hstamp] at htime
  rw [List.drop_left' hstamp, beNat_beBytes, Nat.mod_eq_of_lt (by omega)] at hlength
  rw [htake]
  exact ⟨hlen, htime, hlength⟩

theorem Record.body (r : Record) (rest : List UInt8) :
    (r.encode ++ rest).drop 8 = r.data ++ rest := by
  rw [Record.encode, List.append_assoc]
  refine List.drop_left' ?_
  rw [List.length_append, r.length_stamp, beBytes_length]

/-- A read after the header of a record. -/
theorem Schedule.read_body (sched : Schedule) (before : List UInt8) (r : Record)
    (rest : List UInt8) (k size : Nat) :
    sched.read (before ++ (r.encode ++ rest)) k (before.length + 8) size =
      (r.data ++ rest).take (min size (sched.visible k - before.length - 8)) := by
  unfold Schedule.read readAt
  rw [List.drop_take, ← List.drop_drop, List.drop_left, r.body, List.take_take, Nat.sub_sub]

/-- One turn of the loop at the start of a record: it stops while the record is not
complete, and else goes on after it. -/
theorem loop_record (sched : Schedule) (before : List UInt8) (r : Record) (rest : List UInt8)
    (fuel reads : Nat) (ret : List (Value Scalar × List UInt8)) :
    (∃ reads', reads < reads' ∧
      sched.visible (reads' - 1) - before.length < r.encode.length ∧
      loop sched (before ++ (r.encode ++ rest)) (fuel + 1) ⟨before.length, reads⟩ ret =
        some (ret, ⟨before.length, reads'⟩)) ∨
    (r.encode.length ≤ sched.visible (reads + 1) - before.length ∧
      loop sched (before ++ (r.encode ++ rest)) (fuel + 1) ⟨before.length, reads⟩ ret =
        loop sched (before ++ (r.encode ++ rest)) fuel
          ⟨(before ++ r.encode).length, reads + 2⟩ (ret ++ [r.value])) := by
  have hencode := r.length_encode
  obtain ⟨hheader, htime, hlength⟩ := r.header rest
  have hsize : capHeader.len (capHeader.init none) = 8 := rfl
  rw [loop]
  simp only [sched.read_append, hsize]
  by_cases hhead : 8 ≤ sched.visible reads - before.length
  · rw [Nat.min_eq_left hhead, if_neg (by omega), hheader]
    simp only [htime, hlength, Int.toNat_natCast, sched.read_body]
    have hmono : sched.visible reads ≤ sched.visible (reads + 1) :=
      sched.mono (Nat.le_succ reads)
    by_cases hdata : r.data.length ≤ sched.visible (reads + 1) - before.length - 8
    · refine Or.inr ⟨by omega, ?_⟩
      rw [Nat.min_eq_left hdata, List.take_left, if_neg (Nat.lt_irrefl _), List.length_append,
        hencode, Nat.add_assoc]
      rfl
    · refine Or.inl ⟨reads + 2, by omega, ?_, ?_⟩
      · rw [hencode]
        exact (by omega : sched.visible (reads + 1) - before.length < 8 + r.data.length)
      · rw [if_pos]
        rw [List.length_take]
        omega
  · refine Or.inl ⟨reads + 1, Nat.lt_succ_self _, ?_, ?_⟩
    · rw [Nat.add_sub_cancel]
      omega
    · rw [if_pos]
      rw [List.length_take]
      omega

/-- The loop from the start of the first record that was not returned yet: it adds the
records that are complete at its last read. -/
theorem loop_eq (sched : Schedule) (before : List UInt8) (records : List Record)
    {fuel : Nat} (hfuel : records.length < fuel) (reads : Nat)
    (ret : List (Value Scalar × List UInt8)) :
    ∃ reads', reads < reads' ∧
      loop sched (before ++ content records) fuel ⟨before.length, reads⟩ ret =
        some (ret ++ (complete records (sched.visible (reads' - 1) - before.length)).map
            Record.value,
          ⟨before.length + (content (complete records
            (sched.visible (reads' - 1) - before.length))).length, reads'⟩) := by
  induction records generalizing before fuel reads ret with
  | nil =>
    cases fuel with
    | zero => cases hfuel
    | succ fuel =>
      refine ⟨reads + 1, Nat.lt_succ_self _, ?_⟩
      have hread : ∀ size, sched.read (before ++ content []) reads before.length size = [] :=
        fun size => (sched.read_append before [] reads size).trans List.take_nil
      rw [loop]
      simp only [hread, List.length_nil]
      rw [if_pos (by decide), complete, List.map_nil, List.append_nil]
      rfl
  | cons r records ih =>
    cases fuel with
    | zero => cases hfuel
    | succ fuel =>
      rw [content_cons]
      obtain ⟨reads', hreads, hshort, hloop⟩ | ⟨hdone, hloop⟩ :=
        loop_record sched before r (content records) fuel reads ret
      · refine ⟨reads', hreads, hloop.trans ?_⟩
        rw [complete, if_neg (Nat.not_le.mpr hshort), List.map_nil, List.append_nil]
        rfl
      · obtain ⟨reads', hreads, hrest⟩ := ih (before ++ r.encode)
          (Nat.lt_of_succ_lt_succ hfuel) (reads + 2) (ret ++ [r.value])
        rw [List.append_assoc] at hrest
        refine ⟨reads', by omega, hloop.trans (hrest.trans ?_)⟩
        -- the record was complete when it was read, so it still is at the last read
        have hmono : sched.visible (reads + 1) ≤ sched.visible (reads' - 1) :=
          sched.mono (by omega)
        rw [complete, if_pos (by omega), List.length_append, ← Nat.sub_sub, content_cons,
          List.length_append, ← Nat.add_assoc, List.map_cons, List.append_assoc]
        rfl

/-- One call from the end of `done`: it returns what has become complete after it. -/
theorem next_eq (sched : Schedule) (done rest : List Record) (reads : Nat) :
    ∃ reads', reads < reads' ∧
      next sched (content (done ++ rest)) ⟨(content done).length, reads⟩ =
        some ((complete rest (sched.visible (reads' - 1) - (content done).length)).map
            Record.value,
          ⟨(content (done ++ complete rest
            (sched.visible (reads' - 1) - (content done).length))).length, reads'⟩) := by
  have hlength := length_le_content rest
  have hfuel : rest.length < (content (done ++ rest)).length + 1 := by
    rw [content_append, List.length_append]
    omega
  obtain ⟨reads', hreads, hloop⟩ := loop_eq sched (content done) rest hfuel reads []
  refine ⟨reads', hreads, ?_⟩
  rw [content_append] at hloop
  rw [next, content_append done rest, hloop, content_append, List.nil_append,
    List.length_append]

/-! ## Any number of calls -/

/-- What some calls returned, and where they left the reader: at the end of the records that
are complete in the first `len` bytes. -/
structure Followed (records : List Record) (len : Nat)
    (returned : List (List (Value Scalar × List UInt8))) (reader : Reader) : Prop where
  returned_eq : returned.flatten = (complete records len).map Record.value
  where_eq : reader.where_ = (content (complete records len)).length

/-- What the last of so many reads saw; nothing before the first. -/
def Schedule.seen (sched : Schedule) : Nat → Nat
  | 0 => 0
  | reads + 1 => sched.visible reads

theorem Schedule.seen_mono (sched : Schedule) {reads reads' : Nat} (h : reads < reads') :
    sched.seen reads ≤ sched.visible (reads' - 1) := by
  cases reads with
  | zero => exact Nat.zero_le _
  | succ reads => exact sched.mono (by omega)

theorem Schedule.seen_of_pos (sched : Schedule) {reads : Nat} (h : 0 < reads) :
    sched.seen reads = sched.visible (reads - 1) := by
  cases reads with
  | zero => cases h
  | succ reads => rfl

/-- A call adds what has become complete since the last read of the calls before it. -/
theorem next_followed {sched : Schedule} {records : List Record}
    {returned : List (List (Value Scalar × List UInt8))} {reader : Reader}
    (h : Followed records (sched.seen reader.reads) returned reader) :
    ∃ ret reader', next sched (content records) reader = some (ret, reader') ∧
      reader.reads < reader'.reads ∧
      Followed records (sched.seen reader'.reads) (returned ++ [ret]) reader' := by
  obtain ⟨where_, reads⟩ := reader
  obtain ⟨hreturned, hwhere⟩ := h
  obtain rfl : where_ = (content (complete records (sched.seen reads))).length := hwhere
  obtain ⟨rest, hrest⟩ := complete_prefix records (sched.seen reads)
  obtain ⟨reads', hreads, hnext⟩ := next_eq sched (complete records (sched.seen reads)) rest reads
  have hcomplete : complete (complete records (sched.seen reads) ++ rest) _ = _ :=
    complete_append
      ((length_content_complete records (sched.seen reads)).trans (sched.seen_mono hreads))
  rw [hrest, ← sched.seen_of_pos (by omega)] at hnext hcomplete
  refine ⟨_, _, hnext, hreads, ?_, ?_⟩
  · simp only [hcomplete, List.flatten_append, hreturned, List.flatten_singleton,
      List.map_append]
  · simp only [hcomplete]

theorem calls_followed (sched : Schedule) (records : List Record) (n : Nat) :
    ∃ returned reader, calls sched (content records) n init = some (returned, reader) ∧
      Followed records (sched.seen reader.reads) returned reader := by
  induction n with
  | zero =>
    have hnone := complete_zero records
    refine ⟨[], init, rfl, ?_, ?_⟩
    · exact (congrArg (List.map Record.value) hnone).symm
    · exact (congrArg (fun done => (content done).length) hnone).symm
  | succ n ih =>
    obtain ⟨returned, reader, hcalls, hbefore⟩ := ih
    obtain ⟨ret, reader', hnext, -, hfollowed⟩ := next_followed hbefore
    refine ⟨returned ++ [ret], reader', ?_, hfollowed⟩
    rw [calls, hcalls]
    exact congrArg (Option.bind · _) hnext

/-- **Following a capture loses and repeats nothing**: after any number of calls, under any
schedule, what was returned is the records that were complete at the last read, in order
and once each, and the reader goes on at the end of the last of them; when the file does not
grow any more, one more call returns the rest. -/
theorem tail_follows (records : List Record) (sched : Schedule) (n : Nat) :
    ∃ returned reader, calls sched (content records) n init = some (returned, reader) ∧
      returned.flatten = (complete records (sched.seen reader.reads)).map Record.value ∧
      reader.where_ = (content (complete records (sched.seen reader.reads))).length ∧
      ∀ len, (∀ k, reader.reads ≤ k → sched.visible k = len) →
        ∃ ret reader', next sched (content records) reader = some (ret, reader') ∧
          returned.flatten ++ ret = (complete records len).map Record.value ∧
          ((content records).length ≤ len →
            returned.flatten ++ ret = records.map Record.value) := by
  obtain ⟨returned, reader, hcalls, hfollowed⟩ := calls_followed sched records n
  refine ⟨returned, reader, hcalls, hfollowed.returned_eq, hfollowed.where_eq, fun len hlen => ?_⟩
  obtain ⟨ret, reader', hnext, hreads, hafter⟩ := next_followed hfollowed
  have hret : returned.flatten ++ ret = (complete records len).map Record.value := by
    have := hafter.returned_eq
    rwa [List.flatten_append, List.flatten_singleton, sched.seen_of_pos (by omega),
      hlen _ (by omega)] at this
  refine ⟨ret, reader', hnext, hret, fun hall => ?_⟩
  rw [hret, complete_all hall]

/-- A file of nine bytes of which the first read sees five. -/
def growing : Schedule where
  visible k := if k < 1 then 5 else 9
  mono := by
    intro i j hij
    simp only
    split
    · split
      · exact Nat.le_refl 5
      · decide
    · rw [if_neg (by omega)]

/-- A record with one byte of data. -/
def oneByte : Record where
  stamp := [0, 0, 0, 0]
  data := [7]
  length_stamp := rfl
  length_data := by decide

/-- The first call returns nothing, the second the record. -/
theorem tail_follows_growing :
    calls growing (content [oneByte]) 1 init = some ([[]], ⟨0, 1⟩) ∧
    ∃ ret reader, next growing (content [oneByte]) ⟨0, 1⟩ = some (ret, reader) ∧
      ret = [oneByte].map Record.value := by
  have hcalls : calls growing (content [oneByte]) 1 init = some ([[]], ⟨0, 1⟩) := rfl
  obtain ⟨returned, reader, hfirst, -, -, hrest⟩ := tail_follows [oneByte] growing 1
  rw [hcalls] at hfirst
  cases hfirst
  obtain ⟨ret, reader, hnext, -, hall⟩ := hrest 9 fun k hk => if_neg (Nat.not_lt.mpr hk)
  exact ⟨hcalls, ret, reader, hnext, hall (by decide)⟩

end LoPhi.Capture.Tail
