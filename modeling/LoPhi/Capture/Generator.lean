import LoPhi.Capture.Tail

/-! # The generator over a growing capture

`CaptureReader.tail` of `capture/__init__.py`. Like `CaptureReaderTail.next` it reads while the
writer appends, but it never goes back in the file: a header whose data is not there yet is
dropped, and the data is then taken for a header; a part of a header ends the generator with an
error, and a part of the data is returned as if it were all. -/

namespace LoPhi.Capture.Generator
open LoPhi.Lib.Python LoPhi.Lib.Struct LoPhi.Data.DataStruct
open LoPhi.Capture.Tail

/-- The generator: where the file stands, how often it was read, what was yielded, and the error
that has ended it. -/
structure State where
  pos : Nat
  reads : Nat
  yielded : List (Value Scalar × List UInt8)
  raised : Option PyError

def start : State := { pos := 0, reads := 0, yielded := [], raised := none }

/-- One turn of the loop of `tail`. A turn that yields goes on when the generator is asked for the
next record. -/
def turn (sched : Schedule) (file : List UInt8) (g : State) : State :=
  match g.raised with
  | some _ => g
  | none =>
    let cap_header := capHeader.init none
    let header_data := sched.read file g.reads g.pos (capHeader.len cap_header)
    let g := { g with pos := g.pos + header_data.length, reads := g.reads + 1 }
    -- no data left in the file
    if header_data.length = 0 then g
    else
      let cap_header := capHeader.unpack cap_header header_data
      match cap_header.fields "length" with
      | .one (.int length) =>
        let packet_data := sched.read file g.reads g.pos length.toNat
        let g := { g with pos := g.pos + packet_data.length, reads := g.reads + 1 }
        if packet_data.length = 0 then g
        else
          { g with yielded := g.yielded ++ [(cap_header.fields "timestamp", packet_data)] }
      -- a short header leaves `None`, and `"%d"` does not take it
      | _ => { g with raised := some .typeError }

/-- The generator after a number of turns on the file of some records. -/
def tail (sched : Schedule) (records : List Record) : Nat → State
  | 0 => start
  | n + 1 => turn sched (content records) (tail sched records n)

/-- What the generator should yield. -/
def expected (records : List Record) : List (Value Scalar × List UInt8) :=
  (records.filter fun r => r.data ≠ []).map Record.value

/-- The generator yields the records with data, in order, once each and complete: at any moment the
first of them, and all of them once the file is there. It does not raise. -/
def Follows (sched : Schedule) (records : List Record) : Prop :=
  (∀ n, (tail sched records n).raised = none ∧
    (tail sched records n).yielded <+: expected records) ∧
  ((∃ k, (content records).length ≤ sched.visible k) →
    ∃ n, (tail sched records n).yielded = expected records)

/-- A turn at the start of a record finds nothing of it, or its header and then its data. -/
def FindsWhole (sched : Schedule) (records : List Record) (g : State) : Prop :=
  ∀ before r after, records = before ++ r :: after → g.pos = (content before).length →
    sched.visible g.reads ≤ g.pos ∨
      g.pos + 8 ≤ sched.visible g.reads ∧ g.pos + r.encode.length ≤ sched.visible (g.reads + 1)

/-- The generator stands after the records `done`, and has yielded those with data. -/
structure Passed (records done : List Record) (g : State) : Prop where
  isPrefix : done <+: records
  pos_eq : g.pos = (content done).length
  yielded_eq : g.yielded = expected done
  raised_eq : g.raised = none

/-! ## One turn -/

section Turn
variable {sched : Schedule} {before : List UInt8} {g : State}

/-- At the end of what is there the generator waits. -/
theorem turn_nothing (sched : Schedule) (rest : List UInt8) (hraised : g.raised = none)
    (hpos : g.pos = before.length) (h : rest = [] ∨ sched.visible g.reads ≤ g.pos) :
    turn sched (before ++ rest) g = { g with reads := g.reads + 1 } := by
  obtain ⟨pos, reads, yielded, raised⟩ := g
  dsimp only at hraised hpos h
  subst hraised hpos
  have hread : ∀ size, sched.read (before ++ rest) reads before.length size = [] := by
    intro size
    rw [sched.read_append]
    rcases h with rfl | hnone
    · exact List.take_nil
    · rw [Nat.sub_eq_zero_of_le hnone, Nat.min_zero, List.take_zero]
  unfold turn
  simp only [hread, List.length_nil, Nat.add_zero, if_true]

/-- A record that is there is passed, and yielded if it has data. -/
theorem turn_record {r : Record} (rest : List UInt8) (hraised : g.raised = none)
    (hpos : g.pos = before.length) (hheader : g.pos + 8 ≤ sched.visible g.reads)
    (hdata : g.pos + r.encode.length ≤ sched.visible (g.reads + 1)) :
    turn sched (before ++ (r.encode ++ rest)) g =
      { pos := (before ++ r.encode).length, reads := g.reads + 2,
        yielded := g.yielded ++ expected [r], raised := none } := by
  obtain ⟨pos, reads, yielded, raised⟩ := g
  dsimp only at hraised hpos hheader hdata
  subst hraised hpos
  have hencode := r.length_encode
  obtain ⟨hlen, htime, hlength⟩ := r.header rest
  have hsize : capHeader.len (capHeader.init none) = 8 := rfl
  have hhead : min 8 (sched.visible reads - before.length) = 8 := Nat.min_eq_left (by omega)
  have hbody : min r.data.length (sched.visible (reads + 1) - before.length - 8) =
      r.data.length := Nat.min_eq_left (by omega)
  unfold turn
  simp only [hsize, sched.read_append, hhead, hlen, hlength, htime, Int.toNat_natCast,
    sched.read_body, hbody, List.take_left]
  rw [if_neg (by decide), List.length_append, hencode, Nat.add_assoc]
  by_cases hempty : r.data = []
  · have hnothing : expected [r] = [] := by simp [expected, hempty]
    rw [hnothing, List.append_nil, hempty]
    rfl
  · have hone : expected [r] = [r.value] := by simp [expected, hempty]
    rw [hone, if_neg fun hzero => hempty (List.eq_nil_of_length_eq_zero hzero)]
    rfl

end Turn

theorem expected_append (first second : List Record) :
    expected (first ++ second) = expected first ++ expected second := by
  rw [expected, List.filter_append, List.map_append]
  rfl

/-- A turn that finds a record whole, or nothing, passes it or waits. -/
theorem turn_passed {sched : Schedule} {records done : List Record} {g : State}
    (h : Passed records done g) (hwhole : FindsWhole sched records g) :
    g.reads < (turn sched (content records) g).reads ∧
      ∃ done', Passed records done' (turn sched (content records) g) ∧
        done.length ≤ done'.length ∧
        ((content records).length ≤ sched.visible g.reads →
          done = records ∨ done.length < done'.length) := by
  obtain ⟨⟨rest, rfl⟩, hpos, hyielded, hraised⟩ := h
  cases rest with
  | nil =>
    have hturn := turn_nothing sched [] hraised hpos (.inl rfl)
    rw [List.append_nil] at hturn ⊢
    rw [hturn]
    exact ⟨Nat.lt_succ_self _, done, ⟨List.prefix_rfl, hpos, hyielded, hraised⟩, Nat.le_refl _,
      fun _ => .inl rfl⟩
  | cons r rest =>
    have hencode := r.length_encode
    rcases hwhole done r rest rfl hpos with hnone | ⟨hheader, hdata⟩
    · have hturn := turn_nothing sched (content (r :: rest)) hraised hpos (.inr hnone)
      rw [content_append, hturn]
      refine ⟨Nat.lt_succ_self _, done, ⟨⟨_, rfl⟩, hpos, hyielded, hraised⟩, Nat.le_refl _,
        fun hall => ?_⟩
      rw [List.length_append, content_cons, List.length_append] at hall
      omega
    · have hturn := turn_record (content rest) hraised hpos hheader hdata
      rw [content_append, content_cons, hturn]
      refine ⟨by dsimp only; omega, done ++ [r], ⟨⟨rest, ?_⟩, ?_, ?_, rfl⟩, ?_, fun _ => .inr ?_⟩
      · rw [List.append_assoc, List.singleton_append]
      · rw [content_append, content_cons, show content [] = [] from rfl, List.append_nil]
      · rw [hyielded, expected_append]
      · rw [List.length_append]
        omega
      · rw [List.length_append, List.length_singleton]
        omega

/-! ## Any number of turns -/

section Run
variable {sched : Schedule} {records : List Record}

theorem tail_passed {n : Nat} (h : ∀ m < n, FindsWhole sched records (tail sched records m)) :
    n ≤ (tail sched records n).reads ∧
      ∃ done, Passed records done (tail sched records n) := by
  induction n with
  | zero => exact ⟨Nat.le_refl 0, [], List.nil_prefix, rfl, rfl, rfl⟩
  | succ n ih =>
    obtain ⟨hreads, done, hdone⟩ := ih fun m hm => h m (Nat.lt_succ_of_lt hm)
    obtain ⟨hmore, done', hdone', -⟩ := turn_passed hdone (h n (Nat.lt_succ_self n))
    exact ⟨Nat.succ_le_of_lt (Nat.lt_of_le_of_lt hreads hmore), done', hdone'⟩

/-- Once the file is there every turn passes a record, until there is none left. -/
theorem tail_catches_up (h : ∀ m, FindsWhole sched records (tail sched records m)) {k : Nat}
    (hk : (content records).length ≤ sched.visible k) (j : Nat) :
    ∃ done, Passed records done (tail sched records (k + j)) ∧
      (done = records ∨ j ≤ done.length) := by
  induction j with
  | zero =>
    obtain ⟨-, done, hdone⟩ := tail_passed fun m (_ : m < k) => h m
    exact ⟨done, hdone, .inr (Nat.zero_le _)⟩
  | succ j ih =>
    obtain ⟨done, hdone, hfar⟩ := ih
    obtain ⟨hreads, -⟩ := tail_passed fun m (_ : m < k + j) => h m
    obtain ⟨-, done', hdone', hkeeps, hmore⟩ := turn_passed hdone (h (k + j))
    have hall : (content records).length ≤ sched.visible (tail sched records (k + j)).reads :=
      hk.trans (sched.mono (by omega))
    refine ⟨done', hdone', ?_⟩
    rcases hmore hall with rfl | hlonger
    · exact .inl (hdone'.isPrefix.eq_of_length_le hkeeps)
    · rcases hfar with rfl | hfar
      · have hle := hdone'.isPrefix.length_le
        omega
      · exact .inr (by omega)

theorem expected_prefix {done : List Record} (h : done <+: records) :
    expected done <+: expected records := by
  obtain ⟨rest, rfl⟩ := h
  exact ⟨expected rest, (expected_append done rest).symm⟩

end Run

/-- **While every turn finds a record whole or nothing of it, the generator yields the records with
data, in order, once each and complete**, it does not raise, and once the file is there it yields
them all. -/
theorem tail_yields (sched : Schedule) (records : List Record) :
    (∀ n, (∀ m < n, FindsWhole sched records (tail sched records m)) →
      (tail sched records n).raised = none ∧
        (tail sched records n).yielded <+: expected records) ∧
    ((∀ m, FindsWhole sched records (tail sched records m)) → Follows sched records) := by
  have hreached : ∀ n, (∀ m < n, FindsWhole sched records (tail sched records m)) →
      (tail sched records n).raised = none ∧
        (tail sched records n).yielded <+: expected records := by
    intro n h
    obtain ⟨-, done, hdone⟩ := tail_passed h
    refine ⟨hdone.raised_eq, ?_⟩
    rw [hdone.yielded_eq]
    exact expected_prefix hdone.isPrefix
  refine ⟨hreached, fun h => ⟨fun n => hreached n fun m _ => h m, ?_⟩⟩
  rintro ⟨k, hk⟩
  obtain ⟨done, hdone, hfar⟩ := tail_catches_up h hk records.length
  refine ⟨k + records.length, ?_⟩
  have hall : done = records := by
    rcases hfar with rfl | hfar
    · rfl
    · exact hdone.isPrefix.eq_of_length_le hfar
  rw [hdone.yielded_eq, hall]

/-- The first record is there; the second comes whole, after three reads. -/
def growing : Schedule where
  visible k := if k < 3 then 9 else 18
  mono := by
    intro i j hij
    dsimp only
    split
    · split
      · exact Nat.le_refl 9
      · decide
    · rw [if_neg (by omega)]

theorem visible_growing (k : Nat) :
    growing.visible k ≤ 9 ∧ 9 ≤ growing.visible k ∨
      18 ≤ growing.visible k ∧ 18 ≤ growing.visible (k + 1) := by
  unfold growing
  dsimp only
  by_cases hk : k < 3
  · rw [if_pos hk]
    exact .inl ⟨Nat.le_refl 9, Nat.le_refl 9⟩
  · rw [if_neg hk, if_neg (by omega)]
    exact .inr ⟨Nat.le_refl 18, Nat.le_refl 18⟩

/-- Both records are yielded, and between them a turn finds nothing. -/
theorem tail_yields_growing : Follows growing [oneByte, oneByte] ∧
    (tail growing [oneByte, oneByte] 1).yielded = expected [oneByte] ∧
    (tail growing [oneByte, oneByte] 2).yielded = expected [oneByte] ∧
    (tail growing [oneByte, oneByte] 3).yielded = expected [oneByte, oneByte] := by
  refine ⟨(tail_yields growing [oneByte, oneByte]).2 fun m before r after hsplit hpos => ?_,
    rfl, rfl, rfl⟩
  have hnine : 9 ≤ growing.visible ((tail growing [oneByte, oneByte] m).reads + 1) := by
    rcases visible_growing ((tail growing [oneByte, oneByte] m).reads + 1) with h | h
    · exact h.2
    · omega
  rcases before with _ | ⟨first, _ | ⟨second, before⟩⟩
  · cases hsplit
    rw [hpos]
    refine .inr ⟨?_, hnine⟩
    show 0 + 8 ≤ _
    have := visible_growing (tail growing [oneByte, oneByte] m).reads
    omega
  · cases hsplit
    have hnine : (content [oneByte]).length = 9 := rfl
    rw [hpos, hnine]
    rcases visible_growing (tail growing [oneByte, oneByte] m).reads with ⟨hnone, -⟩ | ⟨hall, hmore⟩
    · exact .inl hnone
    · exact .inr ⟨by omega, hmore⟩
  · have hlen := congrArg List.length hsplit
    simp only [List.length_append, List.length_cons, List.length_nil] at hlen
    omega

/-- The reads of a turn see the header and not the data, which comes later. -/
def headerFirst : Schedule where
  visible k := if k < 2 then 8 else 9
  mono := by
    intro i j hij
    dsimp only
    split
    · split
      · exact Nat.le_refl 8
      · decide
    · rw [if_neg (by omega)]

/-- The writer has written a header and not yet the data: the generator drops the header and takes
the data for the next. -/
theorem headerFirst_raises :
    (tail headerFirst [oneByte] 2).raised = some .typeError ∧ ¬ Follows headerFirst [oneByte] := by
  have hraised : (tail headerFirst [oneByte] 2).raised = some .typeError := rfl
  refine ⟨hraised, fun h => ?_⟩
  have hnone := (h.1 2).1
  rw [hraised] at hnone
  cases hnone

end LoPhi.Capture.Generator
