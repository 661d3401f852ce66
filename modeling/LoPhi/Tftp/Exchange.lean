import LoPhi.Tftp.Sessions

/-! # A whole transfer

A connection that reads and one that writes, and a network between them of which nothing is
assumed but that what it delivers from an end was sent by it: any datagram sent so far, whether
it was delivered before or not, in any order, and others'. The two go in lock-step, so what is
written is always a beginning of the file, and all of it when the writing end is through. -/

namespace LoPhi.Tftp.Exchange
open LoPhi.Lib LoPhi.Lib.Effect LoPhi.Lib.Struct LoPhi.Lib.Interaction LoPhi.Lib.Lockstep
open LoPhi.Tftp.Server LoPhi.Tftp.Transfer LoPhi.Tftp.Upload LoPhi.Tftp.Sessions

/-- The two ends. -/
structure Ends where
  reader : Thread
  writer : Thread

/-- What can arrive from an end: nothing for a while, what others send, and what it has sent. -/
inductive Arrives (peer : Thread) : Event → Prop
  | timeout : Arrives peer .timeout
  | other (d : Bytes) : Arrives peer (.datagram false d)
  | sent {d : Bytes} : d ∈ (connOf peer).sent → Arrives peer (.datagram true d)

inductive Step (reading writing : Environment) : Ends → Ends → Prop
  | reader {x : Ends} {e : Event} : Arrives x.writer e →
      Step reading writing x { x with reader := next reading x.reader e }
  | writer {x : Ends} {e : Event} : Arrives x.reader e →
      Step reading writing x { x with writer := next writing x.writer e }

abbrev Steps (reading writing : Environment) : Ends → Ends → Prop :=
  Relation.ReflTransGen (Step reading writing)

variable {reading writing : Environment} {x x' : Ends} {content : Bytes} {bs n : Nat}

/-! ## What the ends hear from each other -/

theorem dataPacket_eq (k : Nat) (data : Bytes) :
    dataPacket k data = beBytes 2 3 ++ (beBytes 2 k ++ data) := by
  rw [dataPacket, List.append_assoc]

theorem ackOf_ackPacket {k : Nat} (hk : k < 32768) : ackOf (ackPacket k) = some (k : Int) := by
  rw [ackOf, if_pos (opcodeOf_ackPacket k), ackPacket, drop_packet,
    List.take_of_length_le (by rw [beBytes_length]), unpackShort_beBytes hk]
  rfl

theorem dataOf_dataPacket {k : Nat} (hk : k < 32768) (data : Bytes) :
    dataOf (dataPacket k data) = some ((k : Int), data) := by
  have hfour : (dataPacket k data).drop 4 = data := by
    rw [dataPacket]
    exact List.drop_left' (by rw [List.length_append, beBytes_length, beBytes_length])
  rw [dataOf, if_pos (opcodeOf_dataPacket k data), hfour, dataPacket_eq, drop_packet, take_packet,
    unpackShort_beBytes hk]
  rfl

theorem opcodeOf_of_ackOf {d : Bytes} {b : Int} (h : ackOf d = some b) : opcodeOf d = some 4 := by
  unfold ackOf at h
  split at h
  · assumption
  · cases h

theorem opcodeOf_of_dataOf {d : Bytes} {p : Int × Bytes} (h : dataOf d = some p) :
    opcodeOf d = some 3 := by
  unfold dataOf at h
  split at h
  · assumption
  · cases h

/-- What was sent as the next block is the next block. -/
theorem block_of_sent {sent : List Bytes} (h : Sends content bs n sent) {d payload : Bytes}
    {m : Nat} (hd : d ∈ sent) (hdata : dataOf d = some (((m + 1 : Nat) : Int), payload)) :
    m < n ∧ d = dataPacket (m + 1) (block bs content (m + 1)) ∧
      payload = block bs content (m + 1) := by
  obtain ⟨k, -, hk, rfl⟩ := h.only d hd (opcodeOf_of_dataOf hdata)
  rw [dataOf_dataPacket (Nat.lt_of_le_of_lt hk h.fits), Option.some_inj] at hdata
  injection hdata with hnumber hpayload
  obtain rfl : k = m + 1 := Int.natCast_inj.mp hnumber
  exact ⟨hk, rfl, hpayload.symm⟩

/-- The ends, and where each of them is. -/
structure Between (reading writing : Environment) (content : Bytes) (bs : Nat)
    (t : Lockstep.Transfer Bytes) (x : Ends) : Prop where
  reads : Reads reading content bs t.sent x.reader
  writes : Writes writing bs t.kept x.writer

variable {t t' : Lockstep.Transfer Bytes}

/-- What one end does is nothing to the other, or a step of the two in lock-step. -/
theorem Between.step (hbs : 0 < bs) (h : Between reading writing content bs t x)
    (hin : InStep (block bs content) t) (hstep : Step reading writing x x') :
    ∃ t', Relation.ReflGen (Lockstep.Step (block bs content)) t t' ∧
      Between reading writing content bs t' x' := by
  cases hstep with
  | @reader e harrives =>
    cases hreader : x.reader with
    | ended r =>
      refine ⟨t, .refl, ?_, h.writes⟩
      have hreads := h.reads
      rw [hreader] at hreads
      exact hreads
    | waiting w =>
      have hreads := h.reads
      rw [hreader] at hreads
      rcases reads_step hbs hreads e with hsame | ⟨d, he, hack, hnext⟩
      · exact ⟨t, .refl, hsame, h.writes⟩
      · rw [he] at harrives
        cases harrives with
        | sent hsent =>
          obtain ⟨k, hk, rfl⟩ := (writes_acks h.writes).only d hsent (opcodeOf_of_ackOf hack)
          have hfits := (writes_acks h.writes).fits
          rw [ackOf_ackPacket (Nat.lt_of_le_of_lt hk hfits), Option.some_inj,
            Int.natCast_inj] at hack
          have hlast : t.sent = t.kept.length := by
            have := hin.behind
            omega
          exact ⟨_, .single (.send hlast), hnext, h.writes⟩
  | @writer e harrives =>
    cases hwriter : x.writer with
    | ended r =>
      refine ⟨t, .refl, h.reads, ?_⟩
      have hwrites := h.writes
      rw [hwriter] at hwrites
      exact hwrites
    | waiting w =>
      have hwrites := h.writes
      rw [hwriter] at hwrites
      rcases writes_step hwrites e with hsame | ⟨d, payload, he, hdata, hnext⟩
      · exact ⟨t, .refl, h.reads, hsame⟩
      · rw [he] at harrives
        cases harrives with
        | sent hsent =>
          obtain ⟨hbehind, -, rfl⟩ := block_of_sent (reads_sends h.reads) hsent hdata
          rw [List.take_of_length_le length_block_le] at hnext
          exact ⟨_, .single (.keep hbehind), h.reads, hnext⟩

/-- However the ends come to where they are, they are in step. -/
theorem between_steps (hbs : 0 < bs) (h : Between reading writing content bs t x)
    (hin : InStep (block bs content) t) (hsteps : Steps reading writing x x') :
    ∃ t', Between reading writing content bs t' x' ∧ InStep (block bs content) t' := by
  induction hsteps with
  | refl => exact ⟨t, h, hin⟩
  | tail _ hstep ih =>
    obtain ⟨t₁, hbetween, hin₁⟩ := ih
    obtain ⟨t₂, hlock, hbetween₂⟩ := hbetween.step hbs hin₁ hstep
    refine ⟨t₂, hbetween₂, ?_⟩
    cases hlock with
    | refl => exact hin₁
    | single hlock => exact hin₁.step hlock

/-! ## From the requests on -/

/-- The ends once their requests were handled. -/
def start (reading writing : Environment) (read write : Bytes) : Ends :=
  ⟨connect reading read, connect writing write⟩

/-- A request to read the file and a request to write that agree on the block size. -/
structure Agreed (reading writing : Environment) (read write content : Bytes) (bs : Nat) :
    Prop where
  positive : 0 < bs
  readSize : requestedSize reading read = bs
  writeSize : requestedSize writing write = bs
  opened : ∃ pos, (connOf (connect reading read)).file = .reading content pos
  created : ∃ written, (connOf (connect writing write)).file = .writing written

variable {read write : Bytes}

theorem Agreed.between (h : Agreed reading writing read write content bs) :
    ∃ t, Between reading writing content bs t (start reading writing read write) ∧
      InStep (block bs content) t := by
  obtain ⟨pos, hfile⟩ := h.opened
  obtain ⟨written, hfile'⟩ := h.created
  obtain ⟨n, hn, hreads⟩ := reads_connect h.positive h.readSize hfile
  have hwrites := writes_connect h.positive h.writeSize hfile'
  exact ⟨⟨n, []⟩, ⟨hreads, hwrites⟩, inStep_start n hn⟩

/-- What an end that is through has kept. -/
theorem kept_all (hbs : 0 < bs) (hin : InStep (block bs content) t)
    (hcomplete : Complete bs t.kept) (hsent : t.sent ≤ blockCount bs content) :
    t.kept.length = blockCount bs content := by
  obtain ⟨init, last, hkept, -, hlast⟩ := hcomplete
  have hlength : t.kept.length = init.length + 1 := by
    rw [hkept, List.length_append, List.length_singleton]
  have hget : last = block bs content (init.length + 1) := by
    have hget := hin.get (k := init.length) (by omega)
    rw [hkept, List.getElem?_append_right (Nat.le_refl _), Nat.sub_self] at hget
    exact Option.some.inj hget
  rw [hget, Ne, full_iff hbs] at hlast
  have := hin.behind
  omega

/-- What is written is always a beginning of the file, and the whole file when the writing end
is through. -/
theorem written_prefix (h : Agreed reading writing read write content bs)
    (hsteps : Steps reading writing (start reading writing read write) x') :
    ∃ written, (connOf x'.writer).file = .writing written ∧ written <+: content ∧
      ∀ c, x'.writer = .ended (.finished, c) → written = content := by
  obtain ⟨t, hbetween, hin⟩ := h.between
  obtain ⟨t', hbetween', hin'⟩ := between_steps h.positive hbetween hin hsteps
  have hkept : t'.kept = firstBlocks bs content t'.kept.length := hin'.kept
  refine ⟨t'.kept.flatten, writes_file hbetween'.writes, ?_, fun c hc => ?_⟩
  · rw [hkept, flatten_firstBlocks]
    exact List.take_prefix _ _
  · have hwrites := hbetween'.writes
    rw [hc] at hwrites
    have hall := kept_all h.positive hin' (hwrites.2.2 rfl) (reads_sends hbetween'.reads).within
    rw [hkept]
    exact flatten_all h.positive (Nat.le_of_eq hall.symm)

/-- The connection has ended well. -/
def Finished (t : Thread) : Prop := ∃ c, t = .ended (.finished, c)

instance : DecidablePred Finished
  | .waiting _ => .isFalse (by rintro ⟨c, h⟩; cases h)
  | .ended (.finished, c) => .isTrue ⟨c, rfl⟩
  | .ended (.failed _, _) => .isFalse (by rintro ⟨c, h⟩; cases h)

theorem agreed_oneFile : Agreed oneFile oneFile (fileRequest 1) (fileRequest 2) [1, 2, 3] 2 where
  positive := by decide
  readSize := requestedSize_oneFile.1
  writeSize := requestedSize_oneFile.2
  opened := ⟨2, file_oneFile.1⟩
  created := ⟨[], file_oneFile.2⟩

/-- The connection for that file once it has heard these datagrams from its client. -/
def heard (opcode : UInt8) (datagrams : List Bytes) : Thread :=
  run oneFile (connect oneFile (fileRequest opcode)) (datagrams.map fun d => .datagram true d)

theorem heard_append (opcode : UInt8) (datagrams : List Bytes) (d : Bytes) :
    heard opcode (datagrams ++ [d]) = next oneFile (heard opcode datagrams) (.datagram true d) := by
  simp [heard, run]

theorem step_heard_writer {reader : Thread} {d : Bytes} (h : d ∈ (connOf reader).sent)
    (datagrams : List Bytes) :
    Step oneFile oneFile ⟨reader, heard 2 datagrams⟩ ⟨reader, heard 2 (datagrams ++ [d])⟩ := by
  rw [heard_append]
  exact .writer (.sent h)

theorem step_heard_reader {writer : Thread} {d : Bytes} (h : d ∈ (connOf writer).sent)
    (datagrams : List Bytes) :
    Step oneFile oneFile ⟨heard 1 datagrams, writer⟩ ⟨heard 1 (datagrams ++ [d]), writer⟩ := by
  rw [heard_append]
  exact .reader (.sent h)

/-- The ends once the first block has arrived twice, its acknowledgement, and the second block. -/
def transferred : Ends where
  reader := heard 1 [ackPacket 1]
  writer := heard 2 [dataPacket 1 [1, 2], dataPacket 1 [1, 2], dataPacket 2 [3]]

/-- What they have sent in between. -/
theorem sent_oneFile :
    dataPacket 1 [1, 2] ∈ (connOf (heard 1 [])).sent ∧
      ackPacket 1 ∈ (connOf (heard 2 [dataPacket 1 [1, 2], dataPacket 1 [1, 2]])).sent ∧
      dataPacket 2 [3] ∈ (connOf (heard 1 [ackPacket 1])).sent := by
  decide +kernel

theorem finished_transferred : Finished transferred.writer := by
  decide +kernel

theorem steps_transferred :
    Steps oneFile oneFile (start oneFile oneFile (fileRequest 1) (fileRequest 2)) transferred := by
  obtain ⟨hfirst, hack, hsecond⟩ := sent_oneFile
  have hstart : start oneFile oneFile (fileRequest 1) (fileRequest 2) =
      ⟨heard 1 [], heard 2 []⟩ := by
    simp only [start, heard, run, List.map_nil, List.foldl_nil]
  rw [hstart]
  have hdata : Step oneFile oneFile ⟨heard 1 [], heard 2 []⟩
      ⟨heard 1 [], heard 2 [dataPacket 1 [1, 2]]⟩ := step_heard_writer hfirst []
  have hagain : Step oneFile oneFile ⟨heard 1 [], heard 2 [dataPacket 1 [1, 2]]⟩
      ⟨heard 1 [], heard 2 [dataPacket 1 [1, 2], dataPacket 1 [1, 2]]⟩ :=
    step_heard_writer hfirst [dataPacket 1 [1, 2]]
  have hacked : Step oneFile oneFile
      ⟨heard 1 [], heard 2 [dataPacket 1 [1, 2], dataPacket 1 [1, 2]]⟩
      ⟨heard 1 [ackPacket 1], heard 2 [dataPacket 1 [1, 2], dataPacket 1 [1, 2]]⟩ :=
    step_heard_reader hack []
  have hlast : Step oneFile oneFile
      ⟨heard 1 [ackPacket 1], heard 2 [dataPacket 1 [1, 2], dataPacket 1 [1, 2]]⟩
      ⟨heard 1 [ackPacket 1],
        heard 2 [dataPacket 1 [1, 2], dataPacket 1 [1, 2], dataPacket 2 [3]]⟩ :=
    step_heard_writer hsecond [dataPacket 1 [1, 2], dataPacket 1 [1, 2]]
  exact .head hdata (.head hagain (.head hacked (.single hlast)))

theorem written_prefix_oneFile :
    (∃ c, transferred.writer = .ended (.finished, c)) ∧
      ∃ written, (connOf transferred.writer).file = .writing written ∧ written <+: [1, 2, 3] ∧
        ∀ c, transferred.writer = .ended (.finished, c) → written = [1, 2, 3] :=
  ⟨finished_transferred, written_prefix agreed_oneFile steps_transferred⟩

end LoPhi.Tftp.Exchange
