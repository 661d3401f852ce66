import LoPhi.Tftp.Exchange

/-! # A transfer over a network that loses datagrams

Here what an end sends is in flight until it arrives or is lost. An end that waits sends its last
datagram again, so what was lost comes again; but the end that reads does not wait behind its last
block. Once that is sent, the transfer can only be completed while the block is in flight. -/

namespace LoPhi.Tftp.Loss
open LoPhi.Lib LoPhi.Lib.Effect LoPhi.Lib.Struct LoPhi.Lib.Interaction LoPhi.Lib.Lockstep
open LoPhi.Tftp.Server LoPhi.Tftp.Transfer LoPhi.Tftp.Upload LoPhi.Tftp.Sessions
open LoPhi.Tftp.Exchange hiding Arrives Step Steps start

/-- The two ends, and the datagrams in flight to each of them. -/
structure Network where
  ends : Ends
  toReader : List Bytes
  toWriter : List Bytes

/-- What happens to an end, and what it leaves in flight to it. -/
inductive Arrives (flight : List Bytes) : Event → List Bytes → Prop
  | timeout : Arrives flight .timeout flight
  | other (d : Bytes) : Arrives flight (.datagram false d) flight
  | sent {d : Bytes} : d ∈ flight → Arrives flight (.datagram true d) (flight.erase d)

/-- What a thread has sent since. -/
def sentSince (before after : Thread) : List Bytes :=
  (connOf after).sent.drop (connOf before).sent.length

/-- One end goes on, or datagrams in flight are lost, repeated or reordered. -/
inductive Step (reading writing : Environment) : Network → Network → Prop
  | reader {x : Network} {e : Event} {rest : List Bytes} : Arrives x.toReader e rest →
      Step reading writing x {
        ends := { x.ends with reader := next reading x.ends.reader e }
        toReader := rest
        toWriter := x.toWriter ++ sentSince x.ends.reader (next reading x.ends.reader e) }
  | writer {x : Network} {e : Event} {rest : List Bytes} : Arrives x.toWriter e rest →
      Step reading writing x {
        ends := { x.ends with writer := next writing x.ends.writer e }
        toReader := x.toReader ++ sentSince x.ends.writer (next writing x.ends.writer e)
        toWriter := rest }
  | flight {x : Network} {toReader toWriter : List Bytes} : toReader ⊆ x.toReader →
      toWriter ⊆ x.toWriter → Step reading writing x ⟨x.ends, toReader, toWriter⟩

abbrev Steps (reading writing : Environment) : Network → Network → Prop :=
  Relation.ReflTransGen (Step reading writing)

/-- The network once the requests were handled. -/
def start (reading writing : Environment) (read write : Bytes) : Network where
  ends := Exchange.start reading writing read write
  toReader := (connOf (connect writing write)).sent
  toWriter := (connOf (connect reading read)).sent

variable {env reading writing : Environment} {x x' : Network} {content : Bytes} {bs : Nat}
  {t : Lockstep.Transfer Bytes} {w : Waiting} {n : Nat} {kept : List Bytes}

/-! ## What is sent stays sent -/

def Grows (c c' : Connection) : Prop := c.sent <+: c'.sent

theorem composes_grows : Composes Grows where
  refl _ := List.prefix_rfl
  trans h h' := h.trans h'

theorem grows_of_sent {c c' : Connection} (h : c'.sent = c.sent) : Grows c c' :=
  ⟨[], (List.append_nil c.sent).trans h.symm⟩

theorem keeps_sendto (pkt : Bytes) : Keeps Grows (sendto pkt) := by
  intro c
  rcases sendto_cases pkt c with h | h
  · rw [h]
    exact List.prefix_append _ _
  · rw [h]
    exact List.prefix_rfl

theorem keeps_send (pkt : Bytes) : Keeps Grows (send pkt) :=
  keeps_bind composes_grows (keeps_sendto pkt) fun _ => keeps_modify fun _ => List.prefix_rfl

theorem keeps_retransmit : Keeps Grows retransmit := by
  intro c
  unfold retransmit
  split
  · exact List.prefix_rfl
  · exact keeps_sendto c.lastpkt c

theorem keeps_readFile : Keeps Grows readFile := by
  intro c
  unfold readFile
  split
  · exact List.prefix_rfl
  · exact List.prefix_rfl
  · split
    · exact List.prefix_rfl
    · exact List.prefix_rfl

theorem keeps_writeFile (data : Bytes) : Keeps Grows (writeFile data) := by
  intro c
  unfold writeFile
  split
  · exact List.prefix_rfl
  · exact List.prefix_rfl
  · exact List.prefix_rfl

theorem keeps_sendData (data : Bytes) : Keeps Grows (sendData data) := by
  refine keeps_bind composes_grows (keeps_modify fun _ => List.prefix_rfl) fun _ => ?_
  refine keeps_bind composes_grows (keeps_get composes_grows) fun c => ?_
  refine keeps_bind composes_grows (keeps_ofExcept composes_grows _) fun _ => ?_
  refine keeps_bind composes_grows (keeps_send _) fun _ => ?_
  exact keeps_modify fun _ => List.prefix_rfl

theorem keeps_sendAck : Keeps Grows sendAck := by
  refine keeps_bind composes_grows (keeps_get composes_grows) fun c => ?_
  refine keeps_bind composes_grows (keeps_modify fun _ => List.prefix_rfl) fun _ => ?_
  refine keeps_bind composes_grows (keeps_ofExcept composes_grows _) fun _ => ?_
  exact keeps_send _

theorem keeps_recvAck (block : Int) : Keeps Grows (recvAck block) := by
  refine keeps_bind composes_grows (keeps_get composes_grows) fun c => ?_
  split
  · refine keeps_bind composes_grows (keeps_get composes_grows) fun c => ?_
    split
    · exact keeps_bind composes_grows keeps_readFile keeps_sendData
    · exact keeps_pure composes_grows _
  · exact keeps_pure composes_grows _

theorem keeps_recvData (block : Int) (data : Bytes) : Keeps Grows (recvData block data) := by
  refine keeps_bind composes_grows (keeps_get composes_grows) fun c => ?_
  split
  · refine keeps_bind composes_grows (keeps_modify fun _ => List.prefix_rfl) fun _ => ?_
    exact keeps_bind composes_grows keeps_sendAck fun _ => keeps_writeFile data
  · exact keeps_pure composes_grows _

theorem keeps_handlePacket (pkt : Pkt) : Keeps Grows (handlePacket pkt) := by
  cases pkt with
  | request opcode entries => exact keeps_raise composes_grows _
  | ack block => exact keeps_recvAck block
  | data block data => exact keeps_recvData block data
  | err errnum errtxt => exact keeps_retransmit

/-- What `parse` does to a connection sends nothing. -/
theorem keeps_parse (host : Host) (data : Bytes) : Keeps Grows (parse host data) := by
  intro c
  have hparsed := parse_cases host data c
  cases hparse : parse host data c with
  | mk result c₁ =>
    rw [hparse] at hparsed
    cases hparsed with
    | raised hunmoved => exact grows_of_sent hunmoved.sent
    | request hunmoved => exact grows_of_sent hunmoved.sent
    | ack _ => exact List.prefix_rfl
    | data _ => exact List.prefix_rfl
    | err => exact List.prefix_rfl

theorem grows_fail (e : Exc) (c : Connection) : Grows c (connOf (fail e c)) := by
  obtain ⟨c', hfail, -, hsent | ⟨pkt, -, hsent⟩⟩ := fail_sent e c
  · rw [hfail]
    exact grows_of_sent hsent
  · rw [hfail]
    exact ⟨[pkt], hsent.symm⟩

theorem grows_settle (env : Environment) (result : Except Exc Unit × Connection) :
    Grows result.2 (connOf (settle env result)) := by
  obtain ⟨result, c⟩ := result
  cases result with
  | error e => exact grows_fail e c
  | ok _ =>
    rw [settle_ok]
    split
    · rcases recv_cases env c with ⟨-, hrecv⟩ | ⟨e, hrecv⟩
      · rw [hrecv]
        exact List.prefix_rfl
      · rw [hrecv]
        exact grows_fail e c
    · exact List.prefix_rfl

theorem grows_step (env : Environment) (w : Waiting) (e : Event) :
    Grows w.conn (connOf (Server.step env w e)) := by
  cases e with
  | timeout =>
    have hkeeps := keeps_retransmit w.conn
    unfold Server.step
    cases hsend : retransmit w.conn with
    | mk result c =>
      rw [hsend] at hkeeps
      cases result with
      | error e => exact composes_grows.trans hkeeps (grows_fail e c)
      | ok _ =>
        dsimp only
        split
        · exact composes_grows.trans hkeeps (grows_fail timedOut c)
        · exact hkeeps
  | datagram fromClient d =>
    unfold Server.step
    dsimp only
    split
    · exact grows_fail _ _
    · split
      · exact grows_fail _ _
      · split
        · refine composes_grows.trans ?_ (grows_settle env _)
          exact keeps_bind composes_grows (keeps_parse _ _) keeps_handlePacket w.conn
        · exact List.prefix_rfl

theorem sent_next (env : Environment) (t : Thread) (e : Event) :
    (connOf (next env t e)).sent = (connOf t).sent ++ sentSince t (next env t e) := by
  have hgrows : Grows (connOf t) (connOf (next env t e)) := by
    cases t with
    | waiting w => exact grows_step env w e
    | ended r => exact List.prefix_rfl
  exact (List.prefix_iff_eq_append.mp hgrows).symm

theorem sentSince_ended (env : Environment) (r : Ending × Connection) (e : Event) :
    sentSince (.ended r) (next env (.ended r) e) = [] := List.drop_length

/-! ## Only what was sent is in flight -/

structure InFlight (x : Network) : Prop where
  toReader : x.toReader ⊆ (connOf x.ends.writer).sent
  toWriter : x.toWriter ⊆ (connOf x.ends.reader).sent

theorem inFlight_start (read write : Bytes) : InFlight (start reading writing read write) :=
  ⟨List.Subset.refl _, List.Subset.refl _⟩

theorem Arrives.subset {flight rest : List Bytes} {e : Event} (h : Arrives flight e rest) :
    rest ⊆ flight := by
  cases h with
  | timeout => exact List.Subset.refl _
  | other d => exact List.Subset.refl _
  | sent _ => exact List.erase_subset

/-- What arrives here may arrive where nothing is ever lost. -/
theorem Arrives.exchange {flight rest : List Bytes} {e : Event} {peer : Thread}
    (h : Arrives flight e rest) (hflight : flight ⊆ (connOf peer).sent) :
    Exchange.Arrives peer e := by
  cases h with
  | timeout => exact .timeout
  | other d => exact .other d
  | sent hd => exact .sent (hflight hd)

theorem InFlight.step (h : InFlight x) (hstep : Step reading writing x x') : InFlight x' := by
  cases hstep with
  | @reader e rest harrives =>
    refine ⟨List.Subset.trans harrives.subset h.toReader, ?_⟩
    rw [sent_next]
    exact List.append_subset.mpr
      ⟨List.Subset.trans h.toWriter (List.subset_append_left _ _), List.subset_append_right _ _⟩
  | @writer e rest harrives =>
    refine ⟨?_, List.Subset.trans harrives.subset h.toWriter⟩
    rw [sent_next]
    exact List.append_subset.mpr
      ⟨List.Subset.trans h.toReader (List.subset_append_left _ _), List.subset_append_right _ _⟩
  | flight hreader hwriter =>
    exact ⟨List.Subset.trans hreader h.toReader, List.Subset.trans hwriter h.toWriter⟩

theorem InFlight.exchange (h : InFlight x) (hstep : Step reading writing x x') :
    Exchange.Steps reading writing x.ends x'.ends := by
  cases hstep with
  | reader harrives => exact .single (.reader (harrives.exchange h.toReader))
  | writer harrives => exact .single (.writer (harrives.exchange h.toWriter))
  | flight _ _ => exact .refl

/-- Losing datagrams leads nowhere that a network without loss does not. -/
theorem InFlight.steps (h : InFlight x) (hsteps : Steps reading writing x x') :
    InFlight x' ∧ Exchange.Steps reading writing x.ends x'.ends := by
  induction hsteps with
  | refl => exact ⟨h, .refl⟩
  | tail _ hstep ih => exact ⟨ih.1.step hstep, ih.2.trans (ih.1.exchange hstep)⟩

/-! ## What gets through -/

theorem parse_ackPacket (host : Host) {k : Nat} (hk : k < 32768) (c : Connection) :
    parse host (ackPacket k) c = (.ok (.ack k), c) := by
  have hop : unpackShort ((ackPacket k).take 2) = .ok 4 := by
    rw [ackPacket, take_packet]
    exact unpackShort_beBytes (by decide)
  have hblock : unpackShort (((ackPacket k).drop 2).take 2) = .ok (k : Int) := by
    rw [ackPacket, drop_packet, List.take_of_length_le (by rw [beBytes_length]),
      unpackShort_beBytes hk]
  unfold parse
  rw [hop, ofExcept_ok_bind, if_neg (by decide), if_pos rfl, hblock]
  rfl

theorem parse_dataPacket (host : Host) {k : Nat} (hk : k < 32768) (data : Bytes)
    (c : Connection) : parse host (dataPacket k data) c = (.ok (.data k data), c) := by
  have hop : unpackShort ((dataPacket k data).take 2) = .ok 3 := by
    rw [dataPacket_eq, take_packet]
    exact unpackShort_beBytes (by decide)
  have hblock : unpackShort (((dataPacket k data).drop 2).take 2) = .ok (k : Int) := by
    rw [dataPacket_eq, drop_packet, take_packet, unpackShort_beBytes hk]
  have hrest : (dataPacket k data).drop 4 = data := by
    rw [dataPacket]
    exact List.drop_left' (by rw [List.length_append, beBytes_length, beBytes_length])
  unfold parse
  rw [hop, ofExcept_ok_bind, if_neg (by decide), if_neg (by decide), if_pos rfl, hblock, hrest]
  rfl

/-- A datagram of the client that fits is parsed as it is. -/
theorem step_client (hsize : w.conn.blocksize = bs) (hfit : bs + 4 ≤ 65507) {d : Bytes}
    (hd : d.length ≤ bs + 4) {pkt : Pkt}
    (hparse : parse env.host d w.conn = (.ok pkt, w.conn)) :
    Server.step env w (.datagram true d) = settle env (handlePacket pkt w.conn) := by
  have hpktsize : w.conn.blocksize + 4 = ((bs + 4 : Nat) : Int) := by
    rw [hsize]
    rfl
  unfold Server.step
  dsimp only
  rw [hpktsize, if_neg (by omega), if_neg (by omega), if_pos rfl, Int.toNat_natCast,
    List.take_of_length_le hd, bind_ok hparse]

/-- The acknowledgement of the last block gets the next one sent. -/
theorem reads_acked (hbs : 0 < bs) (hfit : bs + 4 ≤ 65507)
    (h : Reads env content bs n (.waiting w)) (hn : n + 1 < 32768) :
    Reads env content bs (n + 1) (Server.step env w (.datagram true (ackPacket n))) ∧
      ¬ Failed (Server.step env w (.datagram true (ackPacket n))) := by
  obtain ⟨h, hready⟩ := h
  rw [step_client h.blocksize hfit (by rw [length_ackPacket]; omega)
    (parse_ackPacket env.host (by omega) w.conn)]
  show Reads env content bs (n + 1) (settle env (recvAck n w.conn)) ∧ _
  have hnext : settle env (handlePacket (.ack n) w.conn) =
      settle env ((do
        let data ← readFile
        sendData data : Prog Exc Connection Unit) w.conn) := by
    show settle env (recvAck n w.conn) = _
    rw [recvAck_eq, if_pos (by rw [h.blockNumber]), if_pos h.active]
  rcases reads_next hbs h hnext.symm with ⟨hreads, hok⟩ | ⟨hunfit, -⟩
  · exact ⟨hreads, hok hready⟩
  · exact absurd ⟨hn, hfit⟩ hunfit

/-- The next block is kept. -/
theorem writes_sent (hfit : bs + 4 ≤ 65507) (h : Writes env bs kept (.waiting w))
    (hn : kept.length + 1 < 32768) {data : Bytes} (hdata : data.length ≤ bs) :
    Writes env bs (kept ++ [data])
        (Server.step env w (.datagram true (dataPacket (kept.length + 1) data))) ∧
      ¬ Failed (Server.step env w (.datagram true (dataPacket (kept.length + 1) data))) := by
  obtain ⟨h, hready⟩ := h
  rw [step_client h.blocksize hfit (by rw [length_dataPacket]; omega)
    (parse_dataPacket env.host hn data w.conn)]
  have hnext : settle env (recvData (kept.length + 1 : Nat) data w.conn) = _ := rfl
  rcases writes_next h hnext with ⟨hwrites, hok⟩ | ⟨hunfit, -⟩
  · exact ⟨hwrites, hok hready⟩
  · exact absurd hn hunfit

/-- A thread that waits, or has ended well. -/
theorem not_failed_cases {t : Thread} (h : ¬ Failed t) :
    (∃ w, t = .waiting w) ∨ ∃ c, t = .ended (.finished, c) := by
  cases t with
  | waiting w => exact .inl ⟨w, rfl⟩
  | ended r =>
    obtain ⟨ending, c⟩ := r
    cases ending with
    | finished => exact .inr ⟨c, rfl⟩
    | failed e => exact absurd trivial h

/-- An end that has kept all blocks does not wait. -/
theorem not_waiting_all (hbs : 0 < bs) (hin : InStep (block bs content) t)
    (hall : t.kept.length = blockCount bs content) :
    ¬ Writes writing bs t.kept (.waiting w) := by
  intro h
  rw [blockCount] at hall
  have hlast := List.mem_of_getElem? (hin.get (k := content.length / bs) (by omega))
  have hfull := h.1.full _ hlast
  rw [full_iff hbs, blockCount] at hfull
  exact Nat.lt_irrefl _ hfull

/-! ## What is due -/

/-- The thread is in `recv`. -/
def Waits (t : Thread) : Prop := ∃ w, t = .waiting w

instance : DecidablePred Waits
  | .waiting w => .isTrue ⟨w, rfl⟩
  | .ended _ => .isFalse (by rintro ⟨w, h⟩; cases h)

/-- The thread has not given up, and can be silent once more without giving up. -/
def Alive (t : Thread) : Prop := ¬ Failed t ∧ ∀ w, t = .waiting w → 2 ≤ w.retry

instance : DecidablePred Alive
  | .waiting w => decidable_of_iff (2 ≤ w.retry)
      ⟨fun h => ⟨not_false, fun _ hw => by cases hw; exact h⟩, fun h => h.2 w rfl⟩
  | .ended r => decidable_of_iff (¬ Failed (.ended r))
      ⟨fun h => ⟨h, fun _ hw => by cases hw⟩, fun h => h.1⟩

/-- The short block at the end of the file. -/
def lastPacket (bs : Nat) (content : Bytes) : Bytes :=
  dataPacket (blockCount bs content) (block bs content (blockCount bs content))

/-- The datagram that takes the transfer on is in flight. -/
def Due (bs : Nat) (content : Bytes) (t : Lockstep.Transfer Bytes) (x : Network) : Prop :=
  t.kept.length < t.sent ∧
      dataPacket (t.kept.length + 1) (block bs content (t.kept.length + 1)) ∈ x.toWriter ∨
    t.sent = t.kept.length ∧ ackPacket t.kept.length ∈ x.toReader

/-- What is among the sent and was not before was sent since. -/
theorem mem_sentSince {e : Event} {d : Bytes} {t : Thread} (hnew : d ∈ (connOf (next env t e)).sent)
    (hold : d ∉ (connOf t).sent) : d ∈ sentSince t (next env t e) := by
  rw [sent_next] at hnew
  exact (List.mem_append.mp hnew).resolve_left hold

theorem ack_sentSince {kept : List Bytes} {data : Bytes} {e : Event} {t : Thread}
    (h : Writes env bs kept t) (hnext : Writes env bs (kept ++ [data]) (next env t e)) :
    ackPacket (kept.length + 1) ∈ sentSince t (next env t e) := by
  have hnew := writes_acks hnext
  rw [List.length_append, List.length_singleton] at hnew
  refine mem_sentSince hnew.last fun hold => ?_
  obtain ⟨k, hk, hsame⟩ := (writes_acks h).only _ hold (opcodeOf_ackPacket _)
  have hnumber := congrArg ackOf hsame
  rw [ackOf_ackPacket hnew.fits, ackOf_ackPacket (by have := hnew.fits; omega), Option.some_inj,
    Int.natCast_inj] at hnumber
  omega

theorem data_sentSince {n : Nat} {e : Event} {t : Thread} (h : Reads env content bs n t)
    (hnext : Reads env content bs (n + 1) (next env t e)) :
    dataPacket (n + 1) (block bs content (n + 1)) ∈ sentSince t (next env t e) := by
  have hnew := reads_sends hnext
  refine mem_sentSince (hnew.all (n + 1) (Nat.le_add_left 1 n) (Nat.le_refl _)) fun hold => ?_
  have hdata := dataOf_dataPacket hnew.fits (block bs content (n + 1))
  exact Nat.lt_irrefl n (block_of_sent (reads_sends h) hold hdata).1

/-- The next block arrives: it is kept, and its acknowledgement is in flight. -/
theorem data_arrives (hfit : bs + 4 ≤ 65507) (h : Between reading writing content bs t x.ends)
    (hw : x.ends.writer = .waiting w) (hbehind : t.kept.length < t.sent)
    (hdata : dataPacket (t.kept.length + 1) (block bs content (t.kept.length + 1)) ∈ x.toWriter) :
    ∃ x', Step reading writing x x' ∧ x'.ends.reader = x.ends.reader ∧
      ¬ Failed x'.ends.writer ∧
      Between reading writing content bs
        ⟨t.sent, t.kept ++ [block bs content (t.kept.length + 1)]⟩ x'.ends ∧
      ackPacket (t.kept.length + 1) ∈ x'.toReader := by
  have hwrites := h.writes
  rw [hw] at hwrites
  have hfits := (reads_sends h.reads).fits
  have hsize : (block bs content (t.kept.length + 1)).length ≤ bs := length_block_le
  obtain ⟨hnext, hok⟩ := writes_sent hfit hwrites (by omega) hsize
  have hstep : Step reading writing x _ := .writer (.sent hdata)
  rw [hw] at hstep
  exact ⟨_, hstep, rfl, hok, ⟨h.reads, hnext⟩,
    List.mem_append_right _ (ack_sentSince hwrites hnext)⟩

/-- The acknowledgement arrives: the next block is sent. -/
theorem ack_arrives (hbs : 0 < bs) (hfit : bs + 4 ≤ 65507)
    (hcount : blockCount bs content < 32768) (h : Between reading writing content bs t x.ends)
    (hv : x.ends.reader = .waiting w) (hack : ackPacket t.sent ∈ x.toReader) :
    ∃ x', Step reading writing x x' ∧ x'.ends.writer = x.ends.writer ∧
      ¬ Failed x'.ends.reader ∧
      Between reading writing content bs ⟨t.sent + 1, t.kept⟩ x'.ends ∧
      dataPacket (t.sent + 1) (block bs content (t.sent + 1)) ∈ x'.toWriter := by
  have hreads := h.reads
  rw [hv] at hreads
  have hmore := hreads.1.more
  obtain ⟨hnext, hok⟩ := reads_acked hbs hfit hreads (by omega)
  have hstep : Step reading writing x _ := .reader (.sent hack)
  rw [hv] at hstep
  exact ⟨_, hstep, rfl, hok, ⟨hnext, h.writes⟩,
    List.mem_append_right _ (data_sentSince hreads hnext)⟩

/-- Once what is due is in flight, nothing has to be sent twice. -/
theorem completes (hbs : 0 < bs) (hfit : bs + 4 ≤ 65507)
    (hcount : blockCount bs content < 32768) (h : Between reading writing content bs t x.ends)
    (hin : InStep (block bs content) t) (hreader : ¬ Failed x.ends.reader)
    (hwriter : ¬ Failed x.ends.writer) (hdue : Due bs content t x) :
    ∃ x', Steps reading writing x x' ∧ Finished x'.ends.writer := by
  -- what is left: blocks to send and blocks to keep
  induction hleft : 2 * blockCount bs content - (t.sent + t.kept.length)
    using Nat.strong_induction_on generalizing t x with
  | _ left ih =>
    have hwithin := (reads_sends h.reads).within
    rcases not_failed_cases hwriter with ⟨w, hw⟩ | hfinished
    · rcases hdue with ⟨hbehind, hdata⟩ | ⟨hlast, hack⟩
      · obtain ⟨x₁, hstep, hsame, hok, hbetween, hack⟩ := data_arrives hfit h hw hbehind hdata
        have hlength : (t.kept ++ [block bs content (t.kept.length + 1)]).length =
            t.kept.length + 1 := by
          rw [List.length_append, List.length_singleton]
        have hahead := hin.ahead
        obtain ⟨x', hsteps, hend⟩ := ih _ (by simp only [hlength]; omega) hbetween
          (hin.step (.keep hbehind)) (hsame ▸ hreader) hok
          (.inr ⟨by simp only [hlength]; omega, by simp only [hlength]; exact hack⟩) rfl
        exact ⟨x', .head hstep hsteps, hend⟩
      · rcases not_failed_cases hreader with ⟨v, hv⟩ | ⟨c, hc⟩
        · rw [← hlast] at hack
          obtain ⟨x₁, hstep, hsame, hok, hbetween, hdata⟩ :=
            ack_arrives hbs hfit hcount h hv hack
          have hmore : t.sent + 1 ≤ blockCount bs content := (reads_sends hbetween.reads).within
          rw [hlast] at hdata
          obtain ⟨x', hsteps, hend⟩ := ih _ (by simp only; omega) hbetween
            (hin.step (.send hlast)) hok (hsame ▸ hwriter) (.inl ⟨by simp only; omega, hdata⟩) rfl
          exact ⟨x', .head hstep hsteps, hend⟩
        · -- an end that reads and is through has sent all blocks, so the other is through, too
          have hreads := h.reads
          rw [hc] at hreads
          have hwrites := h.writes
          rw [hw] at hwrites
          exact absurd hwrites (not_waiting_all hbs hin (hlast.symm.trans (hreads.2.2 rfl)))
    · exact ⟨x, .refl, hfinished⟩

/-! ## What was lost is sent again -/

/-- Silence makes an end that waits send its last datagram again. -/
theorem resends {pkt : Bytes} (hlast : w.conn.lastpkt = pkt) (hpos : 0 < pkt.length)
    (hsize : pkt.length ≤ 65507) (hretry : 2 ≤ w.retry) :
    ∃ w', next env (.waiting w) .timeout = .waiting w' ∧
      sentSince (.waiting w) (.waiting w') = [pkt] := by
  subst hlast
  refine ⟨⟨{ w.conn with sent := w.conn.sent ++ [w.conn.lastpkt] }, w.retry - 1⟩, ?_,
    List.drop_left⟩
  have hsome : w.conn.lastpkt ≠ [] := List.ne_nil_of_length_pos hpos
  have hsend : retransmit w.conn = _ := (if_neg hsome).trans (sendto_ok hsize w.conn)
  show Server.step env w .timeout = _
  unfold Server.step
  rw [hsend]
  exact if_neg (by omega)

/-- The reading end waits: what is due is in flight again after one silence. -/
theorem revive (hbs : 0 < bs) (hfit : bs + 4 ≤ 65507)
    (h : Between reading writing content bs t x.ends) (hin : InStep (block bs content) t)
    (hreader : Alive x.ends.reader) (hwriter : Alive x.ends.writer) {v : Waiting}
    (hv : x.ends.reader = .waiting v) (hw : x.ends.writer = .waiting w) :
    ∃ x', Step reading writing x x' ∧ Between reading writing content bs t x'.ends ∧
      ¬ Failed x'.ends.reader ∧ ¬ Failed x'.ends.writer ∧ Due bs content t x' := by
  have hreads := h.reads
  rw [hv] at hreads
  have hwrites := h.writes
  rw [hw] at hwrites
  rcases Nat.lt_or_ge t.kept.length t.sent with hbehind | hle
  · -- the reading end sends its block again
    have hnumber : t.sent = t.kept.length + 1 := by
      have := hin.ahead
      omega
    have hblock : v.conn.lastpkt = dataPacket t.sent (block bs content t.sent) := by
      rcases hreads.1.lastpkt with ⟨hzero, -⟩ | ⟨-, hblock⟩
      · omega
      · exact hblock
    have hlength : (block bs content t.sent).length ≤ bs := length_block_le
    obtain ⟨v', hnext, hsent⟩ : ∃ v', next reading (.waiting v) .timeout = .waiting v' ∧ _ :=
      resends hblock (by rw [length_dataPacket]; omega) (by rw [length_dataPacket]; omega)
        (hreader.2 v hv)
    have hsame : Reads reading content bs t.sent (.waiting v') := by
      rcases reads_step hbs hreads .timeout with hsame | ⟨d, hd, -⟩
      · rw [← hnext]
        exact hsame
      · cases hd
    have hstep : Step reading writing x _ := .reader .timeout
    rw [hv, hnext, hsent] at hstep
    refine ⟨_, hstep, ⟨hsame, h.writes⟩, not_false, hwriter.1, .inl ⟨hbehind, ?_⟩⟩
    rw [hnumber]
    exact List.mem_append_right _ (List.mem_singleton.mpr rfl)
  · -- the writing end sends its acknowledgement again
    obtain ⟨w', hnext, hsent⟩ : ∃ w', next writing (.waiting w) .timeout = .waiting w' ∧ _ :=
      resends hwrites.1.lastpkt (by rw [length_ackPacket]; decide)
        (by rw [length_ackPacket]; decide) (hwriter.2 w hw)
    have hsame : Writes writing bs t.kept (.waiting w') := by
      rcases writes_step hwrites .timeout with hsame | ⟨d, payload, hd, -⟩
      · rw [← hnext]
        exact hsame
      · cases hd
    have hstep : Step reading writing x _ := .writer .timeout
    rw [hw, hnext, hsent] at hstep
    have hlast : t.sent = t.kept.length := Nat.le_antisymm hle hin.behind
    refine ⟨_, hstep, ⟨h.reads, hsame⟩, hreader.1, not_false, .inr ⟨hlast, ?_⟩⟩
    exact List.mem_append_right _ (List.mem_singleton.mpr rfl)

/-! ## What nobody sends again -/

/-- The reading end is through, the writing end lacks the last block, and it is lost. -/
structure Stuck (reading writing : Environment) (content : Bytes) (bs : Nat) (x : Network) :
    Prop where
  ended : ∃ r, x.ends.reader = .ended r
  reads : ∃ n, Reads reading content bs n x.ends.reader
  writes : ∃ kept, Writes writing bs kept x.ends.writer ∧ ∀ d ∈ kept, d.length = bs
  lost : lastPacket bs content ∉ x.toWriter
  inFlight : InFlight x

theorem Stuck.step (hbs : 0 < bs) (h : Stuck reading writing content bs x)
    (hstep : Step reading writing x x') : Stuck reading writing content bs x' := by
  have hflight := h.inFlight.step hstep
  obtain ⟨r, hr⟩ := h.ended
  obtain ⟨n, hreads⟩ := h.reads
  obtain ⟨kept, hwrites, hfull⟩ := h.writes
  cases hstep with
  | @reader e rest harrives =>
    have hsame : next reading x.ends.reader e = x.ends.reader := by
      rw [hr]
      rfl
    have hsilent : sentSince x.ends.reader (next reading x.ends.reader e) = [] := by
      rw [hr]
      exact sentSince_ended reading r e
    refine ⟨⟨r, hsame.trans hr⟩, ⟨n, hsame.symm ▸ hreads⟩, h.writes, ?_, hflight⟩
    dsimp only
    rw [hsilent, List.append_nil]
    exact h.lost
  | @writer e rest harrives =>
    refine ⟨h.ended, h.reads, ?_, fun hlast => h.lost (harrives.subset hlast), hflight⟩
    cases hw : x.ends.writer with
    | ended q =>
      refine ⟨kept, ?_, hfull⟩
      rw [hw] at hwrites
      exact hwrites
    | waiting w =>
      rw [hw] at hwrites
      rcases writes_step hwrites e with hsame | ⟨d, payload, rfl, hdata, hnext⟩
      · exact ⟨kept, hsame, hfull⟩
      · cases harrives with
        | sent hd =>
          have hsent := h.inFlight.toWriter hd
          obtain ⟨hlt, rfl, rfl⟩ := block_of_sent (reads_sends hreads) hsent hdata
          have hwithin := (reads_sends hreads).within
          -- what arrived is not the last block
          have hmore : kept.length + 1 < blockCount bs content := by
            refine Nat.lt_of_le_of_ne (by omega) fun hall => h.lost ?_
            rw [lastPacket, ← hall]
            exact hd
          refine ⟨_, hnext, fun block hblock => ?_⟩
          rcases List.mem_append.mp hblock with hblock | hblock
          · exact hfull block hblock
          · rw [List.mem_singleton.mp hblock, List.take_of_length_le length_block_le]
            exact (full_iff hbs).mpr hmore
  | flight hreader hwriter =>
    exact ⟨h.ended, h.reads, h.writes, fun hlast => h.lost (hwriter hlast), hflight⟩

theorem Stuck.steps (hbs : 0 < bs) (h : Stuck reading writing content bs x)
    (hsteps : Steps reading writing x x') : Stuck reading writing content bs x' := by
  induction hsteps with
  | refl => exact h
  | tail _ hstep ih => exact ih.step hbs hstep

theorem Stuck.not_finished (h : Stuck reading writing content bs x) :
    ¬ Finished x.ends.writer := by
  rintro ⟨c, hc⟩
  obtain ⟨kept, hwrites, hfull⟩ := h.writes
  rw [hc] at hwrites
  obtain ⟨init, last, rfl, -, hshort⟩ := hwrites.2.2 rfl
  exact hshort (hfull last (List.mem_append_right _ (List.mem_singleton.mpr rfl)))

variable {read write : Bytes}

/-- The ends are in step whatever the network lost, and only what was sent is in flight. -/
theorem between_start (h : Agreed reading writing read write content bs)
    (hsteps : Steps reading writing (start reading writing read write) x) :
    ∃ t, Between reading writing content bs t x.ends ∧ InStep (block bs content) t ∧
      InFlight x := by
  obtain ⟨t₀, hbetween, hin⟩ := h.between
  obtain ⟨hflight, hends⟩ := (inFlight_start read write).steps hsteps
  obtain ⟨t, hbetween, hin⟩ := between_steps h.positive hbetween hin hends
  exact ⟨t, hbetween, hin, hflight⟩

/-- A transfer that neither end has given up, nor is about to, can be completed if and only if it
is complete, or the file has less than 2¹⁵ blocks and the end that reads still waits or its last
block is in flight. -/
theorem completable_iff (h : Agreed reading writing read write content bs)
    (hfit : bs + 4 ≤ 65507)
    (hsteps : Steps reading writing (start reading writing read write) x)
    (hreader : Alive x.ends.reader) (hwriter : Alive x.ends.writer) :
    (∃ x', Steps reading writing x x' ∧ Finished x'.ends.writer) ↔
      Finished x.ends.writer ∨ blockCount bs content < 32768 ∧
        (Waits x.ends.reader ∨ lastPacket bs content ∈ x.toWriter) := by
  obtain ⟨t, hbetween, hin, hflight⟩ := between_start h hsteps
  constructor
  · rintro ⟨x', hsteps', hend⟩
    rcases not_failed_cases hwriter.1 with ⟨w, hw⟩ | hfinished
    · refine .inr ⟨?_, ?_⟩
      · obtain ⟨t', hbetween', hin', -⟩ := between_start h (hsteps.trans hsteps')
        obtain ⟨c, hc⟩ := hend
        have hwrites := hbetween'.writes
        rw [hc] at hwrites
        rw [← kept_all h.positive hin' (hwrites.2.2 rfl) (reads_sends hbetween'.reads).within]
        exact hwrites.2.1.fits
      · rcases not_failed_cases hreader.1 with hwaits | ⟨c, hc⟩
        · exact .inl hwaits
        · refine .inr (not_not.mp fun hlost => ?_)
          have hwrites := hbetween.writes
          rw [hw] at hwrites
          have hstuck : Stuck reading writing content bs x :=
            { ended := ⟨_, hc⟩
              reads := ⟨_, hbetween.reads⟩
              writes := ⟨t.kept, hbetween.writes, hwrites.1.full⟩
              lost := hlost
              inFlight := hflight }
          exact (hstuck.steps h.positive hsteps').not_finished hend
    · exact .inl hfinished
  · rintro (hfinished | ⟨hcount, hgoes⟩)
    · exact ⟨x, .refl, hfinished⟩
    · rcases not_failed_cases hwriter.1 with ⟨w, hw⟩ | hfinished
      · rcases not_failed_cases hreader.1 with ⟨v, hv⟩ | ⟨c, hc⟩
        · obtain ⟨x₁, hstep, hbetween₁, hok, hok', hdue⟩ :=
            revive h.positive hfit hbetween hin hreader hwriter hv hw
          obtain ⟨x', hsteps', hend⟩ :=
            completes h.positive hfit hcount hbetween₁ hin hok hok' hdue
          exact ⟨x', .head hstep hsteps', hend⟩
        · -- all blocks were sent, so the last one is due
          have hlast : lastPacket bs content ∈ x.toWriter := by
            rcases hgoes with ⟨v, hv⟩ | hlast
            · rw [hc] at hv
              cases hv
            · exact hlast
          have hreads := hbetween.reads
          rw [hc] at hreads
          have hall := hreads.2.2 rfl
          have hwrites := hbetween.writes
          rw [hw] at hwrites
          have hlacks : ¬ t.kept.length = blockCount bs content :=
            fun hall => not_waiting_all h.positive hin hall hwrites
          have hnext : t.kept.length + 1 = blockCount bs content := by
            have hbehind := hin.behind
            have hahead := hin.ahead
            omega
          rw [lastPacket, ← hnext] at hlast
          exact completes h.positive hfit hcount hbetween hin hreader.1 hwriter.1
            (.inl ⟨by omega, hlast⟩)
      · exact ⟨x, .refl, hfinished⟩

/-- The connections for the file of three bytes, when the first block was lost. -/
def firstLost : Network :=
  { start oneFile oneFile (fileRequest 1) (fileRequest 2) with toWriter := [] }

/-- The same, when the first block and its acknowledgement arrived and the last block was lost. -/
def lastLost : Network where
  ends := ⟨heard 1 [ackPacket 1], heard 2 [dataPacket 1 [1, 2]]⟩
  toReader := []
  toWriter := []

theorem steps_firstLost :
    Steps oneFile oneFile (start oneFile oneFile (fileRequest 1) (fileRequest 2)) firstLost :=
  .single (.flight (List.Subset.refl _) (List.nil_subset _))

theorem step_heard_writer {reader : Thread} {toReader toWriter : List Bytes} {d : Bytes}
    (h : d ∈ toWriter) (datagrams : List Bytes) :
    Step oneFile oneFile ⟨⟨reader, heard 2 datagrams⟩, toReader, toWriter⟩
      ⟨⟨reader, heard 2 (datagrams ++ [d])⟩,
        toReader ++ sentSince (heard 2 datagrams) (heard 2 (datagrams ++ [d])),
        toWriter.erase d⟩ := by
  rw [heard_append]
  exact .writer (.sent h)

theorem step_heard_reader {writer : Thread} {toReader toWriter : List Bytes} {d : Bytes}
    (h : d ∈ toReader) (datagrams : List Bytes) :
    Step oneFile oneFile ⟨⟨heard 1 datagrams, writer⟩, toReader, toWriter⟩
      ⟨⟨heard 1 (datagrams ++ [d]), writer⟩, toReader.erase d,
        toWriter ++ sentSince (heard 1 datagrams) (heard 1 (datagrams ++ [d]))⟩ := by
  rw [heard_append]
  exact .reader (.sent h)

theorem flight_oneFile :
    dataPacket 1 [1, 2] ∈ (connOf (heard 1 [])).sent ∧
      ackPacket 1 ∈ (connOf (heard 2 [])).sent ++
        sentSince (heard 2 []) (heard 2 ([] ++ [dataPacket 1 [1, 2]])) := by
  decide +kernel

theorem steps_lastLost :
    Steps oneFile oneFile (start oneFile oneFile (fileRequest 1) (fileRequest 2)) lastLost := by
  obtain ⟨hdata, hack⟩ := flight_oneFile
  have hstart : start oneFile oneFile (fileRequest 1) (fileRequest 2) =
      ⟨⟨heard 1 [], heard 2 []⟩, (connOf (heard 2 [])).sent, (connOf (heard 1 [])).sent⟩ := by
    simp only [start, Exchange.start, heard, run, List.map_nil, List.foldl_nil]
  rw [hstart]
  refine .head (step_heard_writer hdata []) (.head (step_heard_reader hack []) (.single ?_))
  exact .flight (List.nil_subset _) (List.nil_subset _)

theorem alive_oneFile :
    (Alive firstLost.ends.reader ∧ Waits firstLost.ends.reader ∧
        Alive firstLost.ends.writer) ∧
      Alive lastLost.ends.reader ∧ ¬ Waits lastLost.ends.reader ∧
        Alive lastLost.ends.writer ∧ ¬ Finished lastLost.ends.writer := by
  decide +kernel

theorem completable_oneFile :
    (∃ x, Steps oneFile oneFile firstLost x ∧ Finished x.ends.writer) ∧
      ¬ ∃ x, Steps oneFile oneFile lastLost x ∧ Finished x.ends.writer := by
  obtain ⟨⟨hreader, hwaits, hwriter⟩, hreader', hends, hwriter', hopen⟩ := alive_oneFile
  refine ⟨?_, fun hcompletes => ?_⟩
  · exact (completable_iff agreed_oneFile (by decide) steps_firstLost hreader hwriter).mpr
      (.inr ⟨by decide, .inl hwaits⟩)
  · rcases (completable_iff agreed_oneFile (by decide) steps_lastLost hreader' hwriter').mp
      hcompletes with hfinished | ⟨-, hwaits | hflight⟩
    · exact hopen hfinished
    · exact hends hwaits
    · exact List.not_mem_nil hflight

end LoPhi.Tftp.Loss
