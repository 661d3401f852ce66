import LoPhi.Tftp.Upload

/-! # Connections from their request on

A request opens a file for reading, or one for writing, or none. From there on a connection that
reads has sent the first blocks of the file, each only after the client acknowledged the one
before, and a connection that writes has kept what the client sent as the next block, each once;
whatever order, number and kind of datagrams it meets, from the client or from anyone else. -/

namespace LoPhi.Tftp.Sessions
open LoPhi.Lib LoPhi.Lib.Effect LoPhi.Lib.Struct LoPhi.Lib.Interaction LoPhi.Lib.Lockstep
open LoPhi.Pxe.Dhcpd LoPhi.Tftp.Server LoPhi.Tftp.Transfer LoPhi.Tftp.Upload

variable {env : Environment} {c c' : Connection} {content data : Bytes} {bs n pos : Nat}
  {kept : List Bytes} {t : Thread}

/-! ## The request -/

/-- The block size once the options of the request are read. -/
def requestedSize (env : Environment) (data : Bytes) : Int :=
  (parse env.host (data.take 516) { blocksize := env.settings.blocksize }).2.blocksize

theorem connOf_fail (e : Exc) (c : Connection) : (connOf (fail e c)).file = c.file := by
  obtain ⟨c', hfail, hfile, -⟩ := fail_sent e c
  rw [hfail]
  exact hfile

theorem connOf_settle (env : Environment) (result : Except Exc Unit × Connection) :
    (connOf (settle env result)).file = result.2.file := by
  obtain ⟨result, c⟩ := result
  cases result with
  | error e => exact connOf_fail e c
  | ok a =>
    rw [settle_ok]
    split
    · rcases recv_cases env c with ⟨-, hrecv⟩ | ⟨e, hrecv⟩
      · rw [hrecv]
        rfl
      · rw [hrecv]
        exact connOf_fail e c
    · rfl

/-- A connection whose request is about to be handled. -/
structure Started (bs : Nat) (c : Connection) : Prop where
  blocksize : c.blocksize = bs
  file : c.file = .closed
  active : c.active = true
  blockNumber : c.blockNumber = 0
  lastpkt : c.lastpkt = []
  sent : ∀ p ∈ c.sent, opcodeOf p = some 6

theorem Started.sends (h : Started bs c) : Sends content bs 0 c.sent where
  only p hp hop := by
    rw [h.sent p hp] at hop
    cases hop
  all k hk hk' := by omega
  fits := by decide
  within := Nat.zero_le _

theorem Started.acks (h : Started bs c) : Acks 0 (c.sent ++ [ackPacket 0]) where
  only p hp hop := by
    rcases List.mem_append.mp hp with hp | hp
    · rw [h.sent p hp] at hop
      cases hop
    · exact ⟨0, Nat.le_refl 0, List.mem_singleton.mp hp⟩
  last := List.mem_append_right _ (List.mem_singleton.mpr rfl)
  fits := by decide

theorem Started.reading (h : Started bs c) :
    Reading content bs 0 { c with file := .reading content 0 } where
  blocksize := h.blocksize
  file := by rw [Nat.zero_mul, Nat.zero_min]
  active := h.active
  blockNumber := h.blockNumber
  more := Nat.succ_pos _
  lastpkt := .inl ⟨rfl, h.lastpkt⟩
  sends := h.sends

/-- What a request leads to: no file is open, or a file is read or written from its start. -/
def Begins (env : Environment) (bs : Nat) (t : Thread) : Prop :=
  (connOf t).file = .closed ∨ (∃ content n, n ≤ 1 ∧ Reads env content bs n t) ∨
    Writes env bs [] t

theorem begins_closed {result : Except Exc Unit × Connection} (h : result.2.file = .closed) :
    Begins env bs (settle env result) := .inl ((connOf_settle env result).trans h)

theorem sendto_file (pkt : Bytes) (c : Connection) : (sendto pkt c).2.file = c.file := by
  rcases sendto_cases pkt c with h | h <;> rw [h]

theorem begins_openAndSend (hbs : 0 < bs) (h : Started bs c) (entries : Dict Bytes Bytes)
    (resource : Bytes) (lophiString : Option Bytes) :
    Begins env bs (settle env (openAndSend env entries resource lophiString c)) := by
  unfold openAndSend
  cases source env.host resource lophiString with
  | none => exact begins_closed ((sendto_file _ c).trans h.file)
  | some content =>
    right; left
    show ∃ content n, n ≤ 1 ∧ Reads env content bs n (settle env
      ((if (entries.get? (bytesOf "tsize".toList)).isSome then pure () else _ :
        Prog Exc Connection Unit) _))
    split
    · exact ⟨content, 0, by decide, reads_settle h.reading⟩
    · have hreading : Reading content bs 0 _ := h.reading
      rcases reads_next hbs hreading rfl with ⟨hnext, -⟩ | ⟨-, hsame⟩
      · exact ⟨content, 1, by decide, hnext⟩
      · exact ⟨content, 0, by decide, hsame⟩

/-- The answer to a request for the size. -/
theorem sendOack_started (h : Started bs c) (options : List (Bytes × Bytes)) :
    (∃ c', sendOack options c = (.ok (), c') ∧ Started bs c') ∨
      ∃ e c', sendOack options c = (.error e, c') ∧ c'.file = .closed := by
  unfold sendOack
  generalize (options.flatMap fun o : Bytes × Bytes => o.1 ++ [0] ++ o.2 ++ [0]) = text
  by_cases hsize : (beBytes 2 6 ++ text).length ≤ 65507
  · refine .inl ⟨_, bind_ok (send_ok hsize c), { h with lastpkt := rfl, sent := fun p hp => ?_ }⟩
    rcases List.mem_append.mp hp with hp | hp
    · exact h.sent p hp
    · rw [List.mem_singleton.mp hp]
      exact opcodeOf_packet (by decide) _
  · exact .inr ⟨_, c, bind_error (send_error hsize c), h.file⟩

theorem begins_handleRrq (hbs : 0 < bs) (h : Started bs c) (entries : Dict Bytes Bytes) :
    Begins env bs (settle env (handleRrq env entries c)) := by
  unfold handleRrq
  cases entries.get? (bytesOf "filename".toList) with
  | none =>
    refine begins_closed ?_
    exact h.file
  | some filename =>
    rw [orRaise_some_bind]
    cases customise env filename with
    | error e =>
      refine begins_closed ?_
      exact h.file
    | ok found =>
      obtain ⟨resource, lophiString⟩ := found
      rw [ofExcept_ok_bind]
      dsimp only
      cases sizeAsked entries with
      | error e =>
        refine begins_closed ?_
        exact h.file
      | ok asked =>
        rw [ofExcept_ok_bind]
        split
        · cases announced env.host resource lophiString with
          | none =>
            refine begins_closed ((sendto_file _ _).trans ?_)
            exact h.file
          | some size =>
            rcases sendOack_started h (sizeOptions entries size) with
              ⟨c', hsend, hstarted⟩ | ⟨e, c', hsend, hfile⟩
            · dsimp only
              rw [bind_ok hsend]
              exact begins_openAndSend hbs hstarted entries resource lophiString
            · dsimp only
              rw [bind_error hsend]
              exact begins_closed hfile
        · exact begins_openAndSend hbs h entries resource lophiString

theorem begins_handleWrq (h : Started bs c) (entries : Dict Bytes Bytes) :
    Begins env bs (settle env (handleWrq env entries c)) := by
  unfold handleWrq
  cases entries.get? (bytesOf "filename".toList) with
  | none =>
    refine begins_closed ?_
    exact h.file
  | some resource =>
    rw [orRaise_some_bind]
    split
    · exact begins_closed h.file
    · split
      · right; right
        show Writes env bs [] (settle env (sendAck { c with file := .writing [] }))
        rcases sendAck_cases { c with file := .writing [] } with ⟨-, hsend⟩ | ⟨hfits, -⟩
        · rw [hsend]
          refine writes_settle ?_
          exact {
            blocksize := h.blocksize
            file := rfl
            active := h.active
            blockNumber := by simp [h.blockNumber]
            full := by simp
            lastpkt := by simp [h.blockNumber]
            acks := by
              dsimp only
              rw [h.blockNumber]
              exact h.acks }
        · dsimp only at hfits
          rw [h.blockNumber] at hfits
          exact absurd (by decide) hfits
      · exact begins_closed ((sendto_file _ c).trans h.file)

/-- A request opens a file for reading or for writing, or none. -/
theorem begins_connect (hbs : 0 < bs) (hsize : requestedSize env data = bs) :
    Begins env bs (connect env data) := by
  unfold requestedSize at hsize
  unfold connect
  have hparsed := parse_cases env.host (data.take 516) { blocksize := env.settings.blocksize }
  cases hparse : parse env.host (data.take 516) { blocksize := env.settings.blocksize } with
  | mk result c =>
    rw [hparse] at hparsed hsize
    cases hparsed with
    | raised hunmoved =>
      rw [bind_error hparse]
      exact begins_closed hunmoved.file
    | ack hack =>
      rw [bind_ok hparse]
      exact begins_closed rfl
    | data hdata =>
      rw [bind_ok hparse]
      exact begins_closed rfl
    | err =>
      rw [bind_ok hparse]
      exact begins_closed rfl
    | request hunmoved =>
      rename_i opcode entries
      rw [bind_ok hparse]
      unfold handleRequest
      dsimp only
      split
      · exact begins_closed hunmoved.file
      · have hstarted : Started bs { c with active := true } :=
          { blocksize := hsize
            file := hunmoved.file
            active := rfl
            blockNumber := hunmoved.blockNumber
            lastpkt := hunmoved.lastpkt
            sent := by
              dsimp only
              rw [hunmoved.sent]
              simp }
        show Begins env bs (settle env ((if opcode = 1 then _ else _ : Prog Exc Connection Unit)
          { c with active := true }))
        split
        · exact begins_handleRrq hbs hstarted entries
        · exact begins_handleWrq hstarted entries

theorem reads_connect (hbs : 0 < bs) (hsize : requestedSize env data = bs)
    (hfile : (connOf (connect env data)).file = .reading content pos) :
    ∃ n, n ≤ 1 ∧ Reads env content bs n (connect env data) := by
  rcases begins_connect hbs hsize with hclosed | ⟨content', n, hn, hreads⟩ | hwrites
  · rw [hfile] at hclosed
    cases hclosed
  · obtain ⟨pos', hpos⟩ := reads_file hreads
    rw [hfile] at hpos
    cases hpos
    exact ⟨n, hn, hreads⟩
  · rw [writes_file hwrites] at hfile
    cases hfile

theorem writes_connect (hbs : 0 < bs) (hsize : requestedSize env data = bs)
    {written : Bytes} (hfile : (connOf (connect env data)).file = .writing written) :
    Writes env bs [] (connect env data) := by
  rcases begins_connect hbs hsize with hclosed | ⟨content', n, hn, hreads⟩ | hwrites
  · rw [hfile] at hclosed
    cases hclosed
  · obtain ⟨pos', hpos⟩ := reads_file hreads
    rw [hfile] at hpos
    cases hpos
  · exact hwrites

/-- A server with one file, of three bytes. -/
def oneFile : Environment where
  settings := ⟨none⟩
  tables := ⟨none, none⟩
  clientIp := ⟨172, 20, 1, 2⟩
  host := {
    resolve := fun resource => .ok (bytesOf "/tftp/".toList ++ resource)
    relpath := fun resource => .ok (resource.drop 6)
    pathExists := fun _ => false
    images := .ok none
    isUrl := fun _ => false
    size := fun _ => some 3
    openRead := fun resource =>
      if resource = bytesOf "/tftp/f".toList then some [1, 2, 3] else none
    openWrite := fun _ => true
    timeout := fun _ => some true }

/-- The request for that file in blocks of two bytes. -/
def fileRequest (opcode : UInt8) : Bytes :=
  [0, opcode] ++ bytesOf "f\x00octet\x00blksize\x002\x00".toList

theorem requestedSize_oneFile :
    requestedSize oneFile (fileRequest 1) = 2 ∧ requestedSize oneFile (fileRequest 2) = 2 := by
  decide +kernel

theorem file_oneFile :
    (connOf (connect oneFile (fileRequest 1))).file = .reading [1, 2, 3] 2 ∧
      (connOf (connect oneFile (fileRequest 2))).file = .writing [] := by
  decide +kernel

/-! ## All that follows -/

/-- A thread after more events. -/
def run (env : Environment) (t : Thread) (events : List Event) : Thread :=
  events.foldl (next env) t

/-- What a datagram of the client acknowledges. -/
def acked : Event → Option Int
  | .datagram true d => ackOf d
  | _ => none

/-- The block in a datagram of the client, as much as is read of it. -/
def sentBlock (bs : Nat) : Event → Option (Int × Bytes)
  | .datagram true d => (dataOf d).map fun p => (p.1, p.2.take bs)
  | _ => none

/-- The blocks from number `n + 1` on, with their numbers. -/
def numbered (n : Nat) (blocks : List Bytes) : List (Int × Bytes) :=
  blocks.mapIdx fun i d => (((n + i + 1 : Nat) : Int), d)

theorem numbered_cons (n : Nat) (d : Bytes) (blocks : List Bytes) :
    numbered n (d :: blocks) = (((n + 1 : Nat) : Int), d) :: numbered (n + 1) blocks := by
  unfold numbered
  rw [List.mapIdx_cons]
  congr 1
  refine congrArg (List.mapIdx · blocks) (funext fun i => funext fun d => ?_)
  rw [show n + (i + 1) + 1 = n + 1 + i + 1 by omega]

/-- The numbers from `first` up to, not including, `last`. -/
def upTo (first last : Nat) : List Int := (List.range' first (last - first)).map Int.ofNat

theorem upTo_cons {first last : Nat} (h : first < last) :
    upTo first last = (first : Int) :: upTo (first + 1) last := by
  rw [upTo, show last - first = (last - (first + 1)) + 1 by omega, List.range'_succ, List.map_cons]
  rfl

theorem reads_run (hbs : 0 < bs) (h : Reads env content bs n t) (events : List Event) :
    ∃ m, n ≤ m ∧ Reads env content bs m (run env t events) ∧
      (upTo n m).Sublist (events.filterMap acked) := by
  induction events generalizing n t with
  | nil => exact ⟨n, Nat.le_refl n, h, by simp [upTo]⟩
  | cons e events ih =>
    have hskip : (events.filterMap acked).Sublist ((e :: events).filterMap acked) :=
      (List.sublist_cons_self e events).filterMap acked
    cases t with
    | ended r =>
      obtain ⟨m, hm, hreads, hacks⟩ := ih h
      exact ⟨m, hm, hreads, hacks.trans hskip⟩
    | waiting w =>
      rcases reads_step hbs h e with hsame | ⟨d, he, hack, hnext⟩
      · obtain ⟨m, hm, hreads, hacks⟩ := ih hsame
        exact ⟨m, hm, hreads, hacks.trans hskip⟩
      · obtain ⟨m, hm, hreads, hacks⟩ := ih hnext
        refine ⟨m, Nat.le_of_succ_le hm, hreads, ?_⟩
        have hacked : acked e = some (n : Int) := by
          rw [he]
          exact hack
        rw [List.filterMap_cons_some hacked, upTo_cons hm]
        exact hacks.cons_cons _

theorem writes_run (h : Writes env bs kept t) (events : List Event) :
    ∃ more, Writes env bs (kept ++ more) (run env t events) ∧
      (numbered kept.length more).Sublist (events.filterMap (sentBlock bs)) := by
  induction events generalizing kept t with
  | nil =>
    refine ⟨[], ?_, by simp [numbered]⟩
    rw [List.append_nil]
    exact h
  | cons e events ih =>
    have hskip : (events.filterMap (sentBlock bs)).Sublist
        ((e :: events).filterMap (sentBlock bs)) :=
      (List.sublist_cons_self e events).filterMap _
    cases t with
    | ended r =>
      obtain ⟨more, hwrites, hblocks⟩ := ih h
      exact ⟨more, hwrites, hblocks.trans hskip⟩
    | waiting w =>
      rcases writes_step h e with hsame | ⟨d, payload, he, hdata, hnext⟩
      · obtain ⟨more, hwrites, hblocks⟩ := ih hsame
        exact ⟨more, hwrites, hblocks.trans hskip⟩
      · obtain ⟨more, hwrites, hblocks⟩ := ih hnext
        refine ⟨payload.take bs :: more, ?_, ?_⟩
        · rw [← List.append_cons] at hwrites
          exact hwrites
        · have hsent :
              sentBlock bs e = some (((kept.length + 1 : Nat) : Int), payload.take bs) := by
            rw [he, sentBlock, hdata, Option.map_some]
          rw [List.filterMap_cons_some hsent, numbered_cons]
          rw [List.length_append, List.length_singleton] at hblocks
          exact hblocks.cons_cons _

/-- The data packets sent are the first blocks of the file, and every block but the first was
sent after the client had acknowledged the one before, in order; where the size was asked for,
that is so of the first block, too. A connection that ends well has sent them all. -/
theorem sends_blocks_in_order (hbs : 0 < bs) (hsize : requestedSize env data = bs)
    (hfile : (connOf (connect env data)).file = .reading content pos) (events : List Event) :
    ∃ first m, first ≤ 1 ∧ first ≤ m ∧
      Sends content bs m (connOf (run env (connect env data) events)).sent ∧
      (upTo first m).Sublist (events.filterMap acked) ∧
      ∀ c, run env (connect env data) events = .ended (.finished, c) →
        m = blockCount bs content := by
  obtain ⟨first, hfirst, hreads⟩ := reads_connect hbs hsize hfile
  obtain ⟨m, hm, hreads, hacks⟩ := reads_run hbs hreads events
  refine ⟨first, m, hfirst, hm, reads_sends hreads, hacks, fun c hc => ?_⟩
  rw [hc] at hreads
  exact hreads.2.2 rfl

theorem sends_blocks_in_order_oneFile : ∃ first m, first ≤ 1 ∧ first ≤ m ∧
    Sends [1, 2, 3] 2 m (connOf (run oneFile (connect oneFile (fileRequest 1))
      [.timeout, .datagram true (ackPacket 1)])).sent ∧
    (upTo first m).Sublist
      ([Event.timeout, .datagram true (ackPacket 1)].filterMap acked) ∧
    ∀ c, run oneFile (connect oneFile (fileRequest 1))
      [.timeout, .datagram true (ackPacket 1)] = .ended (.finished, c) →
        m = blockCount 2 [(1 : UInt8), 2, 3] :=
  sends_blocks_in_order (by decide) requestedSize_oneFile.1 file_oneFile.1 _

/-- What is written is what the client sent as blocks 1, 2, …, in order and each once, and these
are what was acknowledged. A connection that ends well has kept full blocks and one last block
that is not full. -/
theorem keeps_blocks_in_order (hbs : 0 < bs) (hsize : requestedSize env data = bs)
    {written : Bytes} (hfile : (connOf (connect env data)).file = .writing written)
    (events : List Event) :
    ∃ kept, (connOf (run env (connect env data) events)).file = .writing kept.flatten ∧
      (numbered 0 kept).Sublist (events.filterMap (sentBlock bs)) ∧
      Acks kept.length (connOf (run env (connect env data) events)).sent ∧
      ∀ c, run env (connect env data) events = .ended (.finished, c) → Complete bs kept := by
  obtain ⟨kept, hwrites, hblocks⟩ := writes_run (writes_connect hbs hsize hfile) events
  rw [List.nil_append] at hwrites
  refine ⟨kept, writes_file hwrites, hblocks, writes_acks hwrites, fun c hc => ?_⟩
  rw [hc] at hwrites
  exact hwrites.2.2 rfl

theorem keeps_blocks_in_order_oneFile : ∃ kept,
    (connOf (run oneFile (connect oneFile (fileRequest 2))
      [.datagram true (dataPacket 1 [1, 2]), .timeout])).file = .writing kept.flatten ∧
    (numbered 0 kept).Sublist
      ([Event.datagram true (dataPacket 1 [1, 2]), .timeout].filterMap (sentBlock 2)) ∧
    Acks kept.length (connOf (run oneFile (connect oneFile (fileRequest 2))
      [.datagram true (dataPacket 1 [1, 2]), .timeout])).sent ∧
    ∀ c, run oneFile (connect oneFile (fileRequest 2))
      [.datagram true (dataPacket 1 [1, 2]), .timeout] = .ended (.finished, c) →
        Complete 2 kept :=
  keeps_blocks_in_order (by decide) requestedSize_oneFile.2 file_oneFile.2 _

end LoPhi.Tftp.Sessions
