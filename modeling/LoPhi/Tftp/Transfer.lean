import LoPhi.Lib.Lockstep
import LoPhi.Tftp.Server

/-! # Either end of a transfer

What one event does to a connection that serves a file and to one that takes a file, whatever the
other end sends. The first sends the blocks of the file in order, the next one only when the last
was acknowledged; the second keeps the data of the next block and of no other. -/

namespace LoPhi.Tftp.Transfer
open LoPhi.Lib LoPhi.Lib.Effect LoPhi.Lib.Struct LoPhi.Lib.Interaction LoPhi.Lib.Lockstep
open LoPhi.Tftp.Server

variable {env : Environment} {c c' : Connection} {content data : Bytes} {bs n : Nat}

/-! ## What a datagram says -/

/-- The first two bytes. -/
def opcodeOf (data : Bytes) : Option Int := (unpackShort (data.take 2)).toOption

/-- The number of the block that is acknowledged. -/
def ackOf (data : Bytes) : Option Int :=
  if opcodeOf data = some 4 then (unpackShort ((data.drop 2).take 2)).toOption else none

/-- The number of the block that is sent, and its data. -/
def dataOf (data : Bytes) : Option (Int × Bytes) :=
  if opcodeOf data = some 3 then
    (unpackShort ((data.drop 2).take 2)).toOption.map fun block => (block, data.drop 4)
  else none

/-- A request that is parsed may change how much is read and how long is waited. -/
structure Unmoved (c c' : Connection) : Prop where
  active : c'.active = c.active
  blockNumber : c'.blockNumber = c.blockNumber
  lastpkt : c'.lastpkt = c.lastpkt
  file : c'.file = c.file
  sent : c'.sent = c.sent

theorem composes_unmoved : Composes Unmoved where
  refl _ := ⟨rfl, rfl, rfl, rfl, rfl⟩
  trans h h' := ⟨h'.1.trans h.1, h'.2.trans h.2, h'.3.trans h.3, h'.4.trans h.4, h'.5.trans h.5⟩

theorem parseOptions_unmoved (host : Host) (fuel : Nat) (options : Bytes)
    (entries : Dict Bytes Bytes) : Keeps Unmoved (parseOptions host fuel options entries) := by
  induction fuel generalizing options entries with
  | zero => exact keeps_pure composes_unmoved _
  | succ fuel ih =>
    unfold parseOptions
    split
    · exact keeps_pure composes_unmoved _
    · refine keeps_bind composes_unmoved (keeps_ofExcept composes_unmoved _) ?_
      rintro ⟨key, value, rest⟩
      dsimp only
      split
      · refine keeps_bind composes_unmoved (keeps_ofExcept composes_unmoved _) fun n => ?_
        refine keeps_bind composes_unmoved (keeps_modify fun s => ?_) fun _ => ih _ _
        exact ⟨rfl, rfl, rfl, rfl, rfl⟩
      · split
        · refine keeps_bind composes_unmoved (keeps_orRaise composes_unmoved _ _) fun n => ?_
          refine keeps_bind composes_unmoved (keeps_modify fun s => ?_) fun _ => ih _ _
          exact ⟨rfl, rfl, rfl, rfl, rfl⟩
        · exact keeps_bind composes_unmoved (keeps_pure composes_unmoved _) fun _ => ih _ _

/-- What `parse` can give. -/
inductive Parsed (data : Bytes) (c : Connection) : Except Exc Pkt × Connection → Prop
  | raised {e : Exc} {c' : Connection} : Unmoved c c' → Parsed data c (.error e, c')
  | request {opcode : Int} {entries : Dict Bytes Bytes} {c' : Connection} :
      Unmoved c c' → Parsed data c (.ok (.request opcode entries), c')
  | ack {block : Int} : ackOf data = some block → Parsed data c (.ok (.ack block), c)
  | data {block : Int} {payload : Bytes} :
      dataOf data = some (block, payload) → Parsed data c (.ok (.data block payload), c)
  | err {errnum : Int} {errtxt : Bytes} : Parsed data c (.ok (.err errnum errtxt), c)

theorem parse_request (host : Host) (data : Bytes) (c : Connection) (opcode : Int) :
    Parsed data c ((do
      let (resource, mode, options) ← ofExcept (splitTwice (data.drop 2))
      let resource ← ofExcept (host.resolve resource)
      let entries := (Dict.empty.insert (bytesOf "filename".toList) resource).insert
        (bytesOf "mode".toList) mode
      let entries ← parseOptions host options.length options entries
      pure (.request opcode entries) : Prog Exc Connection Pkt) c) := by
  cases splitTwice (data.drop 2) with
  | error e => exact .raised (composes_unmoved.refl c)
  | ok parts =>
    obtain ⟨resource, mode, options⟩ := parts
    rw [ofExcept_ok_bind]
    dsimp only
    cases host.resolve resource with
    | error e => exact .raised (composes_unmoved.refl c)
    | ok path =>
      rw [ofExcept_ok_bind]
      have hkeeps := parseOptions_unmoved host options.length options
        ((Dict.empty.insert (bytesOf "filename".toList) path).insert (bytesOf "mode".toList) mode) c
      cases hrun : parseOptions host options.length options
        ((Dict.empty.insert (bytesOf "filename".toList) path).insert
          (bytesOf "mode".toList) mode) c with
      | mk result c₁ =>
        rw [hrun] at hkeeps
        cases result with
        | error e =>
          rw [bind_error hrun]
          exact .raised hkeeps
        | ok entries =>
          rw [bind_ok hrun]
          exact .request hkeeps

theorem parse_cases (host : Host) (data : Bytes) (c : Connection) :
    Parsed data c (parse host data c) := by
  have hrefl := composes_unmoved.refl c
  unfold parse
  cases hop : unpackShort (data.take 2) with
  | error e => exact .raised hrefl
  | ok opcode =>
    have hopcode : opcodeOf data = some opcode := by rw [opcodeOf, hop]; rfl
    rw [ofExcept_ok_bind]
    split
    · exact parse_request host data c opcode
    · split
      · rename_i hack
        cases hblock : unpackShort ((data.drop 2).take 2) with
        | error e => exact .raised hrefl
        | ok block =>
          refine .ack ?_
          rw [ackOf, hopcode, hack, if_pos rfl, hblock]
          rfl
      · split
        · rename_i hdata
          cases hblock : unpackShort ((data.drop 2).take 2) with
          | error e => exact .raised hrefl
          | ok block =>
            refine .data ?_
            rw [dataOf, hopcode, hdata, if_pos rfl, hblock]
            rfl
        · split
          · cases unpackShort ((data.drop 2).take 2) with
            | error e => exact .raised hrefl
            | ok errnum => exact .err
          · exact .raised hrefl

/-! ## What the sides do -/

theorem unpackShort_beBytes {k : Nat} (hk : k < 32768) :
    unpackShort (beBytes 2 k) = .ok (k : Int) := by
  have hval : beNat (beBytes 2 k) = k := by
    rw [beNat_beBytes]
    omega
  unfold unpackShort
  rw [if_pos (beBytes_length 2 k), hval, if_pos hk]

theorem take_packet {k : Nat} (rest : Bytes) : (beBytes 2 k ++ rest).take 2 = beBytes 2 k :=
  List.take_left' (beBytes_length 2 k)

theorem drop_packet {k : Nat} (rest : Bytes) : (beBytes 2 k ++ rest).drop 2 = rest :=
  List.drop_left' (beBytes_length 2 k)

theorem opcodeOf_packet {k : Nat} (hk : k < 32768) (rest : Bytes) :
    opcodeOf (beBytes 2 k ++ rest) = some (k : Int) := by
  rw [opcodeOf, take_packet, unpackShort_beBytes hk]
  rfl

theorem opcodeOf_dataPacket (k : Nat) (data : Bytes) : opcodeOf (dataPacket k data) = some 3 := by
  unfold dataPacket
  rw [List.append_assoc]
  exact opcodeOf_packet (by decide) _

theorem opcodeOf_ackPacket (k : Nat) : opcodeOf (ackPacket k) = some 4 :=
  opcodeOf_packet (by decide) _

theorem opcodeOf_errorPacket (errnum : Nat) (errtext : Bytes) :
    opcodeOf (errorPacket errnum errtext) = some 5 := by
  unfold errorPacket
  rw [List.append_assoc]
  exact opcodeOf_packet (by decide) _

theorem packShort_ok {k : Nat} (hk : k < 32768) : packShort k = .ok (beBytes 2 k) := if_pos hk

/-- `sendto` sends, or raises and leaves all as it is. -/
theorem sendto_cases (pkt : Bytes) (c : Connection) :
    sendto pkt c = (.ok (), { c with sent := c.sent ++ [pkt] }) ∨
      sendto pkt c = (.error .socketError, c) := by
  unfold sendto
  split
  · exact .inl rfl
  · exact .inr rfl

theorem sendto_ok {pkt : Bytes} (h : pkt.length ≤ 65507) (c : Connection) :
    sendto pkt c = (.ok (), { c with sent := c.sent ++ [pkt] }) := if_pos h

theorem send_ok {pkt : Bytes} (h : pkt.length ≤ 65507) (c : Connection) :
    send pkt c = (.ok (), { c with sent := c.sent ++ [pkt], lastpkt := pkt }) :=
  bind_ok (sendto_ok h c)

theorem send_error {pkt : Bytes} (h : ¬ pkt.length ≤ 65507) (c : Connection) :
    send pkt c = (.error .socketError, c) := bind_error (if_neg h)

/-- What `sendData` can do: the block is sent, or its number or its size does not fit. -/
theorem sendData_cases (data : Bytes) (c : Connection) :
    (c.blockNumber + 1 < 32768 ∧
      sendData data c = (.ok (), { c with
        blockNumber := c.blockNumber + 1
        lastpkt := dataPacket (c.blockNumber + 1) data
        sent := c.sent ++ [dataPacket (c.blockNumber + 1) data]
        active := (data.length : Int) == c.blocksize })) ∨
    ¬ (c.blockNumber + 1 < 32768 ∧ (dataPacket (c.blockNumber + 1) data).length ≤ 65507) ∧
      ∃ e, sendData data c = (.error e, { c with blockNumber := c.blockNumber + 1 }) := by
  by_cases hnumber : c.blockNumber + 1 < 32768
  · have hpack := packShort_ok hnumber
    by_cases hsize : (dataPacket (c.blockNumber + 1) data).length ≤ 65507
    · refine .inl ⟨hnumber, ?_⟩
      show ((ofExcept (packShort (c.blockNumber + 1)) >>= fun _ => _ :
      Prog Exc Connection Unit) _) = _
      rw [hpack, ofExcept_ok_bind]
      exact bind_ok (send_ok hsize _)
    · refine .inr ⟨fun h => hsize h.2, .socketError, ?_⟩
      show ((ofExcept (packShort (c.blockNumber + 1)) >>= fun _ => _ :
      Prog Exc Connection Unit) _) = _
      rw [hpack, ofExcept_ok_bind]
      exact bind_error (send_error hsize _)
  · refine .inr ⟨fun h => hnumber h.1, .structError, ?_⟩
    show ((ofExcept (packShort (c.blockNumber + 1)) >>= fun _ => _ :
      Prog Exc Connection Unit) _) = _
    rw [show packShort (c.blockNumber + 1) = .error .structError from if_neg hnumber]
    rfl

/-- What `sendAck` can do. -/
theorem sendAck_cases (c : Connection) :
    (c.blockNumber < 32768 ∧ sendAck c = (.ok (), { c with
      blockNumber := c.blockNumber + 1
      lastpkt := ackPacket c.blockNumber
      sent := c.sent ++ [ackPacket c.blockNumber] })) ∨
    (¬ c.blockNumber < 32768 ∧
      sendAck c = (.error .structError, { c with blockNumber := c.blockNumber + 1 })) := by
  by_cases hnumber : c.blockNumber < 32768
  · refine .inl ⟨hnumber, ?_⟩
    show ((ofExcept (packShort c.blockNumber) >>= fun _ => _ :
      Prog Exc Connection Unit) _) = _
    rw [packShort_ok hnumber, ofExcept_ok_bind]
    have hsize : (ackPacket c.blockNumber).length ≤ 65507 := by simp [ackPacket]
    exact send_ok hsize _
  · refine .inr ⟨hnumber, ?_⟩
    show ((ofExcept (packShort c.blockNumber) >>= fun _ => _ :
      Prog Exc Connection Unit) _) = _
    rw [show packShort c.blockNumber = .error .structError from if_neg hnumber]
    rfl

/-- What is sent when a connection fails. -/
theorem fail_sent (e : Exc) (c : Connection) : ∃ c', fail e c = .ended (.failed e, c') ∧
    c'.file = c.file ∧
      (c'.sent = c.sent ∨ ∃ pkt, opcodeOf pkt = some 5 ∧ c'.sent = c.sent ++ [pkt]) := by
  cases e with
  | tftpError errnum errtext =>
    rcases sendto_cases (errorPacket errnum errtext) c with hsend | hsend
    · refine ⟨_, rfl, ?_, .inr ⟨_, opcodeOf_errorPacket errnum errtext, ?_⟩⟩
      · rw [sendError, hsend]
      · rw [sendError, hsend]
    · refine ⟨_, rfl, ?_, .inl ?_⟩
      · rw [sendError, hsend]
      · rw [sendError, hsend]
  | structError => exact ⟨c, rfl, rfl, .inl rfl⟩
  | valueError => exact ⟨c, rfl, rfl, .inl rfl⟩
  | overflowError => exact ⟨c, rfl, rfl, .inl rfl⟩
  | attributeError => exact ⟨c, rfl, rfl, .inl rfl⟩
  | ioError => exact ⟨c, rfl, rfl, .inl rfl⟩
  | socketError => exact ⟨c, rfl, rfl, .inl rfl⟩

def Failed : Thread → Prop
  | .ended (.failed _, _) => True
  | _ => False

instance : DecidablePred Failed
  | .waiting _ => .isFalse not_false
  | .ended (.finished, _) => .isFalse not_false
  | .ended (.failed _, _) => .isTrue trivial

theorem settle_ok (env : Environment) (c : Connection) :
    settle env (.ok (), c) = if c.active then recv env c else .ended (.finished, c) := rfl

theorem settle_error (env : Environment) (e : Exc) (c : Connection) :
    settle env (.error e, c) = fail e c := rfl

/-- `recv` gets as far as its first `select`. -/
structure Ready (env : Environment) (c : Connection) : Prop where
  retry : env.settings.retry ≠ 0
  usable : c.usableTimeout = true

theorem recv_ready (h : Ready env c) : recv env c = .waiting ⟨c, env.settings.retry⟩ := by
  unfold recv
  rw [if_neg h.retry, if_pos h.usable]

theorem not_failed_recv (hretry : env.settings.retry ≠ 0) (husable : c.usableTimeout = true) :
    ¬ Failed (recv env c) := by
  rw [recv_ready ⟨hretry, husable⟩]
  exact not_false

theorem recv_cases (env : Environment) (c : Connection) :
    (Ready env c ∧ recv env c = .waiting ⟨c, env.settings.retry⟩) ∨
      ∃ e, recv env c = fail e c := by
  unfold recv
  split
  · exact .inr ⟨_, rfl⟩
  · rename_i hretry
    split
    · rename_i husable
      exact .inl ⟨⟨hretry, husable⟩, rfl⟩
    · exact .inr ⟨_, rfl⟩

/-! ## The side that reads -/

/-- The data packets sent are the first `n` blocks of the file. -/
structure Sends (content : Bytes) (bs n : Nat) (sent : List Bytes) : Prop where
  only : ∀ p ∈ sent, opcodeOf p = some 3 →
    ∃ k, 1 ≤ k ∧ k ≤ n ∧ p = dataPacket k (block bs content k)
  all : ∀ k, 1 ≤ k → k ≤ n → dataPacket k (block bs content k) ∈ sent
  fits : n < 32768
  within : n ≤ blockCount bs content

theorem Sends.other {sent : List Bytes} {pkt : Bytes} (h : Sends content bs n sent)
    (hpkt : opcodeOf pkt ≠ some 3) : Sends content bs n (sent ++ [pkt]) where
  only p hp hop := by
    rcases List.mem_append.mp hp with hp | hp
    · exact h.only p hp hop
    · rw [List.mem_singleton.mp hp] at hop
      exact absurd hop hpkt
  all k hk hkn := List.mem_append_left _ (h.all k hk hkn)
  fits := h.fits
  within := h.within

theorem Sends.again {sent : List Bytes} {k : Nat} (h : Sends content bs n sent) (hk : 1 ≤ k)
    (hkn : k ≤ n) : Sends content bs n (sent ++ [dataPacket k (block bs content k)]) where
  only p hp hop := by
    rcases List.mem_append.mp hp with hp | hp
    · exact h.only p hp hop
    · exact ⟨k, hk, hkn, List.mem_singleton.mp hp⟩
  all k hk hkn := List.mem_append_left _ (h.all k hk hkn)
  fits := h.fits
  within := h.within

theorem Sends.next {sent : List Bytes} (h : Sends content bs n sent) (hfits : n + 1 < 32768)
    (hmore : n < blockCount bs content) :
    Sends content bs (n + 1) (sent ++ [dataPacket (n + 1) (block bs content (n + 1))]) where
  only p hp hop := by
    rcases List.mem_append.mp hp with hp | hp
    · obtain ⟨k, hk, hkn, rfl⟩ := h.only p hp hop
      exact ⟨k, hk, Nat.le_succ_of_le hkn, rfl⟩
    · exact ⟨n + 1, Nat.le_add_left 1 n, Nat.le_refl _, List.mem_singleton.mp hp⟩
  all k hk hkn := by
    rcases Nat.lt_or_ge n k with hlt | hle
    · rw [show k = n + 1 by omega]
      exact List.mem_append_right _ (List.mem_singleton.mpr rfl)
    · exact List.mem_append_left _ (h.all k hk hle)
  fits := hfits
  within := hmore

/-- A connection that has sent `n` blocks of the file and waits. -/
structure Reading (content : Bytes) (bs n : Nat) (c : Connection) : Prop where
  blocksize : c.blocksize = bs
  file : c.file = .reading content (min (n * bs) content.length)
  active : c.active = true
  blockNumber : c.blockNumber = n
  more : n < blockCount bs content
  lastpkt : n = 0 ∧ c.lastpkt = [] ∨
    1 ≤ n ∧ c.lastpkt = dataPacket n (block bs content n)
  sends : Sends content bs n c.sent

/-- The thread of such a connection, while it waits and after its end. -/
def Reads (env : Environment) (content : Bytes) (bs n : Nat) : Thread → Prop
  | .waiting w => Reading content bs n w.conn ∧ Ready env w.conn
  | .ended (ending, c) => (∃ pos, c.file = .reading content pos) ∧ Sends content bs n c.sent ∧
      (ending = .finished → n = blockCount bs content)

theorem reads_file {t : Thread} (h : Reads env content bs n t) :
    ∃ pos, (connOf t).file = .reading content pos := by
  cases t with
  | waiting w => exact ⟨_, h.1.file⟩
  | ended r => exact h.1

theorem reads_sends {t : Thread} (h : Reads env content bs n t) :
    Sends content bs n (connOf t).sent := by
  cases t with
  | waiting w => exact h.1.sends
  | ended r => exact h.2.1

theorem reads_fail (hfile : ∃ pos, c.file = .reading content pos)
    (h : Sends content bs n c.sent) (e : Exc) : Reads env content bs n (fail e c) := by
  obtain ⟨c', hfail, hfile', hsent⟩ := fail_sent e c
  rw [hfail]
  refine ⟨hfile' ▸ hfile, ?_, by simp⟩
  rcases hsent with hsent | ⟨pkt, hpkt, hsent⟩
  · rw [hsent]
    exact h
  · rw [hsent]
    exact h.other (by rw [hpkt]; decide)

theorem Reading.fail (h : Reading content bs n c) (e : Exc) :
    Reads env content bs n (fail e c) := reads_fail ⟨_, h.file⟩ h.sends e

theorem reads_recv (h : Reading content bs n c) : Reads env content bs n (recv env c) := by
  rcases recv_cases env c with ⟨hready, hrecv⟩ | ⟨e, hrecv⟩
  · rw [hrecv]
    exact ⟨h, hready⟩
  · rw [hrecv]
    exact h.fail e

theorem reads_settle (h : Reading content bs n c) :
    Reads env content bs n (settle env (.ok (), c)) := by
  rw [settle_ok, if_pos h.active]
  exact reads_recv h

theorem Reading.retransmit (h : Reading content bs n c) :
    ∃ c', (retransmit c = (.ok (), c') ∨ retransmit c = (.error .socketError, c')) ∧
      Reading content bs n c' ∧ c'.usableTimeout = c.usableTimeout := by
  unfold Server.retransmit
  split
  · exact ⟨c, .inl rfl, h, rfl⟩
  · rename_i hlast
    rcases sendto_cases c.lastpkt c with hsend | hsend
    · rw [hsend]
      refine ⟨_, .inl rfl, { h with sends := ?_ }, rfl⟩
      rcases h.lastpkt with ⟨-, hnone⟩ | ⟨hn, hlastpkt⟩
      · exact absurd hnone hlast
      · rw [hlastpkt]
        exact h.sends.again hn (Nat.le_refl n)
    · rw [hsend]
      exact ⟨c, .inr rfl, h, rfl⟩

theorem length_dataPacket (k : Nat) (data : Bytes) :
    (dataPacket k data).length = data.length + 4 := by
  rw [dataPacket, List.length_append, List.length_append, beBytes_length, beBytes_length]
  omega

/-- What is behind the blocks that were read. -/
theorem drop_read : content.drop (min (n * bs) content.length) = content.drop (n * bs) := by
  rcases Nat.le_total (n * bs) content.length with hle | hle
  · rw [Nat.min_eq_left hle]
  · rw [Nat.min_eq_right hle, List.drop_length, List.drop_eq_nil_of_le hle]

theorem Reading.readFile (h : Reading content bs n c) (hbs : (bs : Int) < 2 ^ 63) :
    readFile c = (.ok (block bs content (n + 1)),
      { c with file := .reading content (min ((n + 1) * bs) content.length) }) := by
  have hrange : ¬ (c.blocksize < -2 ^ 63 ∨ 2 ^ 63 ≤ c.blocksize) := by
    rw [h.blocksize]
    omega
  have hpos : ¬ ((bs : Int) < 0) := by omega
  have hblock : (content.drop (n * bs)).take bs = block bs content (n + 1) := by
    rw [block, Nat.add_sub_cancel]
  have hlength : (block bs content (n + 1)).length = _ := length_block
  have hend : min (n * bs) content.length + (block bs content (n + 1)).length =
      min ((n + 1) * bs) content.length := by
    rw [hlength, Nat.add_sub_cancel, Nat.succ_mul]
    omega
  unfold Server.readFile
  rw [h.file]
  dsimp only
  rw [if_neg hrange, h.blocksize, if_neg hpos, Int.toNat_natCast, drop_read, hblock, hend]

/-- The next block is read and sent, unless its number or its size does not fit. -/
theorem reads_next (hbs : 0 < bs) (h : Reading content bs n c) {t : Thread}
    (ht : settle env ((do
      let data ← readFile
      sendData data) c) = t) :
    (Reads env content bs (n + 1) t ∧ (Ready env c → ¬ Failed t)) ∨
      (¬ (n + 1 < 32768 ∧ bs + 4 ≤ 65507) ∧ Reads env content bs n t) := by
  by_cases hrange : (bs : Int) < 2 ^ 63
  · rw [bind_ok (h.readFile hrange)] at ht
    rcases sendData_cases (block bs content (n + 1))
      { c with file := .reading content (min ((n + 1) * bs) content.length) } with
      ⟨hfits, hsend⟩ | ⟨hfits, e, hsend⟩
    · rw [hsend, settle_ok] at ht
      dsimp only at hfits ht
      rw [h.blockNumber] at hfits ht
      have hsends := h.sends.next hfits h.more
      left
      split at ht
      · rename_i hfull
        rw [beq_iff_eq, h.blocksize, Int.natCast_inj] at hfull
        have hreading : Reading content bs (n + 1) { c with
            file := .reading content (min ((n + 1) * bs) content.length)
            blockNumber := n + 1
            lastpkt := dataPacket (n + 1) (block bs content (n + 1))
            sent := c.sent ++ [dataPacket (n + 1) (block bs content (n + 1))]
            active := ((block bs content (n + 1)).length : Int) == c.blocksize } :=
          { blocksize := h.blocksize
            file := rfl
            active := by rw [beq_iff_eq, h.blocksize, hfull]
            blockNumber := rfl
            more := (full_iff hbs).mp hfull
            lastpkt := .inr ⟨Nat.le_add_left 1 n, rfl⟩
            sends := hsends }
        rw [← ht]
        exact ⟨reads_recv hreading, fun hready => not_failed_recv hready.retry hready.usable⟩
      · rename_i hshort
        rw [beq_iff_eq, h.blocksize, Int.natCast_inj, full_iff hbs] at hshort
        rw [← ht]
        refine ⟨⟨⟨_, rfl⟩, hsends, fun _ => ?_⟩, fun _ => not_false⟩
        have hmore := h.more
        omega
    · rw [hsend, settle_error] at ht
      rw [← ht]
      refine .inr ⟨fun hok => hfits ?_, reads_fail ⟨_, rfl⟩ ?_ e⟩
      · dsimp only
        rw [h.blockNumber, length_dataPacket]
        have hle : (block bs content (n + 1)).length ≤ bs := length_block_le
        omega
      · exact h.sends
  · have hread : readFile c = (.error .overflowError, c) := by
      unfold Server.readFile
      rw [h.file]
      refine if_pos ?_
      rw [h.blocksize]
      omega
    rw [bind_error hread, settle_error] at ht
    rw [← ht]
    exact .inr ⟨by omega, h.fail _⟩

/-- What is read of a datagram still says the same. -/
theorem opcodeOf_take {m : Nat} (hm : 2 ≤ m) (d : Bytes) : opcodeOf (d.take m) = opcodeOf d := by
  rw [opcodeOf, List.take_take, Nat.min_eq_left hm, ← opcodeOf]

theorem short_take {m : Nat} (hm : 4 ≤ m) (d : Bytes) :
    ((d.take m).drop 2).take 2 = (d.drop 2).take 2 := by
  rw [List.drop_take, List.take_take, Nat.min_eq_left (by omega)]

theorem ackOf_take {m : Nat} (hm : 4 ≤ m) (d : Bytes) : ackOf (d.take m) = ackOf d := by
  rw [ackOf, opcodeOf_take (by omega), short_take hm, ← ackOf]

theorem dataOf_take {m : Nat} (d : Bytes) :
    dataOf (d.take (m + 4)) = (dataOf d).map fun p => (p.1, p.2.take m) := by
  unfold dataOf
  rw [opcodeOf_take (by omega), short_take (by omega)]
  split
  · rw [Option.map_map, List.drop_take]
    rfl
  · rfl

theorem handlePacket_request (opcode : Int) (entries : Dict Bytes Bytes) (c : Connection) :
    handlePacket (.request opcode entries) c =
      (.error (.tftpError 5 (bytesOf "Invalid opcode".toList)), c) := rfl

theorem handlePacket_err (errnum : Int) (errtxt : Bytes) (c : Connection) :
    handlePacket (.err errnum errtxt) c = retransmit c := rfl

theorem recvAck_eq (b : Int) (c : Connection) :
    recvAck b c = if b = c.blockNumber then
      (if c.active then (do
        let data ← readFile
        sendData data : Prog Exc Connection Unit) c else (.ok (), c)) else (.ok (), c) := by
  unfold recvAck
  show (if b = c.blockNumber then handleAck else pure () : Prog Exc Connection Unit) c = _
  split
  · show (if c.active then _ else _ : Prog Exc Connection Unit) c = _
    split <;> rfl
  · rfl

theorem recvData_eq (b : Int) (data : Bytes) (c : Connection) :
    recvData b data c = if b = c.blockNumber then
      (do sendAck; writeFile data : Prog Exc Connection Unit)
        { c with active := c.blocksize == (data.length : Int) } else (.ok (), c) := by
  unfold recvData
  show (if b = c.blockNumber then _ else pure () : Prog Exc Connection Unit) c = _
  split <;> rfl

theorem Reading.recvAck (hbs : 0 < bs) (h : Reading content bs n c) (b : Int) {t : Thread}
    (ht : settle env (recvAck b c) = t) :
    Reads env content bs n t ∨ b = n ∧ Reads env content bs (n + 1) t := by
  rw [recvAck_eq, h.blockNumber] at ht
  split at ht
  · rename_i heq
    rw [if_pos h.active] at ht
    rcases reads_next hbs h ht with ⟨hnext, -⟩ | ⟨-, hsame⟩
    · exact .inr ⟨heq, hnext⟩
    · exact .inl hsame
  · rw [← ht]
    exact .inl (reads_settle h)

/-- A file that is read cannot be written. -/
theorem Reading.recvData (h : Reading content bs n c) (b : Int) (data : Bytes) :
    Reads env content bs n (settle env (recvData b data c)) := by
  have hfile : ∃ pos, c.file = .reading content pos := ⟨_, h.file⟩
  rw [recvData_eq]
  split
  · rcases sendAck_cases { c with active := c.blocksize == (data.length : Int) } with
      ⟨-, hsend⟩ | ⟨-, hsend⟩
    · rw [bind_ok hsend]
      have hwrite : writeFile data { c with
          active := c.blocksize == (data.length : Int)
          blockNumber := c.blockNumber + 1
          lastpkt := ackPacket c.blockNumber
          sent := c.sent ++ [ackPacket c.blockNumber] } = (.error .ioError, { c with
          active := c.blocksize == (data.length : Int)
          blockNumber := c.blockNumber + 1
          lastpkt := ackPacket c.blockNumber
          sent := c.sent ++ [ackPacket c.blockNumber] }) := by
        unfold writeFile
        dsimp only
        rw [h.file]
      dsimp only at hwrite ⊢
      rw [hwrite, settle_error]
      refine reads_fail ?_ (h.sends.other (by rw [opcodeOf_ackPacket]; decide)) _
      exact hfile
    · rw [bind_error hsend, settle_error]
      refine reads_fail ?_ ?_ _
      · exact hfile
      · exact h.sends
  · exact reads_settle h

/-- Whatever a connection that reads meets: it has sent no other blocks, or one more because the
last was acknowledged. -/
theorem reads_step (hbs : 0 < bs) {w : Waiting} (h : Reads env content bs n (.waiting w))
    (e : Event) : Reads env content bs n (step env w e) ∨
      ∃ d, e = .datagram true d ∧ ackOf d = some (n : Int) ∧
        Reads env content bs (n + 1) (step env w e) := by
  obtain ⟨h, hready⟩ := h
  cases e with
  | timeout =>
    left
    obtain ⟨c', hsend, hreading, husable⟩ := h.retransmit
    unfold step
    rcases hsend with hsend | hsend
    · rw [hsend]
      dsimp only
      split
      · exact hreading.fail _
      · exact ⟨hreading, hready.retry, husable.trans hready.usable⟩
    · rw [hsend]
      exact hreading.fail _
  | datagram fromClient d =>
    have hsize : w.conn.blocksize + 4 = ((bs + 4 : Nat) : Int) := by
      rw [h.blocksize]
      rfl
    unfold step
    dsimp only
    rw [hsize, if_neg (by omega)]
    split
    · exact .inl (h.fail _)
    · split
      · rename_i hclient
        rw [Int.toNat_natCast]
        have hparsed := parse_cases env.host (d.take (bs + 4)) w.conn
        cases hparse : parse env.host (d.take (bs + 4)) w.conn with
        | mk result c₁ =>
          rw [hparse] at hparsed
          cases hparsed with
          | raised hunmoved =>
            rw [bind_error hparse, settle_error]
            exact .inl (reads_fail ⟨_, hunmoved.file.trans h.file⟩ (hunmoved.sent ▸ h.sends) _)
          | request hunmoved =>
            rw [bind_ok hparse, handlePacket_request, settle_error]
            exact .inl (reads_fail ⟨_, hunmoved.file.trans h.file⟩ (hunmoved.sent ▸ h.sends) _)
          | ack hack =>
            rename_i b
            rw [bind_ok hparse]
            rw [ackOf_take (by omega)] at hack
            rcases h.recvAck hbs b rfl with hsame | ⟨hb, hnext⟩
            · exact .inl hsame
            · refine .inr ⟨d, by rw [hclient], ?_, hnext⟩
              rw [hack, hb]
          | data hdata =>
            rw [bind_ok hparse]
            exact .inl (h.recvData _ _)
          | err =>
            rw [bind_ok hparse, handlePacket_err]
            obtain ⟨c', hsend, hreading, -⟩ := h.retransmit
            left
            rcases hsend with hsend | hsend
            · rw [hsend]
              exact reads_settle hreading
            · rw [hsend, settle_error]
              exact hreading.fail _
      · exact .inl ⟨h, hready⟩

end LoPhi.Tftp.Transfer
