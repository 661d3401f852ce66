import LoPhi.Tftp.Transfer

/-! # The side that writes

A connection that takes a file keeps the data of the packets that are next, in order and each
once, whatever else it is sent and however often; it acknowledges what it has kept. -/

namespace LoPhi.Tftp.Upload
open LoPhi.Lib LoPhi.Lib.Effect LoPhi.Lib.Struct LoPhi.Lib.Interaction
open LoPhi.Tftp.Server LoPhi.Tftp.Transfer

variable {env : Environment} {c c' : Connection} {kept : List Bytes} {bs m : Nat}

/-- What was acknowledged. -/
structure Acks (m : Nat) (sent : List Bytes) : Prop where
  only : ∀ p ∈ sent, opcodeOf p = some 4 → ∃ k, k ≤ m ∧ p = ackPacket k
  last : ackPacket m ∈ sent
  fits : m < 32768

theorem Acks.other {sent : List Bytes} {pkt : Bytes} (h : Acks m sent)
    (hpkt : opcodeOf pkt ≠ some 4) : Acks m (sent ++ [pkt]) where
  only p hp hop := by
    rcases List.mem_append.mp hp with hp | hp
    · exact h.only p hp hop
    · rw [List.mem_singleton.mp hp] at hop
      exact absurd hop hpkt
  last := List.mem_append_left _ h.last
  fits := h.fits

theorem Acks.again {sent : List Bytes} (h : Acks m sent) : Acks m (sent ++ [ackPacket m]) where
  only p hp hop := by
    rcases List.mem_append.mp hp with hp | hp
    · exact h.only p hp hop
    · exact ⟨m, Nat.le_refl m, List.mem_singleton.mp hp⟩
  last := List.mem_append_left _ h.last
  fits := h.fits

theorem Acks.next {sent : List Bytes} (h : Acks m sent) (hfits : m + 1 < 32768) :
    Acks (m + 1) (sent ++ [ackPacket (m + 1)]) where
  only p hp hop := by
    rcases List.mem_append.mp hp with hp | hp
    · obtain ⟨k, hk, rfl⟩ := h.only p hp hop
      exact ⟨k, Nat.le_succ_of_le hk, rfl⟩
    · exact ⟨m + 1, Nat.le_refl _, List.mem_singleton.mp hp⟩
  last := List.mem_append_right _ (List.mem_singleton.mpr rfl)
  fits := hfits

/-- A connection that has kept the blocks and waits for the next. -/
structure Writing (bs : Nat) (kept : List Bytes) (c : Connection) : Prop where
  blocksize : c.blocksize = bs
  file : c.file = .writing kept.flatten
  active : c.active = true
  blockNumber : c.blockNumber = kept.length + 1
  full : ∀ d ∈ kept, d.length = bs
  lastpkt : c.lastpkt = ackPacket kept.length
  acks : Acks kept.length c.sent

/-- All blocks but the last are full, and the last is not. -/
def Complete (bs : Nat) (kept : List Bytes) : Prop :=
  ∃ init last, kept = init ++ [last] ∧ (∀ d ∈ init, d.length = bs) ∧ last.length ≠ bs

/-- The thread of such a connection, while it waits and after its end. -/
def Writes (env : Environment) (bs : Nat) (kept : List Bytes) : Thread → Prop
  | .waiting w => Writing bs kept w.conn ∧ Ready env w.conn
  | .ended (ending, c) => c.file = .writing kept.flatten ∧ Acks kept.length c.sent ∧
      (ending = .finished → Complete bs kept)

theorem writes_file {t : Thread} (h : Writes env bs kept t) :
    (connOf t).file = .writing kept.flatten := by
  cases t with
  | waiting w => exact h.1.file
  | ended r => exact h.1

theorem writes_acks {t : Thread} (h : Writes env bs kept t) :
    Acks kept.length (connOf t).sent := by
  cases t with
  | waiting w => exact h.1.acks
  | ended r => exact h.2.1

theorem writes_fail (hfile : c.file = .writing kept.flatten) (hacks : Acks kept.length c.sent)
    (e : Exc) : Writes env bs kept (fail e c) := by
  obtain ⟨c', hfail, hfile', hsent⟩ := fail_sent e c
  rw [hfail]
  refine ⟨hfile'.trans hfile, ?_, by simp⟩
  rcases hsent with hsent | ⟨pkt, hpkt, hsent⟩
  · rw [hsent]
    exact hacks
  · rw [hsent]
    exact hacks.other (by rw [hpkt]; decide)

theorem Writing.fail (h : Writing bs kept c) (e : Exc) : Writes env bs kept (fail e c) :=
  writes_fail h.file h.acks e

theorem writes_settle (h : Writing bs kept c) : Writes env bs kept (settle env (.ok (), c)) := by
  rw [settle_ok, if_pos h.active]
  rcases recv_cases env c with ⟨hready, hrecv⟩ | ⟨e, hrecv⟩
  · rw [hrecv]
    exact ⟨h, hready⟩
  · rw [hrecv]
    exact h.fail e

theorem length_ackPacket (k : Nat) : (ackPacket k).length = 4 := by
  simp [ackPacket]

theorem Writing.retransmit (h : Writing bs kept c) :
    ∃ c', retransmit c = (.ok (), c') ∧ Writing bs kept c' ∧
      c'.usableTimeout = c.usableTimeout := by
  have hsend : Server.retransmit c = sendto (ackPacket kept.length) c := by
    unfold Server.retransmit
    rw [h.lastpkt]
    exact if_neg fun hnil => by
      have := congrArg List.length hnil
      rw [length_ackPacket] at this
      cases this
  rw [hsend, sendto_ok (by rw [length_ackPacket]; decide)]
  exact ⟨_, rfl, { h with acks := h.acks.again }, rfl⟩

/-- A file that is written cannot be read. -/
theorem Writing.recvAck (h : Writing bs kept c) (b : Int) :
    Writes env bs kept (settle env (recvAck b c)) := by
  rw [recvAck_eq]
  split
  · have hread : readFile c = (.error .ioError, c) := by
      unfold readFile
      rw [h.file]
    rw [if_pos h.active, bind_error hread, settle_error]
    exact h.fail _
  · exact writes_settle h

/-- The data of the next block is kept, unless its number cannot be acknowledged. -/
theorem writes_next (h : Writing bs kept c) {data : Bytes} {t : Thread}
    (ht : settle env (recvData (kept.length + 1 : Nat) data c) = t) :
    (Writes env bs (kept ++ [data]) t ∧ (Ready env c → ¬ Failed t)) ∨
      (¬ kept.length + 1 < 32768 ∧ Writes env bs kept t) := by
  rw [recvData_eq, if_pos (by rw [h.blockNumber])] at ht
  rcases sendAck_cases { c with active := c.blocksize == (data.length : Int) } with
    ⟨hfits, hsend⟩ | ⟨hfits, hsend⟩
  · rw [bind_ok hsend] at ht
    dsimp only at hfits ht
    rw [h.blockNumber] at hfits ht
    have hwrite : writeFile data { c with
        active := c.blocksize == (data.length : Int)
        blockNumber := kept.length + 1 + 1
        lastpkt := ackPacket (kept.length + 1)
        sent := c.sent ++ [ackPacket (kept.length + 1)] } = (.ok (), { c with
        active := c.blocksize == (data.length : Int)
        blockNumber := kept.length + 1 + 1
        lastpkt := ackPacket (kept.length + 1)
        sent := c.sent ++ [ackPacket (kept.length + 1)]
        file := .writing (kept.flatten ++ data) }) := by
      unfold writeFile
      dsimp only
      rw [h.file]
    have hlength : (kept ++ [data]).length = kept.length + 1 := by
      rw [List.length_append, List.length_singleton]
    have hflatten : (kept ++ [data]).flatten = kept.flatten ++ data := by
      rw [List.flatten_append, List.flatten_singleton]
    have hacks := h.acks.next hfits
    rw [hwrite, settle_ok] at ht
    left
    split at ht
    · rename_i hfull
      have hwriting : Writing bs (kept ++ [data]) { c with
          active := c.blocksize == (data.length : Int)
          blockNumber := kept.length + 1 + 1
          lastpkt := ackPacket (kept.length + 1)
          sent := c.sent ++ [ackPacket (kept.length + 1)]
          file := .writing (kept.flatten ++ data) } :=
        { blocksize := h.blocksize
          file := by rw [hflatten]
          active := hfull
          blockNumber := by rw [hlength]
          full := fun d hd => by
            rcases List.mem_append.mp hd with hd | hd
            · exact h.full d hd
            · rw [beq_iff_eq, h.blocksize, Int.natCast_inj] at hfull
              rw [List.mem_singleton.mp hd, hfull]
          lastpkt := by rw [hlength]
          acks := by rw [hlength]; exact hacks }
      have hsettle := (writes_settle hwriting : Writes env bs _ _)
      rw [settle_ok, if_pos hfull, ht] at hsettle
      refine ⟨hsettle, fun hready => ?_⟩
      rw [← ht]
      exact not_failed_recv hready.retry hready.usable
    · rename_i hshort
      rw [beq_iff_eq, h.blocksize, Int.natCast_inj] at hshort
      rw [← ht]
      refine ⟨⟨by rw [hflatten], ?_, fun _ => ?_⟩, fun _ => not_false⟩
      · rw [hlength]
        exact hacks
      · exact ⟨kept, data, rfl, h.full, fun heq => hshort heq.symm⟩
  · rw [bind_error hsend, settle_error] at ht
    dsimp only at hfits
    rw [h.blockNumber] at hfits
    rw [← ht]
    refine .inr ⟨hfits, writes_fail ?_ ?_ _⟩
    · exact h.file
    · exact h.acks

/-- Whatever a connection that writes meets: it has kept nothing, or what the client sent as the
next block. -/
theorem writes_step {w : Waiting} (h : Writes env bs kept (.waiting w)) (e : Event) :
    Writes env bs kept (step env w e) ∨
      ∃ d payload, e = .datagram true d ∧
        dataOf d = some (((kept.length + 1 : Nat) : Int), payload) ∧
        Writes env bs (kept ++ [payload.take bs]) (step env w e) := by
  obtain ⟨h, hready⟩ := h
  cases e with
  | timeout =>
    left
    obtain ⟨c', hsend, hwriting, husable⟩ := h.retransmit
    unfold step
    rw [hsend]
    dsimp only
    split
    · exact hwriting.fail _
    · exact ⟨hwriting, hready.retry, husable.trans hready.usable⟩
  | datagram fromClient d =>
    have hsize : w.conn.blocksize + 4 = ((bs + 4 : Nat) : Int) := by
      rw [h.blocksize]
      rfl
    unfold step
    dsimp only
    rw [hsize, if_neg (by omega)]
    split
    · exact .inl (h.fail _)
    · split
      · rename_i hclient
        rw [Int.toNat_natCast]
        have hparsed := parse_cases env.host (d.take (bs + 4)) w.conn
        cases hparse : parse env.host (d.take (bs + 4)) w.conn with
        | mk result c₁ =>
          rw [hparse] at hparsed
          cases hparsed with
          | raised hunmoved =>
            rw [bind_error hparse, settle_error]
            exact .inl (writes_fail (hunmoved.file.trans h.file) (hunmoved.sent ▸ h.acks) _)
          | request hunmoved =>
            rw [bind_ok hparse, handlePacket_request, settle_error]
            exact .inl (writes_fail (hunmoved.file.trans h.file) (hunmoved.sent ▸ h.acks) _)
          | ack hack =>
            rw [bind_ok hparse]
            exact .inl (h.recvAck _)
          | data hdata =>
            rename_i b payload
            rw [bind_ok hparse]
            rw [dataOf_take] at hdata
            obtain ⟨⟨b', payload'⟩, hd, heq⟩ := Option.map_eq_some_iff.mp hdata
            cases heq
            by_cases hb : b' = ((kept.length + 1 : Nat) : Int)
            · rw [hb] at hd ⊢
              rcases writes_next h rfl with ⟨hnext, -⟩ | ⟨-, hsame⟩
              · exact .inr ⟨d, payload', by rw [hclient], hd, hnext⟩
              · exact .inl hsame
            · left
              show Writes env bs kept (settle env (recvData b' (payload'.take bs) w.conn))
              rw [recvData_eq, if_neg (by rw [h.blockNumber]; exact hb)]
              exact writes_settle h
          | err =>
            rw [bind_ok hparse, handlePacket_err]
            obtain ⟨c', hsend, hwriting, -⟩ := h.retransmit
            rw [hsend]
            exact .inl (writes_settle hwriting)
      · exact .inl ⟨h, hready⟩

end LoPhi.Tftp.Upload
