import LoPhi.Memory.Chunking

/-! # How often a chunk is asked for

`RETRIES` is meant to bound the requests for a chunk, but the line that counts an attempt is only
reached after a timeout: a reply that is refused leads back to the head of the loop by `continue`.
And `_get_read_response` waits on after a reply to another operation. -/

namespace LoPhi.Memory.Retries
open LoPhi.Lib.Python LoPhi.Lib.Interaction LoPhi.Lib.Window
open LoPhi.Memory.Physical LoPhi.Memory.Chunking

/-- The `recvfrom` ends in a timeout or in a reply that `_get_read_response` takes: the magic
number, the transaction number and the operation are right, and there is data. -/
def Accepted (v : Serial) (e : Event) : Prop :=
  e = .timeout ∨ ∃ p bytes, e = .packet p ∧ p.magicLophi = magicNumber ∧
    p.transactionNo = v.response.transactionNo ∧ p.operation = commandRead + 0x2 ∧
    p.data = some bytes ∧ bytes ≠ []

/-- Every chunk of the request begins at an address of 64 bits. -/
def ChunksFit (address length : Nat) : Prop :=
  ∀ k, k * readChunk < (align address length).length →
    (align address length).address + k * readChunk < 2 ^ 64

/-- The requests of a call so far. -/
def sent : Progress Serial SerialEnd → List MemoryRapidPacket
  | .waiting v => v.sent
  | .ended r => r.2

/-- How many of the requests are for the chunk at an address. -/
def asks (address : Nat) (requests : List MemoryRapidPacket) : Nat :=
  requests.countP fun r => r.address == address

/-- The call has returned, or has given up. -/
def Finished (r : SerialEnd) : Prop := (∃ data, r.1 = .returned data) ∨ r.1 = .raised .socketTimeout

/-- The address of the present chunk. -/
def chunkAddress (v : Serial) : Nat := v.request.address + v.offset

/-- In the loop over the chunks: there is more to ask for and it can be asked for, nothing was
asked for beyond this chunk, and no chunk too often. -/
structure Sound (retries : Nat) (v : Serial) : Prop where
  limit : v.sensor.retries = retries
  more : 0 < v.remaining
  fits : ∀ k, k * readChunk < v.remaining → chunkAddress v + k * readChunk < 2 ^ 64
  behind : ∀ r ∈ v.sent, r.address ≤ chunkAddress v
  bound : ∀ address, asks address v.sent ≤ retries

/-- Before a request is sent: as many were sent for this chunk as attempts are counted. -/
structure Ready (retries : Nat) (v : Serial) : Prop extends Sound retries v where
  attempt : v.attempt ≤ retries
  asked : asks (chunkAddress v) v.sent = v.attempt

/-- While a reply is awaited: one more was sent, and not all of the data is there. -/
structure Within (retries : Nat) (v : Serial) : Prop extends Sound retries v where
  attempt : v.attempt < retries
  asked : asks (chunkAddress v) v.sent = v.attempt + 1
  response : v.response.length = v.reqLen
  short : v.response.data.length < v.reqLen

/-- The call keeps within its attempts. -/
def Keeps (retries : Nat) : Progress Serial SerialEnd → Prop
  | .waiting v => Within retries v
  | .ended r => Finished r ∧ ∀ address, asks address r.2 ≤ retries

section Turns
variable {retries : Nat} {v : Serial} {e : Event}

theorem asks_append (address : Nat) (requests : List MemoryRapidPacket) (r : MemoryRapidPacket) :
    asks address (requests ++ [r]) =
      asks address requests + if r.address = address then 1 else 0 := by
  unfold asks
  rw [List.countP_append, List.countP_singleton]
  simp only [beq_iff_eq]

/-- Nothing was asked for beyond the farthest request. -/
theorem asks_beyond {address far : Nat} {requests : List MemoryRapidPacket}
    (hbehind : ∀ r ∈ requests, r.address ≤ far) (hfar : far < address) :
    asks address requests = 0 := by
  refine List.countP_eq_zero.mpr fun r hr => ?_
  have := hbehind r hr
  simp only [beq_iff_eq]
  omega

/-- An attempt sends one request, or gives up. -/
theorem Ready.try (h : Ready retries v) :
    v.try = .ended (.raised .socketTimeout, v.sent) ∨
      ∃ v', v.try = .waiting v' ∧ Within retries v' ∧ v'.remaining = v.remaining ∧
        v'.attempt = v.attempt := by
  unfold Serial.try
  by_cases hattempt : v.attempt < v.sensor.retries
  · right
    have hlen : v.reqLen < 2 ^ 32 := Nat.lt_of_le_of_lt (reqLen_le v).1 (by decide)
    have haddress : v.request.address + v.offset < 2 ^ 64 := by
      simpa [chunkAddress] using h.fits 0 (by simpa using h.more)
    have hasked := h.asked
    rw [if_pos hattempt, sendCommand_ok v.sensor haddress hlen]
    rw [h.limit] at hattempt
    refine ⟨_, rfl, ⟨⟨h.limit, h.more, h.fits, ?_, ?_⟩, hattempt, ?_, rfl, reqLen_pos h.more⟩,
      rfl, rfl⟩
    · intro r hr
      rcases List.mem_append.mp hr with hr | hr
      · exact h.behind r hr
      · rw [List.mem_singleton.mp hr, readPacket_address]
        exact Nat.le_refl _
    · intro address
      show asks address (v.sent ++ [_]) ≤ retries
      rw [asks_append, readPacket_address]
      split
      · rename_i heq
        rw [← heq]
        show asks (chunkAddress v) v.sent + 1 ≤ retries
        omega
      · exact h.bound address
    · show asks (chunkAddress v) (v.sent ++ [_]) = v.attempt + 1
      rw [asks_append, readPacket_address, hasked]
      exact congrArg (v.attempt + ·) (if_pos rfl)
  · exact .inl (if_neg hattempt)

theorem Ready.keeps (h : Ready retries v) : Keeps retries v.try := by
  rcases h.try with hgiven | ⟨v', hsent, hwithin, -⟩
  · rw [hgiven]
    exact ⟨.inr rfl, h.bound⟩
  · rw [hsent]
    exact hwithin

/-- What an accepted `recvfrom` can do. -/
theorem Accepted.step (h : Accepted v e) :
    v.step e = Serial.try { v with attempt := v.attempt + 1 } ∨
      (∃ r, v.step e = .waiting { v with response := r } ∧ r.length = v.response.length ∧
        v.response.data.length < r.data.length ∧ r.data.length < r.length) ∨
      ∃ tmp, v.step e = Serial.chunk { v with
        rtnData := v.rtnData ++ tmp
        remaining := v.remaining - v.reqLen
        offset := v.offset + v.reqLen } := by
  rcases h with rfl | ⟨p, bytes, rfl, hmagic, hno, hop, hdata, hne⟩
  · exact .inl rfl
  · right
    have hturn : v.response.receive (.packet p) = Response.check ⟨v.response.length,
        (v.response.transactionNo + 1) % 0xffff, v.response.data ++ bytes⟩ := by
      simp [Response.receive, hmagic, hno, hop, hdata]
    have hgrown : v.response.data.length < (v.response.data ++ bytes).length := by
      have := List.length_pos_iff.mpr hne
      rw [List.length_append]
      omega
    unfold Response.check at hturn
    split at hturn
    · rename_i hshort
      refine .inl ⟨⟨v.response.length, (v.response.transactionNo + 1) % 0xffff,
        v.response.data ++ bytes⟩, ?_, rfl, hgrown, hshort⟩
      simp only [Serial.step, hturn]
    · exact .inr ⟨_, by simp only [Serial.step, hturn]; rfl⟩

/-- After a timeout the next attempt is due. -/
theorem Within.timeout (h : Within retries v) :
    Ready retries { v with attempt := v.attempt + 1 } :=
  ⟨⟨h.limit, h.more, h.fits, h.behind, h.bound⟩, h.attempt, h.asked⟩

/-- After a chunk the first attempt for the next one is due. -/
theorem Within.next (h : Within retries v) (tmp : List UInt8)
    (hmore : 0 < v.remaining - v.reqLen) :
    Ready retries { v with
      rtnData := v.rtnData ++ tmp
      remaining := v.remaining - v.reqLen
      offset := v.offset + v.reqLen
      attempt := 0 } := by
  have hpos := reqLen_pos h.more
  have hchunk : v.reqLen = readChunk := by
    have hmin : v.reqLen = min readChunk v.remaining := rfl
    omega
  have hahead : chunkAddress v < v.request.address + (v.offset + v.reqLen) := by
    show v.request.address + v.offset < _
    omega
  refine ⟨⟨h.limit, hmore, ?_, ?_, h.bound⟩, Nat.zero_le _, asks_beyond h.behind hahead⟩
  · intro k hk
    have hk' : k * readChunk < v.remaining - v.reqLen := hk
    have hfits : v.request.address + v.offset + (k + 1) * readChunk < 2 ^ 64 :=
      h.fits (k + 1) (by rw [Nat.succ_mul]; omega)
    rw [Nat.succ_mul] at hfits
    show v.request.address + (v.offset + v.reqLen) + k * readChunk < 2 ^ 64
    omega
  · exact fun r hr => Nat.le_trans (h.behind r hr) (Nat.le_of_lt hahead)

theorem Within.keeps (h : Within retries v) (he : Accepted v e) : Keeps retries (v.step e) := by
  rcases he.step with htry | ⟨r, hwait, hlen, -, hshort⟩ | ⟨tmp, hchunk⟩
  · rw [htry]
    exact h.timeout.keeps
  · rw [hwait]
    have hlen' : r.length = v.reqLen := hlen.trans h.response
    rw [hlen'] at hshort
    exact ⟨⟨h.limit, h.more, h.fits, h.behind, h.bound⟩, h.attempt, h.asked, hlen', hshort⟩
  · rw [hchunk]
    unfold Serial.chunk
    split
    · rename_i hmore
      exact (h.next tmp hmore).keeps
    · exact ⟨.inl ⟨_, rfl⟩, h.bound⟩

end Turns

/-! ## The end of a call -/

/-- What is left: bytes to receive, attempts for the present chunk, bytes of its reply. -/
def left (v : Serial) : Nat × Nat × Nat :=
  (v.remaining, v.sensor.retries - v.attempt, v.reqLen - v.response.data.length)

/-- The order in which it is used up. -/
def Less : Nat × Nat × Nat → Nat × Nat × Nat → Prop :=
  Prod.Lex (· < ·) (Prod.Lex (· < ·) (· < ·))

theorem wellFounded_less : WellFounded Less :=
  WellFounded.prod_lex Nat.lt_wfRel.wf (WellFounded.prod_lex Nat.lt_wfRel.wf Nat.lt_wfRel.wf)

/-- Every accepted `recvfrom` uses something up. -/
theorem Within.less {retries : Nat} {v v' : Serial} {e : Event} (h : Within retries v)
    (he : Accepted v e) (hstep : v.step e = .waiting v') : Less (left v') (left v) := by
  have hkeeps : Within retries v' := by
    have := h.keeps he
    rwa [hstep] at this
  have hattempt := h.attempt
  unfold left
  rw [h.limit, hkeeps.limit]
  rcases he.step with htry | ⟨r, hwait, -, hgrown, hshort⟩ | ⟨tmp, hchunk⟩
  · rcases h.timeout.try with hgiven | ⟨v'', hsent, -, hremaining, hcount⟩
    · rw [htry, hgiven] at hstep
      cases hstep
    · rw [htry, hsent] at hstep
      cases hstep
      rw [hremaining, hcount]
      refine .right _ (.left _ _ ?_)
      show retries - (v.attempt + 1) < retries - v.attempt
      omega
  · rw [hwait] at hstep
    cases hstep
    have hshort' := h.short
    refine .right _ (.right _ ?_)
    show v.reqLen - r.data.length < v.reqLen - v.response.data.length
    omega
  · rw [hchunk] at hstep
    unfold Serial.chunk at hstep
    split at hstep
    · rename_i hmore
      rcases (h.next tmp hmore).try with hgiven | ⟨v'', hsent, -, hremaining, -⟩
      · rw [hgiven] at hstep
        cases hstep
      · rw [hsent] at hstep
        cases hstep
        rw [hremaining]
        refine .left _ _ ?_
        have := reqLen_pos h.more
        show v.remaining - v.reqLen < v.remaining
        have := h.more
        omega
    · cases hstep

/-- **A read in which no reply is refused, answers another operation or lacks its data gives up in
time**: for every chunk at most `RETRIES` requests are sent, and the call returns or raises
`socket.timeout`. -/
theorem accepted_read_gives_up (world : World) (s : MemorySensorPhysical) (address length : Nat)
    (hfit : ChunksFit address length)
    (haccepted : ∀ n v, serialRun world s address length n = .waiting v →
      Accepted v (world v.sent n)) :
    (∀ n chunk, asks chunk (sent (serialRun world s address length n)) ≤ s.retries) ∧
      ∃ n r, serialRun world s address length n = .ended r ∧ Finished r := by
  have hstart : Keeps s.retries (readFromSensor s address length) := by
    unfold readFromSensor Serial.chunk
    split
    · rename_i hmore
      refine Ready.keeps ⟨⟨rfl, hmore, ?_, ?_, ?_⟩, Nat.zero_le _, rfl⟩
      · intro k hk
        exact hfit k hk
      · exact fun r hr => absurd hr List.not_mem_nil
      · exact fun a => Nat.zero_le _
    · exact ⟨.inl ⟨_, rfl⟩, fun a => Nat.zero_le _⟩
  have hstep : ∀ n v, serialRun world s address length n = .waiting v → Within s.retries v →
      Keeps s.retries (v.step (world v.sent n)) :=
    fun n v hv h => Within.keeps h (haccepted n v hv)
  constructor
  · intro n chunk
    have h : Keeps s.retries (serialRun world s address length n) :=
      after_invariant (Keeps s.retries) hstart hstep n
    cases hn : serialRun world s address length n with
    | waiting v =>
      rw [hn] at h
      exact h.bound chunk
    | ended r =>
      rw [hn] at h
      exact h.2 chunk
  · obtain ⟨n, r, hr, hfinished, -⟩ := exists_ended_invariant wellFounded_less left
      (Keeps s.retries) hstart hstep fun n v v' hv h => Within.less h (haccepted n v hv)
    exact ⟨n, r, hr, hfinished⟩

/-- A sensor that never answers: every `recvfrom` times out. -/
theorem silent_read_gives_up :
    (∀ n chunk, asks chunk (sent (serialRun (fun _ _ => .timeout) { retries := 5 } 0 9000 n)) ≤
        5) ∧
      ∃ n r, serialRun (fun _ _ => .timeout) { retries := 5 } 0 9000 n = .ended r ∧ Finished r := by
  refine accepted_read_gives_up (fun _ _ => .timeout) { retries := 5 } 0 9000 ?_
    (fun _ _ _ => .inl rfl)
  intro k hk
  have hlen : (align 0 9000).length = 9000 := by decide
  have haddress : (align 0 9000).address = 0 := by decide
  omega

/-- The reply to a request made long ago, over and over. -/
def stale : World := fun _ _ =>
  .packet
    { magicLophi := magicNumber, operation := commandRead + 0x2, length := 4,
      transactionNo := 0xffff, data := some [0, 0, 0, 0] }

/-- The first attempt at the first chunk, with `n` requests sent. -/
structure Stuck (n : Nat) (v : Serial) : Prop where
  retries : v.sensor.retries = 5
  attempt : v.attempt = 0
  address : chunkAddress v = 0
  transaction : v.response.transactionNo < 0xffff
  asked : asks 0 v.sent = n

/-- The reply is refused and the chunk asked for again, in the same attempt. -/
theorem Stuck.step {n k : Nat} {v : Serial} (h : Stuck n v) :
    ∃ v', v.step (stale v.sent k) = .waiting v' ∧ Stuck (n + 1) v' := by
  have htransaction := h.transaction
  have hturn : v.response.receive (stale v.sent k) = .nothing := by
    simp only [stale, Response.receive, ne_eq, not_true, if_false]
    rw [if_pos (by omega)]
  have haddress : v.request.address + v.offset < 2 ^ 64 := by
    rw [show v.request.address + v.offset = 0 from h.address]
    decide
  have hlen : v.reqLen < 2 ^ 32 := Nat.lt_of_le_of_lt (reqLen_le v).1 (by decide)
  have hstep : v.step (stale v.sent k) = v.try := by simp only [Serial.step, hturn]
  rw [hstep, Serial.try, if_pos (by rw [h.attempt, h.retries]; decide),
    sendCommand_ok v.sensor haddress hlen]
  refine ⟨_, rfl, h.retries, h.attempt, h.address, Nat.mod_lt _ (by decide), ?_⟩
  show asks 0 (v.sent ++ [_]) = n + 1
  rw [asks_append, readPacket_address, h.asked]
  exact congrArg (n + ·) (if_pos h.address)

theorem stale_run (n : Nat) :
    ∃ v, serialRun stale { retries := 5 } 0 4 n = .waiting v ∧ Stuck (n + 1) v := by
  induction n with
  | zero => exact ⟨_, rfl, rfl, rfl, rfl, by decide, by decide⟩
  | succ n ih =>
    obtain ⟨v, hv, h⟩ := ih
    obtain ⟨v', hv', h'⟩ := h.step (k := n)
    exact ⟨v', (after_waiting hv).trans hv', h'⟩

/-- With such a sensor the first chunk is asked for again and again, a sixth time as well, and
the call never ends. -/
theorem stale_read_never_ends :
    ¬ (∀ (world : World) (s : MemorySensorPhysical) (address length : Nat), 1 ≤ s.retries →
        ∀ n chunk, asks chunk (sent (serialRun world s address length n)) ≤ s.retries) ∧
      ¬ ∀ (world : World) (s : MemorySensorPhysical) (address length : Nat), 1 ≤ s.retries →
        ∃ n r, serialRun world s address length n = .ended r ∧ Finished r := by
  constructor
  · intro h
    obtain ⟨v, hv, hstuck⟩ := stale_run 5
    have hfew := h stale { retries := 5 } 0 4 (by decide) 5 0
    rw [hv] at hfew
    change asks 0 v.sent ≤ 5 at hfew
    rw [hstuck.asked] at hfew
    exact absurd hfew (by decide)
  · intro h
    obtain ⟨n, r, hr, -⟩ := h stale { retries := 5 } 0 4 (by decide)
    obtain ⟨v, hv, -⟩ := stale_run n
    rw [hv] at hr
    cases hr

end LoPhi.Memory.Retries
