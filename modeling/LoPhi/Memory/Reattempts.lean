import LoPhi.Memory.Chunking

/-! # Attempts of a threaded read

A threaded read sends all its requests and collects all replies in one attempt. An attempt that
fails should be repeated from the beginning, but after a refused reply `offset` and the
transaction number go on from where they are, and after a timeout `remaining_length` is still
zero, so that nothing is sent at all. -/

namespace LoPhi.Memory.Reattempts
open LoPhi.Lib.Python LoPhi.Lib.Interaction LoPhi.Lib.Window
open LoPhi.Memory.Physical LoPhi.Memory.Chunking

variable {mem : Nat → UInt8} {world : ThreadedWorld} {s : MemorySensorPhysical}
  {address length : Nat} {v : Threaded} {e : Event}

/-- The requests of each attempt so far. -/
def attempts : Progress Threaded ThreadedEnd → List (List MemoryRapidPacket)
  | .waiting v => v.attempts
  | .ended r => r.2

/-- Every attempt sends the same requests. -/
def SameRequests (log : List (List MemoryRapidPacket)) : Prop := ∀ a ∈ log, ∀ b ∈ log, a = b

/-- The last attempt is answered completely and exactly: its replies come in the order of its
requests. -/
def LastAnswered (mem : Nat → UInt8) (world : ThreadedWorld)
    (log : List (List MemoryRapidPacket)) : Prop :=
  ∀ requests, log.getLast? = some requests → ∀ i r, requests[i]? = some r →
    ∃ p, world log i = .packet p ∧ Replies mem r p

/-! ## Sending -/

theorem sendCommand_eq {packet : MemoryRapidPacket} {s' : MemorySensorPhysical}
    (h : sendCommand s commandRead address length = .ok (packet, s')) :
    packet = readPacket s.transactionNo address length ∧
      s' = { s with transactionNo := (s.transactionNo + 1) % 0xffff } := by
  unfold sendCommand at h
  dsimp only at h
  split at h
  · cases h
    exact ⟨rfl, rfl⟩
  · cases h

theorem sendAll_eq {fuel remaining : Nat} {packets : List MemoryRapidPacket}
    {s' : MemorySensorPhysical} (h : sendAll fuel s address remaining = .ok (packets, s')) :
    packets = readRequests fuel s.transactionNo address remaining ∧ s'.retries = s.retries := by
  induction fuel generalizing s address remaining packets with
  | zero =>
    cases h
    exact ⟨rfl, rfl⟩
  | succ fuel ih =>
    unfold sendAll at h
    unfold readRequests
    split at h
    · rename_i hmore
      rw [if_pos hmore]
      dsimp only at h
      split at h
      · cases h
      · rename_i packet t hsend
        obtain ⟨rfl, rfl⟩ := sendCommand_eq hsend
        split at h
        · cases h
        · rename_i rest u hrest
          cases h
          obtain ⟨rfl, hretries⟩ := ih hrest
          exact ⟨rfl, hretries⟩
    · rename_i hmore
      cases h
      exact ⟨(if_neg hmore).symm, rfl⟩

/-- What an attempt can do: it is one too many, a request does not fit, or its requests are sent
and the replies awaited. -/
theorem try_cases (v : Threaded) :
    (∃ e, v.try = .ended (.raised e, v.attempts)) ∨
      v.attempt < v.sensor.retries ∧ ∃ sensor, sensor.retries = v.sensor.retries ∧
        v.try =
          let requests := readRequests v.remaining v.sensor.transactionNo
            (v.request.address + v.offset) v.remaining
          if 0 < v.request.length then
            .waiting { v with
              sensor := sensor
              remaining := 0
              offset := v.offset + v.remaining
              attempts := v.attempts ++ [requests]
              received := 0
              response := { length := v.request.length, transactionNo := 0 } }
          else .ended (.returned (v.request.slice []), v.attempts ++ [requests]) := by
  unfold Threaded.try
  split
  · rename_i hattempt
    split
    · rename_i e hsend
      exact .inl ⟨e, rfl⟩
    · rename_i packets sensor hsend
      obtain ⟨rfl, hretries⟩ := sendAll_eq hsend
      exact .inr ⟨hattempt, sensor, hretries, rfl⟩
  · exact .inl ⟨_, rfl⟩

/-! ## The log only grows -/

theorem try_grows (v : Threaded) : v.attempts <+: attempts v.try := by
  rcases try_cases v with ⟨e, htry⟩ | ⟨-, sensor, -, htry⟩
  · rw [htry]
    exact List.prefix_refl _
  · rw [htry]
    dsimp only
    split <;> exact List.prefix_append _ _

theorem step_grows (v : Threaded) (e : Event) : v.attempts <+: attempts (v.step e) := by
  unfold Threaded.step
  split
  · exact List.prefix_refl _
  · exact List.prefix_refl _
  · exact try_grows { v with remaining := v.request.length, attempt := v.attempt + 1 }
  · exact try_grows { v with attempt := v.attempt + 1 }
  · exact List.prefix_refl _

theorem run_grows (n : Nat) :
    attempts (readFromSensorThreaded s address length) <+:
      attempts (threadedRun world s address length n) :=
  after_invariant
    (fun p => attempts (readFromSensorThreaded s address length) <+: attempts p)
    (List.prefix_refl _) (fun _ v _ h => h.trans (step_grows v _)) n

/-! ## A second attempt differs from the first -/

/-- The first two attempts did not send the same. -/
def Differ (log : List (List MemoryRapidPacket)) : Prop :=
  ∃ a b rest, log = a :: b :: rest ∧ a ≠ b

theorem Differ.of_prefix {log log' : List (List MemoryRapidPacket)} (h : Differ log)
    (hgrows : log <+: log') : Differ log' := by
  obtain ⟨a, b, rest, rfl, hne⟩ := h
  obtain ⟨more, rfl⟩ := hgrows
  exact ⟨a, b, rest ++ more, rfl, hne⟩

theorem Differ.not_same {log : List (List MemoryRapidPacket)} (h : Differ log) :
    ¬ SameRequests log := by
  obtain ⟨a, b, rest, rfl, hne⟩ := h
  exact fun hsame => hne (hsame a (by simp) b (by simp))

/-- In the first attempt: all of a request that is not empty has been sent. -/
structure First (v : Threaded) : Prop where
  length : 0 < v.request.length
  remaining : v.remaining = 0
  offset : v.offset = v.request.length
  attempts : v.attempts = [readRequests v.request.length 0 v.request.address v.request.length]

/-- The call is in its first attempt, has ended in it, or its first two attempts differ. -/
def Through (p : Progress Threaded ThreadedEnd) : Prop :=
  (∃ v, p = .waiting v ∧ First v) ∨ (∃ r, p = .ended r ∧ r.2.length ≤ 1) ∨ Differ (attempts p)

theorem readRequests_cons (transactionNo address : Nat) {n : Nat} (hn : 0 < n) :
    ∃ r rest, readRequests n transactionNo address n = r :: rest ∧ r.address = address := by
  obtain ⟨m, rfl⟩ : ∃ m, n = m + 1 := ⟨n - 1, by omega⟩
  unfold readRequests
  rw [if_pos hn]
  exact ⟨_, _, rfl, readPacket_address _ _ _⟩

/-- The requests of another attempt are none, or begin beyond the first. -/
theorem First.retry (h : First v) {remaining : Nat}
    (hremaining : remaining = 0 ∨ remaining = v.request.length) :
    Through (Threaded.try { v with remaining := remaining, attempt := v.attempt + 1 }) := by
  rcases try_cases { v with remaining := remaining, attempt := v.attempt + 1 } with
    ⟨e, htry⟩ | ⟨-, sensor, -, htry⟩
  · rw [htry]
    exact .inr (.inl ⟨_, rfl, by dsimp only; rw [h.attempts]; exact Nat.le_refl _⟩)
  · refine .inr (.inr ?_)
    rw [htry]
    dsimp only
    rw [if_pos h.length, h.attempts]
    refine ⟨_, _, [], rfl, ?_⟩
    obtain ⟨r, rest, hfirst, hr⟩ := readRequests_cons 0 v.request.address h.length
    rw [hfirst]
    rcases hremaining with rfl | rfl
    · exact List.cons_ne_nil _ _
    · obtain ⟨r', rest', hagain, hr'⟩ := readRequests_cons v.sensor.transactionNo
        (v.request.address + v.offset) h.length
      rw [hagain]
      intro heq
      have hlength := h.length
      rw [(List.cons.inj heq).1, hr', h.offset] at hr
      omega

theorem First.step (h : First v) (e : Event) : Through (v.step e) := by
  have hlog : v.attempts.length ≤ 1 := by
    rw [h.attempts]
    exact Nat.le_refl _
  unfold Threaded.step
  split
  · exact .inl ⟨_, rfl, h.length, h.remaining, h.offset, h.attempts⟩
  · exact .inr (.inl ⟨_, rfl, hlog⟩)
  · exact h.retry (.inr rfl)
  · have hretry := h.retry (.inl rfl)
    rwa [← h.remaining] at hretry
  · exact .inr (.inl ⟨_, rfl, hlog⟩)

/-- The variables before the first attempt. -/
def before (s : MemorySensorPhysical) (address length : Nat) : Threaded where
  sensor := { s with transactionNo := 0 }
  request := align address length
  remaining := (align address length).length

/-- The variables when the first attempt has sent its requests. -/
def sent (sensor : MemorySensorPhysical) (a : Aligned) : Threaded where
  sensor := sensor
  request := a
  remaining := 0
  offset := a.length
  attempts := [readRequests a.length 0 a.address a.length]
  response := { length := a.length, transactionNo := 0 }

/-- The start of a call: nothing is sent, or the requests of the first attempt. -/
theorem start_cases (s : MemorySensorPhysical) (address length : Nat) :
    (∃ e, readFromSensorThreaded s address length = .ended (.raised e, [])) ∨
      0 < (align address length).length ∧
        (∃ sensor, readFromSensorThreaded s address length =
          .waiting (sent sensor (align address length))) ∨
      (align address length).length = 0 ∧
        readFromSensorThreaded s address length =
          .ended (.returned ((align address length).slice []), [[]]) := by
  show (∃ e, (before s address length).try = _) ∨ _ ∧ (∃ sensor, (before s address length).try = _)
    ∨ _ ∧ (before s address length).try = _
  rcases try_cases (before s address length) with ⟨e, htry⟩ | ⟨-, sensor, -, htry⟩
  · exact .inl ⟨e, htry⟩
  · rcases Nat.eq_zero_or_pos (align address length).length with hnone | hsome
    · refine .inr (.inr ⟨hnone, ?_⟩)
      refine htry.trans ((if_neg (Nat.not_lt.mpr (Nat.le_of_eq hnone))).trans ?_)
      dsimp only [before]
      rw [hnone]
      rfl
    · refine .inr (.inl ⟨hsome, sensor, ?_⟩)
      refine htry.trans ((if_pos hsome).trans ?_)
      dsimp only [before]
      rw [Nat.zero_add]
      rfl

theorem first_sent {sensor : MemorySensorPhysical} {a : Aligned} (h : 0 < a.length) :
    First (sent sensor a) := ⟨h, rfl, rfl, rfl⟩

theorem through_start (s : MemorySensorPhysical) (address length : Nat) :
    Through (readFromSensorThreaded s address length) := by
  rcases start_cases s address length with ⟨e, h⟩ | ⟨hsome, sensor, h⟩ | ⟨-, h⟩
  · exact .inr (.inl ⟨_, h, Nat.zero_le _⟩)
  · exact .inl ⟨_, h, first_sent hsome⟩
  · exact .inr (.inl ⟨_, h, Nat.le_refl _⟩)

theorem through_run (n : Nat) : Through (threadedRun world s address length n) := by
  refine after_invariant Through (through_start s address length) ?_ n
  intro k v _ h
  rcases h with ⟨v', hv', hfirst⟩ | ⟨r, hr, -⟩ | hdiffer
  · cases hv'
    exact hfirst.step _
  · cases hr
  · exact .inr (.inr (hdiffer.of_prefix (step_grows v _)))

/-! ## The first attempt -/

theorem receive_next {p : MemoryRapidPacket} {transactionNo offset n : Nat} (length : Nat)
    (h : Replies mem (readPacket transactionNo (address + offset) n) p) :
    (⟨length, transactionNo, window mem address offset⟩ : Response).receive (.packet p) =
      if offset + n < length then
        .again ⟨length, (transactionNo + 1) % 0xffff, window mem address (offset + n)⟩
      else .data ((window mem address (offset + n)).take length) := by
  rw [receive_reply h rfl, readPacket_address]
  show Response.check ⟨_, _, _ ++ window mem (address + offset) n⟩ = _
  rw [← window_add]
  simp only [Response.check, length_window]

/-- While the replies come in the order of the requests, the bytes collected are those up to the
next request. -/
theorem collect (fuel remaining transactionNo offset : Nat) {log : List MemoryRapidPacket}
    (hfuel : remaining ≤ fuel) (hlog : v.attempts = [log])
    (hlast : LastAnswered mem world [log])
    (hrest : log.drop v.received =
      readRequests fuel transactionNo (v.request.address + offset) remaining)
    (hresponse : v.response =
      ⟨v.request.length, transactionNo, window mem v.request.address offset⟩)
    (hlength : offset + remaining = v.request.length) (hmore : 0 < remaining) :
    ∃ m, after Threaded.step (fun _ v => world v.attempts v.received) (.waiting v) m =
      .ended (.returned (v.request.slice (window mem v.request.address v.request.length)),
        v.attempts) := by
  induction fuel generalizing v remaining transactionNo offset with
  | zero => omega
  | succ fuel ih =>
    unfold readRequests at hrest
    rw [if_pos hmore] at hrest
    have hpos : 0 < min readChunk remaining := Nat.lt_min.mpr ⟨by decide, hmore⟩
    have hle : min readChunk remaining ≤ remaining := Nat.min_le_right _ _
    generalize min readChunk remaining = n at hrest hpos hle
    obtain ⟨p, hp, hreply⟩ := hlast log rfl v.received _ (by
      rw [← List.head?_drop, hrest, List.head?_cons])
    have hturn := receive_next v.request.length hreply
    rw [← hresponse] at hturn
    by_cases hend : remaining = n
    · rw [if_neg (by omega), take_window (by omega)] at hturn
      refine ⟨1, ?_⟩
      rw [after_succ, hlog, hp]
      show Threaded.step v _ = _
      simp only [Threaded.step, hturn, hlog]
    · rw [if_pos (by omega)] at hturn
      obtain ⟨m, hm⟩ := ih (v := { v with
          response := ⟨v.request.length, (transactionNo + 1) % 0xffff,
            window mem v.request.address (offset + n)⟩
          received := v.received + 1 })
        (remaining - n) ((transactionNo + 1) % 0xffff) (offset + n) (by omega) hlog (by
          show log.drop (v.received + 1) = _
          rw [← List.drop_drop, hrest, List.drop_one, List.tail_cons, Nat.add_assoc]) rfl
        (by dsimp only; omega) (by omega)
      refine ⟨m + 1, ?_⟩
      rw [after_succ, hlog, hp]
      rw [← hlog, ← hm]
      simp only [Threaded.step, hturn]

theorem answered_start (h : (attempts (readFromSensorThreaded s address length)).length = 1)
    (hlast : LastAnswered mem world (attempts (readFromSensorThreaded s address length))) :
    ∃ m log, threadedRun world s address length m =
      .ended (.returned (window mem address length), log) := by
  rcases start_cases s address length with ⟨e, hs⟩ | ⟨hsome, sensor, hs⟩ | ⟨hnone, hs⟩
  · rw [hs] at h
    cases h
  · rw [hs] at hlast
    obtain ⟨m, hm⟩ := collect (v := sent sensor (align address length)) _ _ 0 0
      (Nat.le_refl _) rfl hlast rfl rfl (Nat.zero_add _) hsome
    refine ⟨m, (sent sensor (align address length)).attempts, ?_⟩
    unfold threadedRun
    rw [hs, hm]
    show Progress.ended (Outcome.returned ((align address length).slice (window mem
      (align address length).address (align address length).length)), _) = _
    rw [slice_align]
  · refine ⟨0, [[]], ?_⟩
    have hslice := @slice_align mem address length
    rw [hnone] at hslice
    show readFromSensorThreaded s address length = _
    rw [hs, ← hslice]
    rfl

/-- A run with one attempt is still in the one it began with. -/
theorem one_attempt {n : Nat}
    (hone : (attempts (threadedRun world s address length n)).length = 1) :
    attempts (threadedRun world s address length n) =
      attempts (readFromSensorThreaded s address length) := by
  refine (List.IsPrefix.eq_of_length (run_grows n) ?_).symm
  rcases start_cases s address length with ⟨e, hs⟩ | ⟨-, sensor, hs⟩ | ⟨-, hs⟩
  · unfold threadedRun at hone
    rw [hs, after_ended] at hone
    cases hone
  · rw [hone, hs]
    rfl
  · rw [hone, hs]
    rfl

/-- In a run with more than one attempt the first two differ. -/
theorem differ_run {n k : Nat}
    (hk : (attempts (threadedRun world s address length n)).length = k + 2) :
    Differ (attempts (threadedRun world s address length n)) := by
  have hthrough : Through (threadedRun world s address length n) := through_run n
  rcases hthrough with ⟨v, hv, hfirst⟩ | ⟨r, hr, hone⟩ | hdiffer
  · rw [hv] at hk
    change v.attempts.length = k + 2 at hk
    rw [hfirst.attempts] at hk
    simp at hk
  · rw [hr] at hk
    change r.2.length = k + 2 at hk
    omega
  · exact hdiffer

/-- **When the last of `k + 1` attempts of a threaded read is answered completely, all have sent
the same requests and the read returns the requested bytes if and only if no attempt failed**.
A refused reply leaves `offset` and the transaction number where they are, and a timeout leaves
nothing to send. -/
theorem same_requests_iff (mem : Nat → UInt8) (world : ThreadedWorld) (s : MemorySensorPhysical)
    (address length n k : Nat)
    (hk : (attempts (threadedRun world s address length n)).length = k + 1)
    (hlast : LastAnswered mem world (attempts (threadedRun world s address length n))) :
    (SameRequests (attempts (threadedRun world s address length n)) ∧
      ∃ m log, threadedRun world s address length m =
        .ended (.returned (window mem address length), log)) ↔ k = 0 := by
  cases k with
  | zero =>
    refine iff_of_true ⟨?_, ?_⟩ rfl
    · obtain ⟨requests, hlog⟩ := List.length_eq_one_iff.mp hk
      rw [hlog]
      intro a ha b hb
      rw [List.mem_singleton.mp ha, List.mem_singleton.mp hb]
    · have hlog := one_attempt hk
      rw [hlog] at hk hlast
      exact answered_start hk hlast
  | succ k =>
    refine iff_of_false ?_ (Nat.succ_ne_zero k)
    rintro ⟨hsame, -⟩
    exact (differ_run hk).not_same hsame

/-- The replies to the requests of the present attempt, in their order. -/
def replyingInOrder (mem : Nat → UInt8) : ThreadedWorld := fun log i =>
  match (log.getLast?.getD [])[i]? with
  | none => .timeout
  | some r =>
    .packet { r with
      operation := commandRead + 0x2
      data := some (window mem r.address r.length)
      magicLophi := magicNumber }

theorem lastAnswered_replyingInOrder (mem : Nat → UInt8) (log : List (List MemoryRapidPacket)) :
    LastAnswered mem (replyingInOrder mem) log := by
  intro requests hlog i r hr
  unfold replyingInOrder
  rw [hlog, Option.getD_some, hr]
  exact ⟨_, rfl, rfl, rfl, rfl, rfl⟩

/-- A read of two chunks, answered at the first attempt. -/
theorem same_requests_two_chunks :
    SameRequests (attempts (threadedRun (replyingInOrder UInt8.ofNat) { retries := 5 } 1 7681 0)) ∧
      ∃ m log, threadedRun (replyingInOrder UInt8.ofNat) { retries := 5 } 1 7681 m =
        .ended (.returned (window UInt8.ofNat 1 7681), log) :=
  (same_requests_iff UInt8.ofNat (replyingInOrder UInt8.ofNat) { retries := 5 } 1 7681 0 0
    (by decide) (lastAnswered_replyingInOrder _ _)).mpr rfl

/-- The first attempt gets a reply with another number, all others are answered. -/
def refusedOnce (mem : Nat → UInt8) : ThreadedWorld := fun log i =>
  if log.length = 1 then
    .packet { magicLophi := magicNumber, operation := commandRead + 0x2, length := 0
              transactionNo := 0xfffe, data := some [] }
  else replyingInOrder mem log i

/-- One word at address zero, refused once: the second attempt asks for the word at address four,
with number one. -/
theorem refused_differs :
    ¬ ∀ (mem : Nat → UInt8) (world : ThreadedWorld) (s : MemorySensorPhysical)
      (address length n k : Nat), k < s.retries →
      (attempts (threadedRun world s address length n)).length = k + 1 →
      LastAnswered mem world (attempts (threadedRun world s address length n)) →
      SameRequests (attempts (threadedRun world s address length n)) ∧
        ∃ m log, threadedRun world s address length m =
          .ended (.returned (window mem address length), log) := by
  intro h
  have hlog : attempts (threadedRun (refusedOnce UInt8.ofNat) { retries := 5 } 0 4 1) =
      [[readPacket 0 0 4], [readPacket 1 4 4]] := by decide
  have hlast : LastAnswered UInt8.ofNat (refusedOnce UInt8.ofNat)
      [[readPacket 0 0 4], [readPacket 1 4 4]] :=
    lastAnswered_replyingInOrder UInt8.ofNat [[readPacket 0 0 4], [readPacket 1 4 4]]
  have hsame := (h UInt8.ofNat (refusedOnce UInt8.ofNat) { retries := 5 } 0 4 1 1 (by decide)
    (by rw [hlog]; rfl) (by rw [hlog]; exact hlast)).1
  rw [hlog] at hsame
  exact absurd (hsame [readPacket 0 0 4] (by simp) [readPacket 1 4 4] (by simp)) (by decide)

end LoPhi.Memory.Reattempts
