import Mathlib.Data.List.Nodup
import LoPhi.Memory.Physical

/-! # Physical reads that are answered

With a sensor that answers every request, a read asks for the whole words around the requested
bytes, chunk by chunk, and cuts the bytes out of what comes back. The transaction numbers run
modulo `0xffff`, and so does the number a reply is expected to have. -/

namespace LoPhi.Memory.Chunking
open LoPhi.Lib.Python LoPhi.Lib.Interaction LoPhi.Lib.Window LoPhi.Memory.Physical

variable {mem : Nat → UInt8}

/-! ## The requests -/

/-- A request for `length` bytes. -/
def readPacket (transactionNo address length : Nat) : MemoryRapidPacket where
  magicLophi := magicNumber
  operation := commandRead
  addressHigh := address >>> 32
  addressLow := address &&& 0xFFFFFFFF
  length := length
  transactionNo := transactionNo

theorem readPacket_address (transactionNo address length : Nat) :
    (readPacket transactionNo address length).address = address := by
  show address >>> 32 * 2 ^ 32 + (address &&& 0xFFFFFFFF) = address
  rw [Nat.shiftRight_eq_div_pow, show (0xFFFFFFFF : Nat) = 2 ^ 32 - 1 from rfl,
    Nat.and_two_pow_sub_one_eq_mod]
  omega

theorem sendCommand_ok (s : MemorySensorPhysical) {address length : Nat}
    (haddress : address < 2 ^ 64) (hlength : length < 2 ^ 32) :
    sendCommand s commandRead address length =
      .ok (readPacket s.transactionNo address length,
        { s with transactionNo := (s.transactionNo + 1) % 0xffff }) := by
  have hhigh : address >>> 32 < 2 ^ 32 := by
    rw [Nat.shiftRight_eq_div_pow]
    omega
  exact if_pos ⟨hhigh, hlength⟩

/-- The requests for a stretch of memory, in order. -/
def readRequests : Nat → (transactionNo address remaining : Nat) → List MemoryRapidPacket
  | 0, _, _, _ => []
  | fuel + 1, transactionNo, address, remaining =>
    if 0 < remaining then
      readPacket transactionNo address (min readChunk remaining) ::
        readRequests fuel ((transactionNo + 1) % 0xffff) (address + min readChunk remaining)
          (remaining - min readChunk remaining)
    else []

/-- The words a request is for. -/
def words (r : MemoryRapidPacket) : List Nat := window (4 * ·) (r.address / 4) (r.length / 4)

section Requests
variable {fuel transactionNo address remaining : Nat}

theorem readRequests_aligned (haddress : address % 4 = 0) (hremaining : remaining % 4 = 0) :
    ∀ r ∈ readRequests fuel transactionNo address remaining,
      r.operation = commandRead ∧ r.address % 4 = 0 ∧ r.length % 4 = 0 ∧
        r.length ≤ readChunk := by
  induction fuel generalizing transactionNo address remaining with
  | zero => exact fun r hr => absurd hr List.not_mem_nil
  | succ fuel ih =>
    unfold readRequests
    split
    · have hmin : min readChunk remaining % 4 = 0 := by
        unfold readChunk
        omega
      refine List.forall_mem_cons.mpr ⟨⟨rfl, ?_, hmin, Nat.min_le_left _ _⟩,
        ih (by omega) (by omega)⟩
      rw [readPacket_address]
      exact haddress
    · exact fun r hr => absurd hr List.not_mem_nil

/-- The requests are for the words of the stretch, one after the other. -/
theorem words_readRequests (hfuel : remaining ≤ fuel) (haddress : address % 4 = 0)
    (hremaining : remaining % 4 = 0) :
    (readRequests fuel transactionNo address remaining).flatMap words =
      window (4 * ·) (address / 4) (remaining / 4) := by
  induction fuel generalizing transactionNo address remaining with
  | zero =>
    obtain rfl : remaining = 0 := by omega
    rfl
  | succ fuel ih =>
    unfold readRequests
    split
    · have hchunk : readChunk = 4 * 1920 := rfl
      generalize hn : min readChunk remaining = n
      have hmod : n % 4 = 0 := by omega
      rw [List.flatMap_cons, ih (by omega) (by omega) (by omega), words, readPacket_address]
      show window (4 * ·) (address / 4) (n / 4) ++ _ = _
      rw [show (address + n) / 4 = address / 4 + n / 4 by omega,
        show remaining / 4 = n / 4 + (remaining - n) / 4 by omega, window_add]
    · obtain rfl : remaining = 0 := by omega
      rfl

end Requests

theorem count_words (a n x : Nat) :
    (window (4 * ·) a n).count (4 * x) = if a ≤ x ∧ x < a + n then 1 else 0 := by
  have hnodup : (window (4 * ·) a n).Nodup := by
    refine (List.nodup_map_iff_inj_on List.nodup_range').mpr ?_
    intro x _ y _ h
    omega
  have hmem : 4 * x ∈ window (4 * ·) a n ↔ a ≤ x ∧ x < a + n := by
    unfold window
    rw [List.mem_map]
    constructor
    · rintro ⟨y, hy, hxy⟩
      rw [List.mem_range'_1] at hy
      omega
    · intro h
      exact ⟨x, List.mem_range'_1.mpr h, rfl⟩
  rw [hnodup.count]
  exact if_congr hmem rfl rfl

/-! ## Alignment -/

section Align
variable (address length : Nat)

theorem align_address : (align address length).address + address % 4 = address := by
  unfold align
  dsimp only
  omega

theorem align_length :
    (align address length).length =
      length + address % 4 + (align address length).adjustLen := rfl

theorem align_mod :
    (align address length).address % 4 = 0 ∧ (align address length).length % 4 = 0 ∧
      (align address length).adjustLen < 4 := by
  unfold align
  dsimp only
  split <;> omega

theorem slice_align :
    (align address length).slice
        (window mem (align address length).address (align address length).length) =
      window mem address length := by
  have haddress := align_address address length
  have hlength := align_length address length
  unfold Aligned.slice
  rw [take_window (by omega), drop_window (by
    show address % 4 ≤ _
    omega)]
  show window mem ((align address length).address + address % 4) _ = _
  rw [haddress]
  congr 1
  show (align address length).length - (align address length).adjustLen - address % 4 = length
  omega

end Align

/-! ## Replies -/

/-- The reply to a request: the same number, and the bytes asked for. -/
structure Replies (mem : Nat → UInt8) (r p : MemoryRapidPacket) : Prop where
  magic : p.magicLophi = magicNumber
  operation : p.operation = commandRead + 0x2
  transaction : p.transactionNo = r.transactionNo
  data : p.data = some (window mem r.address r.length)

/-- Every request is answered with one reply before the next one is sent. -/
def Answers (mem : Nat → UInt8) (world : World) : Prop :=
  ∀ sent r n, ∃ p, world (sent ++ [r]) n = .packet p ∧ Replies mem r p

theorem receive_reply {mem : Nat → UInt8} {r p : MemoryRapidPacket} {c : Response}
    (h : Replies mem r p) (ht : c.transactionNo = r.transactionNo) :
    c.receive (.packet p) = Response.check { c with
      data := c.data ++ window mem r.address r.length
      transactionNo := (c.transactionNo + 1) % 0xffff } := by
  simp [Response.receive, h.magic, h.transaction, ht, h.operation, h.data]

/-! ## A read -/

section Serial
variable {v : Serial} {w : Nat → Serial → Event}

/-- The variables when the request for the next chunk is out. -/
def asked (v : Serial) : Serial :=
  { v with
    sensor := { v.sensor with transactionNo := (v.sensor.transactionNo + 1) % 0xffff }
    attempt := 0
    response := { length := v.reqLen, transactionNo := v.sensor.transactionNo }
    sent := v.sent ++
      [readPacket v.sensor.transactionNo (v.request.address + v.offset) v.reqLen] }

/-- The variables when the chunk has been received. -/
def received (mem : Nat → UInt8) (v : Serial) : Serial :=
  { asked v with
    rtnData := v.rtnData ++ window mem (v.request.address + v.offset) v.reqLen
    remaining := v.remaining - v.reqLen
    offset := v.offset + v.reqLen }

theorem reqLen_le (v : Serial) : v.reqLen ≤ readChunk ∧ v.reqLen ≤ v.remaining :=
  ⟨Nat.min_le_left _ _, Nat.min_le_right _ _⟩

theorem reqLen_pos (hmore : 0 < v.remaining) : 0 < v.reqLen :=
  Nat.lt_min.mpr ⟨by decide, hmore⟩

theorem chunk_asked (hretries : 1 ≤ v.sensor.retries) (hno : v.sensor.transactionNo < 0xffff)
    (hfit : v.request.address + v.offset < 2 ^ 64) (hmore : 0 < v.remaining) :
    v.chunk = .waiting (asked v) := by
  have hlen : v.reqLen < 2 ^ 32 := Nat.lt_of_le_of_lt (reqLen_le v).1 (by decide)
  have hexpected : ((v.sensor.transactionNo + 1) % 0xffff + 0xfffe) % 0xffff =
      v.sensor.transactionNo := by omega
  unfold Serial.chunk
  rw [if_pos hmore, Serial.try, if_pos (show 0 < v.sensor.retries from hretries)]
  dsimp only
  rw [show ({ v with attempt := 0 } : Serial).reqLen = v.reqLen from rfl,
    sendCommand_ok v.sensor hfit hlen]
  dsimp only
  rw [hexpected]
  rfl

theorem asked_received {p : MemoryRapidPacket}
    (h : Replies mem (readPacket v.sensor.transactionNo (v.request.address + v.offset) v.reqLen)
      p) : (asked v).step (.packet p) = (received mem v).chunk := by
  have hturn : (asked v).response.receive (.packet p) =
      .data (window mem (v.request.address + v.offset) v.reqLen) := by
    rw [receive_reply h rfl, readPacket_address]
    show Response.check ⟨v.reqLen, _, [] ++ window mem _ v.reqLen⟩ = _
    rw [Response.check, if_neg (by simp), List.nil_append, take_window (Nat.le_refl _)]
  simp only [Serial.step, hturn]
  rfl

/-- With every request answered the loop over the chunks ends with the bytes of the stretch. -/
theorem chunk_answered {fuel : Nat} (hfuel : v.remaining ≤ fuel)
    (hw : ∀ k v sent r, v.sent = sent ++ [r] → ∃ p, w k v = .packet p ∧ Replies mem r p)
    (hretries : 1 ≤ v.sensor.retries) (hno : v.sensor.transactionNo < 0xffff)
    (hfit : v.request.address + (v.offset + v.remaining) ≤ 2 ^ 64)
    (hdata : v.rtnData = window mem v.request.address v.offset) :
    ∃ n, after Serial.step w v.chunk n =
      .ended (.returned (v.request.slice (window mem v.request.address (v.offset + v.remaining))),
        v.sent ++ readRequests fuel v.sensor.transactionNo (v.request.address + v.offset)
          v.remaining) := by
  induction fuel generalizing v w with
  | zero =>
    have hnone : v.remaining = 0 := by omega
    refine ⟨0, ?_⟩
    show v.chunk = _
    rw [Serial.chunk, if_neg (by omega), hdata, hnone]
    simp [readRequests]
  | succ fuel ih =>
    unfold readRequests
    by_cases hmore : 0 < v.remaining
    · rw [if_pos hmore, chunk_asked hretries hno (by omega) hmore]
      have hpos := reqLen_pos hmore
      have hle := (reqLen_le v).2
      have hmin : min readChunk v.remaining = v.reqLen := rfl
      obtain ⟨p, hp, hreply⟩ := hw 0 (asked v) v.sent _ rfl
      obtain ⟨n, hn⟩ := ih (v := received mem v) (w := fun k => w (k + 1))
        (by show v.remaining - v.reqLen ≤ fuel; omega) (fun k => hw (k + 1)) hretries
        (Nat.mod_lt _ (by decide))
        (by show v.request.address + (v.offset + v.reqLen + (v.remaining - v.reqLen)) ≤ 2 ^ 64
            omega)
        (by show v.rtnData ++ _ = window mem v.request.address (v.offset + v.reqLen)
            rw [hdata, window_add])
      refine ⟨n + 1, ?_⟩
      rw [after_succ, hp, asked_received hreply, hn, hmin]
      have hall : v.offset + v.reqLen + (v.remaining - v.reqLen) = v.offset + v.remaining := by
        omega
      show Progress.ended (Outcome.returned (v.request.slice (window mem v.request.address
        (v.offset + v.reqLen + (v.remaining - v.reqLen)))), v.sent ++ [_] ++
          readRequests fuel _ (v.request.address + (v.offset + v.reqLen)) _) = _
      rw [hall, List.append_assoc, ← Nat.add_assoc v.request.address]
      rfl
    · have hnone : v.remaining = 0 := by omega
      refine ⟨0, ?_⟩
      show v.chunk = _
      rw [if_neg hmore, Serial.chunk, if_neg hmore, hdata, hnone]
      simp

end Serial

/-- **With a sensor that answers every request a read returns exactly the requested bytes**, and
asks only for whole words, at most a chunk at a time, for each word with a requested byte once
and for no other. -/
theorem answered_read_exact (mem : Nat → UInt8) (world : World) (hw : Answers mem world)
    (s : MemorySensorPhysical) (hretries : 1 ≤ s.retries) (address length : Nat)
    (hfit : address + length + 3 < 2 ^ 64) :
    ∃ n sent, serialRun world s address length n =
        .ended (.returned (window mem address length), sent) ∧
      (∀ r ∈ sent, r.operation = commandRead ∧ r.address % 4 = 0 ∧ r.length % 4 = 0 ∧
        r.length ≤ readChunk) ∧
      ∀ x, (sent.flatMap words).count (4 * x) =
        if address < 4 * x + 4 ∧ 4 * x < address + length then 1 else 0 := by
  have haddress := align_address address length
  have hlength := align_length address length
  obtain ⟨hmod, hmod', hadjust⟩ := align_mod address length
  have hanswer : ∀ k (v : Serial) sent r, v.sent = sent ++ [r] →
      ∃ p, world v.sent k = .packet p ∧ Replies mem r p := by
    intro k v sent r hsent
    rw [hsent]
    exact hw sent r k
  obtain ⟨n, hn⟩ := chunk_answered (w := fun k v => world v.sent k)
    (v := { sensor := { s with transactionNo := 0 }, request := align address length,
            remaining := (align address length).length })
    (Nat.le_refl _) hanswer hretries (Nat.zero_lt_succ _) (by dsimp only; omega) rfl
  dsimp only at hn
  rw [Nat.zero_add, slice_align, List.nil_append, Nat.add_zero] at hn
  refine ⟨n, _, hn, readRequests_aligned hmod hmod', fun x => ?_⟩
  rw [words_readRequests (Nat.le_refl _) hmod hmod', count_words]
  refine if_congr ?_ rfl rfl
  omega

/-- The reply to the last request. -/
def replying (mem : Nat → UInt8) : World := fun sent _ =>
  match sent.getLast? with
  | none => .timeout
  | some r =>
    .packet { r with
      operation := commandRead + 0x2
      data := some (window mem r.address r.length)
      magicLophi := magicNumber }

theorem answers_replying (mem : Nat → UInt8) : Answers mem (replying mem) := by
  intro sent r n
  unfold replying
  rw [List.getLast?_append, List.getLast?_singleton]
  exact ⟨_, rfl, rfl, rfl, rfl, rfl⟩

/-- Five bytes from the second one of a word on: two words are asked for. -/
theorem answered_read_two_words :
    Answers UInt8.ofNat (replying UInt8.ofNat) ∧
      ∃ n sent, serialRun (replying UInt8.ofNat) { retries := 5 } 1 5 n =
          .ended (.returned [1, 2, 3, 4, 5], sent) ∧
        (∀ r ∈ sent, r.operation = commandRead ∧ r.address % 4 = 0 ∧ r.length % 4 = 0 ∧
          r.length ≤ readChunk) ∧
        ∀ x, (sent.flatMap words).count (4 * x) =
          if 1 < 4 * x + 4 ∧ 4 * x < 1 + 5 then 1 else 0 :=
  ⟨answers_replying _, answered_read_exact UInt8.ofNat (replying UInt8.ofNat) (answers_replying _)
    { retries := 5 } (by decide) 1 5 (by decide)⟩

end LoPhi.Memory.Chunking
