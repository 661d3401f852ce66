import LoPhi.Lib.Effect
import LoPhi.Lib.Struct

/-! # Messages with a length in front

`send_socket_data` and `read_socket_data` of `globals.py`: two bytes of length, then the
data, over a stream of bytes. How many bytes a `send` takes and how many of the bytes that
are there a `recv` returns is up to the system. The loops around them make up for that, but
the two bytes of the length are taken with a single `recv`. -/

namespace LoPhi.Network.Framing
open LoPhi.Lib.Effect LoPhi.Lib.Struct

/-- The exceptions that matter on a connection and in the handlers of its commands. -/
inductive Exc where
  | socketError
  | socketTimeout
  | structError
  | attributeError
  | keyError
  | typeError
  | valueError
  | overflowError
  | unicodeDecodeError
  | unicodeEncodeError
  deriving DecidableEq, Repr

/-- `except socket.error`: a timeout is one. -/
def Exc.isSocketError : Exc → Bool
  | .socketError => true
  | .socketTimeout => true
  | _ => false

/-! ## Sending -/

/-- `struct.pack("H", len(data)) + data`. -/
def frame (data : List UInt8) : Except Exc (List UInt8) :=
  if data.length < 2 ^ 16 then .ok (leBytes 2 data.length ++ data) else .error .structError

/-- A message on the wire. -/
def frameBytes (data : List UInt8) : List UInt8 := leBytes 2 data.length ++ data

/-- The sending side: what it has put on the stream, and how often it has sent. -/
structure Sender where
  stream : List UInt8
  sends : Nat

/-- `sock.send`: at least one byte is taken, and `accept` says how many at most. -/
def send (accept : Nat → Nat) (data : List UInt8) : Prog Exc Sender Nat := fun s =>
  let count := max 1 (min (accept s.sends) data.length)
  (.ok count, { stream := s.stream ++ data.take count, sends := s.sends + 1 })

/-- The loop of `send_socket_data`. Every turn sends a byte, so the length is enough
fuel. -/
def sendLoop (accept : Nat → Nat) (data : List UInt8) : Nat → Nat → Prog Exc Sender Unit
  | 0, _ => pure ()
  | fuel + 1, sent =>
    if sent < data.length then do
      let count ← send accept (data.drop sent)
      sendLoop accept data fuel (sent + count)
    else pure ()

def sendSocketData (accept : Nat → Nat) (data : List UInt8) : Prog Exc Sender Unit := do
  let data ← ofExcept (frame data)
  sendLoop accept data data.length 0

/-! ## Receiving -/

/-- How a stream ends for the receiver. -/
inductive Ending where
  | closed
  | reset
  deriving DecidableEq, Repr

/-- A connection as the receiver meets it. At each position of the stream, `delays` is how
often a `recv` there times out before one returns, and `chunk` how many bytes are there for
it when it does. -/
structure Wire where
  stream : List UInt8
  chunk : Nat → Nat
  delays : Nat → Nat
  ending : Ending

/-- The receiving side: its position, and how often it has timed out there. -/
structure Socket where
  pos : Nat
  waited : Nat

/-- `sock.recv(n)`. -/
def recv (w : Wire) (n : Nat) : Prog Exc Socket (List UInt8) := fun s =>
  if s.waited < w.delays s.pos then (.error .socketTimeout, { s with waited := s.waited + 1 })
  else if w.stream.length ≤ s.pos then
    match w.ending with
    | .closed => (.ok [], s)
    | .reset => (.error .socketError, s)
  else
    let data := (w.stream.drop s.pos).take (max 1 (min (w.chunk s.pos) n))
    (.ok data, { pos := s.pos + data.length, waited := 0 })

/-- The loop of `read_socket_data`. Every turn receives a byte, so `size` is enough fuel. -/
def readBody (w : Wire) (size : Nat) : Nat → List UInt8 → Prog Exc Socket (Option (List UInt8))
  | 0, data => pure (some data)
  | fuel + 1, data =>
    if data.length < size then do
      let tmp ← recv w (size - data.length)
      if tmp = [] then pure none else readBody w size fuel (data ++ tmp)
    else pure (some data)

def readSocketData (w : Wire) : Prog Exc Socket (Option (List UInt8)) := do
  let size ← recv w 2
  if size.length = 0 then pure none
  else if size.length ≠ 2 then raise .structError
  else readBody w (leNat size) (leNat size) []

/-! ## What is sent -/

theorem frame_eq {data : List UInt8} (h : data.length < 2 ^ 16) :
    frame data = .ok (frameBytes data) := if_pos h

@[simp] theorem length_frameBytes (data : List UInt8) :
    (frameBytes data).length = 2 + data.length := by
  rw [frameBytes, List.length_append, leBytes_length]

theorem sendLoop_eq (accept : Nat → Nat) (data : List UInt8) {fuel sent : Nat}
    (hfuel : data.length ≤ sent + fuel) (s : Sender) :
    ∃ sends, sendLoop accept data fuel sent s =
      (.ok (), { stream := s.stream ++ data.drop sent, sends := sends }) := by
  induction fuel generalizing sent s with
  | zero =>
    refine ⟨s.sends, ?_⟩
    rw [List.drop_of_length_le (by omega), List.append_nil]
    rfl
  | succ fuel ih =>
    unfold sendLoop
    by_cases hsent : sent < data.length
    · rw [if_pos hsent]
      have hlen : data.length ≤
          sent + max 1 (min (accept s.sends) (data.drop sent).length) + fuel := by omega
      obtain ⟨sends, hrest⟩ := ih hlen _
      refine ⟨sends, (bind_ok rfl).trans (hrest.trans ?_)⟩
      rw [List.append_assoc, ← List.drop_drop, List.take_append_drop]
    · rw [if_neg hsent]
      refine ⟨s.sends, ?_⟩
      rw [List.drop_of_length_le (by omega), List.append_nil]
      rfl

/-- However the sends are cut, the stream gets the whole message. -/
theorem sendSocketData_eq (accept : Nat → Nat) {data : List UInt8} (h : data.length < 2 ^ 16)
    (s : Sender) :
    ∃ sends, sendSocketData accept data s =
      (.ok (), { stream := s.stream ++ frameBytes data, sends := sends }) := by
  obtain ⟨sends, hloop⟩ := sendLoop_eq accept (frameBytes data)
    (Nat.le_add_left (frameBytes data).length 0) s
  exact ⟨sends, (bind_ok (congrArg (·, s) (frame_eq h))).trans hloop⟩

/-- The stream after some messages. -/
def frames (messages : List (List UInt8)) : List UInt8 := messages.flatMap frameBytes

theorem forM_sendSocketData (accept : Nat → Nat) {messages : List (List UInt8)}
    (h : ∀ m ∈ messages, m.length < 2 ^ 16) (s : Sender) :
    ∃ sends, messages.forM (sendSocketData accept) s =
      (.ok ⟨⟩, { stream := s.stream ++ frames messages, sends := sends }) := by
  induction messages generalizing s with
  | nil =>
    refine ⟨s.sends, ?_⟩
    rw [frames, List.flatMap_nil, List.append_nil]
    rfl
  | cons m messages ih =>
    obtain ⟨sends, hfirst⟩ := sendSocketData_eq accept (h m (by simp)) s
    obtain ⟨sends', hrest⟩ := ih (fun other hother => h other (by simp [hother]))
      { stream := s.stream ++ frameBytes m, sends := sends }
    refine ⟨sends', (bind_ok hfirst).trans (hrest.trans ?_)⟩
    rw [frames, frames, List.flatMap_cons, List.append_assoc]

/-! ## What is received -/

section Receive
variable {w : Wire} {before rest : List UInt8} {waited : Nat}

theorem recv_timeout {n : Nat} {s : Socket} (h : s.waited < w.delays s.pos) :
    recv w n s = (.error .socketTimeout, { s with waited := s.waited + 1 }) := if_pos h

/-- A `recv` returns the first bytes of the rest. -/
theorem recv_eq (hstream : w.stream = before ++ rest) (hrest : rest ≠ [])
    (hdelay : w.delays before.length ≤ waited) (n : Nat) :
    recv w n ⟨before.length, waited⟩ =
      (.ok (rest.take (max 1 (min (w.chunk before.length) n))),
        ⟨(before ++ rest.take (max 1 (min (w.chunk before.length) n))).length, 0⟩) := by
  have hpos := List.length_pos_of_ne_nil hrest
  have hend : ¬ w.stream.length ≤ before.length := by
    rw [hstream, List.length_append]
    omega
  unfold recv
  rw [if_neg (Nat.not_lt.mpr hdelay), if_neg hend, hstream, List.drop_left, List.length_append]

/-- A `recv` takes a first part of what there is. -/
theorem recv_some (hstream : w.stream = before ++ rest) (hrest : rest ≠ [])
    (hdelay : w.delays before.length ≤ waited) (n : Nat) :
    ∃ got left, rest = got ++ left ∧ got ≠ [] ∧ got.length ≤ max 1 n ∧
      recv w n ⟨before.length, waited⟩ = (.ok got, ⟨(before ++ got).length, 0⟩) := by
  have hpos := List.length_pos_of_ne_nil hrest
  have hrecv := recv_eq hstream hrest hdelay n
  generalize hk : max 1 (min (w.chunk before.length) n) = k at hrecv
  refine ⟨rest.take k, rest.drop k, (List.take_append_drop k rest).symm, ?_, ?_, hrecv⟩
  · intro hnil
    have hlen := congrArg List.length hnil
    rw [List.length_take, List.length_nil] at hlen
    omega
  · rw [List.length_take]
    omega

/-- A `recv` for the rest of a message takes a first part of it. -/
theorem recv_part {todo after : List UInt8} (hstream : w.stream = before ++ (todo ++ after))
    (htodo : todo ≠ []) (hdelay : w.delays before.length ≤ waited) :
    ∃ got left, todo = got ++ left ∧ got ≠ [] ∧
      recv w todo.length ⟨before.length, waited⟩ = (.ok got, ⟨(before ++ got).length, 0⟩) := by
  have hpos := List.length_pos_of_ne_nil htodo
  obtain ⟨got, left, hgot, hne, hle, hrecv⟩ := recv_some hstream
    (List.append_ne_nil_of_left_ne_nil htodo after) hdelay todo.length
  obtain ⟨left', rfl⟩ : got <+: todo := by
    refine List.prefix_of_prefix_length_le ⟨left, hgot.symm⟩ (List.prefix_append todo after) ?_
    omega
  exact ⟨got, left', rfl, hne, hrecv⟩

/-- The loop returns the rest of a message whose bytes come without a timeout. -/
theorem readBody_eq {after data todo : List UInt8} {size fuel : Nat}
    (hsize : size = data.length + todo.length) (hfuel : todo.length ≤ fuel)
    (hstream : w.stream = before ++ (todo ++ after))
    (hdelay : ∀ p, before.length ≤ p → p < before.length + todo.length → w.delays p = 0) :
    readBody w size fuel data ⟨before.length, 0⟩ =
      (.ok (some (data ++ todo)), ⟨(before ++ todo).length, 0⟩) := by
  induction fuel generalizing before data todo with
  | zero =>
    obtain rfl := List.eq_nil_of_length_eq_zero (Nat.le_zero.mp hfuel)
    rw [List.append_nil, List.append_nil]
    rfl
  | succ fuel ih =>
    unfold readBody
    by_cases htodo : todo = []
    · subst htodo
      rw [List.length_nil] at hsize
      rw [if_neg (by omega), List.append_nil, List.append_nil]
      rfl
    · have hpos := List.length_pos_of_ne_nil htodo
      have hleft : size - data.length = todo.length := by omega
      rw [if_pos (by omega), hleft]
      obtain ⟨got, left, rfl, hgot, hrecv⟩ :=
        recv_part hstream htodo (hdelay _ (Nat.le_refl _) (by omega)).le
      have hgotPos := List.length_pos_of_ne_nil hgot
      rw [List.length_append] at hfuel hsize hdelay
      rw [List.append_assoc, ← List.append_assoc] at hstream
      refine (bind_ok hrecv).trans ?_
      rw [if_neg hgot, ← List.append_assoc, ← List.append_assoc]
      refine ih ?_ (by omega) hstream fun p hp hp' => ?_
      · rw [List.length_append]
        omega
      · rw [List.length_append] at hp hp'
        exact hdelay p (by omega) (by omega)

variable {m after : List UInt8}

/-- The first `recv` of a message. -/
theorem recv_prefix (hstream : w.stream = before ++ (frameBytes m ++ after))
    (hdelay : w.delays before.length ≤ waited) :
    recv w 2 ⟨before.length, waited⟩ =
      if 2 ≤ w.chunk before.length then
        (.ok (leBytes 2 m.length), ⟨(before ++ leBytes 2 m.length).length, 0⟩)
      else (.ok ((leBytes 2 m.length).take 1), ⟨before.length + 1, 0⟩) := by
  have hlen := leBytes_length 2 m.length
  rw [frameBytes, List.append_assoc] at hstream
  have hrecv := recv_eq hstream (List.append_ne_nil_of_left_ne_nil
    (List.ne_nil_of_length_pos (by omega)) _) hdelay 2
  split
  · rw [show max 1 (min (w.chunk before.length) 2) = 2 by omega, List.take_left' hlen] at hrecv
    exact hrecv
  · rw [show max 1 (min (w.chunk before.length) 2) = 1 by omega,
      List.take_append_of_le_length (by omega)] at hrecv
    rw [hrecv, List.length_append, List.length_take, hlen]
    rfl

/-- A message is read whole if the first `recv` returns both bytes of its length and none
of the others times out. -/
theorem readSocketData_eq (hm : m.length < 2 ^ 16)
    (hstream : w.stream = before ++ (frameBytes m ++ after))
    (hchunk : 2 ≤ w.chunk before.length) (hdelay : w.delays before.length ≤ waited)
    (hbody : ∀ p, before.length < p → p < (before ++ frameBytes m).length → w.delays p = 0) :
    readSocketData w ⟨before.length, waited⟩ =
      (.ok (some m), ⟨(before ++ frameBytes m).length, 0⟩) := by
  have hprefix := recv_prefix hstream hdelay
  rw [if_pos hchunk] at hprefix
  have hsize : leNat (leBytes 2 m.length) = m.length := leNat_leBytes (by omega)
  have hlen := leBytes_length 2 m.length
  refine (bind_ok hprefix).trans ?_
  rw [if_neg (by omega), if_neg (by omega), hsize]
  rw [frameBytes, List.append_assoc, ← List.append_assoc] at hstream
  have hread : readBody w m.length m.length [] _ = _ :=
    readBody_eq (Nat.zero_add _).symm (Nat.le_refl _) hstream fun p hp hp' => by
      rw [List.length_append, hlen] at hp hp'
      refine hbody p (by omega) ?_
      rw [List.length_append, length_frameBytes]
      omega
  rw [hread, List.nil_append, List.append_assoc]
  rfl

/-- A length that arrives in two parts raises. -/
theorem readSocketData_split (hstream : w.stream = before ++ (frameBytes m ++ after))
    (hchunk : w.chunk before.length < 2) (hdelay : w.delays before.length ≤ waited) :
    readSocketData w ⟨before.length, waited⟩ =
      (.error .structError, ⟨before.length + 1, 0⟩) := by
  have hprefix := recv_prefix hstream hdelay
  rw [if_neg (by omega)] at hprefix
  have hlen : ((leBytes 2 m.length).take 1).length = 1 := by
    rw [List.length_take, leBytes_length]
    rfl
  refine (bind_ok hprefix).trans ?_
  rw [if_neg (by omega), if_pos (by omega)]
  rfl

/-- A timeout before the first byte of a message leaves the stream as it was. -/
theorem readSocketData_timeout {s : Socket} (h : s.waited < w.delays s.pos) :
    readSocketData w s = (.error .socketTimeout, { s with waited := s.waited + 1 }) :=
  bind_error (recv_timeout h)

/-- The end of the stream. -/
theorem readSocketData_end {s : Socket} (hdelay : w.delays s.pos ≤ s.waited)
    (h : w.stream.length ≤ s.pos) :
    readSocketData w s =
      match w.ending with
      | .closed => (.ok none, s)
      | .reset => (.error .socketError, s) := by
  cases hending : w.ending with
  | closed =>
    have hrecv : recv w 2 s = (.ok [], s) := by
      unfold recv
      rw [if_neg (Nat.not_lt.mpr hdelay), if_pos h, hending]
    exact (bind_ok hrecv).trans rfl
  | reset =>
    have hrecv : recv w 2 s = (.error .socketError, s) := by
      unfold recv
      rw [if_neg (Nat.not_lt.mpr hdelay), if_pos h, hending]
    exact bind_error hrecv

/-! ## Messages that are cut off -/

/-- What a read can give of a message of which only a first part is on the stream. -/
structure PartRead (w : Wire) (m part whole : List UInt8)
    (run : Except Exc (Option (List UInt8)) × Socket) : Prop where
  read_whole : ∀ m', run.1 = .ok (some m') →
    m' = m ∧ part = whole ∧ run.2.pos = w.stream.length
  read_none : run.1 = .ok none → w.ending = .closed ∧ part ≠ whole

theorem partRead_error (w : Wire) (m part whole : List UInt8) (e : Exc) (s : Socket) :
    PartRead w m part whole (.error e, s) :=
  ⟨fun _ h => (by cases h), fun h => (by cases h)⟩

/-- A `recv` at the end of what is on the stream. -/
theorem recv_end (hstream : w.stream = before) (n : Nat) :
    recv w n ⟨before.length, waited⟩ =
      if waited < w.delays before.length then
        (.error .socketTimeout, ⟨before.length, waited + 1⟩)
      else
        match w.ending with
        | .closed => (.ok [], ⟨before.length, waited⟩)
        | .reset => (.error .socketError, ⟨before.length, waited⟩) := by
  unfold recv
  split
  · rfl
  · rw [if_pos (by rw [hstream])]

/-- A body that has been read to its end. -/
theorem partRead_done (hstream : w.stream = before ++ []) (data : List UInt8) :
    PartRead w (data ++ []) [] [] (.ok (some data), ⟨before.length, waited⟩) := by
  refine ⟨fun m' h => ?_, fun h => (by cases h)⟩
  cases h
  rw [List.append_nil] at hstream
  exact ⟨(List.append_nil data).symm, rfl, congrArg List.length hstream.symm⟩

/-- More in front of what is read and of what there is. -/
theorem PartRead.append {m part whole : List UInt8}
    {run : Except Exc (Option (List UInt8)) × Socket} (h : PartRead w m part whole run)
    (got : List UInt8) : PartRead w m (got ++ part) (got ++ whole) run where
  read_whole m' hm' := by
    obtain ⟨hm, hall, hend⟩ := h.read_whole m' hm'
    exact ⟨hm, congrArg (got ++ ·) hall, hend⟩
  read_none hnone := by
    obtain ⟨hclosed, hpart⟩ := h.read_none hnone
    exact ⟨hclosed, fun hall => hpart (List.append_cancel_left hall)⟩

/-- The loop on a body of which `part` is on the stream. -/
theorem readBody_part {data todo part : List UInt8} {size fuel : Nat}
    (hsize : size = data.length + todo.length) (hfuel : todo.length ≤ fuel)
    (hstream : w.stream = before ++ part) (hpart : part <+: todo) :
    PartRead w (data ++ todo) part todo (readBody w size fuel data ⟨before.length, waited⟩) ∧
    ((∀ p, before.length ≤ p → p < before.length + todo.length → w.delays p = 0) →
      (readBody w size fuel data ⟨before.length, waited⟩).1 ≠ .error .socketTimeout) := by
  induction fuel generalizing before data todo part waited with
  | zero =>
    obtain rfl := List.eq_nil_of_length_eq_zero (Nat.le_zero.mp hfuel)
    obtain rfl := List.prefix_nil.mp hpart
    exact ⟨partRead_done hstream data, fun _ h => (by cases h)⟩
  | succ fuel ih =>
    unfold readBody
    by_cases htodo : todo = []
    · subst htodo
      obtain rfl := List.prefix_nil.mp hpart
      rw [List.length_nil] at hsize
      rw [if_neg (by omega)]
      exact ⟨partRead_done hstream data, fun _ h => (by cases h)⟩
    have hpos := List.length_pos_of_ne_nil htodo
    have hleft : size - data.length = todo.length := by omega
    rw [if_pos (by omega), hleft]
    by_cases hwait : waited < w.delays before.length
    · rw [bind_error (recv_timeout hwait)]
      refine ⟨partRead_error _ _ _ _ _ _, fun hdelay _ => ?_⟩
      rw [hdelay _ (Nat.le_refl _) (by omega)] at hwait
      cases hwait
    by_cases hnone : part = []
    · subst hnone
      have hrecv : recv w todo.length ⟨before.length, waited⟩ = _ :=
        recv_end (hstream.trans (List.append_nil _)) todo.length
      rw [if_neg hwait] at hrecv
      cases hending : w.ending with
      | closed =>
        rw [hending] at hrecv
        rw [bind_ok hrecv]
        exact ⟨⟨fun m' h => (by cases h), fun _ => ⟨hending, fun h => htodo h.symm⟩⟩,
          fun _ h => (by cases h)⟩
      | reset =>
        rw [hending] at hrecv
        rw [bind_error hrecv]
        exact ⟨partRead_error _ _ _ _ _ _, fun _ h => (by cases h)⟩
    · obtain ⟨got, left, rfl, hgot, -, hrecv⟩ :=
        recv_some hstream hnone (Nat.le_of_not_lt hwait) todo.length
      obtain ⟨after, rfl⟩ := hpart
      have hgotPos := List.length_pos_of_ne_nil hgot
      simp only [List.length_append] at hfuel hsize
      rw [← List.append_assoc] at hstream
      rw [bind_ok hrecv, if_neg hgot]
      have hlater : PartRead w ((data ++ got) ++ (left ++ after)) left (left ++ after)
          (readBody w size fuel (data ++ got) ⟨(before ++ got).length, 0⟩) ∧ _ :=
        ih (by simp only [List.length_append]; omega) (by rw [List.length_append]; omega) hstream
          (List.prefix_append left after)
      obtain ⟨hread, htime⟩ := hlater
      have hwhole := hread.append got
      rw [List.append_assoc data, ← List.append_assoc got] at hwhole
      refine ⟨hwhole, fun hdelay => htime fun p hp hp' => ?_⟩
      simp only [List.length_append] at hp hp' hdelay
      exact hdelay p (by omega) (by omega)

/-- A message of which `part` is on the stream, from its first byte on. -/
theorem readSocketData_part {part : List UInt8} (hm : m.length < 2 ^ 16)
    (hstream : w.stream = before ++ part) (hpart : part <+: frameBytes m) :
    PartRead w m part (frameBytes m) (readSocketData w ⟨before.length, waited⟩) ∧
    (w.delays before.length ≤ waited →
      (∀ p, before.length < p → p < (before ++ frameBytes m).length → w.delays p = 0) →
      (readSocketData w ⟨before.length, waited⟩).1 ≠ .error .socketTimeout) := by
  have hsize : leNat (leBytes 2 m.length) = m.length := leNat_leBytes (by omega)
  have hlen := leBytes_length 2 m.length
  have hwhole := length_frameBytes m
  unfold readSocketData
  by_cases hwait : waited < w.delays before.length
  · rw [bind_error (recv_timeout hwait)]
    exact ⟨partRead_error _ _ _ _ _ _, fun hdelay => absurd hwait (Nat.not_lt.mpr hdelay)⟩
  by_cases hnone : part = []
  · subst hnone
    have hrecv : recv w 2 ⟨before.length, waited⟩ = _ :=
      recv_end (hstream.trans (List.append_nil _)) 2
    rw [if_neg hwait] at hrecv
    cases hending : w.ending with
    | closed =>
      rw [hending] at hrecv
      rw [bind_ok hrecv, if_pos (List.length_nil)]
      refine ⟨⟨fun m' h => (by cases h), fun _ => ⟨hending, fun h => ?_⟩⟩,
        fun _ _ h => (by cases h)⟩
      rw [← h, List.length_nil] at hwhole
      omega
    | reset =>
      rw [hending] at hrecv
      rw [bind_error hrecv]
      exact ⟨partRead_error _ _ _ _ _ _, fun _ _ h => (by cases h)⟩
  · obtain ⟨got, left, rfl, hgot, hle, hrecv⟩ :=
      recv_some hstream hnone (Nat.le_of_not_lt hwait) 2
    have hgotPos := List.length_pos_of_ne_nil hgot
    rw [bind_ok hrecv, if_neg (by omega)]
    by_cases htwo : got.length = 2
    · obtain ⟨after, hafter⟩ := hpart
      rw [frameBytes, List.append_assoc] at hafter
      obtain ⟨rfl, rfl⟩ := List.append_inj hafter (htwo.trans hlen.symm)
      rw [if_neg (not_not.mpr htwo), hsize]
      rw [← List.append_assoc] at hstream
      have hbody : PartRead w ([] ++ (left ++ after)) left (left ++ after) (readBody w
          (left ++ after).length (left ++ after).length []
          ⟨(before ++ leBytes 2 (left ++ after).length).length, 0⟩) ∧ _ :=
        readBody_part (Nat.zero_add _).symm (Nat.le_refl _) hstream (List.prefix_append _ _)
      obtain ⟨hread, htime⟩ := hbody
      refine ⟨⟨fun m' h => ?_, fun h => ?_⟩, fun _ hinside => htime fun p hp hp' => ?_⟩
      · obtain ⟨hm', hall, hend⟩ := hread.read_whole m' h
        exact ⟨hm', congrArg (leBytes 2 (left ++ after).length ++ ·) hall, hend⟩
      · obtain ⟨hclosed, hleft⟩ := hread.read_none h
        exact ⟨hclosed, fun hall => hleft (List.append_cancel_left hall)⟩
      · rw [List.length_append, htwo] at hp hp'
        refine hinside p (by omega) ?_
        rw [List.length_append, hwhole]
        omega
    · rw [if_pos htwo]
      exact ⟨partRead_error _ _ _ _ _ _, fun _ _ h => (by cases h)⟩

/-- Successive calls of `read_socket_data`. -/
def readMessages (w : Wire) : Nat → Prog Exc Socket (List (Option (List UInt8)))
  | 0 => pure []
  | n + 1 => do
    let m ← readSocketData w
    let rest ← readMessages w n
    pure (m :: rest)

theorem readMessages_iff {messages : List (List UInt8)}
    (hlen : ∀ m ∈ messages, m.length < 2 ^ 16) (hstream : w.stream = before ++ frames messages)
    (hdelay : ∀ p, w.delays p = 0) :
    (readMessages w messages.length ⟨before.length, 0⟩).1 = .ok (messages.map some) ↔
      ∀ i < messages.length, 2 ≤ w.chunk (before.length + (frames (messages.take i)).length) := by
  induction messages generalizing before with
  | nil => exact ⟨fun _ i hi => (by cases hi), fun _ => rfl⟩
  | cons m messages ih =>
    have hfirst : w.stream = before ++ (frameBytes m ++ frames messages) := hstream
    by_cases hchunk : 2 ≤ w.chunk before.length
    · have hread := readSocketData_eq (hlen m (by simp)) hfirst hchunk (hdelay _).le
        fun p _ _ => hdelay p
      have hrest := ih (fun other hother => hlen other (by simp [hother]))
        (hfirst.trans (List.append_assoc _ _ _).symm)
      have hrun : (readMessages w (m :: messages).length ⟨before.length, 0⟩).1 =
          .ok ((m :: messages).map some) ↔
          (readMessages w messages.length ⟨(before ++ frameBytes m).length, 0⟩).1 =
            .ok (messages.map some) := by
        rw [List.length_cons, readMessages, bind_ok hread]
        cases hresult : readMessages w messages.length ⟨(before ++ frameBytes m).length, 0⟩ with
        | mk result s =>
          cases result with
          | error e =>
            rw [bind_error hresult]
            exact ⟨fun h => (by cases h), fun h => (by cases h)⟩
          | ok rest =>
            rw [bind_ok hresult]
            constructor
            · intro h
              cases h
              rfl
            · intro h
              cases h
              rfl
      rw [hrun, hrest]
      constructor
      · intro h i hi
        cases i with
        | zero => exact hchunk
        | succ i =>
          have := h i (Nat.lt_of_succ_lt_succ hi)
          rw [List.length_append, Nat.add_assoc, ← List.length_append] at this
          exact this
      · intro h i hi
        have := h (i + 1) (Nat.succ_lt_succ hi)
        rw [List.length_append, Nat.add_assoc, ← List.length_append]
        exact this
    · have hsplit := readSocketData_split hfirst (by omega) (hdelay _).le
      rw [List.length_cons, readMessages, bind_error hsplit]
      refine ⟨fun h => (by cases h), fun h => ?_⟩
      exact absurd (h 0 (Nat.succ_pos _)) hchunk

end Receive

/-- The messages are sent, and the same number of calls on the other side returns them. -/
def Survives (accept chunk : Nat → Nat) (messages : List (List UInt8)) : Prop :=
  (messages.forM (sendSocketData accept) ⟨[], 0⟩).1 = .ok ⟨⟩ ∧
    (readMessages
      { stream := (messages.forM (sendSocketData accept) ⟨[], 0⟩).2.stream
        chunk := chunk
        delays := fun _ => 0
        ending := .closed } messages.length ⟨0, 0⟩).1 = .ok (messages.map some)

/-- **Messages survive exactly the fragmentations that leave the lengths whole**: any sends
and any split of the bodies are made up for, and a length of which only one byte is there
when it is read raises. -/
theorem survives_iff (accept chunk : Nat → Nat) (messages : List (List UInt8))
    (h : ∀ m ∈ messages, m.length < 2 ^ 16) :
    Survives accept chunk messages ↔
      ∀ i < messages.length, 2 ≤ chunk (frames (messages.take i)).length := by
  obtain ⟨sends, hsent⟩ := forM_sendSocketData accept h ⟨[], 0⟩
  unfold Survives
  rw [hsent]
  refine (and_iff_right rfl).trans ?_
  have hstream : frames messages = [] ++ frames messages := rfl
  have hread := readMessages_iff (w := ⟨frames messages, chunk, fun _ => 0, .closed⟩) h hstream
    fun _ => rfl
  simp only [List.length_nil, Nat.zero_add] at hread
  exact hread

/-- One byte at a time, but for the lengths: an empty message and one of three bytes. -/
theorem survives_slow :
    Survives (fun _ => 1) (fun p => if p = 0 ∨ p = 2 then 2 else 1) [[], [7, 8, 9]] := by
  refine (survives_iff _ _ _ (by decide)).mpr fun i hi => ?_
  cases i with
  | zero => decide
  | succ i =>
    cases i with
    | zero => decide
    | succ i => exact absurd hi (by simp)

/-- The first `recv` returns one byte of the length of an empty message. -/
theorem not_survives_split : ¬ Survives (fun _ => 1) (fun _ => 1) [[]] := by
  intro h
  cases h.2

end LoPhi.Network.Framing
