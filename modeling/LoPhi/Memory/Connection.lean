import LoPhi.Lib.Interaction
import LoPhi.Memory.Virtual

/-! # Connections that fail

`MemorySensorVirtual._read_from_sensor` over sockets of which nothing is promised: a connection
may not open, a `send` or a `recv` may raise, a `recv` returns as much of what has arrived as the
system likes, and the other side may close. Every `send` and every `recv` is where a call waits
for the outside. -/

namespace LoPhi.Memory.Connection
open LoPhi.Lib.Interaction LoPhi.Lib.Python LoPhi.Memory.Virtual

/-- The other side: whether the `c`-th connection of a call can be opened, what arrives on it by
itself, and what a message adds as the `i`-th of the call. -/
structure Peer where
  opens : Nat → Bool
  stream : Nat → List UInt8
  reply : Nat → List UInt8 → List UInt8

/-- How a `send` or a `recv` ends: it raises, or it is done, a `recv` with at most `count`
bytes. -/
inductive Event where
  | raised
  | done (count : Nat)
  deriving DecidableEq, Inhabited, Repr

/-- What became of an attempt: an exception, an answer made up after a first `recv` of just
`0xff`, or an answer that was received. -/
inductive Ending where
  | failed
  | shortcut
  | received
  deriving DecidableEq, Repr

/-- The variables of a call. `sock` holds the bytes still to come on `SOCK`, and `atEnd` says
that `recv` has returned the empty string on it; `log` is the ending of each attempt, the latest
first. -/
structure Call where
  retry : Nat := 0
  read : List UInt8 := []
  sock : Option (List UInt8) := none
  opened : Nat := 0
  requests : Nat := 0
  sent : Bool := false
  atEnd : Bool := false
  log : List Ending := []
  deriving DecidableEq, Repr

/-- How a call ends: its value or an exception, and the endings of its attempts. -/
abbrev End := Except PyError (Option (List UInt8)) × List Ending

section Call
variable (peer : Peer) (message : List UInt8) (readLen : Nat)

/-- A turn of the `for` loop up to the `send`, or its end. `_connect` has nothing to do on an
open socket, and the call gives up when it fails. -/
def Call.attempt (c : Call) : Progress Call End :=
  if c.retry < 3 then
    match c.sock with
    | some _ => .waiting { c with read := [], sent := false, atEnd := false }
    | none =>
      if peer.opens c.opened then
        .waiting { c with
          sock := some (peer.stream c.opened)
          opened := c.opened + 1
          read := []
          sent := false
          atEnd := false }
      else .ended (.ok none, c.log)
  else .ended (.ok (extract readLen c.read), c.log)

/-- The `except` clause: what was read stays, the connection is closed. -/
def Call.fail (c : Call) : Progress Call End :=
  Call.attempt peer readLen
    { c with sock := none, retry := c.retry + 1, log := .failed :: c.log }

def Call.send (c : Call) : Call :=
  { c with
    sock := c.sock.map (· ++ peer.reply c.requests message)
    requests := c.requests + 1
    sent := true }

/-- A turn of the `while` loop. A `recv` of more than an `int` can say raises; without anything
left to come it returns the empty string. -/
def Call.recv (c : Call) (count : Nat) : Progress Call End :=
  let limit := readLen + 1 - c.read.length
  if 2 ^ 31 ≤ limit then c.fail peer readLen
  else
    let coming := c.sock.getD []
    let k := max 1 (min count limit)
    let shortcut := c.read ++ coming.take k = [0xff]
    let c := { c with
      read := if shortcut then List.replicate readLen 0xff ++ [1] else c.read ++ coming.take k
      sock := some (coming.drop k)
      atEnd := coming.isEmpty }
    if c.read.length < readLen + 1 then .waiting c
    else
      Call.attempt peer readLen
        { c with
          retry := c.retry + 1
          log := (if shortcut then .shortcut else .received) :: c.log }

/-- The next `send` or `recv`. After an empty string there are only empty strings, which change
nothing. -/
def Call.step (c : Call) (e : Event) : Progress Call End :=
  if c.atEnd then .waiting c
  else
    match e with
    | .raised => c.fail peer readLen
    | .done count => if c.sent then c.recv peer readLen count else .waiting (c.send peer message)

end Call

/-- `_read_from_sensor` after `n` times `send` or `recv`. A connection that is open before the
call is its first. -/
def run (peer : Peer) (world : Nat → Event) (address readLen n : Nat) : Progress Call End :=
  match packRequest ⟨1, address, readLen⟩ with
  | .error e => .ended (.error e, [])
  | .ok message =>
    after (Call.step peer message readLen) (fun k _ => world k) (Call.attempt peer readLen {}) n

/-! ## What a step can do -/

section Cases
variable {peer : Peer} {message : List UInt8} {readLen : Nat} {c c' : Call}

/-- The variables when an attempt begins on the bytes of a connection. -/
def Call.begin (c : Call) (coming : List UInt8) (opened : Nat) : Call :=
  { c with sock := some coming, opened := opened, read := [], sent := false, atEnd := false }

theorem attempt_open {coming : List UInt8} (hretry : c.retry < 3) (hsock : c.sock = some coming) :
    c.attempt peer readLen = .waiting (c.begin coming c.opened) := by
  unfold Call.attempt Call.begin
  rw [if_pos hretry, hsock]

theorem attempt_closed (hretry : c.retry < 3) (hsock : c.sock = none) :
    c.attempt peer readLen =
      if peer.opens c.opened then .waiting (c.begin (peer.stream c.opened) (c.opened + 1))
      else .ended (.ok none, c.log) := by
  unfold Call.attempt
  rw [if_pos hretry, hsock]
  rfl

theorem attempt_over (hretry : c.retry = 3) :
    c.attempt peer readLen = .ended (.ok (extract readLen c.read), c.log) := by
  unfold Call.attempt
  rw [if_neg (by omega)]

/-- The variables after a `recv` of `k` bytes. -/
def Call.take (c : Call) (coming : List UInt8) (k : Nat) : Call :=
  { c with
    read := c.read ++ coming.take k
    sock := some (coming.drop k)
    atEnd := coming.isEmpty }

/-- The variables at the end of an attempt that did not fail. -/
def Call.finish (c : Call) (read : List UInt8) (ending : Ending) : Call :=
  { c with read := read, retry := c.retry + 1, log := ending :: c.log }

/-- A `recv` that can be made: the first byte is taken for the whole answer, more is to come, or
the answer is complete. -/
theorem recv_cases (peer : Peer) {coming : List UInt8} (hsock : c.sock = some coming)
    (hread : c.read.length < readLen + 1) (hlen : readLen + 1 - c.read.length < 2 ^ 31)
    (count : Nat) :
    ∃ k, k = max 1 (min count (readLen + 1 - c.read.length)) ∧
      (c.read ++ coming.take k = [0xff] ∧
          c.recv peer readLen count = Call.attempt peer readLen
            ((c.take coming k).finish (List.replicate readLen 0xff ++ [1]) .shortcut) ∨
        c.read ++ coming.take k ≠ [0xff] ∧ (c.read ++ coming.take k).length < readLen + 1 ∧
          c.recv peer readLen count = .waiting (c.take coming k) ∨
        c.read ++ coming.take k ≠ [0xff] ∧ (c.read ++ coming.take k).length = readLen + 1 ∧
          c.recv peer readLen count = Call.attempt peer readLen
            ((c.take coming k).finish (c.read ++ coming.take k) .received)) := by
  refine ⟨_, rfl, ?_⟩
  have hle : max 1 (min count (readLen + 1 - c.read.length)) ≤ readLen + 1 - c.read.length := by
    omega
  unfold Call.recv
  dsimp only
  rw [if_neg (by omega), hsock, Option.getD_some]
  generalize max 1 (min count (readLen + 1 - c.read.length)) = k at hle
  by_cases hshort : c.read ++ coming.take k = [0xff]
  · refine .inl ⟨hshort, ?_⟩
    simp only [if_pos hshort]
    rw [if_neg (by simp)]
    rfl
  · simp only [if_neg hshort]
    by_cases hmore : (c.read ++ coming.take k).length < readLen + 1
    · exact .inr (.inl ⟨hshort, hmore, if_pos hmore⟩)
    · refine .inr (.inr ⟨hshort, ?_, if_neg hmore⟩)
      rw [List.length_append, List.length_take] at hmore ⊢
      omega

theorem recv_long (hlen : 2 ^ 31 ≤ readLen + 1 - c.read.length) (count : Nat) :
    c.recv peer readLen count = c.fail peer readLen := if_pos hlen

theorem step_done (peer : Peer) (message : List UInt8) (readLen : Nat) (hend : c.atEnd = false)
    (count : Nat) :
    c.step peer message readLen (.done count) =
      if c.sent then c.recv peer readLen count else .waiting (c.send peer message) := by
  unfold Call.step
  rw [hend, if_neg Bool.false_ne_true]

/-- The next `send` or `recv` fails, the request is sent, or a `recv` is made. -/
theorem step_cases (peer : Peer) (message : List UInt8) (readLen : Nat) (hend : c.atEnd = false)
    (e : Event) :
    c.step peer message readLen e = c.fail peer readLen ∨
      c.sent = false ∧ c.step peer message readLen e = .waiting (c.send peer message) ∨
      c.sent = true ∧ readLen + 1 - c.read.length < 2 ^ 31 ∧
        ∃ count, e = .done count ∧
          c.step peer message readLen e = c.recv peer readLen count := by
  cases e with
  | raised =>
    unfold Call.step
    rw [hend, if_neg Bool.false_ne_true]
    exact .inl rfl
  | done count =>
    rw [step_done peer message readLen hend]
    cases hsent : c.sent with
    | false => exact .inr (.inl ⟨rfl, rfl⟩)
    | true =>
      by_cases hlen : readLen + 1 - c.read.length < 2 ^ 31
      · exact .inr (.inr ⟨rfl, hlen, count, rfl, rfl⟩)
      · exact .inl (recv_long (Nat.le_of_not_lt hlen) count)

/-- A `recv` that is to continue an answer, with nothing left to come. -/
structure Call.Stuck (readLen : Nat) (c : Call) : Prop where
  sent : c.sent = true
  sock : c.sock = some []
  more : c.read.length < readLen + 1
  short : c.read ≠ [0xff]

theorem Call.Stuck.step (h : c.Stuck readLen) (peer : Peer) (message : List UInt8)
    (hfit : readLen + 1 < 2 ^ 31) (count : Nat) :
    ∃ c', c.step peer message readLen (.done count) = .waiting c' ∧ c'.Stuck readLen := by
  by_cases hend : c.atEnd = true
  · unfold Call.step
    rw [if_pos hend]
    exact ⟨c, rfl, h⟩
  · have hmore := h.more
    rw [step_done _ _ _ (Bool.eq_false_of_not_eq_true hend), if_pos h.sent]
    obtain ⟨k, -, hcases⟩ := recv_cases peer h.sock hmore (by omega) count
    rw [List.take_nil, List.append_nil] at hcases
    rcases hcases with ⟨habs, -⟩ | ⟨-, -, hrecv⟩ | ⟨-, hfull, -⟩
    · exact absurd habs h.short
    · refine ⟨_, hrecv, h.sent, ?_, ?_, ?_⟩
      · show some (List.drop k []) = _
        rw [List.drop_nil]
      · show (c.read ++ List.take k []).length < readLen + 1
        rw [List.take_nil, List.append_nil]
        exact hmore
      · show c.read ++ List.take k [] ≠ _
        rw [List.take_nil, List.append_nil]
        exact h.short
    · omega

theorem Call.Stuck.waits {world : Nat → Call → Event} (h : c.Stuck readLen) (peer : Peer)
    (message : List UInt8) (hfit : readLen + 1 < 2 ^ 31)
    (hworld : ∀ n c, ∃ count, world n c = .done count) (n : Nat) :
    ∃ c', after (Call.step peer message readLen) world (.waiting c) n = .waiting c' := by
  induction n generalizing world c with
  | zero => exact ⟨c, rfl⟩
  | succ n ih =>
    obtain ⟨count, hcount⟩ := hworld 0 c
    obtain ⟨c', hstep, hstuck⟩ := h.step peer message hfit count
    rw [after_succ, hcount, hstep]
    exact ih hstuck fun n => hworld (n + 1)

/-! ## How many steps a call can take -/

/-- What is left of a call: its attempts, and in this one the `send` and the bytes. -/
def Call.left (readLen : Nat) (c : Call) : Nat :=
  (3 - c.retry) * (readLen + 3) +
    if c.sent then readLen + 1 - c.read.length else readLen + 2

theorem attempt_left {d : Call} (hretry : c.retry < 3) (hd : d.retry = c.retry + 1)
    (h : d.attempt peer readLen = .waiting c') : c'.left readLen < c.left readLen := by
  have hleft : (3 - c.retry) * (readLen + 3) = (3 - d.retry) * (readLen + 3) + (readLen + 3) := by
    rw [show 3 - c.retry = 3 - d.retry + 1 by omega, Nat.succ_mul]
  have hbegin : ∀ coming opened, c' = d.begin coming opened →
      c'.left readLen < c.left readLen := by
    rintro coming opened rfl
    show (3 - d.retry) * (readLen + 3) + (readLen + 2) < _
    unfold Call.left
    omega
  unfold Call.attempt at h
  split at h
  · split at h
    · rename_i coming hsock
      cases h
      refine hbegin coming d.opened ?_
      rw [Call.begin, ← hsock]
    · split at h
      · cases h
        exact hbegin _ _ rfl
      · cases h
  · cases h

/-- A call takes a step closer to its end as long as there is something to receive. -/
theorem step_left {coming : List UInt8} (hretry : c.retry < 3) (hend : c.atEnd = false)
    (hsock : c.sock = some coming) (hread : c.read.length < readLen + 1)
    (hcoming : c.sent = true → readLen + 1 - c.read.length < 2 ^ 31 → coming ≠ []) {e : Event}
    (h : c.step peer message readLen e = .waiting c') : c'.left readLen < c.left readLen := by
  rcases step_cases peer message readLen hend e with
    hstep | ⟨hsent, hstep⟩ | ⟨hsent, hlen, count, -, hstep⟩
  · rw [hstep] at h
    exact attempt_left hretry rfl h
  · rw [hstep] at h
    cases h
    simp only [Call.left, Call.send, hsent, if_true, Bool.false_eq_true, if_false]
    omega
  · have hne := List.length_pos_iff.mpr (hcoming hsent hlen)
    obtain ⟨k, hk, ⟨-, hrecv⟩ | ⟨-, hmore, hrecv⟩ | ⟨-, -, hrecv⟩⟩ :=
      recv_cases peer hsock hread hlen count
    · rw [hstep, hrecv] at h
      exact attempt_left hretry rfl h
    · rw [hstep, hrecv] at h
      cases h
      rw [List.length_append, List.length_take] at hmore
      simp only [Call.left, Call.take, hsent, if_true, List.length_append, List.length_take]
      omega
    · rw [hstep, hrecv] at h
      exact attempt_left hretry rfl h

end Cases

end LoPhi.Memory.Connection
