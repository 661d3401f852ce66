import LoPhi.Controller.StartOnce

/-! # Submitting an analysis

`ControllerConfig.send_analysis` on connections that work, to a controller that answers. The length
of a message has two bytes, and whatever raises, also the packing of a length, is met by connecting
again and sending everything once more. -/

namespace LoPhi.Controller.Submission
open LoPhi.Lib.Effect LoPhi.Lib.Struct LoPhi.Network.Framing
open LoPhi.Controller.StartOnce (Attempt)

/-- A connection: how many bytes its sends take, how many bytes are there for a `recv`, and the
status the controller answers with. -/
structure Link where
  accept : Nat → Nat
  chunk : Nat → Nat
  status : List UInt8
  length_status : status.length < 2 ^ 16

def Link.wire (link : Link) : Wire where
  stream := frameBytes link.status
  chunk := link.chunk
  delays _ := 0
  ending := .closed

/-- The client: what it has put on the connections it gave up, and both sides of `SOCK`. -/
structure Client where
  earlier : List (List UInt8)
  sender : Sender
  socket : Socket

/-- `connect`. -/
def Client.connect (client : Client) : Client where
  earlier := client.earlier ++ [client.sender.stream]
  sender := ⟨[], 0⟩
  socket := ⟨0, 0⟩

/-- A client on its first connection. -/
def start : Client := { earlier := [], sender := ⟨[], 0⟩, socket := ⟨0, 0⟩ }

def onSender {β : Type} (m : Prog Exc Sender β) : Prog Exc Client β :=
  fun client => ((m client.sender).1, { client with sender := (m client.sender).2 })

def onSocket {β : Type} (m : Prog Exc Socket β) : Prog Exc Client β :=
  fun client => ((m client.socket).1, { client with socket := (m client.socket).2 })

section
variable {κ : Type} (str : κ → Except Exc (List UInt8)) (links : Nat → Link) (cmd : κ)
  (script : List UInt8)

/-- The body of the `try` of `send_analysis`. -/
def attempt : Prog Exc Client (Option (List UInt8)) := do
  let client ← get
  let link := links client.earlier.length
  let data ← ofExcept (str cmd)
  onSender (sendSocketData link.accept data)
  onSender (sendSocketData link.accept script)
  onSocket (readSocketData link.wire)

/-- `send_analysis`: the status, or nothing without enough fuel. -/
def sendAnalysis : Nat → Client → Option (Option (List UInt8)) × Client
  | 0, client => (none, client)
  | fuel + 1, client =>
    match attempt str links cmd script client with
    | (.ok status, client) => (some status, client)
    | (.error _, client) => sendAnalysis fuel client.connect

/-- The command and the script go out once each on the first connection, and the status that is
answered there is returned. -/
def Submits : Prop :=
  ∃ data, str cmd = .ok data ∧ ∃ fuel client,
    sendAnalysis str links cmd script fuel start = (some (some (links 0).status), client) ∧
      client.earlier = [] ∧ client.sender.stream = frameBytes data ++ frameBytes script

/-- The command has a text, and two bytes are enough for its length and that of the script. -/
def Fits : Prop := (∃ data, str cmd = .ok data ∧ data.length < 2 ^ 16) ∧ script.length < 2 ^ 16

end

/-- A client that has not used its connection. -/
structure Fresh (client : Client) : Prop where
  sender : client.sender = ⟨[], 0⟩
  socket : client.socket = ⟨0, 0⟩

theorem fresh_start : Fresh start := ⟨rfl, rfl⟩

theorem fresh_connect (client : Client) : Fresh client.connect := ⟨rfl, rfl⟩

theorem length_earlier_connect (client : Client) :
    client.connect.earlier.length = client.earlier.length + 1 := by
  rw [Client.connect, List.length_append, List.length_singleton]

/-! ## One attempt -/

section Attempts
variable {κ : Type} {str : κ → Except Exc (List UInt8)} {links : Nat → Link} {cmd : κ}
  {script : List UInt8} {client : Client}

theorem onSender_eq {β : Type} {m : Prog Exc Sender β} {result : Except Exc β} {sender : Sender}
    (h : m client.sender = (result, sender)) :
    onSender m client = (result, { client with sender := sender }) := by
  unfold onSender
  rw [h]

theorem onSocket_eq {β : Type} {m : Prog Exc Socket β} {result : Except Exc β} {socket : Socket}
    (h : m client.socket = (result, socket)) :
    onSocket m client = (result, { client with socket := socket }) := by
  unfold onSocket
  rw [h]

/-- A message that is too long for its length raises before anything is sent. -/
theorem sendSocketData_long (accept : Nat → Nat) {data : List UInt8} (h : ¬ data.length < 2 ^ 16)
    (s : Sender) : sendSocketData accept data s = (.error .structError, s) :=
  bind_error (congrArg (·, s) (if_neg h))

/-- The status is read, or the first `recv` has only one byte of its length. -/
theorem readSocketData_status (link : Link) :
    readSocketData link.wire ⟨0, 0⟩ =
      if 2 ≤ link.chunk 0 then (.ok (some link.status), ⟨(frameBytes link.status).length, 0⟩)
      else (.error .structError, ⟨1, 0⟩) := by
  have hstream : link.wire.stream = [] ++ (frameBytes link.status ++ []) :=
    (List.append_nil _).symm
  split
  · rename_i hchunk
    exact readSocketData_eq link.length_status hstream hchunk (Nat.le_refl 0) fun _ _ _ => rfl
  · rename_i hchunk
    exact readSocketData_split hstream (Nat.lt_of_not_le hchunk) (Nat.le_refl 0)

/-- Everything is sent once and the status is returned, or something raises and the client is still
on the same connection. -/
theorem attempt_cases (str : κ → Except Exc (List UInt8)) (links : Nat → Link) (cmd : κ)
    (script : List UInt8) (hfresh : Fresh client) :
    (Fits str cmd script ∧ 2 ≤ (links client.earlier.length).chunk 0 ∧
      ∃ data sender socket, str cmd = .ok data ∧
        sender.stream = frameBytes data ++ frameBytes script ∧
        attempt str links cmd script client =
          (.ok (some (links client.earlier.length).status),
            { client with sender := sender, socket := socket })) ∨
    (¬ (Fits str cmd script ∧ 2 ≤ (links client.earlier.length).chunk 0) ∧
      ∃ e client', attempt str links cmd script client = (.error e, client') ∧
        client'.earlier = client.earlier) := by
  obtain ⟨earlier, sender, socket⟩ := client
  obtain ⟨rfl, rfl⟩ : sender = ⟨[], 0⟩ ∧ socket = ⟨0, 0⟩ := ⟨hfresh.sender, hfresh.socket⟩
  have hstart : ∀ {result : Except Exc (List UInt8)}, str cmd = result →
      attempt str links cmd script ⟨earlier, ⟨[], 0⟩, ⟨0, 0⟩⟩ =
        (ofExcept result >>= fun data => do
          onSender (sendSocketData (links earlier.length).accept data)
          onSender (sendSocketData (links earlier.length).accept script)
          onSocket (readSocketData (links earlier.length).wire) : Prog Exc Client _)
            ⟨earlier, ⟨[], 0⟩, ⟨0, 0⟩⟩ := by
    rintro _ rfl
    exact bind_ok rfl
  cases hstr : str cmd with
  | error e =>
    refine .inr ⟨?_, e, _, (hstart hstr).trans (bind_error rfl), rfl⟩
    rintro ⟨⟨⟨data, hdata, -⟩, -⟩, -⟩
    rw [hstr] at hdata
    cases hdata
  | ok data =>
    replace hstart := (hstart hstr).trans (bind_ok rfl)
    by_cases hlen : data.length < 2 ^ 16
    · obtain ⟨sends, hsent⟩ := sendSocketData_eq (links earlier.length).accept hlen ⟨[], 0⟩
      replace hstart := hstart.trans (bind_ok (onSender_eq hsent))
      by_cases hscript : script.length < 2 ^ 16
      · obtain ⟨sends', hsent'⟩ :=
          sendSocketData_eq (links earlier.length).accept hscript ⟨[] ++ frameBytes data, sends⟩
        replace hstart := hstart.trans (bind_ok (onSender_eq hsent'))
        have hread := readSocketData_status (links earlier.length)
        by_cases hchunk : 2 ≤ (links earlier.length).chunk 0
        · rw [if_pos hchunk] at hread
          exact .inl ⟨⟨⟨data, hstr, hlen⟩, hscript⟩, hchunk, data, _, _, rfl, rfl,
            hstart.trans (onSocket_eq hread)⟩
        · rw [if_neg hchunk] at hread
          exact .inr ⟨fun h => hchunk h.2, _, _, hstart.trans (onSocket_eq hread), rfl⟩
      · have hraise := sendSocketData_long (links earlier.length).accept hscript
          ⟨[] ++ frameBytes data, sends⟩
        exact .inr ⟨fun h => hscript h.1.2, _, _,
          hstart.trans (bind_error (onSender_eq hraise)), rfl⟩
    · have hraise := sendSocketData_long (links earlier.length).accept hlen ⟨[], 0⟩
      refine .inr ⟨?_, _, _, hstart.trans (bind_error (onSender_eq hraise)), rfl⟩
      rintro ⟨⟨⟨other, hother, hshort⟩, -⟩, -⟩
      rw [hstr] at hother
      cases hother
      exact hlen hshort

/-! ## The loop -/

/-- A connection that was given up stays given up. -/
theorem earlier_le (str : κ → Except Exc (List UInt8)) (links : Nat → Link) (cmd : κ)
    (script : List UInt8) (fuel : Nat) (hfresh : Fresh client) :
    client.earlier.length ≤ (sendAnalysis str links cmd script fuel client).2.earlier.length := by
  induction fuel generalizing client with
  | zero => exact Nat.le_refl _
  | succ fuel ih =>
    unfold sendAnalysis
    rcases attempt_cases str links cmd script hfresh with
      ⟨-, -, data, sender, socket, -, -, hattempt⟩ | ⟨-, e, client', hattempt, hsame⟩
    · rw [hattempt]
    · rw [hattempt]
      have hrest := ih (fresh_connect client')
      rw [length_earlier_connect, hsame] at hrest
      exact Nat.le_of_succ_le hrest

theorem fits_of_submits (h : Submits str links cmd script) :
    Fits str cmd script ∧ 2 ≤ (links 0).chunk 0 := by
  obtain ⟨data, -, fuel, client, hrun, hfirst, -⟩ := h
  cases fuel with
  | zero => cases hrun
  | succ fuel =>
    unfold sendAnalysis at hrun
    rcases attempt_cases str links cmd script fresh_start with
      ⟨hfits, hchunk, -⟩ | ⟨-, e, client', hattempt, -⟩
    · exact ⟨hfits, hchunk⟩
    · rw [hattempt] at hrun
      have hmore := earlier_le str links cmd script fuel (fresh_connect client')
      dsimp only at hrun
      rw [hrun, hfirst, length_earlier_connect] at hmore
      cases hmore

/-- On which connections an attempt returns. -/
theorem returns_from_iff (hfresh : Fresh client) :
    (∃ fuel, (sendAnalysis str links cmd script fuel client).1 ≠ none) ↔
      Fits str cmd script ∧ ∃ i, client.earlier.length ≤ i ∧ 2 ≤ (links i).chunk 0 := by
  constructor
  · rintro ⟨fuel, hreturns⟩
    induction fuel generalizing client with
    | zero => exact absurd rfl hreturns
    | succ fuel ih =>
      unfold sendAnalysis at hreturns
      rcases attempt_cases str links cmd script hfresh with
        ⟨hfits, hchunk, -⟩ | ⟨-, e, client', hattempt, hsame⟩
      · exact ⟨hfits, _, Nat.le_refl _, hchunk⟩
      · rw [hattempt] at hreturns
        obtain ⟨hfits, i, hi, hchunk⟩ := ih (fresh_connect client') hreturns
        rw [length_earlier_connect, hsame] at hi
        exact ⟨hfits, i, Nat.le_of_succ_le hi, hchunk⟩
  · rintro ⟨hfits, i, hi, hchunk⟩
    -- the connections up to the one whose status arrives whole are given up one by one
    obtain ⟨more, rfl⟩ := Nat.exists_eq_add_of_le hi
    induction more generalizing client with
    | zero =>
      refine ⟨1, ?_⟩
      unfold sendAnalysis
      rcases attempt_cases str links cmd script hfresh with
        ⟨-, -, data, sender, socket, -, -, hattempt⟩ | ⟨hnot, -⟩
      · rw [hattempt]
        exact Option.some_ne_none _
      · exact absurd ⟨hfits, hchunk⟩ hnot
    | succ more ih =>
      rcases attempt_cases str links cmd script hfresh with
        ⟨-, -, data, sender, socket, -, -, hattempt⟩ | ⟨-, e, client', hattempt, hsame⟩
      · refine ⟨1, ?_⟩
        unfold sendAnalysis
        rw [hattempt]
        exact Option.some_ne_none _
      · have hlen := length_earlier_connect client'
        rw [hsame] at hlen
        obtain ⟨fuel, hfuel⟩ := ih (fresh_connect client') (Nat.le_add_right _ _)
          (by rwa [hlen, Nat.add_assoc, Nat.add_comm 1])
        refine ⟨fuel + 1, ?_⟩
        unfold sendAnalysis
        rw [hattempt]
        exact hfuel

/-- What an attempt on the `i`-th connection is for the controller, which meets it as `wire i`. -/
def asAttempt (str : κ → Except Exc (List UInt8)) (links : Nat → Link) (cmd : κ)
    (script : List UInt8) (wire : Nat → Wire) (i : Nat) : Attempt where
  wire := wire i
  commandSent :=
    match str cmd with
    | .ok data => data.length < 2 ^ 16
    | .error _ => false
  fileRead := true
  scriptSent := script.length < 2 ^ 16
  status := if 2 ≤ (links i).chunk 0 then some (some (links i).status) else none

theorem asAttempt_returns {i : Nat} (wire : Nat → Wire) (hfits : Fits str cmd script)
    (hchunk : 2 ≤ (links i).chunk 0) :
    (asAttempt str links cmd script wire i).result = some (some (links i).status) := by
  obtain ⟨⟨data, hstr, hlen⟩, hscript⟩ := hfits
  unfold Attempt.result asAttempt
  simp only [hstr, hchunk, if_true, Bool.and_true]
  exact if_pos (by simpa using ⟨hlen, hscript⟩)

theorem asAttempt_raises {i : Nat} (wire : Nat → Wire)
    (h : ¬ (Fits str cmd script ∧ 2 ≤ (links i).chunk 0)) :
    (asAttempt str links cmd script wire i).result = none := by
  unfold Attempt.result asAttempt
  cases hstr : str cmd with
  | error e => simp
  | ok data =>
    have hsome : data.length < 2 ^ 16 → script.length < 2 ^ 16 → ¬ 2 ≤ (links i).chunk 0 :=
      fun hlen hscript hchunk => h ⟨⟨⟨data, hstr, hlen⟩, hscript⟩, hchunk⟩
    simpa using hsome

/-- The loop makes the attempts of `StartOnce` one after the other. -/
theorem sendAnalysis_attempts (wire : Nat → Wire) (fuel : Nat) (hfresh : Fresh client) :
    (sendAnalysis str links cmd script fuel client).1 =
      (StartOnce.sendAnalysis ((List.range' client.earlier.length fuel).map
        (asAttempt str links cmd script wire))).2 := by
  induction fuel generalizing client with
  | zero => rfl
  | succ fuel ih =>
    rw [List.range'_succ, List.map_cons, StartOnce.sendAnalysis]
    unfold sendAnalysis
    rcases attempt_cases str links cmd script hfresh with
      ⟨hfits, hchunk, data, sender, socket, -, -, hattempt⟩ | ⟨hnot, e, client', hattempt, hsame⟩
    · rw [hattempt, asAttempt_returns wire hfits hchunk]
    · rw [hattempt, asAttempt_raises wire hnot]
      dsimp only
      rw [ih (fresh_connect client'), length_earlier_connect, hsame]

end Attempts

/-- **The command and the script are sent once each, and the status is returned, if and only if**
two bytes are enough for both lengths and the first `recv` returns both bytes of the length of the
status. -/
theorem submits_iff {κ : Type} (str : κ → Except Exc (List UInt8)) (links : Nat → Link) (cmd : κ)
    (script : List UInt8) :
    Submits str links cmd script ↔ Fits str cmd script ∧ 2 ≤ (links 0).chunk 0 := by
  constructor
  · exact fits_of_submits
  · rintro ⟨hfits, hchunk⟩
    rcases attempt_cases str links cmd script fresh_start with
      ⟨-, -, data, sender, socket, hstr, hsent, hattempt⟩ | ⟨hnot, -⟩
    · refine ⟨data, hstr, 1, { start with sender := sender, socket := socket }, ?_, rfl, hsent⟩
      unfold sendAnalysis
      rw [hattempt]
      rfl
    · exact absurd ⟨hfits, hchunk⟩ hnot


/-- **`send_analysis` returns at all if and only if** two bytes are enough for both lengths and some
connection has both bytes of the length of the status there for the first `recv`; else it connects
again for ever. -/
theorem returns_iff {κ : Type} (str : κ → Except Exc (List UInt8)) (links : Nat → Link) (cmd : κ)
    (script : List UInt8) :
    (∃ fuel, (sendAnalysis str links cmd script fuel start).1 ≠ none) ↔
      Fits str cmd script ∧ ∃ i, 2 ≤ (links i).chunk 0 := by
  rw [returns_from_iff fresh_start]
  simp only [start, List.length_nil, Nat.zero_le, true_and]

/-- Connections on which everything that is there is received at once, to a controller that answers
`OK`. -/
def wholeLink : Link where
  accept _ := 4096
  chunk _ := 4096
  status := ascii "OK"
  length_status := by decide

/-- A script of 65536 bytes never gets out. -/
theorem not_submits_long :
    ¬ Submits Except.ok (fun _ => wholeLink) (ascii "start") (List.replicate (2 ^ 16) 32) := by
  intro h
  have hlen := (fits_of_submits h).1.2
  rw [List.length_replicate] at hlen
  exact Nat.lt_irrefl _ hlen

end LoPhi.Controller.Submission
