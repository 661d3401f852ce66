import LoPhi.Controller.Totality

/-! # Staying in frame

The controller reads the commands of a client from a stream of bytes. A `recv` that times out
raises out of `read_socket_data`, and what it had read of a message is gone: the loop of
`proccess_input` goes on and takes the next bytes, from wherever the stream is, for a length.
So the payloads are right as long as timeouts come only between two commands, and lengths
arrive whole. -/

namespace LoPhi.Controller.InFrame
open LoPhi.Lib.Effect LoPhi.Network.Framing

/-- A command as the client sends it: `start` is followed by its script. -/
structure Sent where
  payload : List UInt8
  script : Option (List UInt8)

/-- The bytes of a command on the wire. -/
def Sent.bytes (c : Sent) : List UInt8 :=
  frameBytes c.payload ++ c.script.toList.flatMap frameBytes

/-- The connection byte by byte. The client takes the replies. -/
def wireChannel (w : Wire) : Channel Socket where
  read := readSocketData w
  transmit := fun _ => pure ()

/-- Where the commands start, from an offset on, and where the last one ends. -/
def commandStarts : Nat → List Sent → List Nat
  | p, [] => [p]
  | p, c :: rest => p :: commandStarts (p + c.bytes.length) rest

/-- Where the lengths of the messages are. -/
def messageStarts : Nat → List Sent → List Nat
  | _, [] => []
  | p, c :: rest =>
    p :: (c.script.toList.map fun _ => p + (frameBytes c.payload).length) ++
      messageStarts (p + c.bytes.length) rest

/-- A command that fits a message, that a handler answers, and that has a script exactly if
it is `start`. -/
structure Sent.Proper (cfg : Config) (c : Sent) : Prop where
  nonempty : c.payload ≠ []
  fits : c.payload.length < 2 ^ 16
  script_fits : ∀ script, c.script = some script → script.length < 2 ^ 16
  answered : ∃ command, cfg.fromData c.payload = .ok command ∧ answerable cfg command = true ∧
    (command.cmd = text "start" ↔ c.script.isSome = true)

/-- The commands are proper, each length arrives whole, and a `recv` times out only where no
part of a command has arrived. -/
structure Undisturbed (cfg : Config) (w : Wire) (start : Nat) (commands : List Sent) : Prop where
  proper : ∀ c ∈ commands, c.Proper cfg
  lengths : ∀ p ∈ messageStarts start commands, 2 ≤ w.chunk p
  timeouts : ∀ p, start ≤ p → p ∉ commandStarts start commands → w.delays p = 0

theorem le_of_mem_commandStarts {p start : Nat} {commands : List Sent}
    (h : p ∈ commandStarts start commands) : start ≤ p := by
  induction commands generalizing start with
  | nil => exact (List.mem_singleton.mp h).ge
  | cons c commands ih =>
    obtain rfl | h := List.mem_cons.mp h
    · exact Nat.le_refl _
    · exact le_trans (Nat.le_add_right _ _) (ih h)

section Turn
variable {cfg : Config} {w : Wire} {c : Sent} {rest : List Sent} {start : Nat}

theorem Undisturbed.tail (h : Undisturbed cfg w start (c :: rest)) :
    Undisturbed cfg w (start + c.bytes.length) rest where
  proper other hother := h.proper other (by simp [hother])
  lengths p hp := h.lengths p (by simp [messageStarts, hp])
  timeouts p hp hmem := by
    refine h.timeouts p (by omega) fun hstarts => ?_
    obtain rfl | hstarts := List.mem_cons.mp hstarts
    · have hlen : 0 < c.bytes.length := by
        simp only [Sent.bytes, List.length_append, length_frameBytes]
        omega
      omega
    · exact hmem hstarts

/-- Inside a command nothing times out. -/
theorem Undisturbed.inside (h : Undisturbed cfg w start (c :: rest)) {p : Nat}
    (hp : start < p) (hp' : p < start + c.bytes.length) : w.delays p = 0 := by
  refine h.timeouts p hp.le fun hstarts => ?_
  obtain rfl | hstarts := List.mem_cons.mp hstarts
  · omega
  · have := le_of_mem_commandStarts hstarts
    omega

/-- What the sends leave alone. -/
def SameStream (s s' : Server Socket) : Prop := s'.chan = s.chan ∧ s'.handed = s.handed

theorem sameStream_composes : Composes SameStream where
  refl _ := ⟨rfl, rfl⟩
  trans h h' := ⟨h'.1.trans h.1, h'.2.trans h.2⟩

theorem sameStream_transmit (bytes : List UInt8) :
    Keeps SameStream (onChan ((wireChannel w).transmit bytes)) := fun _ => ⟨rfl, rfl⟩

variable {before : List UInt8} {waited : Nat} {s : Server Socket}

/-- The payload of an undisturbed command is read whole. -/
theorem read_payload (hstream : w.stream = before ++ (c.bytes ++ rest.flatMap Sent.bytes))
    (hs : s.chan = ⟨before.length, waited⟩) (hwaited : w.delays before.length ≤ waited)
    (h : Undisturbed cfg w before.length (c :: rest)) :
    (wireChannel w).read s.chan =
      (.ok (some c.payload), ⟨(before ++ frameBytes c.payload).length, 0⟩) := by
  rw [Sent.bytes, List.append_assoc] at hstream
  rw [hs]
  refine readSocketData_eq (h.proper c (by simp)).fits hstream
    (h.lengths _ (by simp [messageStarts])) hwaited fun p hp hp' => h.inside hp ?_
  rw [List.length_append] at hp'
  rw [Sent.bytes, List.length_append]
  omega

/-- So is its script. -/
theorem read_script (hstream : w.stream = before ++ (c.bytes ++ rest.flatMap Sent.bytes))
    (h : Undisturbed cfg w before.length (c :: rest)) {script : List UInt8}
    (hscript : c.script = some script) :
    (wireChannel w).read ⟨(before ++ frameBytes c.payload).length, 0⟩ =
      (.ok (some script), ⟨(before ++ c.bytes).length, 0⟩) := by
  have hbytes : c.bytes = frameBytes c.payload ++ frameBytes script := by
    rw [Sent.bytes, hscript, Option.toList_some, List.flatMap_singleton]
  have hinside : ∀ p, (before ++ frameBytes c.payload).length ≤ p →
      p < (before ++ frameBytes c.payload ++ frameBytes script).length → w.delays p = 0 := by
    intro p hp hp'
    rw [List.length_append, List.length_append] at hp'
    rw [List.length_append, length_frameBytes] at hp
    refine h.inside (by omega) ?_
    rw [hbytes, List.length_append]
    omega
  rw [hbytes, List.append_assoc, ← List.append_assoc before] at hstream
  rw [hbytes, ← List.append_assoc]
  refine readSocketData_eq ((h.proper c (by simp)).script_fits script hscript) hstream
    (h.lengths _ (by simp [messageStarts, hscript]))
    (hinside _ (Nat.le_refl _) (by simp)).le fun p hp hp' => hinside p hp.le hp'

/-- One undisturbed command: its payload is handed to `from_data`, and the controller is at
the start of the next. -/
theorem step_undisturbed (hstream : w.stream = before ++ (c.bytes ++ rest.flatMap Sent.bytes))
    (hs : s.chan = ⟨before.length, waited⟩) (hwaited : w.delays before.length ≤ waited)
    (h : Undisturbed cfg w before.length (c :: rest)) :
    ∃ s', step cfg (wireChannel w) s = (.ok true, s') ∧
      s'.chan = ⟨(before ++ c.bytes).length, 0⟩ ∧ s'.handed = s.handed ++ [c.payload] := by
  have hproper := h.proper c (by simp)
  obtain ⟨command, hdata, hanswer, hstart⟩ := hproper.answered
  have hstep := step_command hproper.nonempty (read_payload hstream hs hwaited h) hdata
  cases hscript : c.script with
  | none =>
    have hnot : command.cmd ≠ text "start" := by
      rw [Ne, hstart, hscript]
      decide
    have hbytes : c.bytes = frameBytes c.payload := by
      rw [Sent.bytes, hscript, Option.toList_none, List.flatMap_nil, List.append_nil]
    have hraises : Raises (fun _ => False) (respond cfg (wireChannel w) command) :=
      (respond_spec command).1 _ ⟨fun hcmd => absurd hcmd hnot, fun _ => raises_pure ()⟩ hanswer
    have hkept : SameStream _ (respond cfg (wireChannel w) command
        (taken s ⟨(before ++ frameBytes c.payload).length, 0⟩ c.payload)).2 :=
      keeps_respond sameStream_composes sameStream_transmit hnot _
    cases hrun : respond cfg (wireChannel w) command
        (taken s ⟨(before ++ frameBytes c.payload).length, 0⟩ c.payload) with
    | mk result s' =>
      rw [hrun] at hkept
      cases result with
      | error e => exact (hraises _ _ _ hrun).elim
      | ok u =>
        rw [bind_ok hrun] at hstep
        rw [hbytes]
        exact ⟨s', hstep, hkept⟩
  | some script =>
    have hcmd : command.cmd = text "start" := by
      rw [hstart, hscript]
      rfl
    obtain ⟨t, started, hstarts⟩ := (answerable_start hcmd).mp hanswer
    have hrun : respond cfg (wireChannel w) command
        (taken s ⟨(before ++ frameBytes c.payload).length, 0⟩ c.payload) = _ :=
      respond_queues hcmd hstarts (read_script hstream h hscript) rfl
    rw [bind_ok hrun] at hstep
    exact ⟨_, hstep, rfl, rfl⟩

end Turn

/-! ## Whole connections -/

section Run
variable {cfg : Config} {w : Wire}

/-- The turns of the loop the commands take: one for each, one for the end of the
connection, and one for each timeout before them. -/
def turns (w : Wire) (start : Nat) (commands : List Sent) : Nat :=
  ((commandStarts start commands).map fun p => w.delays p + 1).sum

/-- The loop from the start of a command on, in any number of turns and in enough turns. -/
theorem run_undisturbed {fuel : Nat} {before : List UInt8} {commands : List Sent} {waited : Nat}
    {s : Server Socket} (hstream : w.stream = before ++ commands.flatMap Sent.bytes)
    (hs : s.chan = ⟨before.length, waited⟩) (hwaited : waited ≤ w.delays before.length)
    (h : Undisturbed cfg w before.length commands) :
    (∃ k, (proccessInput cfg (wireChannel w) fuel s).2.handed =
      s.handed ++ (commands.map Sent.payload).take k) ∧
    (turns w before.length commands ≤ fuel + waited →
      (proccessInput cfg (wireChannel w) fuel s).1 = .returned ∧
      (proccessInput cfg (wireChannel w) fuel s).2.handed =
        s.handed ++ commands.map Sent.payload) := by
  induction fuel generalizing before commands waited s with
  | zero =>
    refine ⟨⟨0, by rw [List.take_zero, List.append_nil]; rfl⟩, fun hturns => ?_⟩
    have hlarge : w.delays before.length + 1 ≤ turns w before.length commands := by
      cases commands with
      | nil => exact Nat.le_refl _
      | cons c rest => exact Nat.le_add_right _ _
    omega
  | succ fuel ih =>
    unfold proccessInput
    by_cases hmore : waited < w.delays before.length
    · have hread : (wireChannel w).read s.chan =
          (.error .socketTimeout, ⟨before.length, waited + 1⟩) := by
        rw [hs]
        exact readSocketData_timeout hmore
      rw [step_timeout hread]
      obtain ⟨hpart, hall⟩ := ih (s := { s with chan := ⟨before.length, waited + 1⟩ }) hstream rfl
        hmore h
      exact ⟨hpart, fun hturns => hall (by omega)⟩
    · have hdone : w.delays before.length = waited := by omega
      cases commands with
      | nil =>
        have hend := readSocketData_end (w := w) (s := ⟨before.length, waited⟩) hdone.le (by
          rw [hstream]
          exact (congrArg List.length (List.append_nil before)).le)
        rw [← hs] at hend
        cases hending : w.ending with
        | closed =>
          rw [hending] at hend
          rw [step_closed hend]
          exact ⟨⟨0, (List.append_nil _).symm⟩, fun _ => ⟨rfl, (List.append_nil _).symm⟩⟩
        | reset =>
          rw [hending] at hend
          rw [step_error (by decide) hend]
          exact ⟨⟨0, (List.append_nil _).symm⟩, fun _ => ⟨rfl, (List.append_nil _).symm⟩⟩
      | cons c rest =>
        obtain ⟨s', hstep, hchan, hhanded⟩ := step_undisturbed hstream hs hdone.le h
        have htail := h.tail
        rw [← List.length_append] at htail
        obtain ⟨⟨k, hpart⟩, hall⟩ := ih (hstream.trans (List.append_assoc _ _ _).symm) hchan
          (Nat.zero_le _) htail
        rw [hstep]
        rw [hhanded, List.append_assoc] at hpart hall
        refine ⟨⟨k + 1, hpart⟩, fun hturns => hall ?_⟩
        have hsum : turns w before.length (c :: rest) =
            w.delays before.length + 1 + turns w (before ++ c.bytes).length rest := by
          rw [List.length_append]
          rfl
        omega

end Run

/-- A command to start an analysis, with its script. -/
def sentStart : Sent := { payload := startJson, script := some (ascii "pass") }

end LoPhi.Controller.InFrame
