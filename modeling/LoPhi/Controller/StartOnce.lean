import LoPhi.Controller.InFrame

/-! # Starting an analysis over connections that break

`ControllerConfig.send_analysis` sends a command and a script and waits for a status; on any
exception it connects again and repeats it all. The controller handles one connection after
the other. What reaches it of an attempt is a first part of what the client sent; then the
connection is closed or reset. -/

namespace LoPhi.Controller.StartOnce
open LoPhi.Lib.Effect LoPhi.Network.Framing LoPhi.Controller.InFrame

/-- One turn of the loop of `send_analysis`: the connection as the controller meets it, and
which of the client's calls on it return. `status` is nothing if reading it raises. -/
structure Attempt where
  wire : Wire
  commandSent : Bool
  fileRead : Bool
  scriptSent : Bool
  status : Option (Option (List UInt8))

/-- The body of the `try`: what it returns, or nothing if it raises. -/
def Attempt.result (a : Attempt) : Option (Option (List UInt8)) :=
  if a.commandSent && a.fileRead && a.scriptSent then a.status else none

/-- `send_analysis`: the attempts it makes, and what it returns if one of them does. -/
def sendAnalysis : List Attempt → List Attempt × Option (Option (List UInt8))
  | [] => ([], none)
  | a :: rest =>
    match a.result with
    | some status => ([a], some status)
    | none => (a :: (sendAnalysis rest).1, (sendAnalysis rest).2)

/-- What the client's calls put on the connection at most: a command too long for a message
raises before anything is sent. -/
def Attempt.sent (a : Attempt) (payload script : List UInt8) : List UInt8 :=
  match frame payload with
  | .error _ => []
  | .ok command => if a.commandSent && a.fileRead then command ++ frameBytes script else command

/-- The controller over one connection after another. An exception that leaves
`proccess_input` ends it. -/
def serve (cfg : Config) (fuel : Nat) : List Wire → List Analysis → List Analysis
  | [], queued => queued
  | w :: rest, queued =>
    match proccessInput cfg (wireChannel w) fuel ⟨⟨0, 0⟩, [], queued⟩ with
    | (.escaped _, s) => s.queued
    | (_, s) => serve cfg fuel rest s.queued

/-- The command and the script on the wire. -/
def exchange (payload script : List UInt8) : List UInt8 := frameBytes payload ++ frameBytes script

/-- The connection breaks in a way the controller survives: no timeout inside the command,
and once the command is complete, no orderly end before the script is. -/
structure CleanBreak (w : Wire) (payload script : List UInt8) : Prop where
  timeouts : ∀ p, 0 < p → p < (frameBytes payload).length → w.delays p = 0
  ending : frameBytes payload <+: w.stream → w.stream ≠ exchange payload script →
    w.ending = .reset

/-- An attempt that breaks cleanly and, once all of it has arrived, not at all: the status
gets back. -/
structure Attempt.Clean (a : Attempt) (payload script : List UInt8) : Prop where
  arrives : a.wire.stream <+: a.sent payload script
  breaks : CleanBreak a.wire payload script
  answered : a.wire.stream = exchange payload script → a.result ≠ none

section Connection
variable {cfg : Config} {w : Wire} {payload script : List UInt8} {c : Command}

/-- After the last byte nothing is put on a queue any more. -/
theorem queued_at_end {fuel : Nat} {s : Server Socket} (h : w.stream.length ≤ s.chan.pos) :
    (proccessInput cfg (wireChannel w) fuel s).2.queued = s.queued := by
  induction fuel generalizing s with
  | zero => rfl
  | succ fuel ih =>
    unfold proccessInput
    by_cases hwait : s.chan.waited < w.delays s.chan.pos
    · rw [step_timeout (readSocketData_timeout hwait)]
      exact ih h
    · have hend := readSocketData_end (Nat.le_of_not_lt hwait) h
      cases hending : w.ending with
      | closed =>
        rw [hending] at hend
        rw [step_closed hend]
      | reset =>
        rw [hending] at hend
        rw [step_error (by decide) hend]

/-- What one connection adds: nothing, or the analysis with the whole script, and that only
if all of it arrived. -/
def Adds (w : Wire) (payload script : List UInt8) (before after : List Analysis) : Prop :=
  after = before ∨ w.stream = exchange payload script ∧
    ∃ a, after = before ++ [a] ∧ a.script = script

variable (hdata : cfg.fromData payload = .ok c) (hcmd : c.cmd = text "start")
  (hscript : script.length < 2 ^ 16) (hbreak : CleanBreak w payload script)

section Respond
variable {part : List UInt8} (hstream : w.stream = frameBytes payload ++ part)
  (hpart : part <+: frameBytes script) {s : Server Socket}
  (hs : s.chan = ⟨(frameBytes payload).length, 0⟩)
include hcmd hscript hbreak hstream hpart hs

/-- The command has been handed to `from_data`, and `part` of the script is there: the
handler raises, or all of the script is there and the analysis is put on a queue. -/
theorem respond_adds :
    (∃ e s', respond cfg (wireChannel w) c s = (.error e, s') ∧ s'.queued = s.queued) ∨
    ∃ s', respond cfg (wireChannel w) c s = (.ok (), s') ∧ w.stream.length ≤ s'.chan.pos ∧
      w.stream = exchange payload script ∧
      ∃ a, s'.queued = s.queued ++ [a] ∧ a.script = script := by
  obtain ⟨hread, -⟩ : PartRead w script part (frameBytes script) (readSocketData w s.chan) ∧ _ := by
    rw [hs]
    exact readSocketData_part hscript hstream hpart
  cases hrun : (wireChannel w).read s.chan with
  | mk result ch =>
    have hrun' : readSocketData w s.chan = (result, ch) := hrun
    rw [hrun'] at hread
    cases result with
    | error e => exact Or.inl ⟨e, _, respond_unread hcmd hrun, rfl⟩
    | ok m =>
      cases m with
      | none =>
        obtain ⟨hclosed, hne⟩ := hread.read_none rfl
        have hreset := hbreak.ending ⟨part, hstream.symm⟩ fun hwhole =>
          hne (List.append_cancel_left (hstream.symm.trans hwhole))
        rw [hclosed] at hreset
        cases hreset
      | some m =>
        obtain ⟨rfl, rfl, hend⟩ := hread.read_whole m rfl
        by_cases hstarts : ∃ t command, Starts cfg c t command
        · obtain ⟨t, command, hstarts⟩ := hstarts
          exact Or.inr ⟨_, respond_queues hcmd hstarts hrun rfl, hend.ge, hstream, _, rfl, rfl⟩
        · obtain ⟨e, he⟩ := respond_refuses hcmd hstarts hrun
          exact Or.inl ⟨e, _, he, rfl⟩

end Respond

include hdata hcmd hscript hbreak

/-- The turn that finds the whole command. -/
theorem step_adds {part : List UInt8} (hfits : payload.length < 2 ^ 16)
    (hstream : w.stream = frameBytes payload ++ part) (hpart : part <+: frameBytes script)
    {waited : Nat} (hwaited : w.delays 0 ≤ waited) {s : Server Socket} (hs : s.chan = ⟨0, waited⟩) :
    (∃ result s', step cfg (wireChannel w) s = (result, s') ∧ result ≠ .ok true ∧
      s'.queued = s.queued) ∨
    ∃ s', step cfg (wireChannel w) s = (.ok true, s') ∧ w.stream.length ≤ s'.chan.pos ∧
      w.stream = exchange payload script ∧
      ∃ a, s'.queued = s.queued ++ [a] ∧ a.script = script := by
  by_cases hchunk : w.chunk 0 < 2
  · have hread : (wireChannel w).read s.chan = (.error .structError, ⟨1, 0⟩) := by
      rw [hs]
      exact @readSocketData_split w [] waited payload part hstream hchunk hwaited
    exact Or.inl ⟨_, _, step_error (by decide) hread, by decide, rfl⟩
  · have hread : (wireChannel w).read s.chan =
        (.ok (some payload), ⟨(frameBytes payload).length, 0⟩) := by
      rw [hs]
      exact @readSocketData_eq w [] waited payload part hfits hstream
        (Nat.le_of_not_lt hchunk) hwaited hbreak.timeouts
    by_cases hnil : payload = []
    · rw [hnil] at hread
      exact Or.inl ⟨_, _, step_nil hread, by decide, rfl⟩
    · rw [step_command hnil hread hdata]
      obtain ⟨e, s', hrun, hqueued⟩ | ⟨s', hrun, hend, hwhole, a, hqueued, ha⟩ :=
        respond_adds hcmd hscript hbreak hstream hpart
          (s := taken s ⟨(frameBytes payload).length, 0⟩ payload) rfl
      · exact Or.inl ⟨_, _, bind_error hrun, by simp, hqueued⟩
      · exact Or.inr ⟨_, bind_ok hrun, hend, hwhole, a, hqueued, ha⟩

/-- One connection, from its first byte on. -/
theorem proccessInput_adds (hfits : payload.length < 2 ^ 16)
    (hpre : w.stream <+: exchange payload script) {fuel waited : Nat} {s : Server Socket}
    (hs : s.chan = ⟨0, waited⟩) :
    Adds w payload script s.queued (proccessInput cfg (wireChannel w) fuel s).2.queued := by
  induction fuel generalizing waited s with
  | zero => exact Or.inl rfl
  | succ fuel ih =>
    unfold proccessInput
    by_cases hwait : waited < w.delays 0
    · have hread : (wireChannel w).read s.chan = (.error .socketTimeout, ⟨0, waited + 1⟩) := by
        rw [hs]
        exact readSocketData_timeout hwait
      rw [step_timeout hread]
      exact ih (s := { s with chan := ⟨0, waited + 1⟩ }) rfl
    · have hwaited := Nat.le_of_not_lt hwait
      by_cases hfull : frameBytes payload <+: w.stream
      · obtain ⟨part, hpart⟩ := hfull
        rw [exchange, ← hpart, List.prefix_append_right_inj] at hpre
        obtain ⟨result, s', hstep, hstop, hqueued⟩ | ⟨s', hstep, hend, hwhole, a, hqueued, ha⟩ :=
          step_adds hdata hcmd hscript hbreak hfits hpart.symm hpre hwaited hs
        · rw [hstep]
          cases result with
          | error e => exact Or.inl hqueued
          | ok more =>
            cases more with
            | false => exact Or.inl hqueued
            | true => exact absurd rfl hstop
        · rw [hstep]
          exact Or.inr ⟨hwhole, a, (queued_at_end hend).trans hqueued, ha⟩
      · have hcut := (List.prefix_or_prefix_of_prefix hpre
          (List.prefix_append _ _)).resolve_right hfull
        obtain ⟨hread, hraised⟩ :
            PartRead w payload w.stream (frameBytes payload) (readSocketData w s.chan) ∧
            (readSocketData w s.chan).1 ≠ .error .socketTimeout := by
          rw [hs]
          obtain ⟨hread, hraised⟩ :=
            @readSocketData_part w [] waited payload w.stream hfits rfl hcut
          exact ⟨hread, hraised hwaited hbreak.timeouts⟩
        cases hrun : (wireChannel w).read s.chan with
        | mk result ch =>
          have hrun' : readSocketData w s.chan = (result, ch) := hrun
          rw [hrun'] at hread hraised
          cases result with
          | error e =>
            rw [step_error (fun he => hraised (congrArg Except.error he)) hrun]
            exact Or.inl rfl
          | ok m =>
            cases m with
            | none =>
              rw [step_closed hrun]
              exact Or.inl rfl
            | some m =>
              -- a whole message would be the command
              obtain ⟨-, hwhole, -⟩ := hread.read_whole m rfl
              exact absurd (hwhole ▸ List.prefix_refl _) hfull

end Connection

/-! ## One call of `send_analysis` -/

section Call
variable {cfg : Config} {payload script : List UInt8} {c : Command}

/-- The controller goes on with the next connection, or an exception has ended it. -/
theorem serve_cons (cfg : Config) (fuel : Nat) (w : Wire) (rest : List Wire)
    (queued : List Analysis) :
    serve cfg fuel (w :: rest) queued =
      (proccessInput cfg (wireChannel w) fuel ⟨⟨0, 0⟩, [], queued⟩).2.queued ∨
    serve cfg fuel (w :: rest) queued = serve cfg fuel rest
      (proccessInput cfg (wireChannel w) fuel ⟨⟨0, 0⟩, [], queued⟩).2.queued := by
  cases hrun : proccessInput cfg (wireChannel w) fuel ⟨⟨0, 0⟩, [], queued⟩ with
  | mk outcome s =>
    cases outcome with
    | escaped e => exact Or.inl (by rw [serve, hrun])
    | returned => exact Or.inr (by rw [serve, hrun])
    | running => exact Or.inr (by rw [serve, hrun])

variable (hdata : cfg.fromData payload = .ok c) (hcmd : c.cmd = text "start")
  (hscript : script.length < 2 ^ 16)
include hdata hcmd hscript

/-- One attempt. -/
theorem Attempt.Clean.adds {a : Attempt} (h : a.Clean payload script) (fuel : Nat)
    (queued : List Analysis) :
    Adds a.wire payload script queued
      (proccessInput cfg (wireChannel a.wire) fuel ⟨⟨0, 0⟩, [], queued⟩).2.queued := by
  have harrives := h.arrives
  by_cases hfits : payload.length < 2 ^ 16
  · refine proccessInput_adds hdata hcmd hscript h.breaks hfits (harrives.trans ?_) rfl
    unfold Attempt.sent
    rw [frame_eq hfits]
    simp only
    split
    · exact List.prefix_refl _
    · exact List.prefix_append _ _
  · -- the command raises before anything is sent
    have hnone : a.sent payload script = [] := by
      unfold Attempt.sent frame
      rw [if_neg hfits]
    rw [hnone, List.prefix_nil] at harrives
    exact Or.inl (queued_at_end (by rw [harrives]; exact Nat.le_refl 0))

/-- The attempts of one call, after others. -/
theorem serve_sendAnalysis {offered : List Attempt}
    (h : ∀ a ∈ offered, a.Clean payload script) (fuel : Nat) (queued : List Analysis) :
    ∃ new, serve cfg fuel ((sendAnalysis offered).1.map Attempt.wire) queued = queued ++ new ∧
      new.length ≤ 1 ∧ ∀ a ∈ new, a.script = script := by
  induction offered generalizing queued with
  | nil => exact ⟨[], (List.append_nil _).symm, Nat.zero_le _, fun _ ha => (by cases ha)⟩
  | cons a rest ih =>
    have hclean := h a (by simp)
    have hadds := hclean.adds hdata hcmd hscript fuel queued
    unfold sendAnalysis
    cases hresult : a.result with
    | some status =>
      -- the last attempt
      have hserve : serve cfg fuel [a.wire] queued =
          (proccessInput cfg (wireChannel a.wire) fuel ⟨⟨0, 0⟩, [], queued⟩).2.queued := by
        obtain hserve | hserve := serve_cons cfg fuel a.wire [] queued
        · exact hserve
        · exact hserve
      simp only [List.map_cons, List.map_nil]
      rw [hserve]
      obtain hsame | ⟨-, new, hnew, hwhole⟩ := hadds
      · exact ⟨[], hsame.trans (List.append_nil _).symm, Nat.zero_le _, fun _ ha => (by cases ha)⟩
      · refine ⟨[new], hnew, Nat.le_refl 1, fun b hb => ?_⟩
        rw [List.mem_singleton.mp hb]
        exact hwhole
    | none =>
      -- an attempt that raises has not arrived whole
      have hsame := hadds.resolve_right fun hwhole => hclean.answered hwhole.1 hresult
      simp only [List.map_cons]
      obtain hserve | hserve :=
        serve_cons cfg fuel a.wire ((sendAnalysis rest).1.map Attempt.wire) queued
      · rw [hserve, hsame]
        exact ⟨[], (List.append_nil _).symm, Nat.zero_le _, fun _ ha => (by cases ha)⟩
      · rw [hserve, hsame]
        exact ih (fun b hb => h b (by simp [hb])) queued

end Call

/-- **An analysis is started at most once where attempts break cleanly**: one call of
`send_analysis`, whatever attempts it takes, puts at most one analysis on a queue, and that
with the whole script. -/
theorem startOnce_clean (cfg : Config) (fuel : Nat) (payload script : List UInt8) (c : Command)
    (hdata : cfg.fromData payload = .ok c) (hcmd : c.cmd = text "start")
    (hscript : script.length ≤ 65535) (offered : List Attempt)
    (h : ∀ a ∈ offered, a.Clean payload script) :
    (serve cfg fuel ((sendAnalysis offered).1.map Attempt.wire) []).length ≤ 1 ∧
    ∀ a ∈ serve cfg fuel ((sendAnalysis offered).1.map Attempt.wire) [], a.script = script := by
  obtain ⟨new, hnew, hlength, hwhole⟩ :=
    serve_sendAnalysis hdata hcmd (by omega : script.length < 2 ^ 16) h fuel []
  rw [hnew]
  exact ⟨hlength, hwhole⟩

/-- An attempt at `startJson` of which `count` bytes arrive before the connection breaks. -/
def brokenAt (count : Nat) (ending : Ending) : Attempt where
  wire := ⟨(exchange startJson (ascii "pass")).take count, fun _ => 1000, fun _ => 0, ending⟩
  commandSent := true
  fileRead := true
  scriptSent := true
  status := none

/-- An attempt of which all bytes arrive, and the status gets back. -/
def unbroken : Attempt where
  wire := ⟨exchange startJson (ascii "pass"), fun _ => 1000, fun _ => 0, .closed⟩
  commandSent := true
  fileRead := true
  scriptSent := true
  status := some (some (ascii "Success."))

/-- A connection reset inside the command, and then one that holds. -/
theorem startOnce_reset :
    (serve onePhysical 9 ((sendAnalysis [brokenAt 10 .reset, unbroken]).1.map Attempt.wire)
      []).length ≤ 1 ∧
    ∀ a ∈ serve onePhysical 9 ((sendAnalysis [brokenAt 10 .reset, unbroken]).1.map Attempt.wire)
      [], a.script = ascii "pass" := by
  refine startOnce_clean onePhysical 9 startJson (ascii "pass")
    ⟨text "start", .list [], some 0, some (.dict [])⟩ rfl rfl (by decide) _ fun a ha => ?_
  obtain rfl | ha := List.mem_cons.mp ha
  · exact ⟨List.take_prefix _ _, ⟨fun _ _ _ => rfl, fun _ _ => rfl⟩, fun h => absurd h (by decide)⟩
  · obtain rfl := List.mem_singleton.mp ha
    exact ⟨List.prefix_refl _, ⟨fun _ _ _ => rfl, fun _ h => absurd rfl h⟩, fun _ => by decide⟩

/-- A connection that breaks before the status is read: the second attempt queues the
analysis again. One closed after the command: it is queued without a script. -/
theorem not_startOnce :
    (serve onePhysical 9 ((sendAnalysis [brokenAt 1000 .reset, unbroken]).1.map Attempt.wire)
      []).length = 2 ∧
    ∃ a ∈ serve onePhysical 9 ((sendAnalysis [brokenAt 65 .closed, unbroken]).1.map Attempt.wire)
      [], a.script ≠ ascii "pass" := by
  decide +kernel

end LoPhi.Controller.StartOnce
