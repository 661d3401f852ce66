import LoPhi.Controller.Commands

/-! # Which commands end the controller

`proccess_input` catches `socket.error` and nothing else, so any other exception of a handler
leaves it and ends `run`. A command is answerable if no handler raises one on it. -/

namespace LoPhi.Controller
open LoPhi.Lib.Effect LoPhi.Lib.Struct LoPhi.Network.Framing

/-! ## The commands that are answered -/

/-- `int` takes every argument of `stop`, `pause` or `resume`. -/
def allIds (u : UnicodeData) : Json → Bool
  | .null => true
  | .str s => s.all fun c => (pyInt u (.str [c])).isOk
  | .list xs => xs.all fun x => (pyInt u x).isOk
  | .dict entries => entries.all fun entry => (pyInt u (.str entry.1)).isOk
  | _ => false

/-- The first argument of `pickle` can be looked up, and the answer fits a message. -/
def picklable (cfg : Config) : Json → Bool
  | .str _ => true
  | .list [] => true
  | .list (.list _ :: _) => false
  | .list (.dict _ :: _) => false
  | .list (.str s :: _) => s != text "machines" || decide (cfg.machineBuf.length < 2 ^ 16)
  | .list (_ :: _) => true
  | .dict [] => true
  | _ => false

/-- The reply to an unknown command has 18 characters besides the command. Both bytes of the
packed length must be ASCII, and so must the command. -/
def replyFits (cmd : Text) : Bool :=
  decide (cmd.length + 18 < 2 ^ 15) && decide ((cmd.length + 18) % 256 < 128) &&
    cmd.all (· < 128)

/-- No handler raises anything but `socket.error` on the command. -/
def answerable (cfg : Config) (c : Command) : Bool :=
  if c.cmd = text "help" then true
  else if c.cmd = text "start" then
    match c.machineType with
    | some machine_type =>
      cfg.schedulers.contains machine_type && (setFtpIp cfg machine_type c).isOk
    | none => false
  else if analysisCommands.contains c.cmd then allIds cfg.unicode c.args
  else if c.cmd = text "list" then false
  else if c.cmd = text "pickle" then picklable cfg c.args
  else replyFits c.cmd

/-- The command can be started: there is a scheduler of its type, and its `ftp_info` takes the
address. What is queued then is `command`. -/
structure Starts (cfg : Config) (c : Command) (t : Int) (command : Command) : Prop where
  type : c.machineType = some t
  scheduler : t ∈ cfg.schedulers
  ftpInfo : setFtpIp cfg t c = .ok command

theorem answerable_start {cfg : Config} {c : Command} (h : c.cmd = text "start") :
    answerable cfg c = true ↔ ∃ t command, Starts cfg c t command := by
  have hhelp : c.cmd ≠ text "help" := by
    rw [h]
    decide
  unfold answerable
  rw [if_neg hhelp, if_pos h]
  cases htype : c.machineType with
  | none =>
    refine iff_of_false Bool.false_ne_true ?_
    rintro ⟨t, command, hstarts⟩
    cases htype.symm.trans hstarts.type
  | some t =>
    dsimp only
    rw [Bool.and_eq_true, List.contains_iff_mem]
    constructor
    · rintro ⟨hmem, hok⟩
      cases hset : setFtpIp cfg t c with
      | error e =>
        rw [hset] at hok
        cases hok
      | ok command => exact ⟨t, command, htype, hmem, hset⟩
    · rintro ⟨t', command, hstarts⟩
      obtain rfl : t = t' := Option.some.inj (htype.symm.trans hstarts.type)
      exact ⟨hstarts.scheduler, by rw [hstarts.ftpInfo]; rfl⟩

/-- Every command among the messages is answerable, up to an empty message, which ends the
connection. The message after `start` is its script. -/
def safe (cfg : Config) : List (List UInt8) → Bool
  | [] => true
  | m :: rest =>
    if m = [] then true
    else
      match cfg.fromData m with
      | .error _ => false
      | .ok c =>
        answerable cfg c &&
          if c.cmd = text "start" then
            match rest with
            | [] => true
            | _ :: rest => safe cfg rest
          else safe cfg rest

/-- What is left after a command: `start` takes a message more. -/
def leftAfter (c : Command) (rest : List (List UInt8)) : List (List UInt8) :=
  if c.cmd = text "start" then rest.tail else rest

theorem safe_empty (cfg : Config) (rest : List (List UInt8)) : safe cfg ([] :: rest) = true := by
  rw [safe.eq_def]
  rfl

theorem safe_undecoded {cfg : Config} {m : List UInt8} {rest : List (List UInt8)} {e : Exc}
    (hm : m ≠ []) (hdata : cfg.fromData m = .error e) : safe cfg (m :: rest) = false := by
  unfold safe
  rw [if_neg hm, hdata]

theorem safe_command {cfg : Config} {m : List UInt8} {rest : List (List UInt8)} {c : Command}
    (hm : m ≠ []) (hdata : cfg.fromData m = .ok c) :
    safe cfg (m :: rest) = (answerable cfg c && safe cfg (leftAfter c rest)) := by
  unfold leftAfter
  rw [safe.eq_def]
  simp only [if_neg hm, hdata]
  cases rest with
  | nil =>
    by_cases hstart : c.cmd = text "start"
    · rw [if_pos hstart, if_pos hstart]
      rfl
    · rw [if_neg hstart, if_neg hstart]
  | cons script rest =>
    by_cases hstart : c.cmd = text "start"
    · rw [if_pos hstart, if_pos hstart]
      rfl
    · rw [if_neg hstart, if_neg hstart]

/-! ## The pure part of the handlers -/

theorem pyInt_error {u : UnicodeData} {x : Json} {e : Exc} (h : pyInt u x = .error e) :
    e.isSocketError = false := by
  unfold pyInt at h
  split at h
  · cases h
  · cases h
  · split at h
    · cases h
    · split at h
      · cases h
        rfl
      · cases h
        rfl
  · split at h
    · cases h
    · cases h
      rfl
  · cases h
    rfl

/-- The loop over the arguments. -/
theorem foldlM_ids (u : UnicodeData) (xs : List Json) (rtn : Bool) :
    (xs.all (fun x => (pyInt u x).isOk) = true →
      ∃ b, xs.foldlM (fun rtn aid => do
        let aid ← pyInt u aid
        pure (rtn && analysisFound aid)) rtn = Except.ok b) ∧
    (xs.all (fun x => (pyInt u x).isOk) = false →
      ∃ e, xs.foldlM (fun rtn aid => do
        let aid ← pyInt u aid
        pure (rtn && analysisFound aid)) rtn = Except.error e ∧ e.isSocketError = false) := by
  induction xs generalizing rtn with
  | nil => exact ⟨fun _ => ⟨rtn, rfl⟩, fun h => by cases h⟩
  | cons x xs ih =>
    rw [List.all_cons, List.foldlM_cons]
    cases hx : pyInt u x with
    | error e =>
      refine ⟨fun h => ?_, fun _ => ⟨e, rfl, pyInt_error hx⟩⟩
      simp [Except.isOk, Except.toBool] at h
    | ok n => exact ih (rtn && analysisFound n)

theorem commandAnalysis_spec (cfg : Config) (running : List Int) (c : Command) :
    (allIds cfg.unicode c.args = true → ∃ b, commandAnalysis cfg running c = .ok b) ∧
    (allIds cfg.unicode c.args = false →
      ∃ e, commandAnalysis cfg running c = .error e ∧ e.isSocketError = false) := by
  have hrunning : (running.map Json.int).all (fun x => (pyInt cfg.unicode x).isOk) = true := by
    simp [pyInt, Except.isOk, Except.toBool]
  obtain ⟨cmd, args, machineType, ftpInfo⟩ := c
  cases args with
  | null => exact ⟨fun _ => (foldlM_ids cfg.unicode _ true).1 hrunning, fun h => by cases h⟩
  | bool b => exact ⟨fun h => (by cases h), fun _ => ⟨.typeError, rfl, rfl⟩⟩
  | int n => exact ⟨fun h => (by cases h), fun _ => ⟨.typeError, rfl, rfl⟩⟩
  | float bits => exact ⟨fun h => (by cases h), fun _ => ⟨.typeError, rfl, rfl⟩⟩
  | str s =>
    cases s with
    | nil => exact ⟨fun _ => (foldlM_ids cfg.unicode _ true).1 hrunning, fun h => by cases h⟩
    | cons c s =>
      have hspec := foldlM_ids cfg.unicode ((c :: s).map fun c => .str [c]) true
      rw [List.all_map] at hspec
      exact hspec
  | list xs =>
    cases xs with
    | nil => exact ⟨fun _ => (foldlM_ids cfg.unicode _ true).1 hrunning, fun h => by cases h⟩
    | cons x xs => exact foldlM_ids cfg.unicode (x :: xs) true
  | dict entries =>
    cases entries with
    | nil => exact ⟨fun _ => (foldlM_ids cfg.unicode _ true).1 hrunning, fun h => by cases h⟩
    | cons entry entries =>
      have hspec := foldlM_ids cfg.unicode ((entry :: entries).map fun entry => .str entry.1) true
      rw [List.all_map] at hspec
      exact hspec

theorem any_leBytes_two {n : Nat} (h : n < 2 ^ 16) :
    ((leBytes 2 n).any (128 ≤ ·)) = true ↔ 128 ≤ n % 256 ∨ 2 ^ 15 ≤ n := by
  have hbytes : leBytes 2 n = [UInt8.ofNat n, UInt8.ofNat (n / 256)] := rfl
  have hle (k : Nat) : (128 : UInt8) ≤ UInt8.ofNat k ↔ 128 ≤ k % 256 := by
    rw [UInt8.le_iff_toNat_le, UInt8.toNat_ofNat']
    rfl
  simp only [hbytes, List.any_cons, List.any_nil, Bool.or_false, Bool.or_eq_true,
    decide_eq_true_eq, hle]
  omega

/-- What `pickle` is asked for by a name: one of the two lists, or nothing. -/
theorem listAsked_name (cfg : Config) (s : Text) (xs : List Json) :
    (picklable cfg (.list (.str s :: xs)) = true →
      listAsked (.list (.str s :: xs)) = .ok none ∨
      listAsked (.list (.str s :: xs)) = .ok (text "analysis") ∨
      listAsked (.list (.str s :: xs)) = .ok (text "machines") ∧
        cfg.machineBuf.length < 2 ^ 16) ∧
    (picklable cfg (.list (.str s :: xs)) = false →
      (∃ e, listAsked (.list (.str s :: xs)) = .error e ∧ e.isSocketError = false) ∨
      listAsked (.list (.str s :: xs)) = .ok (text "machines") ∧
        ¬ cfg.machineBuf.length < 2 ^ 16) := by
  have hasked : listAsked (.list (.str s :: xs)) =
    .ok (if LISTS.contains s then some s else none) := rfl
  by_cases hmachines : s = text "machines"
  · subst hmachines
    have hfits : picklable cfg (.list (.str (text "machines") :: xs)) =
        decide (cfg.machineBuf.length < 2 ^ 16) := by
      rw [picklable, bne_self_eq_false, Bool.false_or]
    rw [hfits, decide_eq_true_iff, decide_eq_false_iff_not]
    exact ⟨fun h => Or.inr (Or.inr ⟨rfl, h⟩), fun h => Or.inr ⟨rfl, h⟩⟩
  · have hfits : picklable cfg (.list (.str s :: xs)) = true := by
      rw [picklable, bne_iff_ne.mpr hmachines, Bool.true_or]
    rw [hfits]
    refine ⟨fun _ => ?_, fun h => (by cases h)⟩
    by_cases hanalysis : s = text "analysis"
    · subst hanalysis
      exact Or.inr (Or.inl rfl)
    · have hmem : LISTS.contains s = false := by
        rw [List.contains_eq_mem, decide_eq_false_iff_not]
        intro hmem
        obtain rfl | hmem := List.mem_cons.mp hmem
        · exact hmachines rfl
        · exact hanalysis (List.mem_singleton.mp hmem)
      refine Or.inl (hasked.trans ?_)
      rw [hmem]
      rfl

/-- What `pickle` is asked for, by the form of its arguments. -/
theorem listAsked_spec (cfg : Config) (args : Json) :
    (picklable cfg args = true →
      listAsked args = .ok none ∨ listAsked args = .ok (text "analysis") ∨
      listAsked args = .ok (text "machines") ∧ cfg.machineBuf.length < 2 ^ 16) ∧
    (picklable cfg args = false →
      (∃ e, listAsked args = .error e ∧ e.isSocketError = false) ∨
      listAsked args = .ok (text "machines") ∧ ¬ cfg.machineBuf.length < 2 ^ 16) := by
  cases args with
  | null => exact ⟨fun h => (by cases h), fun _ => Or.inl ⟨.typeError, rfl, rfl⟩⟩
  | bool b => exact ⟨fun h => (by cases h), fun _ => Or.inl ⟨.typeError, rfl, rfl⟩⟩
  | int n => exact ⟨fun h => (by cases h), fun _ => Or.inl ⟨.typeError, rfl, rfl⟩⟩
  | float bits => exact ⟨fun h => (by cases h), fun _ => Or.inl ⟨.typeError, rfl, rfl⟩⟩
  | str s =>
    refine ⟨fun _ => Or.inl ?_, fun h => (by cases h)⟩
    cases s with
    | nil => rfl
    | cons c s =>
      have hnames : ∀ name ∈ LISTS, name.length = 8 := by decide
      have hmem : LISTS.contains [c] = false := by
        rw [List.contains_eq_mem, decide_eq_false_iff_not]
        exact fun hmem => absurd (hnames [c] hmem) (by simp)
      have hasked : listAsked (.str (c :: s)) =
          .ok (if LISTS.contains [c] then some [c] else none) := rfl
      rw [hasked, hmem]
      rfl
  | list xs =>
    cases xs with
    | nil => exact ⟨fun _ => Or.inl rfl, fun h => (by cases h)⟩
    | cons x xs =>
      cases x with
      | null => exact ⟨fun _ => Or.inl rfl, fun h => (by cases h)⟩
      | bool b => exact ⟨fun _ => Or.inl rfl, fun h => (by cases h)⟩
      | int n => exact ⟨fun _ => Or.inl rfl, fun h => (by cases h)⟩
      | float bits => exact ⟨fun _ => Or.inl rfl, fun h => (by cases h)⟩
      | str s => exact listAsked_name cfg s xs
      | list ys => exact ⟨fun h => (by cases h), fun _ => Or.inl ⟨.typeError, rfl, rfl⟩⟩
      | dict es => exact ⟨fun h => (by cases h), fun _ => Or.inl ⟨.typeError, rfl, rfl⟩⟩
  | dict entries =>
    cases entries with
    | nil => exact ⟨fun _ => Or.inl rfl, fun h => (by cases h)⟩
    | cons entry entries => exact ⟨fun h => (by cases h), fun _ => Or.inl ⟨.keyError, rfl, rfl⟩⟩

/-- The reply to an unknown command can be sent exactly when it fits. -/
theorem frameText_spec (cmd : Text) :
    (replyFits cmd = true →
      ∃ bytes, frameText (text "Invalid Command: " ++ cmd ++ text "\n") = .ok bytes) ∧
    (replyFits cmd = false →
      ∃ e, frameText (text "Invalid Command: " ++ cmd ++ text "\n") = .error e ∧
        e.isSocketError = false) := by
  have hlen : (text "Invalid Command: " ++ cmd ++ text "\n").length = cmd.length + 18 := by
    have hfront : (text "Invalid Command: ").length = 17 := by decide
    have hback : (text "\n").length = 1 := by decide
    rw [List.length_append, List.length_append, hfront, hback]
    omega
  have hany : (text "Invalid Command: " ++ cmd ++ text "\n").any (128 ≤ ·) =
      !cmd.all (· < 128) := by
    have hfront : (text "Invalid Command: ").any (128 ≤ ·) = false := by decide
    have hback : (text "\n").any (128 ≤ ·) = false := by decide
    rw [List.any_append, List.any_append, hfront, hback, Bool.false_or, Bool.or_false,
      List.not_all_eq_any_not]
    simp only [← Nat.not_lt, decide_not]
  unfold frameText replyFits
  rw [hlen, hany]
  by_cases hbig : 2 ^ 16 ≤ cmd.length + 18
  · rw [if_pos hbig]
    refine ⟨fun h => ?_, fun _ => ⟨_, rfl, rfl⟩⟩
    simp only [Bool.and_eq_true, decide_eq_true_eq] at h
    omega
  · have hbytes := any_leBytes_two (Nat.not_le.mp hbig)
    rw [if_neg hbig]
    by_cases hascii : 128 ≤ (cmd.length + 18) % 256 ∨ 2 ^ 15 ≤ cmd.length + 18
    · rw [if_pos (hbytes.mpr hascii)]
      refine ⟨fun h => ?_, fun _ => ⟨_, rfl, rfl⟩⟩
      simp only [Bool.and_eq_true, decide_eq_true_eq] at h
      omega
    · rw [if_neg (fun h => hascii (hbytes.mp h))]
      rw [not_or, Nat.not_le, Nat.not_le] at hascii
      rw [decide_eq_true hascii.1, decide_eq_true hascii.2]
      cases hall : cmd.all (· < 128) with
      | false => exact ⟨fun h => (by cases h), fun _ => ⟨_, rfl, rfl⟩⟩
      | true => exact ⟨fun _ => ⟨_, rfl⟩, fun h => (by cases h)⟩

/-! ## The handlers on a channel

An answerable command raises nothing but what the channel raises. On a `Quiet` channel
nothing fails, and any other command raises an exception that is not caught. -/

section Handlers
variable {σ : Type} {cfg : Config} {chan : Channel σ} {E : Exc → Prop} {c : Command}

/-- What a command can meet on the channel: only `start` reads from it. -/
structure ChannelRaises (E : Exc → Prop) (chan : Channel σ) (c : Command) : Prop where
  read : c.cmd = text "start" → Raises E chan.read
  transmit : ∀ bytes, Raises E (chan.transmit bytes)

structure Quiet (chan : Channel σ) : Prop where
  read : ∀ s, ∃ m s', chan.read s = (.ok m, s')
  transmit : ∀ bytes s, ∃ s', chan.transmit bytes s = (.ok (), s')

/-- The program ends with an exception nobody catches. -/
def Escapes {β : Type} (m : Prog Exc (Server σ) β) : Prop :=
  ∀ s, ∃ e s', m s = (.error e, s') ∧ e.isSocketError = false

theorem raises_onChan {β : Type} {m : Prog Exc σ β} (h : Raises E m) :
    Raises E (onChan m : Prog Exc (Server σ) β) := by
  intro s e s' hraise
  have hfst : (m s.chan).1 = .error e := congrArg Prod.fst hraise
  exact h s.chan e (m s.chan).2 (Prod.ext hfst rfl)

theorem raises_sendData (hchan : ChannelRaises E chan c) {data : List UInt8}
    (h : data.length < 2 ^ 16) : Raises E (sendData chan data) := by
  refine raises_bind (raises_ofExcept fun e he => ?_) fun bytes =>
    raises_onChan (hchan.transmit bytes)
  rw [frame_eq h] at he
  cases he

theorem escapes_ofExcept {β : Type} {result : Except Exc β}
    (h : ∃ e, result = .error e ∧ e.isSocketError = false) :
    Escapes (ofExcept result : Prog Exc (Server σ) β) := by
  obtain ⟨e, rfl, he⟩ := h
  exact fun s => ⟨e, s, rfl, he⟩

theorem escapes_bind {β γ : Type} {m : Prog Exc (Server σ) β}
    {f : β → Prog Exc (Server σ) γ} (h : Escapes m) : Escapes (m >>= f) := by
  intro s
  obtain ⟨e, s', hm, he⟩ := h s
  exact ⟨e, s', bind_error hm, he⟩

theorem escapes_bind_ok {β γ : Type} {m : Prog Exc (Server σ) β}
    {f : β → Prog Exc (Server σ) γ} (hm : ∀ s, ∃ b s', m s = (.ok b, s'))
    (h : ∀ b, Escapes (f b)) : Escapes (m >>= f) := by
  intro s
  obtain ⟨b, s₁, hok⟩ := hm s
  obtain ⟨e, s', hf, he⟩ := h b s₁
  exact ⟨e, s', (bind_ok hok).trans hf, he⟩

theorem queueAnalysis_starts {t : Int} {command : Command} (h : Starts cfg c t command)
    (script : Option (List UInt8)) (s : Server σ) :
    queueAnalysis cfg script c s =
      (.ok true, { s with queued := s.queued ++ [⟨t, scriptFile script, command⟩] }) := by
  unfold queueAnalysis
  rw [h.type]
  dsimp only
  rw [h.ftpInfo, ofExcept_ok_bind, if_pos h.scheduler]
  rfl

theorem setFtpIp_error {t : Int} {e : Exc} (h : setFtpIp cfg t c = .error e) :
    e.isSocketError = false := by
  unfold setFtpIp at h
  split at h
  · cases h
    rfl
  · cases h
  · cases h
    rfl

theorem queueAnalysis_refuses (h : ¬ ∃ t command, Starts cfg c t command)
    (script : Option (List UInt8)) (s : Server σ) :
    ∃ e, queueAnalysis cfg script c s = (.error e, s) ∧ e.isSocketError = false := by
  unfold queueAnalysis
  cases htype : c.machineType with
  | none => exact ⟨.attributeError, rfl, rfl⟩
  | some t =>
    cases hset : setFtpIp cfg t c with
    | error e =>
      refine ⟨e, bind_error ?_, setFtpIp_error hset⟩
      rw [hset]
      rfl
    | ok command =>
      have hmem : t ∉ cfg.schedulers := fun hmem => h ⟨t, command, htype, hmem, hset⟩
      refine ⟨.keyError, ?_, rfl⟩
      dsimp only
      rw [hset, ofExcept_ok_bind, if_neg hmem]
      rfl

/-- `command_start` raises unless the command can be started. -/
theorem commandStart_spec (c : Command) :
    (∀ E, Raises E chan.read → (∃ t command, Starts cfg c t command) →
      Raises E (commandStart cfg chan c)) ∧
    (Quiet chan → (¬ ∃ t command, Starts cfg c t command) →
      Escapes (commandStart cfg chan c)) := by
  constructor
  · rintro E hread ⟨t, command, hstarts⟩
    refine raises_bind (raises_onChan hread) fun script s e s' hraise => ?_
    rw [queueAnalysis_starts hstarts] at hraise
    cases hraise
  · intro hchan hstarts
    refine escapes_bind_ok (fun s => ?_) fun script s => ?_
    · obtain ⟨m, s', hread⟩ := hchan.read s.chan
      exact ⟨m, { s with chan := s' }, by rw [onChan, hread]⟩
    · obtain ⟨e, hraise, he⟩ := queueAnalysis_refuses hstarts script s
      exact ⟨e, s, hraise, he⟩

/-- `command_pickle` raises on arguments without items, on a dictionary, on a first
argument without a hash, and on a list of machines too long for a message. -/
theorem commandPickle_spec (c : Command) :
    (∀ E, ChannelRaises E chan c → picklable cfg c.args = true →
      Raises E (commandPickle cfg chan c)) ∧
    (picklable cfg c.args = false → Escapes (commandPickle cfg chan c)) := by
  have hspec := listAsked_spec cfg c.args
  have hnames : ¬ text "analysis" = text "machines" := by decide
  unfold commandPickle
  constructor
  · intro E hchan hpick
    obtain hasked | hasked | ⟨hasked, hfits⟩ := hspec.1 hpick
    · rw [hasked, ofExcept_ok_bind]
      exact raises_bind (raises_sendData hchan (by decide +kernel)) fun _ => raises_pure false
    · rw [hasked, ofExcept_ok_bind]
      simp only [if_neg hnames]
      exact raises_bind (raises_sendData hchan (by decide)) fun _ => raises_pure true
    · rw [hasked, ofExcept_ok_bind]
      exact raises_bind (raises_sendData hchan hfits) fun _ => raises_pure true
  · intro hpick
    obtain herror | ⟨hasked, hbig⟩ := hspec.2 hpick
    · exact escapes_bind (escapes_ofExcept herror)
    · rw [hasked, ofExcept_ok_bind]
      refine escapes_bind (escapes_bind (escapes_ofExcept ⟨.structError, ?_, rfl⟩))
      exact if_neg hbig

theorem mem_commandNames (cmd : Text) : cmd ∈ commandNames ↔
    cmd = text "start" ∨ cmd ∈ analysisCommands ∨ cmd = text "list" ∨ cmd = text "pickle" := by
  simp only [commandNames, List.mem_append, List.mem_cons, List.not_mem_nil, or_false, or_assoc]

theorem raises_reply (hchan : ChannelRaises E chan c) (rtn : Bool) :
    Raises E (if rtn then sendData chan (ascii "Success.")
      else sendData chan (ascii "Failure.")) := by
  cases rtn with
  | true => exact raises_sendData hchan (by decide)
  | false => exact raises_sendData hchan (by decide)

/-- A known command is answered by its handler. -/
theorem respond_known {c : Command} (hhelp : c.cmd ≠ text "help") (h : c.cmd ∈ commandNames) :
    respond cfg chan c = (do
      let rtn ← dispatch cfg chan c
      if rtn then sendData chan (ascii "Success.") else sendData chan (ascii "Failure.")) := by
  unfold respond
  rw [if_neg hhelp, if_neg (not_not.mpr h)]

/-- `start` goes to `command_start`. -/
theorem respond_commandStart (h : c.cmd = text "start") : respond cfg chan c = (do
    let rtn ← commandStart cfg chan c
    if rtn then sendData chan (ascii "Success.") else sendData chan (ascii "Failure.")) := by
  have hhelp : c.cmd ≠ text "help" := by
    rw [h]
    decide
  rw [respond_known hhelp ((mem_commandNames c.cmd).mpr (Or.inl h)), dispatch, if_pos h]

theorem dispatch_spec {c : Command} (hhelp : c.cmd ≠ text "help") (h : c.cmd ∈ commandNames) :
    (∀ E, ChannelRaises E chan c → answerable cfg c = true → Raises E (dispatch cfg chan c)) ∧
    (Quiet chan → answerable cfg c = false → Escapes (dispatch cfg chan c)) := by
  unfold dispatch
  by_cases hstart : c.cmd = text "start"
  · rw [if_pos hstart]
    constructor
    · intro E hchan hanswer
      exact (commandStart_spec c).1 E (hchan.read hstart) ((answerable_start hstart).mp hanswer)
    · intro hchan hanswer
      refine (commandStart_spec c).2 hchan fun hexists => ?_
      rw [(answerable_start hstart).mpr hexists] at hanswer
      cases hanswer
  unfold answerable
  rw [if_neg hhelp, if_neg hstart, if_neg hstart]
  by_cases hanalysis : c.cmd ∈ analysisCommands
  · rw [if_pos hanalysis, if_pos (List.contains_iff_mem.mpr hanalysis)]
    constructor
    · intro E _ hids
      refine raises_bind raises_get fun s => raises_ofExcept fun e he => ?_
      obtain ⟨b, hb⟩ := (commandAnalysis_spec cfg (cfg.running s.handed.length) c).1 hids
      rw [hb] at he
      cases he
    · intro _ hids
      refine escapes_bind_ok (fun s => ⟨s, s, rfl⟩) fun s => escapes_ofExcept ?_
      exact (commandAnalysis_spec cfg (cfg.running s.handed.length) c).2 hids
  rw [if_neg hanalysis, if_neg fun h => hanalysis (List.contains_iff_mem.mp h)]
  by_cases hlist : c.cmd = text "list"
  · rw [if_pos hlist, if_pos hlist]
    exact ⟨fun _ _ h => (by cases h), fun _ _ => escapes_ofExcept ⟨.attributeError, rfl, rfl⟩⟩
  rw [if_neg hlist, if_neg hlist]
  have hpickle : c.cmd = text "pickle" := by
    obtain h | h | h | h := (mem_commandNames c.cmd).mp h
    · exact absurd h hstart
    · exact absurd h hanalysis
    · exact absurd h hlist
    · exact h
  rw [if_pos hpickle]
  exact ⟨(commandPickle_spec c).1, fun _ => (commandPickle_spec c).2⟩

/-- A command is answered, or the connection fails, exactly when it is answerable. -/
theorem respond_spec (c : Command) :
    (∀ E, ChannelRaises E chan c → answerable cfg c = true → Raises E (respond cfg chan c)) ∧
    (Quiet chan → answerable cfg c = false → Escapes (respond cfg chan c)) := by
  by_cases hhelp : c.cmd = text "help"
  · unfold respond answerable
    rw [if_pos hhelp, if_pos hhelp]
    exact ⟨fun _ hchan _ => raises_sendData hchan (by decide +kernel), fun _ h => (by cases h)⟩
  by_cases hknown : c.cmd ∈ commandNames
  · rw [respond_known hhelp hknown]
    constructor
    · intro E hchan hanswer
      exact raises_bind ((dispatch_spec hhelp hknown).1 E hchan hanswer) (raises_reply hchan)
    · intro hchan hanswer
      exact escapes_bind ((dispatch_spec hhelp hknown).2 hchan hanswer)
  · have hreply : answerable cfg c = replyFits c.cmd := by
      rw [mem_commandNames, not_or, not_or, not_or] at hknown
      unfold answerable
      rw [if_neg hhelp, if_neg hknown.1, if_neg fun h => hknown.2.1 (List.contains_iff_mem.mp h),
        if_neg hknown.2.2.1, if_neg hknown.2.2.2]
    unfold respond
    rw [if_neg hhelp, if_pos hknown, hreply]
    constructor
    · intro E hchan hfits
      refine raises_bind (raises_ofExcept fun e he => ?_) fun bytes =>
        raises_onChan (hchan.transmit bytes)
      obtain ⟨bytes, hbytes⟩ := (frameText_spec c.cmd).1 hfits
      rw [hbytes] at he
      cases he
    · intro _ hfits
      exact escapes_bind (escapes_ofExcept ((frameText_spec c.cmd).2 hfits))

end Handlers

/-! ## A connection message by message -/

/-- The messages still to come, and how often the controller has sent. -/
structure Session where
  incoming : List (List UInt8)
  sends : Nat

/-- A connection on which each message arrives whole. A send may fail at any time; after the
last message the client closes the connection or it breaks. -/
def sessionChannel (broken : Nat → Bool) (ending : Ending) : Channel Session where
  read := fun s =>
    match s.incoming with
    | m :: rest => (.ok (some m), { s with incoming := rest })
    | [] =>
      match ending with
      | .closed => (.ok none, s)
      | .reset => (.error .socketError, s)
  transmit := fun _ s =>
    (if broken s.sends then .error .socketError else .ok (), { s with sends := s.sends + 1 })

theorem sessionChannel_raises (broken : Nat → Bool) (ending : Ending) (c : Command) :
    ChannelRaises (fun e => e.isSocketError = true) (sessionChannel broken ending) c := by
  constructor
  · intro _ s e s' hraise
    obtain ⟨incoming, sends⟩ := s
    cases incoming with
    | cons m rest => cases hraise
    | nil =>
      cases ending with
      | closed => cases hraise
      | reset =>
        cases hraise
        rfl
  · intro bytes s e s' hraise
    cases hbroken : broken s.sends with
    | true =>
      simp only [sessionChannel, hbroken] at hraise
      cases hraise
      rfl
    | false =>
      simp only [sessionChannel, hbroken] at hraise
      cases hraise

theorem Quiet.raises {σ : Type} {chan : Channel σ} (h : Quiet chan) (c : Command) :
    ChannelRaises (fun _ => False) chan c where
  read _ := raises_of_ok h.read
  transmit bytes := raises_of_ok fun s => ⟨(), h.transmit bytes s⟩

theorem sessionChannel_quiet : Quiet (sessionChannel (fun _ => false) .closed) := by
  constructor
  · intro s
    obtain ⟨incoming, sends⟩ := s
    cases incoming with
    | cons m rest => exact ⟨_, _, rfl⟩
    | nil => exact ⟨_, _, rfl⟩
  · exact fun bytes s => ⟨_, rfl⟩

/-! ## What a command does to the server

Beyond what its sends do, a command other than `start` leaves the server as it is. -/

section Kept
variable {σ : Type} {cfg : Config} {chan : Channel σ} {R : Server σ → Server σ → Prop}
  (hR : Composes R) (htransmit : ∀ bytes, Keeps R (onChan (chan.transmit bytes)))
include hR htransmit

theorem keeps_sendData (data : List UInt8) : Keeps R (sendData chan data) :=
  keeps_bind hR (keeps_ofExcept hR _) htransmit

theorem keeps_reply (rtn : Bool) :
    Keeps R (if rtn then sendData chan (ascii "Success.")
      else sendData chan (ascii "Failure.")) := by
  cases rtn with
  | true => exact keeps_sendData hR htransmit _
  | false => exact keeps_sendData hR htransmit _

theorem keeps_dispatch {c : Command} (h : c.cmd ≠ text "start") :
    Keeps R (dispatch cfg chan c) := by
  unfold dispatch
  rw [if_neg h]
  split
  · exact keeps_bind hR (keeps_get hR) fun s => keeps_ofExcept hR _
  split
  · exact keeps_ofExcept hR _
  refine keeps_bind hR (keeps_ofExcept hR _) fun asked => ?_
  have hsend : ∀ (data : List UInt8) (b : Bool), Keeps R (do
      sendData chan data
      pure b) := fun data b =>
    keeps_bind hR (keeps_sendData hR htransmit data) fun _ => keeps_pure hR b
  cases asked with
  | none => exact hsend _ _
  | some name =>
    simp only
    split
    · exact hsend _ _
    split
    · exact hsend _ _
    · exact keeps_pure hR false

theorem keeps_respond {c : Command} (h : c.cmd ≠ text "start") :
    Keeps R (respond cfg chan c) := by
  unfold respond
  split
  · exact keeps_sendData hR htransmit _
  split
  · exact keeps_bind hR (keeps_ofExcept hR _) htransmit
  · exact keeps_bind hR (keeps_dispatch hR htransmit h) (keeps_reply hR htransmit)

/-- `start` reads once, and may put an analysis on a queue. -/
theorem respond_start {c : Command} (h : c.cmd = text "start")
    (hqueue : ∀ s queued, R s { s with queued := queued }) (s : Server σ) :
    R (onChan chan.read s).2 (respond cfg chan c s).2 := by
  rw [respond_commandStart h]
  refine hR.trans ?_ (bind_after hR (keeps_reply hR htransmit) s)
  refine bind_after hR (fun script => ?_) s
  unfold queueAnalysis
  cases c.machineType with
  | none => exact keeps_raise hR _
  | some t =>
    refine keeps_bind hR (keeps_ofExcept hR _) fun command => ?_
    split
    · exact keeps_bind hR (keeps_modify fun s => hqueue s _) fun _ => keeps_pure hR true
    · exact keeps_raise hR _

end Kept

/-! ## A turn of the loop -/

/-- The server after `from_data` got a message. -/
def taken {σ : Type} (s : Server σ) (ch : σ) (m : List UInt8) : Server σ :=
  { chan := ch, handed := s.handed ++ [m], queued := s.queued }

section Step
variable {σ : Type} {cfg : Config} {chan : Channel σ} {s : Server σ} {ch : σ}

theorem onChan_eq {β : Type} {m : Prog Exc σ β} {result : Except Exc β}
    (h : m s.chan = (result, ch)) : onChan m s = (result, { s with chan := ch }) := by
  unfold onChan
  rw [h]

theorem step_timeout (h : chan.read s.chan = (.error .socketTimeout, ch)) :
    step cfg chan s = (.ok true, { s with chan := ch }) := by
  unfold step
  rw [onChan_eq h]

theorem step_error {e : Exc} (he : e ≠ .socketTimeout) (h : chan.read s.chan = (.error e, ch)) :
    step cfg chan s = (.error e, { s with chan := ch }) := by
  unfold step
  rw [onChan_eq h]
  cases e with
  | socketTimeout => exact absurd rfl he
  | _ => rfl

theorem step_closed (h : chan.read s.chan = (.ok none, ch)) :
    step cfg chan s = (.ok false, { s with chan := ch }) := by
  unfold step
  rw [onChan_eq h]

theorem step_nil (h : chan.read s.chan = (.ok (some []), ch)) :
    step cfg chan s = (.ok false, { s with chan := ch }) := by
  unfold step
  rw [onChan_eq h]

variable {m : List UInt8} (hm : m ≠ []) (h : chan.read s.chan = (.ok (some m), ch))
include hm h

theorem step_message : step cfg chan s = (do
      handle cfg chan m
      pure true : Prog Exc (Server σ) Bool) { s with chan := ch } := by
  unfold step
  rw [onChan_eq h]
  cases m with
  | nil => exact absurd rfl hm
  | cons b m => rfl

/-- A message that is no command raises. -/
theorem step_undecoded {e : Exc} (hdata : cfg.fromData m = .error e) :
    step cfg chan s = (.error e, taken s ch m) := by
  rw [step_message hm h]
  exact bind_error ((bind_ok rfl).trans (bind_error (congrArg (·, _) hdata)))

theorem step_command {c : Command} (hdata : cfg.fromData m = .ok c) :
    step cfg chan s = (do
      respond cfg chan c
      pure true : Prog Exc (Server σ) Bool) (taken s ch m) := by
  have hhandle : handle cfg chan m { s with chan := ch } =
      respond cfg chan c (taken s ch m) :=
    (bind_ok rfl).trans (bind_ok (congrArg (·, _) hdata))
  rw [step_message hm h]
  exact bind_congr_fst hhandle

end Step

/-! ## Starting an analysis -/

section Start
variable {σ : Type} {cfg : Config} {chan : Channel σ} {s : Server σ} {ch : σ} {c : Command}
  (h : c.cmd = text "start")
include h

/-- A script, or the end of the connection, and a command that can be started: an analysis is
put on the queue of its type. -/
theorem respond_queues {t : Int} {command : Command} (hstarts : Starts cfg c t command)
    {m : Option (List UInt8)} (hread : chan.read s.chan = (.ok m, ch)) {ch' : σ}
    (hsend : chan.transmit (frameBytes (ascii "Success.")) ch = (.ok (), ch')) :
    respond cfg chan c s =
      (.ok (), ⟨ch', s.handed, s.queued ++ [⟨t, scriptFile m, command⟩]⟩) := by
  have hstart : commandStart cfg chan c s =
      (.ok true, ⟨ch, s.handed, s.queued ++ [⟨t, scriptFile m, command⟩]⟩) :=
    (bind_ok (onChan_eq hread)).trans (queueAnalysis_starts hstarts m _)
  rw [respond_commandStart h]
  exact (bind_ok hstart).trans ((bind_ok rfl).trans (onChan_eq hsend))

/-- A command that cannot be started puts nothing on a queue. -/
theorem respond_refuses (hstarts : ¬ ∃ t command, Starts cfg c t command)
    {m : Option (List UInt8)} (hread : chan.read s.chan = (.ok m, ch)) :
    ∃ e, respond cfg chan c s = (.error e, { s with chan := ch }) := by
  rw [respond_commandStart h]
  obtain ⟨e, hraise, -⟩ := queueAnalysis_refuses hstarts m { s with chan := ch }
  exact ⟨e, bind_error ((bind_ok (onChan_eq hread)).trans hraise)⟩

/-- The script does not arrive, and the connection is not closed. -/
theorem respond_unread {e : Exc} (hread : chan.read s.chan = (.error e, ch)) :
    respond cfg chan c s = (.error e, { s with chan := ch }) := by
  rw [respond_commandStart h]
  exact bind_error (bind_error (onChan_eq hread))

end Start

/-! ## What is left of the messages -/

section Session
variable {cfg : Config} {broken : Nat → Bool} {ending : Ending}

/-- No message has been taken. -/
def SameIncoming (s s' : Server Session) : Prop := s'.chan.incoming = s.chan.incoming

theorem sameIncoming_composes : Composes SameIncoming where
  refl _ := rfl
  trans h h' := h'.trans h

theorem sameIncoming_transmit (bytes : List UInt8) :
    Keeps SameIncoming (onChan ((sessionChannel broken ending).transmit bytes)) := fun _ => rfl

theorem read_incoming (s : Server Session) :
    (onChan (sessionChannel broken ending).read s).2.chan.incoming = s.chan.incoming.tail := by
  obtain ⟨⟨incoming, sends⟩, handed, queued⟩ := s
  cases incoming with
  | cons m rest => rfl
  | nil =>
    cases ending with
    | closed => rfl
    | reset => rfl

/-! ## Whole connections -/

variable {s : Server Session}

theorem read_cons {m : List UInt8} {rest : List (List UInt8)} (h : s.chan.incoming = m :: rest) :
    (sessionChannel broken ending).read s.chan =
      (.ok (some m), { s.chan with incoming := rest }) := by
  simp only [sessionChannel, h]

theorem step_empty (h : s.chan.incoming = []) :
    step cfg (sessionChannel broken ending) s = (.ok false, s) ∨
      step cfg (sessionChannel broken ending) s = (.error .socketError, s) := by
  cases ending with
  | closed => exact Or.inl (step_closed (by simp only [sessionChannel, h]))
  | reset => exact Or.inr (step_error (by decide) (by simp only [sessionChannel, h]))

/-- What a command leaves of the messages. -/
theorem respond_incoming (c : Command) (s : Server Session) :
    (respond cfg (sessionChannel broken ending) c s).2.chan.incoming =
      leftAfter c s.chan.incoming := by
  unfold leftAfter
  split
  · rename_i hstart
    exact (respond_start sameIncoming_composes sameIncoming_transmit hstart
      (fun _ _ => rfl) s).trans (read_incoming s)
  · rename_i hstart
    exact keeps_respond sameIncoming_composes sameIncoming_transmit hstart s

theorem length_leftAfter (c : Command) (rest : List (List UInt8)) :
    (leftAfter c rest).length ≤ rest.length := by
  unfold leftAfter
  split
  · rw [List.length_tail]
    omega
  · exact Nat.le_refl _

/-- A turn of the loop on messages that are safe: the loop ends, or what is left is safe. -/
theorem step_safe (h : safe cfg s.chan.incoming = true) :
    (∃ s', step cfg (sessionChannel broken ending) s = (.ok false, s')) ∨
    (∃ e s', step cfg (sessionChannel broken ending) s = (.error e, s') ∧
      e.isSocketError = true) ∨
    ∃ s', step cfg (sessionChannel broken ending) s = (.ok true, s') ∧
      s'.chan.incoming.length < s.chan.incoming.length ∧ safe cfg s'.chan.incoming = true := by
  cases hincoming : s.chan.incoming with
  | nil =>
    obtain hstep | hstep := step_empty hincoming
    · exact Or.inl ⟨s, hstep⟩
    · exact Or.inr (Or.inl ⟨_, s, hstep, rfl⟩)
  | cons m rest =>
    by_cases hm : m = []
    · subst hm
      exact Or.inl ⟨_, step_nil (read_cons hincoming)⟩
    cases hdata : cfg.fromData m with
    | error e =>
      rw [hincoming, safe_undecoded hm hdata] at h
      cases h
    | ok c =>
      rw [hincoming, safe_command hm hdata] at h
      obtain ⟨hanswer, hrest⟩ := Bool.and_eq_true_iff.mp h
      have hstep : step cfg (sessionChannel broken ending) s = _ :=
        step_command hm (read_cons hincoming) hdata
      have hleft : (respond cfg (sessionChannel broken ending) c
          (taken s { s.chan with incoming := rest } m)).2.chan.incoming = leftAfter c rest :=
        respond_incoming c _
      cases hrun : respond cfg (sessionChannel broken ending) c
          (taken s { s.chan with incoming := rest } m) with
      | mk result s' =>
        rw [hrun] at hleft
        cases result with
        | error e =>
          rw [bind_error hrun] at hstep
          refine Or.inr (Or.inl ⟨e, s', hstep, ?_⟩)
          exact (respond_spec c).1 _ (sessionChannel_raises broken ending c) hanswer _ _ _ hrun
        | ok u =>
          rw [bind_ok hrun] at hstep
          refine Or.inr (Or.inr ⟨s', hstep, ?_, ?_⟩)
          · have := length_leftAfter c rest
            rw [hleft, List.length_cons]
            exact Nat.lt_succ_of_le this
          · rw [hleft]
            exact hrest

theorem returned_of_safe {fuel : Nat} (hfuel : s.chan.incoming.length < fuel)
    (h : safe cfg s.chan.incoming = true) :
    (proccessInput cfg (sessionChannel broken ending) fuel s).1 = .returned := by
  induction fuel generalizing s with
  | zero => cases hfuel
  | succ fuel ih =>
    unfold proccessInput
    have hcases : (∃ s', step cfg (sessionChannel broken ending) s = (.ok false, s')) ∨ _ :=
      step_safe h
    obtain ⟨s', hstep⟩ | ⟨e, s', hstep, he⟩ | ⟨s', hstep, hlen, hsafe⟩ := hcases
    · rw [hstep]
    · rw [hstep]
      exact if_pos he
    · rw [hstep]
      exact ih (by omega) hsafe

/-- Where nothing fails, messages that are not safe end the controller. -/
theorem escaped_of_unsafe {fuel : Nat} (hfuel : s.chan.incoming.length < fuel)
    (h : safe cfg s.chan.incoming = false) :
    ∃ e, (proccessInput cfg (sessionChannel (fun _ => false) .closed) fuel s).1 = .escaped e := by
  induction fuel generalizing s with
  | zero => cases hfuel
  | succ fuel ih =>
    unfold proccessInput
    cases hincoming : s.chan.incoming with
    | nil =>
      rw [hincoming] at h
      cases h
    | cons m rest =>
      by_cases hm : m = []
      · rw [hincoming, hm, safe_empty] at h
        cases h
      cases hdata : cfg.fromData m with
      | error e =>
        rw [step_undecoded hm (read_cons hincoming) hdata]
        refine ⟨e, ?_⟩
        exact if_neg (by rw [cfg.fromData_error m e hdata]; decide)
      | ok c =>
        rw [hincoming, safe_command hm hdata] at h
        rw [step_command hm (read_cons hincoming) hdata]
        cases hanswer : answerable cfg c with
        | false =>
          obtain ⟨e, s', hrun, he⟩ := (respond_spec c).2 sessionChannel_quiet hanswer
            (taken s { s.chan with incoming := rest } m)
          rw [bind_error hrun]
          exact ⟨e, if_neg (by rw [he]; decide)⟩
        | true =>
          rw [hanswer, Bool.true_and] at h
          have hleft : (respond cfg (sessionChannel (fun _ => false) .closed) c
              (taken s { s.chan with incoming := rest } m)).2.chan.incoming = leftAfter c rest :=
            respond_incoming c _
          cases hrun : respond cfg (sessionChannel (fun _ => false) .closed) c
              (taken s { s.chan with incoming := rest } m) with
          | mk result s' =>
            rw [hrun] at hleft
            cases result with
            | error e =>
              exact ((respond_spec c).1 _ (sessionChannel_quiet.raises c) hanswer _ _ _ hrun).elim
            | ok u =>
              have := length_leftAfter c rest
              rw [bind_ok hrun]
              refine ih ?_ ?_
              · rw [hincoming, List.length_cons] at hfuel
                rw [hleft]
                exact Nat.lt_of_le_of_lt this (by omega)
              · rw [hleft]
                exact h

end Session

def listJson : List UInt8 :=
  ascii "\x7b\"cmd\": \"list\", \"args\": [], \"machine_type\": null\x7d"

def startJson : List UInt8 :=
  ascii ("\x7b\"cmd\": \"start\", \"args\": [], \"machine_type\": 0, " ++
    "\"ftp_info\": \x7b\x7d\x7d")

/-- A controller with one physical machine, as far as these two commands need it. -/
def onePhysical : Config where
  schedulers := [0]
  ftpIpPhysical := .null
  ftpIpVirtual := .null
  machineBuf := []
  running := fun _ => []
  unicode := ⟨fun c => if 48 ≤ c ∧ c < 58 then some (c - 48) else none, fun c => c = 32⟩
  fromData data :=
    if data = listJson then .ok ⟨text "list", .list [], none, none⟩
    else if data = startJson then .ok ⟨text "start", .list [], some 0, some (.dict [])⟩
    else .error .valueError
  fromData_error data e h := by
    split at h
    · cases h
    split at h
    · cases h
    · cases h
      rfl

end LoPhi.Controller
