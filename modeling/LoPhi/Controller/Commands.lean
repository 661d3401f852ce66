import LoPhi.Lib.Format
import LoPhi.Network.Framing

/-! # The commands of the controller

`LoPhiController.proccess_input` of `controller.py` and the handlers of its commands. The
handlers use a connection only to read a message and to send one, so they are stated over
any channel that can do both. The commands come from `LophiCommand.from_data`, which takes
whatever attributes the JSON text gives. -/

namespace LoPhi.Controller
open LoPhi.Lib.Effect LoPhi.Lib.Struct LoPhi.Network.Framing

/-- A unicode string: its code points. -/
abbrev Text := List Nat

def text (s : String) : Text := s.toList.map Char.toNat

/-- A byte string in the source. -/
def ascii (s : String) : List UInt8 := s.toList.map fun c => UInt8.ofNat c.toNat

/-- What `json.loads` gives. Its strings are unicode. -/
inductive Json where
  | null
  | bool (b : Bool)
  | int (n : Int)
  | float (bits : UInt64)
  | str (s : Text)
  | list (xs : List Json)
  | dict (entries : List (Text × Json))

/-- The attributes of a `LophiCommand` the controller looks at. A message may give the command no
`ftp_info`. -/
structure Command where
  cmd : Text
  args : Json
  machineType : Option Int
  ftpInfo : Option Json

/-! ## What Python does with a value -/

/-- The tables `int` uses for unicode strings. -/
structure UnicodeData where
  decimal : Nat → Option Nat
  isSpace : Nat → Bool

/-- A decimal number, in white space and with a sign. -/
def intOfText (u : UnicodeData) (s : Text) : Option Int :=
  let s := ((s.dropWhile u.isSpace).reverse.dropWhile u.isSpace).reverse
  let digits (s : Text) : Option Int :=
    if s = [] then none
    else (s.mapM u.decimal).map fun ds => (ds.foldl (fun n d => n * 10 + d) 0 : Nat)
  match s with
  | 43 :: s => digits s
  | 45 :: s => (digits s).map fun n => -n
  | s => digits s

/-- `int(x)`. -/
def pyInt (u : UnicodeData) : Json → Except Exc Int
  | .bool b => .ok b.toInt
  | .int n => .ok n
  | .float bits =>
    match truncate bits with
    | some n => .ok n
    | none => .error (if bits.toNat % 2 ^ 52 = 0 then .overflowError else .valueError)
  | .str s =>
    match intOfText u s with
    | some n => .ok n
    | none => .error .valueError
  | _ => .error .typeError

/-- `len(x)`. -/
def pyLen : Json → Except Exc Nat
  | .str s => .ok s.length
  | .list xs => .ok xs.length
  | .dict entries => .ok entries.length
  | _ => .error .typeError

/-- `for y in x`: the characters of a string, the keys of a dictionary. -/
def pyIter : Json → Except Exc (List Json)
  | .str s => .ok (s.map fun c => .str [c])
  | .list xs => .ok xs
  | .dict entries => .ok (entries.map fun entry => .str entry.1)
  | _ => .error .typeError

/-- `x[0]` where there is something. No key of a dictionary is a number. -/
def pyFirst : Json → Except Exc Json
  | .str (c :: _) => .ok (.str [c])
  | .list (x :: _) => .ok x
  | .dict _ => .error .keyError
  | _ => .error .typeError

/-- `x in names`, where `names` is a set: a list or a dictionary has no hash. -/
def pyMember (names : List Text) : Json → Except Exc Bool
  | .str s => .ok (names.contains s)
  | .list _ => .error .typeError
  | .dict _ => .error .typeError
  | _ => .ok false

/-- `d[key] = value` for a dictionary. -/
def setItem (entries : List (Text × Json)) (key : Text) (value : Json) : List (Text × Json) :=
  if entries.any (·.1 = key) then
    entries.map fun entry => if entry.1 = key then (key, value) else entry
  else entries ++ [(key, value)]

/-! ## The controller -/

/-- A connection: `read_socket_data`, and the sends of `send_socket_data`. -/
structure Channel (σ : Type) where
  read : Prog Exc σ (Option (List UInt8))
  transmit : List UInt8 → Prog Exc σ Unit

/-- What is put on the queue of a scheduler. -/
structure Analysis where
  machineType : Int
  script : List UInt8
  command : Command

/-- The controller and its connection. `handed` is what `from_data` was given and is not in
the source. -/
structure Server (σ : Type) where
  chan : σ
  handed : List (List UInt8)
  queued : List Analysis

/-- What the controller was started with and what it meets: the types it has schedulers for,
the addresses of its FTP server, its packed list of machines, the running analyses (after so
many commands), and `from_data`, which raises only what `json.loads` and setting `__dict__`
raise. -/
structure Config where
  schedulers : List Int
  ftpIpPhysical : Json
  ftpIpVirtual : Json
  machineBuf : List UInt8
  running : Nat → List Int
  unicode : UnicodeData
  fromData : List UInt8 → Except Exc Command
  fromData_error : ∀ data e, fromData data = .error e → e.isSocketError = false

section
variable {σ : Type} (cfg : Config) (chan : Channel σ)

def onChan {β : Type} (m : Prog Exc σ β) : Prog Exc (Server σ) β :=
  fun s => ((m s.chan).1, { s with chan := (m s.chan).2 })

/-- `send_socket_data` of a byte string. -/
def sendData (data : List UInt8) : Prog Exc (Server σ) Unit := do
  let bytes ← ofExcept (frame data)
  onChan (chan.transmit bytes)

/-- The bytes `send_socket_data` sends of a unicode string. The packed length becomes
unicode, too, and `send` makes bytes of it all; both go by way of ASCII. -/
def frameText (data : Text) : Except Exc (List UInt8) :=
  if 2 ^ 16 ≤ data.length then .error .structError
  else if (leBytes 2 data.length).any (128 ≤ ·) then .error .unicodeDecodeError
  else if data.any (128 ≤ ·) then .error .unicodeEncodeError
  else .ok (leBytes 2 data.length ++ data.map UInt8.ofNat)

/-- `send_socket_data` of a unicode string. -/
def sendText (data : Text) : Prog Exc (Server σ) Unit := do
  let bytes ← ofExcept (frameText data)
  onChan (chan.transmit bytes)

def LISTS : List Text := [text "machines", text "analysis"]

def analysisCommands : List Text := [text "stop", text "pause", text "resume"]

/-- The keys of `COMMANDS`. -/
def commandNames : List Text :=
  [text "start"] ++ analysisCommands ++ [text "list", text "pickle"]

/-- `analysis_stop`, `analysis_pause` and `analysis_resume`: the controller's `ANALYSIS_DICT`
is never filled, the analyses run in the schedulers. -/
def analysisFound (_aid : Int) : Bool := false

def commandAnalysis (running : List Int) (command : Command) : Except Exc Bool := do
  let none_given ← match command.args with
    | .null => pure true
    | args => do
      let n ← pyLen args
      pure (n == 0)
  let args ← if none_given then pure (running.map Json.int) else pyIter command.args
  args.foldlM (fun rtn aid => do
    let aid ← pyInt cfg.unicode aid
    pure (rtn && analysisFound aid)) true

/-- What is in the script's file. Writing `None` raises, and the file stays empty. -/
def scriptFile : Option (List UInt8) → List UInt8
  | some script => script
  | none => []

/-- `G.MACHINE_TYPES.PHYSICAL`. -/
def PHYSICAL : Int := 0

/-- `command.ftp_info['ip'] = …`. Only a dictionary takes the item. -/
def setFtpIp (machine_type : Int) (command : Command) : Except Exc Command :=
  match command.ftpInfo with
  | none => .error .attributeError
  | some (.dict entries) =>
    .ok { command with
      ftpInfo := some (.dict (setItem entries (text "ip")
        (if machine_type = PHYSICAL then cfg.ftpIpPhysical else cfg.ftpIpVirtual))) }
  | some _ => .error .typeError

/-- What follows `_get_analysis` in `command_start`. It returns the name of a file, and a string
has no `MACHINE_TYPE`. -/
def queueAnalysis (script : Option (List UInt8)) (command : Command) : Prog Exc (Server σ) Bool :=
  match command.machineType with
  | none => raise .attributeError
  | some machine_type => do
    let command ← ofExcept (setFtpIp cfg machine_type command)
    if machine_type ∈ cfg.schedulers then
      modify fun s => { s with queued := s.queued ++ [⟨machine_type, scriptFile script, command⟩] }
      pure true
    else raise .keyError

/-- `command_start`. -/
def commandStart (command : Command) : Prog Exc (Server σ) Bool := do
  let script ← onChan chan.read
  queueAnalysis cfg script command

/-- `command_list`: its `args` is the command, which has a length above 1 and no items. -/
def commandList : Except Exc Bool := .error .attributeError

/-- `len(command.args) > 0 and command.args[0] in self.LISTS`, with the name if it is. -/
def listAsked (args : Json) : Except Exc (Option Text) := do
  let n ← pyLen args
  if 0 < n then
    let first ← pyFirst args
    let listed ← pyMember LISTS first
    match first with
    | .str name => pure (if listed then some name else none)
    | _ => pure none
  else pure none

def commandPickle (command : Command) : Prog Exc (Server σ) Bool := do
  let asked ← ofExcept (listAsked command.args)
  match asked with
  | some name =>
    if name = text "machines" then do
      sendData chan cfg.machineBuf
      pure true
    else if name = text "analysis" then do
      -- the protocol buffer of an empty list is empty
      sendData chan []
      pure true
    else pure false
  | none => do
    sendData chan (ascii ("ERROR: No such list.\n" ++
      "   Available lists are: set(['machines', 'analysis'])\n"))
    pure false

/-- The handler of a command. -/
def dispatch (command : Command) : Prog Exc (Server σ) Bool :=
  if command.cmd = text "start" then commandStart cfg chan command
  else if command.cmd ∈ analysisCommands then do
    let s ← get
    ofExcept (commandAnalysis cfg (cfg.running s.handed.length) command)
  else if command.cmd = text "list" then ofExcept commandList
  else commandPickle cfg chan command

/-- The reply to `help`. -/
def helpText : List UInt8 :=
  ascii ("The available commands are: " ++
    "['start', 'stop', 'pause', 'resume', 'list', 'pickle']\n")

/-- What follows `from_data` for a command. -/
def respond (cmd : Command) : Prog Exc (Server σ) Unit :=
  if cmd.cmd = text "help" then sendData chan helpText
  else if cmd.cmd ∉ commandNames then
    sendText chan (text "Invalid Command: " ++ cmd.cmd ++ text "\n")
  else do
    let rtn ← dispatch cfg chan cmd
    if rtn then sendData chan (ascii "Success.") else sendData chan (ascii "Failure.")

/-- A message of the client, from `from_data` to the reply. -/
def handle (data : List UInt8) : Prog Exc (Server σ) Unit := do
  modify fun s => { s with handed := s.handed ++ [data] }
  let cmd ← ofExcept (cfg.fromData data)
  respond cfg chan cmd

/-- A turn of the loop of `proccess_input`: whether it goes on. -/
def step : Prog Exc (Server σ) Bool := fun s =>
  match onChan chan.read s with
  | (.error .socketTimeout, s) => (.ok true, s)
  | (.error e, s) => (.error e, s)
  | (.ok none, s) => (.ok false, s)
  | (.ok (some []), s) => (.ok false, s)
  | (.ok (some data), s) =>
    (do
      handle cfg chan data
      pure true : Prog Exc (Server σ) Bool) s

/-- How `proccess_input` ends; `running` is for a loop without enough fuel. -/
inductive Outcome where
  | returned
  | escaped (e : Exc)
  | running
  deriving DecidableEq, Repr

def proccessInput : Nat → Server σ → Outcome × Server σ
  | 0, s => (.running, s)
  | fuel + 1, s =>
    match step cfg chan s with
    | (.ok true, s) => proccessInput fuel s
    | (.ok false, s) => (.returned, s)
    | (.error e, s) => (if e.isSocketError then .returned else .escaped e, s)

end

end LoPhi.Controller
