import LoPhi.Lib.Effect
import LoPhi.Lib.Interaction
import LoPhi.Lib.Struct
import LoPhi.Pxe.Dhcpd

/-! # The TFTP server of a PXE boot

`TftpConnection` serves one request in a thread of its own: it opens the file that was asked for
and then goes block by block, each sent when the block before it was acknowledged, or each kept
when it is the next. A datagram that does not fit is ignored, and silence is met by sending the
last datagram again.

A byte string is a list, and so is the file. What the operating system has to say (where a
resource is, what is in a file, whether a timeout is one `select` takes) is `Host`. -/

namespace LoPhi.Tftp.Server
open LoPhi.Lib LoPhi.Lib.Effect LoPhi.Lib.Struct LoPhi.Lib.Interaction LoPhi.Pxe.Dhcpd

abbrev Bytes := List UInt8

/-- The bytes of a text of one-byte characters. -/
def bytesOf (text : List Char) : Bytes := text.map fun c => UInt8.ofNat c.toNat

/-- `TftpError` is answered with an error packet, everything else ends the connection in
silence. -/
inductive Exc where
  | tftpError (errnum : Nat) (errtext : Bytes)
  | structError
  | valueError
  | overflowError
  | attributeError
  | ioError
  | socketError
  deriving DecidableEq, Repr

/-! ## The server -/

/-- The option `blocksize` of the section `tftp`. The number of retries is read from it, too. -/
structure Settings where
  configured : Option Nat

def Settings.blocksize (s : Settings) : Nat := s.configured.getD 512

def Settings.retry (s : Settings) : Nat := s.configured.getD 5

/-- The dictionaries shared with the DHCP server and the access-control server. -/
structure Tables where
  macToIp : Option (Dict Mac Ip)
  macToPxeConf : Option (Dict Mac (List Char))

/-- What the operating system has to say. -/
structure Host where
  /-- The path of a requested resource: the filters, `root` and `pybootd_path`. -/
  resolve : Bytes → Except Exc Bytes
  /-- `os.path.relpath(resource, root)`. -/
  relpath : Bytes → Except Exc Bytes
  pathExists : Bytes → Bool
  /-- `os.listdir` of `root_images`, if that is set. -/
  images : Except Exc (Option (List Bytes))
  isUrl : Bytes → Bool
  /-- `os.stat`, or the `Content-Length` of an URL. -/
  size : Bytes → Option Nat
  /-- What is in the file or at the URL that can be opened. -/
  openRead : Bytes → Option Bytes
  openWrite : Bytes → Bool
  /-- Whether a text is a number for `float`, and whether `select` takes as many seconds. -/
  timeout : Bytes → Option Bool

structure Environment where
  settings : Settings
  tables : Tables
  host : Host
  /-- `client_addr[0]`. -/
  clientIp : Ip

/-- `_get_mac`. -/
def getMac (t : Tables) (ip : Ip) : Option Mac :=
  match t.macToIp with
  | none => none
  | some macToIp => (macToIp.items.find? fun p => p.2 = ip).map Prod.fst

/-- `get_pxe_conf`. -/
def getPxeConf (t : Tables) (ip : Ip) : Option (List Char) :=
  match getMac t ip, t.macToPxeConf with
  | some mac, some macToPxeConf => macToPxeConf.get? mac
  | _, _ => none

/-! ## A connection -/

/-- `self.file`: not opened, opened for reading (with its content and a position), or opened for
writing (with what was written). -/
inductive Handle where
  | closed
  | reading (content : Bytes) (pos : Nat)
  | writing (written : Bytes)
  deriving DecidableEq, Repr

structure Connection where
  blocksize : Int
  usableTimeout : Bool := true
  active : Bool := false
  blockNumber : Nat := 0
  lastpkt : Bytes := []
  file : Handle := .closed
  /-- All datagrams sent so far. -/
  sent : List Bytes := []
  deriving DecidableEq, Repr

/-- `pack('!h', n)` of a number that is not negative. -/
def packShort (n : Nat) : Except Exc Bytes :=
  if n < 32768 then .ok (beBytes 2 n) else .error .structError

/-- `unpack('!h', data)[0]`. -/
def unpackShort (data : Bytes) : Except Exc Int :=
  if data.length = 2 then
    .ok (if beNat data < 32768 then (beNat data : Int) else (beNat data : Int) - 65536)
  else .error .structError

def dataPacket (block : Nat) (data : Bytes) : Bytes := beBytes 2 3 ++ beBytes 2 block ++ data

def ackPacket (block : Nat) : Bytes := beBytes 2 4 ++ beBytes 2 block

/-- The packet of `send_error`. -/
def errorPacket (errnum : Nat) (errtext : Bytes) : Bytes :=
  beBytes 2 5 ++ beBytes 2 errnum ++ (errtext ++ [0])

/-- `sock.sendto`: a datagram has at most 65507 bytes. -/
def sendto (pkt : Bytes) : Prog Exc Connection Unit := fun c =>
  if pkt.length ≤ 65507 then (.ok (), { c with sent := c.sent ++ [pkt] })
  else (.error .socketError, c)

def send (pkt : Bytes) : Prog Exc Connection Unit := do
  sendto pkt
  modify fun c => { c with lastpkt := pkt }

def retransmit : Prog Exc Connection Unit := fun c =>
  if c.lastpkt = [] then (.ok (), c) else sendto c.lastpkt c

def sendError (errnum : Nat) (errtext : Bytes) : Prog Exc Connection Unit :=
  sendto (errorPacket errnum errtext)

/-- `send_oack`. It is not to be sent again. -/
def sendOack (options : List (Bytes × Bytes)) : Prog Exc Connection Unit := do
  send (beBytes 2 6 ++ options.flatMap fun o => o.1 ++ [0] ++ o.2 ++ [0])
  modify fun c => { c with lastpkt := [] }

/-- `self.file.read(self.blocksize)`: a negative size is all there is. -/
def readFile : Prog Exc Connection Bytes := fun c =>
  match c.file with
  | .closed => (.error .attributeError, c)
  | .writing _ => (.error .ioError, c)
  | .reading content pos =>
    if c.blocksize < -2 ^ 63 ∨ 2 ^ 63 ≤ c.blocksize then (.error .overflowError, c)
    else
      let rest := content.drop pos
      let data := if c.blocksize < 0 then rest else rest.take c.blocksize.toNat
      (.ok data, { c with file := .reading content (pos + data.length) })

def writeFile (data : Bytes) : Prog Exc Connection Unit := fun c =>
  match c.file with
  | .closed => (.error .attributeError, c)
  | .reading _ _ => (.error .ioError, c)
  | .writing written => (.ok (), { c with file := .writing (written ++ data) })

def sendData (data : Bytes) : Prog Exc Connection Unit := do
  modify fun c => { c with blockNumber := c.blockNumber + 1 }
  let c ← get
  let _ ← ofExcept (packShort c.blockNumber)
  send (dataPacket c.blockNumber data)
  modify fun c => { c with active := (data.length : Int) == c.blocksize }

def sendAck : Prog Exc Connection Unit := do
  let c ← get
  modify fun c => { c with blockNumber := c.blockNumber + 1 }
  let _ ← ofExcept (packShort c.blockNumber)
  send (ackPacket c.blockNumber)

/-! ## Packets -/

inductive Pkt where
  | request (opcode : Int) (entries : Dict Bytes Bytes)
  | ack (block : Int)
  | data (block : Int) (data : Bytes)
  | err (errnum : Int) (errtxt : Bytes)

/-- White space of a byte string. -/
def isSpace (b : UInt8) : Bool := b = 32 || (9 ≤ b && b ≤ 13)

/-- `int(value)`. -/
def pyInt (value : Bytes) : Except Exc Int :=
  let value := ((value.dropWhile isSpace).reverse.dropWhile isSpace).reverse
  let digits (s : Bytes) : Except Exc Nat :=
    if s = [] || s.any (fun b => b < 48 || 57 < b) then .error .valueError
    else .ok (s.foldl (fun n b => n * 10 + (b.toNat - 48)) 0)
  match value with
  | 43 :: s => (digits s).map fun n => (n : Int)
  | 45 :: s => (digits s).map fun n => -(n : Int)
  | s => (digits s).map fun n => (n : Int)

/-- The part before the first NUL, and what is behind it. -/
def splitNul (s : Bytes) : Option (Bytes × Bytes) :=
  match s.dropWhile (· ≠ 0) with
  | [] => none
  | _ :: rest => some (s.takeWhile (· ≠ 0), rest)

/-- `a, b, rest = s.split('\000', 2)`. -/
def splitTwice (s : Bytes) : Except Exc (Bytes × Bytes × Bytes) :=
  match splitNul s with
  | none => .error .valueError
  | some (a, s) =>
    match splitNul s with
    | none => .error .valueError
    | some (b, rest) => .ok (a, b, rest)

/-- The loop over the options of a request. Every turn uses up two NULs, so their length is
enough fuel. -/
def parseOptions (host : Host) :
    Nat → Bytes → Dict Bytes Bytes → Prog Exc Connection (Dict Bytes Bytes)
  | 0, _, entries => pure entries
  | fuel + 1, options, entries =>
    if options = [] then pure entries else do
      let (key, value, options) ← ofExcept (splitTwice options)
      if key = bytesOf "blksize".toList then do
        let n ← ofExcept (pyInt value)
        modify fun c => { c with blocksize := n }
      else if key = bytesOf "timeout".toList then do
        let usable ← orRaise .valueError (host.timeout value)
        modify fun c => { c with usableTimeout := usable }
      else pure ()
      parseOptions host fuel options (entries.insert key value)

def unknownPacketType : Exc := .tftpError 4 (bytesOf "Unknown packet type".toList)

/-- `parse`. -/
def parse (host : Host) (data : Bytes) : Prog Exc Connection Pkt := do
  let opcode ← ofExcept (unpackShort (data.take 2))
  if opcode = 1 ∨ opcode = 2 then do
    let (resource, mode, options) ← ofExcept (splitTwice (data.drop 2))
    let resource ← ofExcept (host.resolve resource)
    let entries := (Dict.empty.insert (bytesOf "filename".toList) resource).insert
      (bytesOf "mode".toList) mode
    let entries ← parseOptions host options.length options entries
    pure (.request opcode entries)
  else if opcode = 4 then do
    let block ← ofExcept (unpackShort ((data.drop 2).take 2))
    pure (.ack block)
  else if opcode = 3 then do
    let block ← ofExcept (unpackShort ((data.drop 2).take 2))
    pure (.data block (data.drop 4))
  else if opcode = 5 then do
    let errnum ← ofExcept (unpackShort ((data.drop 2).take 2))
    pure (.err errnum (data.drop 4).dropLast)
  else raise unknownPacketType

/-! ## Requests -/

/-- `get_pxe_config_str`: `NETWORK_CONFIG` up to `%%image_name%%`, the image, and the rest. -/
def pxeConfigStr (image : Bytes) : Bytes :=
  bytesOf ("DEFAULT clonezilla-auto-restore-physical\nPROMPT 0\n\n".toList ++
    "LABEL clonezilla-auto-restore-physical\n        kernel clonezilla-live/vmlinuz\n".toList ++
    "        append initrd=clonezilla-live/initrd.img boot=live config noswap ".toList ++
    "nolocales edd=on nomodeset keyboard-layouts=none locales=en_US.UTF-8 vga=788 ".toList ++
    "nosplash noprompt fetch=tftp://lophi-pxe/clonezilla-live/filesystem.squashfs ".toList ++
    "ocs_prerun1=\"mount -t cifs //lophi-pxe/images/ /home/partimag -o ".toList ++
    "user=guest,guest,noexec\" ocs_live_run=\"ocs-sr --batch -e1 auto -e2 -r -j2 ".toList ++
    "-p poweroff restoredisk ".toList) ++ image ++
  bytesOf " sda\" ocs_live_extra_param=\"\"\n".toList

/-- `os.path.dirname`. -/
def dirname (path : Bytes) : Bytes :=
  let head := (path.reverse.dropWhile (· ≠ 47)).reverse
  if head.all (· = 47) then head else (head.reverse.dropWhile (· = 47)).reverse

/-- `os.path.join` of two parts. -/
def join (a b : Bytes) : Bytes :=
  if b.head? = some 47 then b
  else if a = [] ∨ a.getLast? = some 47 then a ++ b
  else a ++ [47] ++ b

/-- The group `name` of `genfilecre.match`. -/
def genfile (resource : Bytes) : Option Bytes :=
  match resource with
  | 91 :: rest =>
    let name := rest.takeWhile fun b => (48 ≤ b && b ≤ 57) || (65 ≤ b && b ≤ 90) ||
      (97 ≤ b && b ≤ 122) || b = 95 || b = 46 || b = 45
    if name ≠ [] ∧ (rest.drop name.length).head? = some 93 then some name else none
  | _ => none

/-- The resource and `lophi_string` once the machine's own configuration was looked up. -/
def customise (env : Environment) (resource : Bytes) : Except Exc (Bytes × Option Bytes) := do
  let relPath ← env.host.relpath resource
  if relPath = bytesOf "pxelinux.cfg/default".toList then
    match getPxeConf env.tables env.clientIp with
    | none => pure (resource, none)
    | some customFile =>
      let fullpath := join (dirname resource) (bytesOf customFile)
      let images ← env.host.images
      if env.host.pathExists fullpath then pure (fullpath, none)
      else if images.any fun names => names.contains (bytesOf customFile) then
        pure (resource, some (pxeConfigStr (bytesOf customFile)))
      else pure (resource, none)
  else pure (resource, none)

/-- What is opened for reading. -/
def source (host : Host) (resource : Bytes) (lophiString : Option Bytes) : Option Bytes :=
  match lophiString with
  | some text => some text
  | none => if (genfile resource).isSome then some (resource.drop 1).dropLast
    else host.openRead resource

/-- What is announced as the size. -/
def announced (host : Host) (resource : Bytes) (lophiString : Option Bytes) : Option Nat :=
  match lophiString with
  | some text => some text.length
  | none =>
    match genfile resource with
    | some name => some name.length
    | none => host.size resource

/-- The end of `handle_rrq`: the file is opened, and its first block sent if no size was asked
for. -/
def openAndSend (env : Environment) (entries : Dict Bytes Bytes) (resource : Bytes)
    (lophiString : Option Bytes) : Prog Exc Connection Unit :=
  match source env.host resource lophiString with
  | none => sendError 1 (bytesOf "Cannot open resource".toList)
  | some content => do
    modify fun c => { c with file := .reading content 0 }
    if (entries.get? (bytesOf "tsize".toList)).isSome then pure () else do
      let data ← readFile
      sendData data

/-- Whether the size is asked for. -/
def sizeAsked (entries : Dict Bytes Bytes) : Except Exc Bool :=
  match entries.get? (bytesOf "tsize".toList) with
  | none => .ok false
  | some value => (pyInt value).map fun n => n == 0

/-- `options` of `handle_rrq`. -/
def sizeOptions (entries : Dict Bytes Bytes) (size : Nat) : List (Bytes × Bytes) :=
  (bytesOf "tsize".toList, bytesOf (Nat.toDigits 10 size)) ::
    match entries.get? (bytesOf "blksize".toList) with
    | none => []
    | some value => [(bytesOf "blksize".toList, value)]

def handleRrq (env : Environment) (entries : Dict Bytes Bytes) : Prog Exc Connection Unit := do
  let filename ← orRaise .attributeError (entries.get? (bytesOf "filename".toList))
  let (resource, lophiString) ← ofExcept (customise env filename)
  let asked ← ofExcept (sizeAsked entries)
  if asked then
    match announced env.host resource lophiString with
    | none => do
      modify fun c => { c with active := false }
      sendError 1 (bytesOf "Cannot access resource".toList)
    | some size => do
      sendOack (sizeOptions entries size)
      openAndSend env entries resource lophiString
  else openAndSend env entries resource lophiString

def handleWrq (env : Environment) (entries : Dict Bytes Bytes) : Prog Exc Connection Unit := do
  let resource ← orRaise .attributeError (entries.get? (bytesOf "filename".toList))
  if env.host.isUrl resource then pure ()
  else if env.host.openWrite resource then do
    modify fun c => { c with file := .writing [] }
    sendAck
  else sendError 1 (bytesOf "Cannot open file".toList)

/-! ## The transfer -/

/-- `handle_ack`. -/
def handleAck : Prog Exc Connection Unit := do
  let c ← get
  if c.active then do
    let data ← readFile
    sendData data
  else pure ()

def recvAck (block : Int) : Prog Exc Connection Unit := do
  let c ← get
  if block = c.blockNumber then handleAck else pure ()

def recvData (block : Int) (data : Bytes) : Prog Exc Connection Unit := do
  let c ← get
  if block = c.blockNumber then do
    modify fun c => { c with active := c.blocksize == (data.length : Int) }
    sendAck
    writeFile data
  else pure ()

/-- One turn of the loop of `connect`, once a packet is there. -/
def handlePacket : Pkt → Prog Exc Connection Unit
  | .data block data => recvData block data
  | .ack block => recvAck block
  | .err _ _ => retransmit
  | .request _ _ => raise (.tftpError 5 (bytesOf "Invalid opcode".toList))

/-- How a connection ends: its loop is left, or something is raised. -/
inductive Ending where
  | finished
  | failed (e : Exc)
  deriving DecidableEq, Repr

/-- A connection that waits in `recv`. -/
structure Waiting where
  conn : Connection
  retry : Nat
  deriving DecidableEq, Repr

abbrev Thread := Progress Waiting (Ending × Connection)

/-- The handlers of `connect`. -/
def fail (e : Exc) (c : Connection) : Thread :=
  match e with
  | .tftpError errnum errtext => .ended (.failed e, (sendError errnum errtext c).2)
  | _ => .ended (.failed e, c)

def timedOut : Exc := .tftpError 4 (bytesOf "Transfer timed out".toList)

/-- `recv` up to the first `select`. -/
def recv (env : Environment) (c : Connection) : Thread :=
  if env.settings.retry = 0 then fail timedOut c
  else if c.usableTimeout then .waiting ⟨c, env.settings.retry⟩
  else fail .valueError c

/-- The loop of `connect` after a packet was handled. -/
def settle (env : Environment) : Except Exc Unit × Connection → Thread
  | (.error e, c) => fail e c
  | (.ok (), c) => if c.active then recv env c else .ended (.finished, c)

/-- What the request leads to. -/
def handleRequest (env : Environment) : Pkt → Prog Exc Connection Unit
  | .request opcode entries =>
    -- an option of the name `opcode` has taken its place
    if (entries.get? (bytesOf "opcode".toList)).isSome then
      raise (.tftpError 4 (bytesOf "Bad request".toList))
    else do
      modify fun c => { c with active := true }
      if opcode = 1 then handleRrq env entries else handleWrq env entries
  | _ => raise (.tftpError 4 (bytesOf "Bad request".toList))

/-- `connect`, up to the first `select`. The server reads 516 bytes of a request. -/
def connect (env : Environment) (data : Bytes) : Thread :=
  settle env ((do
    let pkt ← parse env.host (data.take 516)
    handleRequest env pkt) { blocksize := env.settings.blocksize })

/-- What can happen while a connection waits. -/
inductive Event where
  | timeout
  | datagram (fromClient : Bool) (data : Bytes)
  deriving DecidableEq, Repr

def step (env : Environment) (w : Waiting) : Event → Thread
  | .timeout =>
    match retransmit w.conn with
    | (.error e, c) => fail e c
    | (.ok (), c) => if w.retry = 1 then fail timedOut c else .waiting ⟨c, w.retry - 1⟩
  | .datagram fromClient data =>
    -- `recvfrom(pktsize)`
    let pktsize := w.conn.blocksize + 4
    if pktsize < 0 then fail .valueError w.conn
    else if 2 ^ 31 ≤ pktsize then fail .overflowError w.conn
    else if fromClient then
      settle env ((do
        let pkt ← parse env.host (data.take pktsize.toNat)
        handlePacket pkt) w.conn)
    else .waiting w

/-- A thread after one more event. -/
def next (env : Environment) (t : Thread) (e : Event) : Thread := t.next (step env) fun _ => e

/-- The connection of a thread, also when it has ended. -/
def connOf : Thread → Connection
  | .waiting w => w.conn
  | .ended (_, c) => c

end LoPhi.Tftp.Server
