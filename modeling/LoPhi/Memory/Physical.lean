import LoPhi.Lib.Interaction
import LoPhi.Lib.Python
import LoPhi.Lib.Window

/-! # The physical memory sensor

`MemorySensorPhysical._read_from_sensor` widens a request to whole words, cuts it into chunks and
asks the sensor for each over UDP. Without threading it waits for the reply to a chunk before it
asks for the next; with threading it sends all requests and then collects the replies. Every
`recvfrom` ends in a datagram or in a timeout, and that is where a call waits for the outside.

Opening a UDP socket does not involve the sensor: `_connect` is taken to succeed, so closing and
opening it again changes nothing. `TIMED_OUT` is never set. -/

namespace LoPhi.Memory.Physical
open LoPhi.Lib.Python LoPhi.Lib.Interaction

/-- `READ_CHUNK`. -/
def readChunk : Nat := 7680

/-- `G.SENSOR_MEMORY.MAGIC_LOPHI`. -/
def magicNumber : Nat := 0xDEADBEEF

/-- `G.SENSOR_MEMORY.DEFAULT_FLAGS`. -/
def defaultFlags : Nat := 0

/-- `G.SENSOR_MEMORY.COMMAND.READ`. -/
def commandRead : Nat := 0

/-- `MemoryRapidPacket`. Nothing after the header leaves `data` unset. -/
structure MemoryRapidPacket where
  magicLophi : Nat
  addressHigh : Nat := 0
  operation : Nat
  addressLow : Nat := 0
  length : Nat
  flags : Nat := 0
  transactionNo : Nat
  data : Option (List UInt8) := none
  deriving DecidableEq, Repr

/-- The address a packet is about. -/
def MemoryRapidPacket.address (p : MemoryRapidPacket) : Nat := p.addressHigh * 2 ^ 32 + p.addressLow

/-- How a `recvfrom` ends: a timeout, a datagram too short for the header, which leaves every
field unset, or a packet. -/
inductive Event where
  | timeout
  | runt
  | packet (p : MemoryRapidPacket)
  deriving DecidableEq, Repr

/-- The part of the object that a read uses. -/
structure MemorySensorPhysical where
  retries : Nat
  transactionNo : Nat := 1
  deriving DecidableEq, Repr

/-- `_send_command`: the packet sent. Assigning a field that does not fit raises. -/
def sendCommand (s : MemorySensorPhysical) (command address length : Nat) :
    Except PyError (MemoryRapidPacket × MemorySensorPhysical) :=
  let packet : MemoryRapidPacket :=
    { magicLophi := magicNumber
      flags := defaultFlags
      operation := command
      addressHigh := address >>> 32
      addressLow := address &&& 0xFFFFFFFF
      length := length
      transactionNo := s.transactionNo }
  if packet.addressHigh < 2 ^ 32 ∧ packet.length < 2 ^ 32 then
    .ok (packet, { s with transactionNo := (s.transactionNo + 1) % 0xffff })
  else .error .structError

/-! ## _get_read_response -/

/-- The local variables of `_get_read_response`. -/
structure Response where
  length : Nat
  transactionNo : Nat
  data : List UInt8 := []
  deriving DecidableEq, Repr

/-- What a turn of its loop comes to: another `recvfrom`, the data, `None`, or an exception. -/
inductive Turn where
  | again (r : Response)
  | data (bytes : List UInt8)
  | nothing
  | raised (e : PyError)
  deriving DecidableEq, Repr

/-- The loop's condition. -/
def Response.check (r : Response) : Turn :=
  if r.data.length < r.length then .again r else .data (r.data.take r.length)

/-- A turn of the loop. The line that reports a bad magic number formats it with `%x` and the
one that reports a bad length measures the data, which raises where they are unset. -/
def Response.receive (r : Response) : Event → Turn
  | .timeout => .raised .socketTimeout
  | .runt => .raised .typeError
  | .packet p =>
    if p.magicLophi ≠ magicNumber then .nothing
    else if p.transactionNo ≠ r.transactionNo then .nothing
    else if p.operation ≠ commandRead + 0x2 then .again r
    else
      match p.data with
      | none => .raised .typeError
      | some bytes =>
        Response.check { r with
          data := r.data ++ bytes
          transactionNo := (r.transactionNo + 1) % 0xffff }

/-! ## _read_from_sensor -/

/-- A request widened to whole words, and by how much at either end. -/
structure Aligned where
  address : Nat
  length : Nat
  adjustAddr : Nat
  adjustLen : Nat
  deriving DecidableEq, Repr

/-- The start of `_read_from_sensor`. -/
def align (address length : Nat) : Aligned :=
  let adjustAddr := address % 4
  let length := length + adjustAddr
  let adjustLen := if length % 4 ≠ 0 then 4 - length % 4 else 0
  { address := address - adjustAddr, length := length + adjustLen, adjustAddr, adjustLen }

/-- `rtn_data[adjust_addr:length-adjust_len]`. -/
def Aligned.slice (a : Aligned) (rtnData : List UInt8) : List UInt8 :=
  (rtnData.take (a.length - a.adjustLen)).drop a.adjustAddr

/-- How a call ends. -/
inductive Outcome where
  | returned (data : List UInt8)
  | raised (e : PyError)
  deriving DecidableEq, Repr

/-! ### Without threading -/

/-- The object and the local variables in the loop over the chunks. `sent` lists the requests of
this call. -/
structure Serial where
  sensor : MemorySensorPhysical
  request : Aligned
  rtnData : List UInt8 := []
  remaining : Nat
  offset : Nat := 0
  attempt : Nat := 0
  response : Response := ⟨0, 0, []⟩
  sent : List MemoryRapidPacket := []
  deriving DecidableEq, Repr

/-- `min(READ_CHUNK, remaining_length)`. -/
def Serial.reqLen (v : Serial) : Nat := min readChunk v.remaining

/-- How a call without threading ends, and the requests it has sent. -/
abbrev SerialEnd := Outcome × List MemoryRapidPacket

/-- A turn of the loop over the attempts: the request is sent, and then
`_get_read_response(req_len)` waits for the number it was sent with. -/
def Serial.try (v : Serial) : Progress Serial SerialEnd :=
  if v.attempt < v.sensor.retries then
    match sendCommand v.sensor commandRead (v.request.address + v.offset) v.reqLen with
    | .error e => .ended (.raised e, v.sent)
    | .ok (packet, sensor) =>
      .waiting { v with
        sensor := sensor
        response :=
          { length := v.reqLen, transactionNo := (sensor.transactionNo + 0xfffe) % 0xffff }
        sent := v.sent ++ [packet] }
  else .ended (.raised .socketTimeout, v.sent)

/-- A turn of the loop over the chunks, or its end. -/
def Serial.chunk (v : Serial) : Progress Serial SerialEnd :=
  if 0 < v.remaining then Serial.try { v with attempt := 0 }
  else .ended (.returned (v.request.slice v.rtnData), v.sent)

/-- A `recvfrom`. After `None` the socket is opened anew and `continue` skips the line that counts
the attempt. -/
def Serial.step (v : Serial) (e : Event) : Progress Serial SerialEnd :=
  match v.response.receive e with
  | .again r => .waiting { v with response := r }
  | .data tmp =>
    Serial.chunk { v with
      rtnData := v.rtnData ++ tmp
      remaining := v.remaining - v.reqLen
      offset := v.offset + v.reqLen }
  | .nothing => v.try
  | .raised .socketTimeout => Serial.try { v with attempt := v.attempt + 1 }
  | .raised e => .ended (.raised e, v.sent)

/-- `_read_from_sensor` without threading, up to its first `recvfrom`. -/
def readFromSensor (s : MemorySensorPhysical) (address length : Nat) : Progress Serial SerialEnd :=
  Serial.chunk
    { sensor := { s with transactionNo := 0 }
      request := align address length
      remaining := (align address length).length }

/-- A sensor and its network: how a `recvfrom` ends, given the requests sent before it in this
call and how many there were. -/
abbrev World := List MemoryRapidPacket → Nat → Event

/-- The call after `n` times `recvfrom`. -/
def serialRun (world : World) (s : MemorySensorPhysical) (address length : Nat) (n : Nat) :
    Progress Serial SerialEnd :=
  after Serial.step (fun k v => world v.sent k) (readFromSensor s address length) n

/-! ### With threading -/

/-- The object and the local variables in the loop over the attempts. `attempts` lists the
requests of each attempt, the present one last, and `received` counts its `recvfrom`s. -/
structure Threaded where
  sensor : MemorySensorPhysical
  request : Aligned
  remaining : Nat
  offset : Nat := 0
  attempt : Nat := 0
  response : Response := ⟨0, 0, []⟩
  attempts : List (List MemoryRapidPacket) := []
  received : Nat := 0
  deriving DecidableEq, Repr

/-- How a call with threading ends, and the requests of its attempts. -/
abbrev ThreadedEnd := Outcome × List (List MemoryRapidPacket)

/-- The loop that sends all requests: the packets, and the object after them. Every turn takes at
least one byte off `remaining_length`, so that is enough fuel. -/
def sendAll : Nat → MemorySensorPhysical → (address remaining : Nat) →
    Except PyError (List MemoryRapidPacket × MemorySensorPhysical)
  | 0, s, _, _ => .ok ([], s)
  | fuel + 1, s, address, remaining =>
    if 0 < remaining then
      let reqLen := min readChunk remaining
      match sendCommand s commandRead address reqLen with
      | .error e => .error e
      | .ok (packet, s) =>
        match sendAll fuel s (address + reqLen) (remaining - reqLen) with
        | .error e => .error e
        | .ok (packets, s) => .ok (packet :: packets, s)
    else .ok ([], s)

/-- A turn of the loop over the attempts: what remains is sent, then
`_get_read_response(length, True)` begins with number zero. -/
def Threaded.try (v : Threaded) : Progress Threaded ThreadedEnd :=
  if v.attempt < v.sensor.retries then
    match sendAll v.remaining v.sensor (v.request.address + v.offset) v.remaining with
    | .error e => .ended (.raised e, v.attempts)
    | .ok (packets, sensor) =>
      let v := { v with
        sensor := sensor
        remaining := 0
        offset := v.offset + v.remaining
        attempts := v.attempts ++ [packets]
        received := 0 }
      if 0 < v.request.length then
        .waiting { v with response := { length := v.request.length, transactionNo := 0 } }
      else .ended (.returned (v.request.slice []), v.attempts)
  else .ended (.raised .socketTimeout, v.attempts)

/-- A `recvfrom`. After `None` `remaining_length` is set back, but not `offset`; after a timeout
neither is. -/
def Threaded.step (v : Threaded) (e : Event) : Progress Threaded ThreadedEnd :=
  match v.response.receive e with
  | .again r => .waiting { v with response := r, received := v.received + 1 }
  | .data rtnData => .ended (.returned (v.request.slice rtnData), v.attempts)
  | .nothing => Threaded.try { v with remaining := v.request.length, attempt := v.attempt + 1 }
  | .raised .socketTimeout => Threaded.try { v with attempt := v.attempt + 1 }
  | .raised e => .ended (.raised e, v.attempts)

/-- `_read_from_sensor` with threading, up to its first `recvfrom`. -/
def readFromSensorThreaded (s : MemorySensorPhysical) (address length : Nat) :
    Progress Threaded ThreadedEnd :=
  Threaded.try
    { sensor := { s with transactionNo := 0 }
      request := align address length
      remaining := (align address length).length }

/-- The sensor and its network for a call with threading: how a `recvfrom` ends, given the
requests of the attempts so far and how many of this attempt came before it. -/
abbrev ThreadedWorld := List (List MemoryRapidPacket) → Nat → Event

/-- The call after `n` times `recvfrom`. -/
def threadedRun (world : ThreadedWorld) (s : MemorySensorPhysical) (address length : Nat)
    (n : Nat) : Progress Threaded ThreadedEnd :=
  after Threaded.step (fun _ v => world v.attempts v.received)
    (readFromSensorThreaded s address length) n

end LoPhi.Memory.Physical
