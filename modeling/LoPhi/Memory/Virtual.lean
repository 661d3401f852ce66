import LoPhi.Lib.Struct
import LoPhi.Lib.Window

/-! # Reads of a virtual machine's memory

`MemorySensorVirtual._read_from_sensor` sends a request over a local stream socket to
a thread of the hypervisor, which answers with the bytes and a success byte, or with
a single byte. The stream is reliable: what is written arrives, in order and in time
for the timeout of the first `recv`. How many of the waiting bytes a `recv` returns is
up to the system. -/

namespace LoPhi.Memory.Virtual
open LoPhi.Lib.Python LoPhi.Lib.Struct LoPhi.Lib.Window

/-- `struct request`, and `KvmMemRequest` on the other side. -/
structure Request where
  type : Nat
  address : Nat
  length : Nat
  deriving DecidableEq, Repr

/-! ## The hypervisor -/

/-- What the handler meets: guest memory, what `cpu_physical_memory_map` gives for each
request (nothing, or how many bytes from the address on it has mapped, at most as many
as asked for) and the bytes that happen to be in the buffer it allocates. -/
structure Hypervisor where
  mem : Nat → UInt8
  map : Nat → (address length : Nat) → Option (Fin (length + 1))
  heap : Nat → Nat → UInt8

/-- The value of an expression assigned to an `int`. -/
def toInt (n : Int) : Int := n.bmod (2 ^ 32)

/-- `connection_read_memory` for the `i`-th request: how many bytes it copied, and the
buffer. -/
def connectionReadMemory (h : Hypervisor) (i address length : Nat) : Nat × (Nat → UInt8) :=
  match h.map i address length with
  | none => (0, h.heap i)
  | some len => (len, fun k => if k < len then h.mem (address + k) else h.heap i k)

/-- The read branch of `connection_handler`: what it writes to the connection. The
comparison is between an `int` and a `uint64_t`, and `nbytes + 1` is an `int` again. -/
def readReply (h : Hypervisor) (i address length : Nat) : List UInt8 :=
  let (len, buf) := connectionReadMemory h i address length
  let nbytes := toInt len
  if nbytes % 2 ^ 64 ≠ length then
    window (fun k => if k = length then 0 else buf k) 0 1
  else
    window (fun k => if k = length then 1 else buf k) 0 (toInt (nbytes + 1)).toNat

/-- The bytes of a `struct request`: one byte and seven of padding, then two words. -/
def decodeRequest (bytes : List UInt8) : Request :=
  { type := leNat (bytes.take 1)
    address := leNat ((bytes.drop 8).take 8)
    length := leNat ((bytes.drop 16).take 8) }

/-- The answer to a message. Only read requests are sent here. -/
def connectionHandler (h : Hypervisor) (i : Nat) (message : List UInt8) : List UInt8 :=
  let req := decodeRequest message
  if req.type = 1 then readReply h i req.address req.length else []

/-! ## The client -/

/-- `repr` of a `KvmMemRequest`. -/
def packRequest (req : Request) : Except PyError (List UInt8) :=
  packNative [(8, req.type), (8, req.address), (8, req.length)]

/-- The connection: the bytes on their way to the client, and how many requests were
sent and `recv`s made on it and its predecessors. -/
structure Link where
  pending : List UInt8 := []
  requests : Nat := 0
  recvs : Nat := 0

/-- How many bytes a `recv` of at most `limit` bytes returns when `waiting` are there. -/
def recvCount (sched : Nat → Nat) (t limit waiting : Nat) : Nat :=
  max 1 (min (sched t) (min limit waiting))

/-- The loop over `recv`. Without waiting bytes it blocks for good: the handler is
waiting too. Every turn receives a byte, so `read_len + 1` is enough fuel. -/
def recvLoop (sched : Nat → Nat) (readLen : Nat) : Nat → Link → List UInt8 →
    Option (List UInt8 × Link)
  | 0, link, read => some (read, link)
  | fuel + 1, link, read =>
    if read.length < readLen + 1 then
      if link.pending = [] then none
      else
        let k := recvCount sched link.recvs (readLen + 1 - read.length) link.pending.length
        let read := read ++ link.pending.take k
        let read := if read = [0xff] then List.replicate readLen 0xff ++ [1] else read
        recvLoop sched readLen fuel
          { link with pending := link.pending.drop k, recvs := link.recvs + 1 } read
    else some (read, link)

/-- One of the attempts. An exception (a `recv` of more than an `int` can say) closes the
connection, and the next attempt opens a new one. -/
def attempt (h : Hypervisor) (sched : Nat → Nat) (message : List UInt8) (readLen : Nat)
    (link : Link) : Option (List UInt8 × Link) :=
  if 2 ^ 31 ≤ readLen + 1 then
    some ([], { link with pending := [], requests := link.requests + 1 })
  else
    recvLoop sched readLen (readLen + 1)
      { link with
        pending := link.pending ++ connectionHandler h link.requests message
        requests := link.requests + 1 } []

/-- The `for` loop. It has no `break`: a good answer is asked for again. -/
def attempts (h : Hypervisor) (sched : Nat → Nat) (message : List UInt8) (readLen : Nat) :
    Nat → List UInt8 → Link → Option (List UInt8 × Link)
  | 0, read, link => some (read, link)
  | n + 1, _, link =>
    match attempt h sched message readLen link with
    | none => none
    | some (read, link) => attempts h sched message readLen n read link

/-- How a call ends, if it does. -/
inductive Outcome where
  | returned (data : Option (List UInt8))
  | raised (e : PyError)
  | blocked
  deriving DecidableEq, Repr

/-- `status == 0`: a string of one character is never equal to a number. -/
def statusIsZero (_status : Option UInt8) : Bool := false

/-- The end of `_read_from_sensor`: the status byte is cut off. -/
def extract (readLen : Nat) (read : List UInt8) : Option (List UInt8) :=
  if read.length ≠ readLen + 1 then none
  else if statusIsZero read.getLast? then none
  else some (dropEnd 1 read)

/-- `_read_from_sensor`, on a connection without leftovers. Assigning a field of the request that
does not fit raises before the first attempt. -/
def readFromSensor (h : Hypervisor) (sched : Nat → Nat) (address readLen : Nat) : Outcome :=
  match packRequest ⟨1, address, readLen⟩ with
  | .error e => .raised e
  | .ok message =>
    match attempts h sched message readLen 3 [] {} with
    | none => .blocked
    | some (read, _) => .returned (extract readLen read)

end LoPhi.Memory.Virtual
