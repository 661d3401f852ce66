import LoPhi.Lib.Dict
import LoPhi.Lib.Machine

/-! # The network services of a PXE boot

A DHCP server (`DHCPD`) and an access-control server (`ACLServer`) share three
dictionaries: who may boot from the network, which address a machine has, which
boot configuration it wants. The DHCP server keeps two things of its own: the
first address of its pool, and the boot file it last offered to each machine.

One step is one message, handled to its end. A handler gives the services after
it and what it sent or raised; both servers catch every exception in their
receive loops, so a raise ends the handling of one message and keeps what was
done before. Log lines are left out. -/

namespace LoPhi.Pxe.Dhcpd
open LoPhi.Lib

/-! ## Messages -/

/-- A hardware address as text, the key of every dictionary. -/
abbrev Mac := List Char

/-- What the handlers read of a DHCP packet. -/
structure DhcpPacket where
  /-- `GetHardwareAddress()`. -/
  hardware : List Nat
  /-- The option `vendor_class_identifier`, if it is there. -/
  vendorClass : Option (List Char) := none
  giaddr : List Nat := [0, 0, 0, 0]
  deriving DecidableEq, Repr

/-- `fmtHex`. -/
def fmtHex (input : Nat) : List Char :=
  let input := Nat.toDigits 16 input
  if input.length = 1 then '0' :: input else input

/-- `":".join(map(self.fmtHex, packet.GetHardwareAddress()))`. -/
def macAddr (packet : DhcpPacket) : Mac := List.intercalate [':'] (packet.hardware.map fmtHex)

/-- The vendor class starts with `PXEClient`. -/
def isPxeClient (identifier : List Char) : Bool := identifier.take 9 = "PXEClient".toList

/-- The fields and options the handlers set in a reply. -/
inductive Field where
  | flags | giaddr | yiaddr | ciaddr | siaddr | file | sname
  | vendorClassIdentifier | serverIdentifier | ipAddressLeaseTime | renewalTimeValue
  | rebindingTimeValue | subnetMask | broadcastAddress | router | domainNameServer
  deriving DecidableEq, Repr

/-- `DhcpFields`: the fields of fixed length. -/
def Field.fixedLength : Field → Option Nat
  | .flags => some 2
  | .giaddr | .yiaddr | .ciaddr | .siaddr => some 4
  | .file => some 128
  | .sname => some 64
  | _ => none

inductive Kind where
  | offer
  | ack
  deriving DecidableEq, Repr

/-- A reply: its kind, and what the handler set in it. -/
structure Reply where
  kind : Kind
  fields : List (Field × List Nat)
  deriving DecidableEq, Repr

/-- `SetMultipleOptions` and `SetOption`: a value of the wrong length for a fixed
field is refused, and the field stays as it was. -/
def setOptions (kind : Kind) (fields : List (Field × List Nat)) : Reply :=
  ⟨kind, fields.filter fun p => p.1.fixedLength.all (· = p.2.length)⟩

/-- The exceptions the handlers can raise. -/
inductive Raised where
  | keyError
  | indexError
  | valueError
  deriving DecidableEq, Repr

/-- What one message leads to. -/
inductive Output where
  | nothing
  | sent (reply : Reply)
  | answered (text : List Char)
  | raised (e : Raised)
  deriving DecidableEq, Repr

/-- `SendDhcpPacketTo`. Encoding the packet turns every value into a byte. -/
def sendDhcpPacketTo (reply : Reply) : Output :=
  if reply.fields.all fun p => p.2.all (· < 256) then .sent reply else .raised .valueError

/-! ## The services -/

/-- An address as a list of octets, `[192, 168, 1, 100]`. -/
structure Ip where
  a : Nat
  b : Nat
  c : Nat
  d : Nat
  deriving DecidableEq, Repr

def Ip.octets (ip : Ip) : List Nat := [ip.a, ip.b, ip.c, ip.d]

/-- `ip[3] += i`. -/
def Ip.advance (ip : Ip) (i : Nat) : Ip := { ip with d := ip.d + i }

/-- The settings the handlers read. -/
structure Config where
  listenAddress : List Nat
  tftpAddress : List Nat
  subnetMask : List Nat
  broadcast : List Nat
  filename : List Char

/-- The pool: `start_ip`, `pool_size` and the shared dictionary `mac_to_ip`. -/
structure Leases where
  startIp : Ip
  poolSize : Nat
  macToIp : Dict Mac Ip

structure Services where
  config : Config
  leases : Leases
  acl : Dict Mac Bool
  macToPxeConf : Dict Mac (List Char)
  macToBootfile : Dict Mac (List Char)

/-- The services when they start. -/
def Services.init (config : Config) (ipStart : Ip) (poolSize : Nat) : Services where
  config := config
  leases := ⟨ipStart, poolSize, .empty⟩
  acl := .empty
  macToPxeConf := .empty
  macToBootfile := .empty

/-! ## Addresses -/

/-- The loop of `GetFreeIP`: `ip` is `self.start_ip` itself, so each round moves the
start of the pool. -/
def scan (taken : List Ip) : (left i : Nat) → Ip → Ip × Option Ip
  | 0, _, startIp => (startIp, none)
  | left + 1, i, startIp =>
    let ip := startIp.advance i
    if taken.contains ip then scan taken left (i + 1) ip else (ip, some ip)

/-- `GetFreeIP`. -/
def getFreeIP (l : Leases) : Leases × Option Ip :=
  let (startIp, found) := scan l.macToIp.values l.poolSize 0 l.startIp
  ({ l with startIp := startIp }, found)

/-- How both handlers choose the address: the one the machine has, or a free one,
which is then stored. The dictionary keeps a copy of the list. -/
def assignIp (l : Leases) (mac : Mac) : Leases × Option Ip :=
  let (l, prospectiveIp) := match l.macToIp.get? mac with
    | some ip => (l, some ip)
    | none => getFreeIP l
  match prospectiveIp with
  | none => (l, none)
  | some ip => ({ l with macToIp := l.macToIp.insert mac ip }, some ip)

/-- `HandleDhcpDecline` and `HandleDhcpRelease`, the same body twice. -/
def removeIp (l : Leases) (mac : Mac) : Leases :=
  { l with macToIp := l.macToIp.erase mac }

/-! ## Replies -/

/-- The value of `file`: the name padded with NULs to 128 characters. -/
def fileField (name : List Char) : List Nat :=
  (name ++ List.replicate (128 - name.length) '\x00').map Char.toNat

/-- `"unknown.localdomain".ljust(64, "\0")`. -/
def snameField : List Nat :=
  ("unknown.localdomain".toList ++ List.replicate 45 '\x00').map Char.toNat

/-- The offer to a PXE client. -/
def pxeOffer (c : Config) (ip : Ip) (bootfile : List Char) : Reply :=
  setOptions .offer
    [(.flags, [0, 0]), (.giaddr, [0, 0, 0, 0]), (.yiaddr, ip.octets), (.ciaddr, [0, 0, 0, 0]),
      (.siaddr, c.tftpAddress), (.file, fileField bootfile), (.sname, snameField),
      (.serverIdentifier, c.listenAddress), (.ipAddressLeaseTime, [0, 1, 81, 128]),
      (.subnetMask, c.subnetMask), (.router, c.listenAddress)]

/-- The acknowledgement to a PXE client. -/
def pxeAck (c : Config) (giaddr : List Nat) (ip : Ip) (bootfile : List Char) : Reply :=
  setOptions .ack
    [(.flags, [0, 0]), (.giaddr, giaddr), (.yiaddr, ip.octets), (.siaddr, c.tftpAddress),
      (.vendorClassIdentifier, "PXEClient".toList.map Char.toNat), (.file, fileField bootfile),
      (.sname, snameField), (.serverIdentifier, c.listenAddress),
      (.ipAddressLeaseTime, [0, 1, 81, 128]), (.subnetMask, c.subnetMask),
      (.router, c.listenAddress)]

/-- The offer to any other client. -/
def plainOffer (c : Config) (ip : Ip) : Reply :=
  setOptions .offer
    [(.giaddr, [0, 0, 0, 0]), (.yiaddr, ip.octets), (.ciaddr, [0, 0, 0, 0]),
      (.siaddr, c.listenAddress), (.serverIdentifier, c.listenAddress),
      (.ipAddressLeaseTime, [0, 0, 0xe, 0x10]), (.renewalTimeValue, [0, 0, 0x7, 0x8]),
      (.rebindingTimeValue, [0, 0, 0xc, 0x4e]), (.subnetMask, c.subnetMask),
      (.broadcastAddress, c.broadcast), (.router, c.listenAddress),
      (.domainNameServer, c.listenAddress)]

/-- The acknowledgement to any other client. -/
def plainAck (c : Config) (giaddr : List Nat) (ip : Ip) : Reply :=
  setOptions .ack
    [(.giaddr, giaddr), (.yiaddr, ip.octets), (.ciaddr, [0, 0, 0, 0]),
      (.siaddr, c.listenAddress), (.serverIdentifier, c.listenAddress),
      (.ipAddressLeaseTime, [0, 255, 255, 255]), (.renewalTimeValue, [0, 255, 255, 255]),
      (.rebindingTimeValue, [0, 255, 255, 255]), (.subnetMask, c.subnetMask),
      (.broadcastAddress, c.broadcast), (.router, c.listenAddress),
      (.domainNameServer, c.listenAddress)]

/-! ## Handlers -/

/-- The boot file a machine without access is told. -/
def noPxeAccess : List Char := "lophi_no_pxe_access".toList

/-- `HandleDhcpDiscover`. A packet without a vendor class gets its address and no
reply. -/
def handleDhcpDiscover (s : Services) (packet : DhcpPacket) : Services × Output :=
  let mac := macAddr packet
  match assignIp s.leases mac with
  | (l, none) => ({ s with leases := l }, .nothing)
  | (l, some ip) =>
    let s := { s with leases := l }
    match packet.vendorClass with
    | none => (s, .nothing)
    | some identifier =>
      if isPxeClient identifier then
        let bootfile := if (s.acl.get? mac).isSome then s.config.filename else noPxeAccess
        ({ s with macToBootfile := s.macToBootfile.insert mac bootfile },
          sendDhcpPacketTo (pxeOffer s.config ip bootfile))
      else (s, sendDhcpPacketTo (plainOffer s.config ip))

/-- `HandleDhcpRequest`. The grant is used up here, whatever boot file the machine was
offered. -/
def handleDhcpRequest (s : Services) (packet : DhcpPacket) : Services × Output :=
  let mac := macAddr packet
  match assignIp s.leases mac with
  | (l, none) => ({ s with leases := l }, .nothing)
  | (l, some ip) =>
    let s := { s with leases := l }
    match packet.vendorClass with
    | none => (s, .nothing)
    | some identifier =>
      if isPxeClient identifier then
        let s := { s with acl := s.acl.erase mac }
        match s.macToBootfile.get? mac with
        | none => (s, .raised .keyError)
        | some bootfile => (s, sendDhcpPacketTo (pxeAck s.config packet.giaddr ip bootfile))
      else (s, sendDhcpPacketTo (plainAck s.config packet.giaddr ip))

/-- `HandleDhcpDecline`, `HandleDhcpRelease`. -/
def handleDhcpDecline (s : Services) (packet : DhcpPacket) : Services × Output :=
  ({ s with leases := removeIp s.leases (macAddr packet) }, .nothing)

/-! ## The access-control server -/

/-- `".".join(map(str, ip))`. -/
def dotted (ip : Ip) : List Char := List.intercalate ['.'] (ip.octets.map (Nat.toDigits 10))

def lower (text : List Char) : List Char := text.map Char.toLower

/-- `process_acl_request`. -/
def processAclRequest (s : Services) (data : List Char) : Services × Output :=
  match data.splitOn ' ' with
  | [] => (s, .nothing)
  | cmd :: rest =>
    if cmd = "addacl".toList then
      match rest with
      | [] => (s, .raised .indexError)
      | mac :: _ => ({ s with acl := s.acl.insert (lower mac) true }, .nothing)
    else if cmd = "delacl".toList then
      match rest with
      | [] => (s, .raised .indexError)
      | mac :: _ => ({ s with acl := s.acl.erase (lower mac) }, .nothing)
    else if cmd = "getip".toList then
      match rest with
      | [] => (s, .raised .indexError)
      | mac :: _ =>
        match s.leases.macToIp.get? (lower mac) with
        | some ip => (s, .answered (dotted ip))
        | none => (s, .answered "NO_IP".toList)
    else if cmd = "addpxe".toList then
      match rest with
      | mac :: conf :: _ =>
        ({ s with macToPxeConf := s.macToPxeConf.insert (lower mac) conf }, .nothing)
      | _ => (s, .raised .indexError)
    else (s, .nothing)

/-! ## Runs -/

/-- A message to one of the two servers. -/
inductive Message where
  | discover (packet : DhcpPacket)
  | request (packet : DhcpPacket)
  | decline (packet : DhcpPacket)
  | release (packet : DhcpPacket)
  | acl (data : List Char)
  deriving DecidableEq, Repr

/-- The machine that asks for an address with the message. -/
def Message.asks : Message → Option Mac
  | .discover packet => some (macAddr packet)
  | .request packet => some (macAddr packet)
  | _ => none

/-- The machine that gives its address back with the message. -/
def Message.givesBack : Message → Option Mac
  | .decline packet => some (macAddr packet)
  | .release packet => some (macAddr packet)
  | _ => none

def step (s : Services) : Message → Services × Output
  | .discover packet => handleDhcpDiscover s packet
  | .request packet => handleDhcpRequest s packet
  | .decline packet => handleDhcpDecline s packet
  | .release packet => handleDhcpDecline s packet
  | .acl data => processAclRequest s data

/-- Settings of a test network. -/
def testConfig : Config where
  listenAddress := [10, 0, 0, 1]
  tftpAddress := [10, 0, 0, 1]
  subnetMask := [255, 255, 255, 0]
  broadcast := [10, 0, 0, 255]
  filename := "pxelinux.0".toList

end LoPhi.Pxe.Dhcpd
