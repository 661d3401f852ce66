import LoPhi.Data.DataStruct
import LoPhi.Network.Framing

/-! # The virtual disk sensor

`DiskSensorVirtual.get_disk_packet` reads packets off a connection to the introspection server: a
header of twenty bytes that ends with a size, then the data. The data is received in a loop; the
header is received once, and if it is not all there the sensor takes the server for gone and
connects again. -/

namespace LoPhi.Disk.Virtual
open LoPhi.Lib.Effect LoPhi.Lib.Struct LoPhi.Data.DataStruct
open LoPhi.Network.Framing (Exc Wire Socket)

/-- The sensor: `SOCK`, and how often it has connected. -/
structure Sensor where
  sock : Option Socket
  connects : Nat

/-- `_connect`. -/
def connect : Prog Exc Sensor Unit :=
  modify fun s => { sock := some ⟨0, 0⟩, connects := s.connects + 1 }

section
variable (wires : Nat → Wire)

/-- `self.SOCK.recv(n)` on the latest connection. The argument of `recv` is an `int` of C. -/
def recv (n : Nat) : Prog Exc Sensor (List UInt8) := fun s =>
  match s.sock with
  | none => (.error .attributeError, s)
  | some sock =>
    if n < 2 ^ 31 then
      ((Network.Framing.recv (wires s.connects) n sock).1,
        { s with sock := some (Network.Framing.recv (wires s.connects) n sock).2 })
    else (.error .overflowError, s)

/-- The loop that receives the data. Every turn but the last receives a byte, so `size` is enough
fuel. -/
def readData (size : Nat) : Nat → List UInt8 → Prog Exc Sensor (List UInt8)
  | 0, data => pure data
  | fuel + 1, data =>
    if data.length < size then do
      let tmp ← recv wires (size - data.length)
      if tmp.length = 0 then pure (data ++ tmp) else readData size fuel (data ++ tmp)
    else pure data

/-- The loop of `get_disk_packet`: a packet, or nothing without enough fuel. -/
def loop : Nat → Instance Scalar → Prog Exc Sensor (Option (Instance Scalar))
  | 0, _ => pure none
  | fuel + 1, access_packet => do
    let header ← recv wires (diskSensorPacket.len access_packet)
    if header.length < diskSensorPacket.len access_packet then do
      connect
      loop fuel access_packet
    else
      let access_packet := diskSensorPacket.init (some header)
      match access_packet.fields "size" with
      | .one (.int size) => do
        let data ← readData wires size.toNat size.toNat []
        if data.length < size.toNat then do
          connect
          loop fuel access_packet
        else pure (some { access_packet with data := some data })
      -- not after a header of twenty bytes
      | _ => raise .typeError

def getDiskPacket (fuel : Nat) : Prog Exc Sensor (Option (Instance Scalar)) := do
  let s ← get
  if s.sock.isNone then connect
  loop wires fuel (diskSensorPacket.init none)

/-- Successive calls of `get_disk_packet`. -/
def getDiskPackets (fuel : Nat) : Nat → Prog Exc Sensor (List (Option (Instance Scalar)))
  | 0 => pure []
  | n + 1 => do
    let packet ← getDiskPacket wires fuel
    let rest ← getDiskPackets fuel n
    pure (packet :: rest)

end

/-- A new sensor. -/
def start : Sensor := { sock := none, connects := 0 }

/-- A packet as the server sends it. -/
structure DiskPacket where
  header : List UInt8
  data : List UInt8
  length_header : header.length = 20
  size_eq : leNat (header.drop 16) = data.length

def DiskPacket.encode (p : DiskPacket) : List UInt8 := p.header ++ p.data

/-- What is returned for a packet. -/
def DiskPacket.value (p : DiskPacket) : Instance Scalar :=
  { diskSensorPacket.init (some p.header) with data := some p.data }

def content (packets : List DiskPacket) : List UInt8 := packets.flatMap DiskPacket.encode

/-- The first connection, on which the server sends the packets, and whatever comes after it.
`chunk` says how many bytes a `recv` finds. -/
def connection (packets : List DiskPacket) (chunk : Nat → Nat) (later : Nat → Wire) (i : Nat) :
    Wire :=
  if i ≤ 1 then
    { stream := content packets, chunk := chunk, delays := fun _ => 0, ending := .closed }
  else later i

/-- As many calls as there are packets return the packets, and the sensor has connected once. -/
def Delivers (packets : List DiskPacket) (chunk : Nat → Nat) (later : Nat → Wire) : Prop :=
  ∃ fuel s, getDiskPackets (connection packets chunk later) fuel packets.length start =
      (.ok (packets.map fun p => some p.value), s) ∧ s.connects ≤ 1

/-! ## One packet -/

theorem DiskPacket.length_encode (p : DiskPacket) : p.encode.length = 20 + p.data.length := by
  rw [DiskPacket.encode, List.length_append, p.length_header]

/-- What a complete header says. -/
theorem header_fields {header : List UInt8} (h : header.length = 20) :
    (diskSensorPacket.init (some header)).fields "size" =
        .one (.int (leNat (header.drop 16))) ∧
      (diskSensorPacket.init (some header)).data = none := by
  have hsize : diskSensorPacket.structSize = 20 := rfl
  have hdrop : (header.drop 16).length = 4 := by
    rw [List.length_drop]
    omega
  have hinit : diskSensorPacket.init (some header) = diskSensorPacket.unpack blank header := rfl
  rw [hinit, diskSensorPacket.unpack_long (by rw [h, hsize]), hsize, List.take_of_length_le h.le]
  constructor
  · simp [unpackFields, diskSensorPacket, formatString, Format.padded, Code.format, unsigned,
      ByteOrder.nat, List.take_of_length_le hdrop.le, Code.align]
  · rw [if_neg (by omega)]
    rfl

section Receive
variable {wires : Nat → Wire} {c : Nat} {before : List UInt8}

theorem recv_eq {n : Nat} {sock sock' : Socket} {result : Except Exc (List UInt8)} (hn : n < 2 ^ 31)
    (h : Network.Framing.recv (wires c) n sock = (result, sock')) :
    recv wires n ⟨some sock, c⟩ = (result, ⟨some sock', c⟩) := by
  unfold recv
  dsimp only
  rw [if_pos hn, h]

theorem recv_large {n : Nat} {sock : Socket} (hn : ¬ n < 2 ^ 31) :
    recv wires n ⟨some sock, c⟩ = (.error .overflowError, ⟨some sock, c⟩) := if_neg hn

/-- The data is received however it comes. -/
theorem readData_eq {after data todo : List UInt8} {size fuel : Nat}
    (hdelay : ∀ p, (wires c).delays p = 0) (hsize : size = data.length + todo.length)
    (hlimit : todo.length < 2 ^ 31) (hfuel : todo.length ≤ fuel)
    (hstream : (wires c).stream = before ++ (todo ++ after)) :
    readData wires size fuel data ⟨some ⟨before.length, 0⟩, c⟩ =
      (.ok (data ++ todo), ⟨some ⟨(before ++ todo).length, 0⟩, c⟩) := by
  induction fuel generalizing before data todo with
  | zero =>
    obtain rfl := List.eq_nil_of_length_eq_zero (Nat.le_zero.mp hfuel)
    rw [List.append_nil, List.append_nil]
    rfl
  | succ fuel ih =>
    unfold readData
    by_cases htodo : todo = []
    · subst htodo
      rw [List.length_nil] at hsize
      rw [if_neg (by omega), List.append_nil, List.append_nil]
      rfl
    · have hpos := List.length_pos_of_ne_nil htodo
      have hleft : size - data.length = todo.length := by omega
      rw [if_pos (by omega), hleft]
      obtain ⟨got, left, rfl, hgot, hrecv⟩ :=
        Network.Framing.recv_part hstream htodo (hdelay before.length).le
      have hgotPos := List.length_pos_of_ne_nil hgot
      refine (bind_ok (recv_eq hlimit hrecv)).trans ?_
      rw [List.length_append] at hfuel hsize hlimit
      rw [List.append_assoc, ← List.append_assoc] at hstream
      rw [if_neg (by omega), ← List.append_assoc, ← List.append_assoc]
      refine ih ?_ (by omega) (by omega) hstream
      rw [List.length_append]
      omega

variable {p : DiskPacket} {after : List UInt8}
  (hdelay : ∀ pos, (wires c).delays pos = 0)
  (hstream : (wires c).stream = before ++ (p.encode ++ after))
include hdelay hstream

/-- The first `recv` of a packet. -/
theorem recv_header :
    recv wires 20 ⟨some ⟨before.length, 0⟩, c⟩ =
      (.ok ((p.encode ++ after).take (max 1 (min ((wires c).chunk before.length) 20))),
        ⟨some ⟨(before ++ (p.encode ++ after).take
          (max 1 (min ((wires c).chunk before.length) 20))).length, 0⟩, c⟩) := by
  have hlen := p.length_encode
  refine recv_eq (by decide) (Network.Framing.recv_eq hstream ?_ (hdelay before.length).le 20)
  exact List.append_ne_nil_of_left_ne_nil (List.ne_nil_of_length_pos (by omega)) after

/-- A header that is all there leads to the data of its packet. -/
theorem loop_header (hchunk : 20 ≤ (wires c).chunk before.length) (fuel : Nat) :
    loop wires (fuel + 1) (diskSensorPacket.init none) ⟨some ⟨before.length, 0⟩, c⟩ =
      (do
        let data ← readData wires p.data.length p.data.length []
        if data.length < p.data.length then do
          connect
          loop wires fuel (diskSensorPacket.init (some p.header))
        else pure (some { diskSensorPacket.init (some p.header) with data := some data }) :
          Prog Exc Sensor _) ⟨some ⟨(before ++ p.header).length, 0⟩, c⟩ := by
  have hlen : diskSensorPacket.len (diskSensorPacket.init none) = 20 := rfl
  have hrecv := recv_header hdelay hstream
  rw [show max 1 (min ((wires c).chunk before.length) 20) = 20 by omega, DiskPacket.encode,
    List.append_assoc, List.take_left' p.length_header] at hrecv
  rw [loop, hlen]
  refine (bind_ok hrecv).trans ?_
  rw [if_neg (by rw [p.length_header]; decide)]
  dsimp only
  rw [(header_fields p.length_header).1, p.size_eq]
  rfl

theorem loop_whole (hchunk : 20 ≤ (wires c).chunk before.length)
    (hsize : p.data.length < 2 ^ 31) (fuel : Nat) :
    loop wires (fuel + 1) (diskSensorPacket.init none) ⟨some ⟨before.length, 0⟩, c⟩ =
      (.ok (some p.value), ⟨some ⟨(before ++ p.encode).length, 0⟩, c⟩) := by
  rw [loop_header hdelay hstream hchunk]
  rw [DiskPacket.encode, List.append_assoc, ← List.append_assoc] at hstream
  have hdata : readData wires p.data.length p.data.length [] _ = _ :=
    readData_eq hdelay (Nat.zero_add _).symm hsize (Nat.le_refl _) hstream
  rw [List.nil_append, List.append_assoc] at hdata
  exact (bind_ok hdata).trans (congrFun (if_neg (Nat.lt_irrefl _)) _)

/-- The size of a packet that is too large for `recv`. -/
theorem loop_large (hchunk : 20 ≤ (wires c).chunk before.length)
    (hsize : ¬ p.data.length < 2 ^ 31) (fuel : Nat) :
    (loop wires (fuel + 1) (diskSensorPacket.init none) ⟨some ⟨before.length, 0⟩, c⟩).1 =
      .error .overflowError := by
  rw [loop_header hdelay hstream hchunk]
  have hdata : readData wires p.data.length p.data.length []
      ⟨some ⟨(before ++ p.header).length, 0⟩, c⟩ =
        (.error .overflowError, ⟨some ⟨(before ++ p.header).length, 0⟩, c⟩) := by
    obtain ⟨more, hmore⟩ := Nat.exists_eq_succ_of_ne_zero (show p.data.length ≠ 0 by omega)
    rw [hmore, readData, if_pos (by rw [List.length_nil]; omega)]
    refine bind_error (recv_large ?_)
    rw [List.length_nil]
    omega
  rw [bind_error hdata]

end Receive

/-! ## Connecting again -/

section Connects
variable {wires : Nat → Wire}

/-- The sensor has connected as often as before, or again. -/
def Onward (s s' : Sensor) : Prop := s.connects ≤ s'.connects

theorem onward_composes : Composes Onward := ⟨fun _ => Nat.le_refl _, Nat.le_trans⟩

/-- A `recv` stays on its connection. -/
theorem recv_connects (n : Nat) (s : Sensor) : (recv wires n s).2.connects = s.connects := by
  unfold recv
  split
  · rfl
  · split <;> rfl

theorem keeps_recv (n : Nat) : Keeps Onward (recv wires n) := fun s => (recv_connects n s).ge

theorem keeps_connect : Keeps Onward (connect : Prog Exc Sensor Unit) := fun _ => Nat.le_succ _

theorem keeps_readData (size fuel : Nat) (data : List UInt8) :
    Keeps Onward (readData wires size fuel data) := by
  induction fuel generalizing data with
  | zero => exact keeps_pure onward_composes data
  | succ fuel ih =>
    unfold readData
    split
    · refine keeps_bind onward_composes (keeps_recv _) fun tmp => ?_
      split
      · exact keeps_pure onward_composes _
      · exact ih _
    · exact keeps_pure onward_composes data

theorem keeps_loop (fuel : Nat) (o : Instance Scalar) : Keeps Onward (loop wires fuel o) := by
  induction fuel generalizing o with
  | zero => exact keeps_pure onward_composes none
  | succ fuel ih =>
    unfold loop
    refine keeps_bind onward_composes (keeps_recv _) fun header => ?_
    split
    · exact keeps_bind onward_composes keeps_connect fun _ => ih o
    · dsimp only
      split
      · refine keeps_bind onward_composes (keeps_readData _ _ _) fun data => ?_
        split
        · exact keeps_bind onward_composes keeps_connect fun _ => ih _
        · exact keeps_pure onward_composes _
      · exact keeps_raise onward_composes _

theorem keeps_getDiskPacket (fuel : Nat) : Keeps Onward (getDiskPacket wires fuel) := by
  refine keeps_bind onward_composes (keeps_get onward_composes) fun s => ?_
  dsimp only
  split
  · exact keeps_bind onward_composes keeps_connect fun _ => keeps_loop fuel _
  · exact keeps_loop fuel _

theorem keeps_getDiskPackets (wires : Nat → Wire) (fuel n : Nat) :
    Keeps Onward (getDiskPackets wires fuel n) := by
  induction n with
  | zero => exact keeps_pure onward_composes []
  | succ n ih =>
    refine keeps_bind onward_composes (keeps_getDiskPacket fuel) fun packet => ?_
    exact keeps_bind onward_composes ih fun rest => keeps_pure onward_composes _

/-- A header that is not all there is taken for the end of the connection. -/
theorem loop_split {c : Nat} {before after : List UInt8} {p : DiskPacket}
    (hdelay : ∀ pos, (wires c).delays pos = 0)
    (hstream : (wires c).stream = before ++ (p.encode ++ after))
    (hchunk : ¬ 20 ≤ (wires c).chunk before.length) (fuel : Nat) :
    c < (loop wires (fuel + 1) (diskSensorPacket.init none)
      ⟨some ⟨before.length, 0⟩, c⟩).2.connects := by
  have hlen : diskSensorPacket.len (diskSensorPacket.init none) = 20 := rfl
  have hshort : ((p.encode ++ after).take
      (max 1 (min ((wires c).chunk before.length) 20))).length < 20 := by
    rw [List.length_take]
    omega
  rw [loop, hlen, bind_ok (recv_header hdelay hstream), if_pos hshort]
  have hlater : ∀ s : Sensor, (connect s : Except Exc Unit × Sensor).2.connects ≤
      ((connect >>= fun _ => loop wires fuel (diskSensorPacket.init none)) s).2.connects :=
    fun s => bind_after onward_composes (fun _ => keeps_loop fuel _) s
  exact hlater ⟨some ⟨_, 0⟩, c⟩

end Connects

/-! ## All packets -/

section Packets
variable {wires : Nat → Wire} {before : List UInt8} {packets : List DiskPacket}

/-- The first call connects. -/
theorem getDiskPackets_start (fuel n : Nat) :
    getDiskPackets wires fuel (n + 1) start =
      getDiskPackets wires fuel (n + 1) ⟨some ⟨0, 0⟩, 1⟩ :=
  rfl

theorem getDiskPacket_connected (fuel c : Nat) (sock : Socket) :
    getDiskPacket wires fuel ⟨some sock, c⟩ =
      loop wires fuel (diskSensorPacket.init none) ⟨some sock, c⟩ := rfl

theorem getDiskPackets_succ {fuel n : Nat} {s s₁ : Sensor} {packet : Option (Instance Scalar)}
    (h : getDiskPacket wires fuel s = (.ok packet, s₁)) (rest : List (Option (Instance Scalar)))
    (s₂ : Sensor) :
    getDiskPackets wires fuel (n + 1) s = (.ok (packet :: rest), s₂) ↔
      getDiskPackets wires fuel n s₁ = (.ok rest, s₂) := by
  rw [getDiskPackets, bind_ok h]
  cases hrest : getDiskPackets wires fuel n s₁ with
  | mk result s' =>
    cases result with
    | error e =>
      rw [bind_error hrest]
      exact ⟨fun heq => (by cases heq), fun heq => (by cases heq)⟩
    | ok other =>
      rw [bind_ok hrest]
      constructor
      · intro heq
        cases heq
        rfl
      · intro heq
        cases heq
        rfl

/-- What every header of the packets and every size must be. -/
def Clear (chunk : Nat → Nat) (offset : Nat) (packets : List DiskPacket) : Prop :=
  (∀ i < packets.length, 20 ≤ chunk (offset + (content (packets.take i)).length)) ∧
    ∀ p ∈ packets, p.data.length < 2 ^ 31

theorem clear_cons {chunk : Nat → Nat} {p : DiskPacket} :
    Clear chunk before.length (p :: packets) ↔
      (20 ≤ chunk before.length ∧ p.data.length < 2 ^ 31) ∧
        Clear chunk (before ++ p.encode).length packets := by
  have hshift : ∀ i, before.length + (content ((p :: packets).take (i + 1))).length =
      (before ++ p.encode).length + (content (packets.take i)).length := by
    intro i
    rw [List.take_succ_cons, content, List.flatMap_cons, List.length_append, List.length_append,
      Nat.add_assoc]
    rfl
  unfold Clear
  rw [List.forall_mem_cons]
  constructor
  · rintro ⟨hchunk, hsize, hsizes⟩
    refine ⟨⟨hchunk 0 (Nat.succ_pos _), hsize⟩, fun i hi => ?_, hsizes⟩
    rw [← hshift]
    exact hchunk (i + 1) (Nat.succ_lt_succ hi)
  · rintro ⟨⟨hfirst, hsize⟩, hchunk, hsizes⟩
    refine ⟨fun i hi => ?_, hsize, hsizes⟩
    cases i with
    | zero => exact hfirst
    | succ i =>
      rw [hshift]
      exact hchunk i (Nat.lt_of_succ_lt_succ hi)

variable (hdelay : ∀ pos, (wires 1).delays pos = 0)
include hdelay

theorem getDiskPackets_clear (hstream : (wires 1).stream = before ++ content packets)
    (h : Clear (wires 1).chunk before.length packets) (fuel : Nat) :
    ∃ s, getDiskPackets wires (fuel + 1) packets.length ⟨some ⟨before.length, 0⟩, 1⟩ =
      (.ok (packets.map fun p => some p.value), s) ∧ s.connects = 1 := by
  induction packets generalizing before with
  | nil => exact ⟨_, rfl, rfl⟩
  | cons p packets ih =>
    obtain ⟨⟨hchunk, hsize⟩, hrest⟩ := clear_cons.mp h
    have hfirst : (wires 1).stream = before ++ (p.encode ++ content packets) := hstream
    obtain ⟨s, hs, hconnects⟩ := ih (hfirst.trans (List.append_assoc _ _ _).symm) hrest
    refine ⟨s, ?_, hconnects⟩
    have hcall := loop_whole hdelay hfirst hchunk hsize fuel
    exact (getDiskPackets_succ ((getDiskPacket_connected _ _ _).trans hcall) _ s).mpr hs

theorem clear_of_getDiskPackets (hstream : (wires 1).stream = before ++ content packets)
    {fuel : Nat} {s : Sensor}
    (h : getDiskPackets wires fuel packets.length ⟨some ⟨before.length, 0⟩, 1⟩ =
      (.ok (packets.map fun p => some p.value), s)) (hconnects : s.connects ≤ 1) :
    Clear (wires 1).chunk before.length packets := by
  induction packets generalizing before with
  | nil => exact ⟨fun i hi => absurd hi (Nat.not_lt_zero i), fun p hp => absurd hp List.not_mem_nil⟩
  | cons p packets ih =>
    have hfirst : (wires 1).stream = before ++ (p.encode ++ content packets) := hstream
    obtain ⟨packet, s₁, hcall, hrest⟩ := bind_returns h
    cases fuel with
    | zero =>
      cases hcall
      obtain ⟨rest, s₂, hlater, hpure⟩ := bind_returns hrest
      cases hpure
    | succ fuel =>
      rw [getDiskPacket_connected] at hcall
      by_cases hchunk : 20 ≤ (wires 1).chunk before.length
      · by_cases hsize : p.data.length < 2 ^ 31
        · have hwhole := loop_whole hdelay hfirst hchunk hsize fuel
          have hmore :=
            (getDiskPackets_succ ((getDiskPacket_connected _ _ _).trans hwhole) _ s).mp h
          exact clear_cons.mpr ⟨⟨hchunk, hsize⟩,
            ih (hfirst.trans (List.append_assoc _ _ _).symm) hmore⟩
        · have hlarge := loop_large hdelay hfirst hchunk hsize fuel
          rw [hcall] at hlarge
          cases hlarge
      · have hagain := loop_split hdelay hfirst hchunk fuel
        have hkeeps := keeps_bind onward_composes (keeps_getDiskPackets wires (fuel + 1)
          packets.length) (fun rest => keeps_pure onward_composes (packet :: rest)) s₁
        rw [hrest] at hkeeps
        rw [hcall] at hagain
        dsimp only [Onward] at hkeeps hagain
        omega

end Packets

/-- The calls return the packets exactly when every header and every size is clear. -/
theorem delivers_clear (packets : List DiskPacket) (chunk : Nat → Nat) (later : Nat → Wire) :
    Delivers packets chunk later ↔ Clear chunk 0 packets := by
  cases packets with
  | nil =>
    refine iff_of_true ⟨0, start, rfl, Nat.zero_le 1⟩ ⟨fun i hi => ?_, fun p hp => ?_⟩
    · exact absurd hi (Nat.not_lt_zero i)
    · exact absurd hp List.not_mem_nil
  | cons p packets =>
    have hsent : (connection (p :: packets) chunk later 1).stream =
        [] ++ content (p :: packets) := rfl
    constructor
    · rintro ⟨fuel, s, hcalls, hconnects⟩
      rw [List.length_cons, getDiskPackets_start] at hcalls
      exact clear_of_getDiskPackets (fun _ => rfl) hsent hcalls hconnects
    · intro h
      obtain ⟨s, hcalls, hconnects⟩ := getDiskPackets_clear (fun _ => rfl) hsent h 0
      rw [List.length_nil, List.length_cons, ← getDiskPackets_start] at hcalls
      exact ⟨1, s, hcalls, hconnects.le⟩

/-- **The calls return the packets that are sent, on one connection, if and only if** every header
arrives whole in one `recv` and no size is too large for one. -/
theorem delivers_iff (packets : List DiskPacket) (chunk : Nat → Nat) (later : Nat → Wire) :
    Delivers packets chunk later ↔
      (∀ i < packets.length, 20 ≤ chunk (content (packets.take i)).length) ∧
        ∀ p ∈ packets, p.data.length < 2 ^ 31 := by
  rw [delivers_clear, Clear]
  simp only [Nat.zero_add]

/-- A packet with two bytes of data. -/
def twoBytes : DiskPacket where
  header := List.replicate 16 0 ++ [2, 0, 0, 0]
  data := [7, 8]
  length_header := rfl
  size_eq := rfl

/-- A connection on which nothing comes. -/
def silent : Wire := { stream := [], chunk := fun _ => 0, delays := fun _ => 0, ending := .closed }

/-- The first `recv` returns twelve bytes of the header, and the sensor connects again. -/
theorem not_delivers_split :
    ¬ Delivers [twoBytes] (fun pos => if pos = 0 then 12 else 20) fun _ => silent := by
  rw [delivers_clear]
  intro h
  exact absurd (h.1 0 (by decide)) (by decide)

end LoPhi.Disk.Virtual
