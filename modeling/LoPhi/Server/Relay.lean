import LoPhi.Hypervisor.Hooks

/-! # The relay of the disk introspection server

`hypervisor_connection` of `dis_hypervisor.c` reads the packets of a guest into a buffer, and
`forward_data` sends each on to the client that is attached. -/

namespace LoPhi.Server.Relay
open LoPhi.Lib.Struct LoPhi.Hypervisor

/-- `MAX_BYTES_SENT`. -/
def maxBytesSent : Nat := 512 * 1024

/-- `sizeof(DiskIntrospectionHeader)`. -/
def headerSize : Nat := 20

/-- `sizeof(DiskIntrospectionMetaStruct)`. -/
def metaSize : Nat := 1028

/-- `BUFFER_SIZE`. -/
def bufferSize : Nat := maxBytesSent + headerSize

/-- Four bytes as an `int32_t`. -/
def int32 (bytes : List UInt8) : Int := (BitVec.ofNat 32 (leNat bytes)).toInt

/-- `DiskIntrospectionHeader`, as the server takes it from its buffer. -/
structure Header where
  sector : Nat
  numSectors : Int
  op : Nat
  size : Int
  deriving DecidableEq, Repr

def parseHeader (buffer : List UInt8) : Header where
  sector := leNat (buffer.take 8)
  numSectors := int32 ((buffer.drop 8).take 4)
  op := leNat ((buffer.drop 12).take 4)
  size := int32 ((buffer.drop 16).take 4)

/-- `packetSize`. -/
def Header.packetSize (h : Header) : Int := h.size + headerSize

/-- Why a connection is dropped. -/
inductive Refusal where
  | tooBig
  | badOperation
  | badSector
  | allZeros
  deriving DecidableEq, Repr

/-- The checks of `hypervisor_connection`, in their order. -/
def Header.check (h : Header) : Option Refusal :=
  if h.size > maxBytesSent then some .tooBig
  else if h.op ≠ DiskOperation.invalid.code ∧ h.op ≠ DiskOperation.write.code ∧
      h.op ≠ DiskOperation.read.code then some .badOperation
  else if h.size.tmod 512 ≠ 0 then some .badSector
  else if h.sector = 0 ∧ h.numSectors = 0 ∧ h.op = 0 ∧ h.size = 0 then some .allZeros
  else none

/-- The connection of a guest: what it writes until it closes, and how much of it is there
for a `read` at a position. -/
structure Guest where
  stream : List UInt8
  chunk : Nat → Nat

/-- What the thread has done: how far it has read, where in its buffer it read to and how
much at most, what it has sent to the client and in how many calls. -/
structure State where
  pos : Nat
  reads : List (Nat × Nat)
  sent : List UInt8
  sends : Nat

/-- `read(newsockfd, buffer + offset, n)`: nothing at the end of the stream. -/
def read (g : Guest) (offset n : Nat) (s : State) : List UInt8 × State :=
  let got := (g.stream.drop s.pos).take (min n (max 1 (g.chunk s.pos)))
  (got, { s with pos := s.pos + got.length, reads := s.reads ++ [(offset, n)] })

/-- The loops that read until the buffer holds `target` bytes. A turn reads a byte as long as
there are any, and without any the loop does not end: then it returns nothing. -/
def fill (g : Guest) (target : Int) : Nat → List UInt8 → State → Option (List UInt8) × State
  | 0, data, s => (if target ≤ data.length then some data else none, s)
  | turns + 1, data, s =>
    if target ≤ data.length then (some data, s)
    else
      let (got, s) := read g data.length (target - data.length).toNat s
      fill g target turns (data ++ got) s

/-- The loop of `forward_data`, each `sendto` taking up to `accept` bytes, and one at
least. -/
def forwardLoop (accept : Nat → Nat) (buffer : List UInt8) (packetSize : Int) :
    Nat → Nat → State → State
  | 0, _, s => s
  | turns + 1, written, s =>
    if (written : Int) < packetSize then
      let sendSize := (min (maxBytesSent : Int) (packetSize - written)).toNat
      let w := min sendSize (max 1 (accept s.sends))
      forwardLoop accept buffer packetSize turns (written + w)
        { s with sent := s.sent ++ (buffer.drop written).take w, sends := s.sends + 1 }
    else s

def forwardData (accept : Nat → Nat) (buffer : List UInt8) (s : State) : State :=
  forwardLoop accept buffer (parseHeader buffer).packetSize
    (parseHeader buffer).packetSize.toNat 0 s

/-- The loop of `hypervisor_connection`: whether it ends. A turn reads a byte, unless it is
the last. -/
def relayLoop (g : Guest) (forwardFd : Int) (accept : Nat → Nat) : Nat → State → Bool × State
  | 0, s => (false, s)
  | turns + 1, s =>
    match read g 0 headerSize s with
    | ([], s) => (true, s)
    | (got, s) =>
      match fill g headerSize g.stream.length got s with
      | (none, s) => (false, s)
      | (some buffer, s) =>
        if ((parseHeader buffer).check).isSome then (true, s)
        else
          match fill g (parseHeader buffer).packetSize g.stream.length buffer s with
          | (none, s) => (false, s)
          | (some buffer, s) =>
            relayLoop g forwardFd accept turns
              (if forwardFd ≠ -1 then forwardData accept buffer s else s)

/-- `hypervisor_connection`, with a client or none (-1) throughout. -/
def hypervisorConnection (g : Guest) (forwardFd : Int) (accept : Nat → Nat) : Bool × State :=
  match read g 0 metaSize ⟨0, [], [], 0⟩ with
  | ([], s) => (true, s)
  | (_, s) => relayLoop g forwardFd accept (g.stream.length + 1) s

/-! ## Reading -/

section Read
variable {g : Guest} {before rest todo after data : List UInt8} {s : State}

/-- A `read` returns the first bytes of the rest. -/
theorem read_eq (hstream : g.stream = before ++ rest) (hpos : s.pos = before.length)
    (offset n : Nat) :
    read g offset n s =
      (rest.take (min n (max 1 (g.chunk before.length))),
        { s with
            pos := (before ++ rest.take (min n (max 1 (g.chunk before.length)))).length
            reads := s.reads ++ [(offset, n)] }) := by
  unfold read
  rw [hstream, hpos, List.drop_left, List.length_append]

/-- A `read` of what is left of `todo` returns some of it. -/
theorem read_some (hstream : g.stream = before ++ (todo ++ after)) (hpos : s.pos = before.length)
    (htodo : todo ≠ []) (offset : Nat) :
    ∃ got left, todo = got ++ left ∧ got ≠ [] ∧
      read g offset todo.length s =
        (got, { s with
                  pos := (before ++ got).length
                  reads := s.reads ++ [(offset, todo.length)] }) := by
  have hlength := List.length_pos_of_ne_nil htodo
  have hread := read_eq hstream hpos offset todo.length
  generalize hk : min todo.length (max 1 (g.chunk before.length)) = k at hread
  rw [List.take_append_of_le_length (by omega)] at hread
  refine ⟨todo.take k, todo.drop k, (List.take_append_drop k todo).symm, ?_, hread⟩
  intro hnil
  have hzero := congrArg List.length hnil
  rw [List.length_take, List.length_nil] at hzero
  omega

/-- The loop reads the rest of what it wants, if that is there. -/
theorem fill_eq {target : Int} {turns : Nat} (htarget : target = data.length + todo.length)
    (hturns : todo.length ≤ turns) (hstream : g.stream = before ++ (todo ++ after))
    (hpos : s.pos = before.length) :
    ∃ reads, fill g target turns data s =
      (some (data ++ todo), { s with pos := (before ++ todo).length, reads := reads }) := by
  induction turns generalizing before data todo s with
  | zero =>
    obtain rfl := List.eq_nil_of_length_eq_zero (Nat.le_zero.mp hturns)
    refine ⟨s.reads, ?_⟩
    unfold fill
    rw [if_pos (by rw [htarget]; exact Int.le_of_eq (Int.add_zero _)), List.append_nil,
      List.append_nil, ← hpos]
  | succ turns ih =>
    unfold fill
    by_cases htodo : todo = []
    · rw [htodo, List.length_nil] at htarget
      refine ⟨s.reads, ?_⟩
      rw [if_pos (by omega), htodo, List.append_nil, List.append_nil, ← hpos]
    · have hlength := List.length_pos_of_ne_nil htodo
      have hwant : (target - data.length).toNat = todo.length := by omega
      obtain ⟨got, left, rfl, hgot, hread⟩ := read_some hstream hpos htodo data.length
      have hsome := List.length_pos_of_ne_nil hgot
      rw [List.length_append] at htarget hturns
      rw [if_neg (by omega), hwant, hread]
      obtain ⟨reads, hfill⟩ := @ih (before ++ got) left (data ++ got)
        { s with
            pos := (before ++ got).length
            reads := s.reads ++ [(data.length, (got ++ left).length)] }
        (by rw [htarget, List.length_append]; omega) (by omega)
        (by rw [hstream, List.append_assoc, List.append_assoc]) rfl
      refine ⟨reads, ?_⟩
      rw [List.append_assoc, List.append_assoc] at hfill
      exact hfill

end Read

/-! ## Sending -/

/-- The loop sends what is left of the packet. -/
theorem forwardLoop_eq (accept : Nat → Nat) {buffer : List UInt8} {turns written : Nat}
    (hturns : buffer.length ≤ written + turns) (s : State) :
    ∃ sends, forwardLoop accept buffer buffer.length turns written s =
      { s with sent := s.sent ++ buffer.drop written, sends := sends } := by
  induction turns generalizing written s with
  | zero =>
    refine ⟨s.sends, ?_⟩
    rw [List.drop_of_length_le (by omega), List.append_nil]
    rfl
  | succ turns ih =>
    unfold forwardLoop
    by_cases hmore : (written : Int) < buffer.length
    · rw [if_pos hmore]
      simp only
      generalize hw : min (min (maxBytesSent : Int) (buffer.length - written)).toNat
        (max 1 (accept s.sends)) = w
      have hpos : 0 < w := by
        unfold maxBytesSent at hw
        omega
      obtain ⟨sends, hloop⟩ := @ih (written + w) (by omega)
        { s with sent := s.sent ++ (buffer.drop written).take w, sends := s.sends + 1 }
      refine ⟨sends, ?_⟩
      rw [hloop, List.append_assoc, ← List.drop_drop, List.take_append_drop]
    · refine ⟨s.sends, ?_⟩
      rw [if_neg hmore, List.drop_of_length_le (by omega), List.append_nil]

/-! ## Packets -/

/-- A packet that the checks let pass, with as many bytes as its header says. -/
structure Relayed (packet : List UInt8) : Prop where
  size : 0 ≤ (parseHeader packet).size
  length : (packet.length : Int) = (parseHeader packet).packetSize
  accepted : (parseHeader packet).check = none

/-- The header is in the first bytes. -/
theorem parseHeader_append {header : List UInt8} (h : header.length = headerSize)
    (content : List UInt8) : parseHeader (header ++ content) = parseHeader header := by
  unfold headerSize at h
  unfold parseHeader
  rw [List.take_append_of_le_length (by omega), List.drop_append_of_le_length (by omega),
    List.take_append_of_le_length (by rw [List.length_drop]; omega),
    List.drop_append_of_le_length (by omega),
    List.take_append_of_le_length (by rw [List.length_drop]; omega),
    List.drop_append_of_le_length (by omega),
    List.take_append_of_le_length (by rw [List.length_drop]; omega)]

theorem Relayed.split {packet : List UInt8} (h : Relayed packet) :
    ∃ header content, packet = header ++ content ∧ header.length = headerSize := by
  have hsize := h.size
  have hlength := h.length
  refine ⟨packet.take headerSize, packet.drop headerSize, (List.take_append_drop _ _).symm, ?_⟩
  unfold Header.packetSize at hlength
  rw [List.length_take]
  omega

theorem Relayed.ne_nil {packet : List UInt8} (h : Relayed packet) : packet ≠ [] := by
  obtain ⟨header, content, rfl, hheader⟩ := h.split
  apply List.append_ne_nil_of_left_ne_nil
  apply List.ne_nil_of_length_pos
  rw [hheader]
  decide

/-- Where a client is attached, the whole packet is sent. -/
theorem Relayed.forwardData {packet : List UInt8} (h : Relayed packet) (accept : Nat → Nat)
    (s : State) :
    ∃ sends, forwardData accept packet s =
      { s with sent := s.sent ++ packet, sends := sends } := by
  unfold Relay.forwardData
  rw [← h.length]
  exact forwardLoop_eq accept (Nat.le_of_eq (Nat.zero_add _).symm) s

section Loop
variable {g : Guest} {forwardFd : Int} (accept : Nat → Nat) {before : List UInt8} {s : State}

/-- A turn that gets through. -/
theorem relayLoop_turn {got header packet : List UInt8} {s₁ s₂ s₃ : State} (hgot : got ≠ [])
    (hread : read g 0 headerSize s = (got, s₁))
    (hheader : fill g headerSize g.stream.length got s₁ = (some header, s₂))
    (hcheck : (parseHeader header).check = none)
    (hpacket : fill g (parseHeader header).packetSize g.stream.length header s₂ =
      (some packet, s₃)) (turns : Nat) :
    relayLoop g forwardFd accept (turns + 1) s =
      relayLoop g forwardFd accept turns
        (if forwardFd ≠ -1 then forwardData accept packet s₃ else s₃) := by
  cases got with
  | nil => exact absurd rfl hgot
  | cons b got =>
    rw [relayLoop, hread]
    simp only [hheader, hcheck, hpacket]
    rfl

/-- One packet. -/
theorem relayLoop_packet (hforward : forwardFd ≠ -1) {packet after : List UInt8}
    (h : Relayed packet) (hstream : g.stream = before ++ (packet ++ after))
    (hpos : s.pos = before.length) (turns : Nat) :
    ∃ reads sends, relayLoop g forwardFd accept (turns + 1) s =
      relayLoop g forwardFd accept turns
        ⟨(before ++ packet).length, reads, s.sent ++ packet, sends⟩ := by
  obtain ⟨header, content, rfl, hheader⟩ := h.split
  have hne : header ≠ [] := by
    apply List.ne_nil_of_length_pos
    rw [hheader]
    decide
  have hwhole : g.stream.length =
      before.length + (header.length + content.length + after.length) := by
    rw [hstream, List.length_append, List.length_append, List.length_append]
  rw [List.append_assoc] at hstream
  obtain ⟨got, left, rfl, hgot, hread⟩ := read_some hstream hpos hne 0
  rw [hheader] at hread
  rw [List.length_append] at hwhole
  obtain ⟨reads, hfill⟩ := @fill_eq g (before ++ got) left (content ++ after) got
    { s with pos := (before ++ got).length, reads := s.reads ++ [(0, headerSize)] } headerSize
    g.stream.length (by rw [← hheader, List.length_append]; rfl) (by omega)
    (by simp only [hstream, List.append_assoc]) rfl
  have hparse := parseHeader_append hheader content
  have hlength := h.length
  obtain ⟨reads', hfill'⟩ := @fill_eq g (before ++ got ++ left) content after (got ++ left)
    { s with pos := (before ++ got ++ left).length, reads := reads }
    (parseHeader (got ++ left)).packetSize g.stream.length
    (by rw [← hparse, ← hlength, List.length_append]; rfl) (by omega)
    (by simp only [hstream, List.append_assoc]) rfl
  have hcheck : (parseHeader (got ++ left)).check = none := by
    rw [← hparse, h.accepted]
  obtain ⟨sends, hsend⟩ := h.forwardData accept
    { s with pos := (before ++ got ++ left ++ content).length, reads := reads' }
  refine ⟨reads', sends, ?_⟩
  rw [relayLoop_turn accept hgot hread hfill hcheck hfill', if_pos hforward, hsend]
  simp only [List.append_assoc]

/-- All packets, and the end of the stream. -/
theorem relayLoop_packets (hforward : forwardFd ≠ -1) {packets : List (List UInt8)}
    (h : ∀ packet ∈ packets, Relayed packet) (hstream : g.stream = before ++ packets.flatten)
    (hpos : s.pos = before.length) {turns : Nat} (hturns : packets.length < turns) :
    (relayLoop g forwardFd accept turns s).1 = true ∧
      (relayLoop g forwardFd accept turns s).2.sent = s.sent ++ packets.flatten := by
  induction packets generalizing before s turns with
  | nil =>
    cases turns with
    | zero => cases hturns
    | succ turns =>
      have hread := read_eq hstream hpos 0 headerSize
      rw [List.flatten_nil, List.take_nil] at hread
      rw [relayLoop, hread]
      exact ⟨rfl, (List.append_nil _).symm⟩
  | cons packet packets ih =>
    obtain ⟨turns, rfl⟩ : ∃ n, turns = n + 1 := ⟨turns - 1, by omega⟩
    rw [List.flatten_cons] at hstream ⊢
    obtain ⟨reads, sends, hturn⟩ :=
      relayLoop_packet accept hforward (h packet (by simp)) hstream hpos turns
    rw [hturn, ← List.append_assoc]
    refine ih (fun other hother => h other (by simp [hother])) ?_ rfl ?_
    · rw [hstream, List.append_assoc]
    · rw [List.length_cons] at hturns
      omega

end Loop

/-! ## The buffer -/

/-- No `read` reached past the buffer. -/
def InBuffer (s : State) : Prop := ∀ r ∈ s.reads, r.1 + r.2 ≤ bufferSize

section Buffer
variable {g : Guest} {s : State}

theorem InBuffer.read (h : InBuffer s) {offset n : Nat} (hread : offset + n ≤ bufferSize) :
    InBuffer (read g offset n s).2 := by
  intro r hr
  rcases List.mem_append.mp hr with hr | hr
  · exact h r hr
  · rw [List.mem_singleton.mp hr]
    exact hread

theorem InBuffer.fill (h : InBuffer s) {target : Int} (htarget : target ≤ bufferSize)
    (turns : Nat) (data : List UInt8) : InBuffer (fill g target turns data s).2 := by
  induction turns generalizing data s with
  | zero => exact h
  | succ turns ih =>
    unfold Relay.fill
    split
    · exact h
    · exact ih (h.read (by omega)) _

theorem reads_forwardLoop (accept : Nat → Nat) (buffer : List UInt8) (packetSize : Int)
    (turns written : Nat) (s : State) :
    (forwardLoop accept buffer packetSize turns written s).reads = s.reads := by
  induction turns generalizing written s with
  | zero => rfl
  | succ turns ih =>
    unfold Relay.forwardLoop
    split
    · exact ih _ _
    · rfl

/-- A header that passes has a packet that fits, whatever the sign of its size. -/
theorem packetSize_le {h : Header} (hcheck : h.check = none) : h.packetSize ≤ bufferSize := by
  unfold Header.check at hcheck
  split at hcheck
  · cases hcheck
  · unfold Header.packetSize bufferSize
    omega

/-- A header that passes has a size in whole sectors. -/
theorem size_of_check {h : Header} (hcheck : h.check = none) : 512 ∣ h.size := by
  apply Int.dvd_of_tmod_eq_zero
  unfold Header.check at hcheck
  by_contra hsize
  split at hcheck
  · cases hcheck
  · split at hcheck
    · cases hcheck
    · cases hcheck

theorem InBuffer.relayLoop (h : InBuffer s) (forwardFd : Int) (accept : Nat → Nat) (turns : Nat) :
    InBuffer (relayLoop g forwardFd accept turns s).2 := by
  induction turns generalizing s with
  | zero => exact h
  | succ turns ih =>
    have hfirst : InBuffer (Relay.read g 0 headerSize s).2 := h.read (by decide)
    unfold Relay.relayLoop
    split
    · rename_i s₁ hread
      rw [hread] at hfirst
      exact hfirst
    · rename_i got s₁ _ hread
      rw [hread] at hfirst
      have hheader : InBuffer (Relay.fill g headerSize g.stream.length got s₁).2 :=
        hfirst.fill (by decide) _ _
      split
      · rename_i s₂ hfill
        rw [hfill] at hheader
        exact hheader
      · rename_i header s₂ hfill
        rw [hfill] at hheader
        split
        · exact hheader
        · rename_i hcheck
          rw [Option.not_isSome_iff_eq_none] at hcheck
          have hpacket : InBuffer (Relay.fill g (parseHeader header).packetSize g.stream.length
              header s₂).2 := hheader.fill (packetSize_le hcheck) _ _
          split
          · rename_i s₃ hfill'
            rw [hfill'] at hpacket
            exact hpacket
          · rename_i packet s₃ hfill'
            rw [hfill'] at hpacket
            refine ih ?_
            split
            · unfold InBuffer forwardData
              rw [reads_forwardLoop]
              exact hpacket
            · exact hpacket

end Buffer

theorem length_le_flatten {packets : List (List UInt8)}
    (h : ∀ packet ∈ packets, Relayed packet) : packets.length ≤ packets.flatten.length := by
  induction packets with
  | nil => exact Nat.le_refl _
  | cons packet packets ih =>
    have hpos := List.length_pos_of_ne_nil (h packet (by simp)).ne_nil
    have hrest := ih fun other hother => h other (by simp [hother])
    rw [List.flatten_cons, List.length_append, List.length_cons]
    omega

/-- **The relay is transparent**: with a client attached throughout, it gets the packets that
pass the checks, whole and in order, however the reads and sends split them; and whatever the
guest sends, no `read` reaches past the buffer. -/
theorem relay_transparent (g : Guest) (forwardFd : Int) (accept : Nat → Nat) :
    (∀ (metaData : List UInt8) (packets : List (List UInt8)), metaData.length = metaSize →
      metaSize ≤ g.chunk 0 → g.stream = metaData ++ packets.flatten →
      (∀ packet ∈ packets, Relayed packet) → forwardFd ≠ -1 →
      (hypervisorConnection g forwardFd accept).1 = true ∧
      (hypervisorConnection g forwardFd accept).2.sent = packets.flatten) ∧
    ∀ r ∈ (hypervisorConnection g forwardFd accept).2.reads, r.1 + r.2 ≤ bufferSize := by
  constructor
  · intro metaData packets hmeta hchunk hstream hpackets hforward
    have hread := @read_eq g [] (metaData ++ packets.flatten) ⟨0, [], [], 0⟩ hstream rfl 0 metaSize
    rw [List.length_nil, show min metaSize (max 1 (g.chunk 0)) = metaData.length by omega,
      List.take_left] at hread
    have hturns : packets.length < g.stream.length + 1 := by
      have hle := length_le_flatten hpackets
      rw [hstream, List.length_append]
      omega
    cases metaData with
    | nil => cases hmeta
    | cons b metaData =>
      rw [hypervisorConnection, hread]
      exact relayLoop_packets accept hforward hpackets hstream rfl hturns
  · have hinit : InBuffer ⟨0, [], [], 0⟩ := fun _ hr => (by cases hr)
    have hfirst : InBuffer (read g 0 metaSize ⟨0, [], [], 0⟩).2 := hinit.read (by decide)
    unfold hypervisorConnection
    split
    · rename_i s hread
      rw [hread] at hfirst
      exact hfirst
    · rename_i got s _ hread
      rw [hread] at hfirst
      exact hfirst.relayLoop forwardFd accept _

/-! ## What the hook sends -/

theorem int32_leBytes {n : Nat} (h : n < 2 ^ 31) : int32 (leBytes 4 n) = n := by
  unfold int32
  rw [leNat_leBytes (by omega), BitVec.toInt_eq_toNat_of_lt (by rw [BitVec.toNat_ofNat]; omega),
    BitVec.toNat_ofNat, Nat.mod_eq_of_lt (by omega)]

/-- Four numbers behind each other, taken apart again. -/
theorem parseHeader_append_four {sector numSectors op size : List UInt8}
    (hsector : sector.length = 8) (hnum : numSectors.length = 4) (hop : op.length = 4)
    (hsize : size.length = 4) :
    parseHeader (sector ++ numSectors ++ op ++ size) =
      ⟨leNat sector, int32 numSectors, leNat op, int32 size⟩ := by
  have hafter : (sector ++ numSectors).length = 12 := by
    rw [List.length_append, hsector, hnum]
  have hlast : (sector ++ numSectors ++ op).length = 16 := by
    rw [List.length_append, hafter, hop]
  unfold parseHeader
  rw [List.drop_left' hlast, List.take_of_length_le hsize.le, List.append_assoc _ op,
    List.drop_left' hafter, List.take_left' hop, List.append_assoc sector, List.take_left' hsector,
    List.drop_left' hsector, List.take_left' hnum]

/-- The server reads back the header that the hook wrote. -/
theorem parseHeader_packet (a : Access) :
    parseHeader (packet a) =
      ⟨a.sector.toUInt64.toNat, a.numSectors, a.op.code, (a.numSectors * sectorSize : Nat)⟩ := by
  have hfits := a.fits
  have hsector := a.sector.toUInt64.toNat_lt
  have hop : a.op.code < 256 ^ 4 := by
    cases a.op with
    | _ => decide
  unfold sectorSize at hfits ⊢
  rw [packet, parseHeader_append (length_header a), header,
    parseHeader_append_four (leBytes_length _ _) (leBytes_length _ _) (leBytes_length _ _)
      (leBytes_length _ _), leNat_leBytes (by omega), int32_leBytes (by omega), leNat_leBytes hop,
    sectorSize, int32_leBytes hfits]

theorem length_packet (a : Access) :
    (packet a).length = headerSize + a.numSectors * sectorSize := by
  rw [packet, List.length_append, length_header, a.whole]
  rfl

/-- The checks let a packet pass unless it is too big. -/
theorem check_packet_iff {a : Access} (hpos : 0 < a.numSectors) :
    (parseHeader (packet a)).check = none ↔ a.numSectors ≤ 1024 := by
  rw [parseHeader_packet]
  unfold Header.check maxBytesSent sectorSize
  by_cases hmax : a.numSectors ≤ 1024
  · have hop : ¬ (a.op.code ≠ DiskOperation.invalid.code ∧ a.op.code ≠ DiskOperation.write.code ∧
        a.op.code ≠ DiskOperation.read.code) := by
      cases a.op with
      | _ => decide
    have hwhole : ¬ ((a.numSectors * 512 : Nat) : Int).tmod 512 ≠ 0 := by
      rw [not_not]
      exact Int.mul_tmod_left a.numSectors 512
    rw [if_neg (by simp only; omega), if_neg hop, if_neg hwhole, if_neg (by simp only; omega)]
    exact ⟨fun _ => hmax, fun _ => rfl⟩
  · rw [if_pos (by simp only; omega)]
    exact ⟨fun h => (by cases h), fun h => absurd h hmax⟩

/-- The server takes the packet of an access, and its buffer holds it. -/
def Accepted (a : Access) : Prop :=
  (parseHeader (packet a)).check = none ∧ (packet a).length ≤ bufferSize

/-- **The server takes exactly the accesses of up to `MAX_SECTORS_SENT` sectors.** -/
theorem accepted_iff (a : Access) (hpos : 0 < a.numSectors) :
    Accepted a ↔ a.numSectors ≤ 1024 := by
  unfold Accepted
  rw [check_packet_iff hpos, length_packet]
  unfold bufferSize maxBytesSent sectorSize
  constructor
  · intro h
    exact h.1
  · intro h
    exact ⟨h, by omega⟩

/-- An access of one sector. -/
theorem accepted_zeroed : Accepted (zeroed 0) :=
  (accepted_iff (zeroed 0) (by decide)).mpr (by decide)

/-- A read of 1025 sectors, which is one guest request. -/
def bigRead : Access where
  content := List.replicate (1025 * 512) 0
  sector := 0
  numSectors := 1025
  op := .read
  whole := List.length_replicate
  fits := by decide

/-- The server drops the connection. -/
theorem not_accepted_bigRead : ¬ Accepted bigRead := by
  intro h
  exact absurd ((check_packet_iff (by decide)).mp h.1) (by decide)

/-- A packet of up to `MAX_SECTORS_SENT` sectors is relayed. -/
theorem relayed_packet {a : Access} (hpos : 0 < a.numSectors) (hmax : a.numSectors ≤ 1024) :
    Relayed (packet a) := by
  refine ⟨?_, ?_, (check_packet_iff hpos).mpr hmax⟩
  · rw [parseHeader_packet]
    exact Int.natCast_nonneg _
  · rw [parseHeader_packet, length_packet, Header.packetSize]
    exact Int.add_comm headerSize (a.numSectors * sectorSize : Nat)

/-- Two accesses, read three bytes and sent seven bytes at a time. -/
theorem relay_two :
    (hypervisorConnection
      ⟨metaStruct [100] ++ [packet (zeroed 0), packet (zeroed 1)].flatten,
        fun p => if p = 0 then 1028 else 3⟩ 5 (fun _ => 7)).2.sent =
      packet (zeroed 0) ++ (packet (zeroed 1) ++ []) := by
  refine ((relay_transparent
    ⟨metaStruct [100] ++ [packet (zeroed 0), packet (zeroed 1)].flatten,
      fun p => if p = 0 then 1028 else 3⟩ 5 (fun _ => 7)).1 (metaStruct [100])
    [packet (zeroed 0), packet (zeroed 1)] (by decide +kernel) (Nat.le_refl 1028) rfl
    (fun bytes hbytes => ?_) (by decide)).2
  rcases List.mem_cons.mp hbytes with rfl | hbytes
  · exact relayed_packet (by decide) (by decide)
  · obtain rfl := List.mem_singleton.mp hbytes
    exact relayed_packet (by decide) (by decide)

end LoPhi.Server.Relay
