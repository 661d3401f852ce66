import LoPhi.Sata.Frame

/-! # Decoding SATA frames

`SATAInterpreter.extract_sata_data` takes the bytes of a `SATAFrame` apart. The
lines that would read the LO-PHI word at the front (sequence number, direction)
and cut it off are commented out in the source, while the names they would bind
are still read: the module has no other binding for them. What a read of such
a name does is kept explicit, as is the part of the word that is taken for the
type of the frame instead. -/

namespace LoPhi.Sata.Interpreter
open LoPhi.Lib.Python LoPhi.Lib.Struct LoPhi.Sata.Frame

/-- The names the body reads but does not bind, as the enclosing module binds
them. -/
structure Names where
  direction : Option Nat
  lophiSeqn : Option Nat

/-- The module `sata` binds neither. -/
def moduleNames : Names := ⟨none, none⟩

/-- Reading a global name. -/
def readName (name : String) : Option Nat → Except PyError Nat
  | some value => .ok value
  | none => .error (.nameError name)

/-- The header dictionary. A frame of unknown type leaves it without its `type`
and `direction` entries. -/
structure Header where
  fis : Option Fis
  direction : Option Nat
  lophiSeqn : Nat
  deriving DecidableEq, Repr

/-- `_extract_header`. -/
def extractHeader (fmt : List Nat) (packet : List UInt8) :
    Except PyError (List Nat × List UInt8) := do
  let extracted ← unpack fmt (packet.take fmt.sum)
  return (extracted, packet.drop fmt.sum)

/-- `flip_endianess`. Bytes after the last whole dword are dropped. -/
def flipEndianess : List UInt8 → List UInt8
  | a :: b :: c :: d :: rest => d :: c :: b :: a :: flipEndianess rest
  | _ => []

/-- The 48-bit address of the register frames: bits 23:0 in the second dword,
bits 47:24 in the third. -/
def registerLba (x : Nat → Nat) : Nat :=
  let lba1 := x 5 <<< (8 * 2) ||| x 6
  let lba2 := x 8 <<< (8 * 2) ||| x 9
  lba2 <<< (8 * 3) ||| lba1

def registerHtoD (x : Nat → Nat) : Fis :=
  .registerHtoD {
    features := x 0 ||| x 7 <<< 8
    command := x 1
    C := (x 2 &&& 0b10000000) >>> 7
    pmPort := x 2 &&& 0b1111
    fisType := x 3
    device := x 4
    lba := registerLba x
    control := x 10
    icc := x 11
    count := x 12
    tag := x 12 >>> 3 &&& 0b11111
    reserved := x 13 }

def registerDtoH (x : Nat → Nat) : Fis :=
  .registerDtoH {
    error := x 0
    status := x 1
    interrupt := (x 2 &&& 0b01000000) >>> 6
    pmPort := x 2 &&& 0b1111
    fisType := x 3
    device := x 4
    lba := registerLba x
    count := x 11
    reserved0 := x 7
    reserved1 := x 10
    reserved2 := x 12 }

def dmaSetup (x : Nat → Nat) : Fis :=
  .dmaSetup {
    autoActivate := (x 2 &&& 0b10000000) >>> 7
    interrupt := (x 2 &&& 0b1000000) >>> 6
    directionBit := (x 2 &&& 0b100000) >>> 5
    pmPort := x 2 &&& 0b1111
    fisType := x 3
    dmaBufIdentifierLow := x 4
    dmaBufIdentifierHigh := x 5
    dmaBufOffset := x 7
    transferCount := x 8
    reserved0 := x 6
    reserved1 := x 9 }

/-- Unlike the register frames, the address takes bits 47:40 eight bits too far
left, and the direction is read from the bit next to the one a DMA Setup has it
in. -/
def pioSetup (x : Nat → Nat) : Fis :=
  let lba1 := x 5 <<< (8 * 2) ||| x 6
  let lba2 := x 8 <<< (8 * 3) ||| x 9
  .pioSetup {
    error := x 0
    status := x 1
    directionBit := (x 2 &&& 0b10000) >>> 4
    pmPort := x 2 &&& 0b1111
    fisType := x 3
    device := x 4
    lba := lba2 <<< (8 * 3) ||| lba1
    count := x 12
    transferCount := x 14 }

def dmaActivate (x : Nat → Nat) : Fis :=
  .dmaActivate { pmPort := x 1 &&& 0b1111, reserved := x 0 }

def setDeviceBits (x : Nat → Nat) : Fis :=
  .setDeviceBits {
    error := x 0
    statusHi := (x 1 &&& 0b01110000) >>> 4
    statusLo := x 1 &&& 0b111
    notification := (x 2 &&& 0b10000000) >>> 7
    interrupt := (x 2 &&& 0b01000000) >>> 6
    pmPort := x 2 &&& 0b1111
    proto := x 4 }

/-- The format of a frame type's header and the dictionary made of its items. -/
def layout (messageType : Nat) : Option (List Nat × ((Nat → Nat) → Fis)) :=
  if messageType = 0x27 then
    some ([1, 1, 1, 1] ++ [1, 1, 2] ++ [1, 1, 2] ++ [1, 1, 2] ++ [4], registerHtoD)
  else if messageType = 0x34 then
    some ([1, 1, 1, 1] ++ [1, 1, 2] ++ [1, 1, 2] ++ [2, 2] ++ [4], registerDtoH)
  else if messageType = 0x41 then
    some ([1, 1, 1, 1] ++ [4] ++ [4] ++ [4] ++ [4] ++ [4] ++ [4], dmaSetup)
  else if messageType = 0x5f then
    some ([1, 1, 1, 1] ++ [1, 1, 2] ++ [1, 1, 2] ++ [1, 1, 2] ++ [2, 2], pioSetup)
  else if messageType = 0x46 then some ([1, 1, 1, 1], fun _ => .data)
  else if messageType = 0x39 then some ([2, 1, 1], dmaActivate)
  else if messageType = 0xa1 then some ([1, 1, 1, 1] ++ [4], setDeviceBits)
  else none

/-- `extract_sata_data`. The dictionary of a known type reads `direction`, the
last assignment reads `lophi_seqn`. -/
def extractSataData (names : Names) (packet : List UInt8) :
    Except PyError (Option (Header × Option (List UInt8))) :=
  match packet with
  | _ :: _ :: _ :: messageType :: _ =>
    match layout messageType.toNat with
    | some (fmt, header) => do
      let (extracted, data) ← extractHeader fmt packet
      let direction ← readName "direction" names.direction
      let lophiSeqn ← readName "lophi_seqn" names.lophiSeqn
      return some (⟨some (header fun i => extracted.getD i 0), some direction, lophiSeqn⟩,
        some (flipEndianess data))
    | none => do
      let lophiSeqn ← readName "lophi_seqn" names.lophiSeqn
      return some (⟨none, none, lophiSeqn⟩, none)
  | _ => return none

/-! ## What it should invert -/

/-- Bits 23:0 of an address, in the last bytes of the second dword. -/
def lbaLow (lba : Nat) : List UInt8 :=
  beBytes 1 (lba / 2 ^ 16 % 2 ^ 8) ++ beBytes 2 (lba % 2 ^ 16)

/-- Bits 47:24, in the last bytes of the third. -/
def lbaHigh (lba : Nat) : List UInt8 :=
  beBytes 1 (lba / 2 ^ 40) ++ beBytes 2 (lba / 2 ^ 24 % 2 ^ 16)

/-- A frame information structure on the wire, dword by dword. A BIST Activate is
not decoded. -/
def encode : Fis → Option (List UInt8)
  | .registerHtoD r => some <|
      beBytes 1 (r.features % 256) ++ beBytes 1 r.command ++ beBytes 1 (r.C * 128 + r.pmPort) ++
        beBytes 1 0x27 ++
      beBytes 1 r.device ++ lbaLow r.lba ++
      beBytes 1 (r.features / 256) ++ lbaHigh r.lba ++
      beBytes 1 r.control ++ beBytes 1 r.icc ++ beBytes 2 r.count ++
      beBytes 4 r.reserved
  | .registerDtoH r => some <|
      beBytes 1 r.error ++ beBytes 1 r.status ++ beBytes 1 (r.interrupt * 64 + r.pmPort) ++
        beBytes 1 0x34 ++
      beBytes 1 r.device ++ lbaLow r.lba ++
      beBytes 1 r.reserved0 ++ lbaHigh r.lba ++
      beBytes 2 r.reserved1 ++ beBytes 2 r.count ++
      beBytes 4 r.reserved2
  | .dmaActivate a => some <|
      beBytes 2 a.reserved ++ beBytes 1 a.pmPort ++ beBytes 1 0x39
  | .dmaSetup d => some <|
      beBytes 1 0 ++ beBytes 1 0 ++
        beBytes 1 (d.autoActivate * 128 + d.interrupt * 64 + d.directionBit * 32 + d.pmPort) ++
        beBytes 1 0x41 ++
      beBytes 4 d.dmaBufIdentifierLow ++ beBytes 4 d.dmaBufIdentifierHigh ++
      beBytes 4 d.reserved0 ++ beBytes 4 d.dmaBufOffset ++ beBytes 4 d.transferCount ++
      beBytes 4 d.reserved1
  | .data => some <| beBytes 1 0 ++ beBytes 1 0 ++ beBytes 1 0 ++ beBytes 1 0x46
  | .bistActivate => none
  | .pioSetup p => some <|
      beBytes 1 p.error ++ beBytes 1 p.status ++ beBytes 1 (p.directionBit * 32 + p.pmPort) ++
        beBytes 1 0x5f ++
      beBytes 1 p.device ++ lbaLow p.lba ++
      beBytes 1 0 ++ lbaHigh p.lba ++
      beBytes 1 0 ++ beBytes 1 0 ++ beBytes 2 p.count ++
      beBytes 2 0 ++ beBytes 2 p.transferCount
  | .setDeviceBits b => some <|
      beBytes 1 b.error ++ beBytes 1 (b.statusHi * 16 + b.statusLo) ++
        beBytes 1 (b.notification * 128 + b.interrupt * 64 + b.pmPort) ++ beBytes 1 0xa1 ++
      beBytes 4 b.proto

/-- Decoding gives back the header, the LO-PHI word and the payload with its
dwords byte-swapped. -/
def Inverts (fis : Fis) (seqn direction : Nat) (payload : List UInt8) : Prop :=
  ∃ bytes, encode fis = some bytes ∧
    extractSataData moduleNames (SATAFrame.repr ⟨seqn, direction, bytes ++ payload⟩) =
      .ok (some (⟨some fis, some direction, seqn⟩, some (flipEndianess payload)))

/-- The fields have their bit widths. The tag of a register frame is part of its
count. -/
def Fits : Fis → Prop
  | .registerHtoD r => r.features < 2 ^ 16 ∧ r.command < 2 ^ 8 ∧ r.C < 2 ∧ r.pmPort < 16 ∧
      r.fisType = 0x27 ∧ r.device < 2 ^ 8 ∧ r.lba < 2 ^ 48 ∧ r.control < 2 ^ 8 ∧
      r.icc < 2 ^ 8 ∧ r.count < 2 ^ 16 ∧ r.tag = r.count >>> 3 &&& 0b11111 ∧ r.reserved < 2 ^ 32
  | .registerDtoH r => r.error < 2 ^ 8 ∧ r.status < 2 ^ 8 ∧ r.interrupt < 2 ∧ r.pmPort < 16 ∧
      r.fisType = 0x34 ∧ r.device < 2 ^ 8 ∧ r.lba < 2 ^ 48 ∧ r.count < 2 ^ 16 ∧
      r.reserved0 < 2 ^ 8 ∧ r.reserved1 < 2 ^ 16 ∧ r.reserved2 < 2 ^ 32
  | .dmaActivate a => a.pmPort < 16 ∧ a.reserved < 2 ^ 16
  | .dmaSetup d => d.autoActivate < 2 ∧ d.interrupt < 2 ∧ d.directionBit < 2 ∧ d.pmPort < 16 ∧
      d.fisType = 0x41 ∧ d.dmaBufIdentifierLow < 2 ^ 32 ∧ d.dmaBufIdentifierHigh < 2 ^ 32 ∧
      d.dmaBufOffset < 2 ^ 32 ∧ d.transferCount < 2 ^ 32 ∧ d.reserved0 < 2 ^ 32 ∧
      d.reserved1 < 2 ^ 32
  | .data => True
  | .bistActivate => False
  | .pioSetup p => p.error < 2 ^ 8 ∧ p.status < 2 ^ 8 ∧ p.directionBit < 2 ∧ p.pmPort < 16 ∧
      p.fisType = 0x5f ∧ p.device < 2 ^ 8 ∧ p.lba < 2 ^ 48 ∧ p.count < 2 ^ 16 ∧
      p.transferCount < 2 ^ 16
  | .setDeviceBits b => b.error < 2 ^ 8 ∧ b.statusHi < 8 ∧ b.statusLo < 8 ∧
      b.notification < 2 ∧ b.interrupt < 2 ∧ b.pmPort < 16 ∧ b.proto < 2 ^ 32

/-! ## The layouts -/

theorem or_shiftLeft {a k : Nat} (h : a < 2 ^ k) (b : Nat) : b <<< k ||| a = b * 2 ^ k + a := by
  rw [← Nat.shiftLeft_add_eq_or_of_lt h, Nat.shiftLeft_eq]

/-- The two halves of an address, put together again. -/
theorem registerLba_eq {x : Nat → Nat} (lba : Nat) (h5 : x 5 = lba / 2 ^ 16 % 2 ^ 8)
    (h6 : x 6 = lba % 2 ^ 16) (h8 : x 8 = lba / 2 ^ 40) (h9 : x 9 = lba / 2 ^ 24 % 2 ^ 16) :
    registerLba x = lba := by
  unfold registerLba
  dsimp only
  rw [h5, h6, h8, h9, or_shiftLeft (a := lba % 2 ^ 16) (by omega),
    or_shiftLeft (a := lba / 2 ^ 24 % 2 ^ 16) (by omega), or_shiftLeft (by omega)]
  omega

/-- The bytes are a header of the given type and format, and the dictionary made
of its items is that of `fis`. -/
structure Decodes (messageType : UInt8) (fmt : List Nat) (dict : (Nat → Nat) → Fis) (fis : Fis)
    (header : List UInt8) : Prop where
  first : ∃ a b c rest, header = a :: b :: c :: messageType :: rest
  size : header.length = fmt.sum
  entries : dict (fun i => (items fmt header).getD i 0) = fis

theorem first_dword (a b c messageType : Nat) (rest : List UInt8) :
    ∃ x y z rest',
      beBytes 1 a ++ (beBytes 1 b ++ (beBytes 1 c ++ (beBytes 1 messageType ++ rest))) =
        x :: y :: z :: UInt8.ofNat messageType :: rest' :=
  ⟨_, _, _, _, rfl⟩

/-- A packet that begins with the header of a known type, the names bound. -/
theorem Decodes.extractSataData {messageType : UInt8} {fmt : List Nat}
    {dict : (Nat → Nat) → Fis} {fis : Fis} {header : List UInt8}
    (h : Decodes messageType fmt dict fis header)
    (hlayout : layout messageType.toNat = some (fmt, dict)) (direction seqn : Nat)
    (payload : List UInt8) :
    extractSataData ⟨some direction, some seqn⟩ (header ++ payload) =
      .ok (some (⟨some fis, some direction, seqn⟩, some (flipEndianess payload))) := by
  obtain ⟨⟨a, b, c, rest, rfl⟩, hlen, hdict⟩ := h
  have hx : extractHeader fmt (a :: b :: c :: messageType :: rest ++ payload) =
      .ok (items fmt (a :: b :: c :: messageType :: rest), payload) := by
    unfold extractHeader unpack
    rw [List.take_left' hlen, List.drop_left' hlen, if_pos hlen]
    rfl
  unfold Interpreter.extractSataData
  simp only [List.cons_append, hlayout]
  rw [← List.cons_append, ← List.cons_append, ← List.cons_append, ← List.cons_append, hx]
  simpa [readName, bind, Except.bind, pure, Except.pure] using hdict

theorem halves (a : Nat) : a % 256 ||| (a / 256) <<< 8 = a := by
  rw [Nat.or_comm, or_shiftLeft (by omega)]
  omega

/-- A flag at bit 7, one at bit 6 and the port in the low bits of a byte. -/
theorem flag_port {flag port : Nat} (hf : flag < 2) (hp : port < 16) :
    ((flag * 128 + port) &&& 0b10000000) >>> 7 = flag ∧ (flag * 128 + port) &&& 0b1111 = port ∧
      ((flag * 64 + port) &&& 0b01000000) >>> 6 = flag ∧
      (flag * 64 + port) &&& 0b1111 = port := by
  have h : ∀ f < 2, ∀ p < 16, ((f * 128 + p) &&& 0b10000000) >>> 7 = f ∧
      (f * 128 + p) &&& 0b1111 = p ∧ ((f * 64 + p) &&& 0b01000000) >>> 6 = f ∧
      (f * 64 + p) &&& 0b1111 = p := by decide
  exact h flag hf port hp

theorem registerHtoD_encode {r : RegisterHtoD} (h : Fits (.registerHtoD r)) :
    ∃ bytes, encode (.registerHtoD r) = some bytes ∧
      Decodes 0x27 [1, 1, 1, 1, 1, 1, 2, 1, 1, 2, 1, 1, 2, 4] registerHtoD
        (.registerHtoD r) bytes := by
  obtain ⟨hfe, hco, hC, hpm, hty, hde, hlba, hct, hic, hcn, htag, hre⟩ := h
  refine ⟨_, rfl, ?_⟩
  simp only [lbaLow, lbaHigh, List.append_assoc]
  refine ⟨first_dword .., by simp, ?_⟩
  simp (disch := omega) only [items_beBytes, items_last]
  obtain ⟨hflag, hport, _, _⟩ := flag_port hC hpm
  refine congrArg Fis.registerHtoD ?_
  rw [registerLba_eq r.lba rfl rfl rfl rfl]
  cases r
  simp only [RegisterHtoD.mk.injEq, List.getD_cons_zero, List.getD_cons_succ, and_true, true_and]
  exact ⟨halves _, hflag, hport, hty.symm, htag.symm⟩

theorem registerDtoH_encode {r : RegisterDtoH} (h : Fits (.registerDtoH r)) :
    ∃ bytes, encode (.registerDtoH r) = some bytes ∧
      Decodes 0x34 [1, 1, 1, 1, 1, 1, 2, 1, 1, 2, 2, 2, 4] registerDtoH
        (.registerDtoH r) bytes := by
  obtain ⟨her, hst, hI, hpm, hty, hde, hlba, hcn, h0, h1, h2⟩ := h
  refine ⟨_, rfl, ?_⟩
  simp only [lbaLow, lbaHigh, List.append_assoc]
  refine ⟨first_dword .., by simp, ?_⟩
  simp (disch := omega) only [items_beBytes, items_last]
  obtain ⟨_, _, hflag, hport⟩ := flag_port hI hpm
  refine congrArg Fis.registerDtoH ?_
  rw [registerLba_eq r.lba rfl rfl rfl rfl]
  cases r
  simp only [RegisterDtoH.mk.injEq, List.getD_cons_zero, List.getD_cons_succ, and_true, true_and]
  exact ⟨hflag, hport, hty.symm⟩

theorem dmaActivate_encode {a : DmaActivate} (h : Fits (.dmaActivate a)) :
    ∃ bytes, encode (.dmaActivate a) = some bytes ∧
      Decodes 0x39 [2, 1, 1] dmaActivate
        (.dmaActivate a) bytes := by
  obtain ⟨hpm, hre⟩ := h
  refine ⟨_, rfl, ⟨_, _, _, _, rfl⟩, by simp, ?_⟩
  simp (disch := omega) only [List.append_assoc, items_beBytes, items_last]
  refine congrArg Fis.dmaActivate ?_
  cases a
  simp only [DmaActivate.mk.injEq, List.getD_cons_zero, List.getD_cons_succ, and_true]
  simpa using (flag_port (by decide : 0 < 2) hpm).2.1

theorem dmaSetup_encode {d : DmaSetup} (h : Fits (.dmaSetup d)) :
    ∃ bytes, encode (.dmaSetup d) = some bytes ∧
      Decodes 0x41 [1, 1, 1, 1, 4, 4, 4, 4, 4, 4] dmaSetup
        (.dmaSetup d) bytes := by
  obtain ⟨hA, hI, hD, hpm, hty, hlo, hhi, hof, htc, h0, h1⟩ := h
  refine ⟨_, rfl, ?_⟩
  simp only [List.append_assoc]
  refine ⟨first_dword .., by simp, ?_⟩
  simp (disch := omega) only [items_beBytes, items_last]
  have hbits : ∀ a < 2, ∀ i < 2, ∀ d < 2, ∀ p < 16,
      ((a * 128 + i * 64 + d * 32 + p) &&& 0b10000000) >>> 7 = a ∧
      ((a * 128 + i * 64 + d * 32 + p) &&& 0b1000000) >>> 6 = i ∧
      ((a * 128 + i * 64 + d * 32 + p) &&& 0b100000) >>> 5 = d ∧
      (a * 128 + i * 64 + d * 32 + p) &&& 0b1111 = p := by decide
  obtain ⟨ha, hi, hd, hp⟩ := hbits _ hA _ hI _ hD _ hpm
  refine congrArg Fis.dmaSetup ?_
  cases d
  simp only [DmaSetup.mk.injEq, List.getD_cons_zero, List.getD_cons_succ, and_true]
  exact ⟨ha, hi, hd, hp, hty.symm⟩

theorem setDeviceBits_encode {b : SetDeviceBits} (h : Fits (.setDeviceBits b)) :
    ∃ bytes, encode (.setDeviceBits b) = some bytes ∧
      Decodes 0xa1 [1, 1, 1, 1, 4] setDeviceBits
        (.setDeviceBits b) bytes := by
  obtain ⟨her, hhi, hlo, hN, hI, hpm, hpr⟩ := h
  refine ⟨_, rfl, ?_⟩
  simp only [List.append_assoc]
  refine ⟨first_dword .., by simp, ?_⟩
  simp (disch := omega) only [items_beBytes, items_last]
  have hstatus : ∀ h < 8, ∀ l < 8, ((h * 16 + l) &&& 0b01110000) >>> 4 = h ∧
      (h * 16 + l) &&& 0b111 = l := by decide
  have hbits : ∀ n < 2, ∀ i < 2, ∀ p < 16, ((n * 128 + i * 64 + p) &&& 0b10000000) >>> 7 = n ∧
      ((n * 128 + i * 64 + p) &&& 0b01000000) >>> 6 = i ∧
      (n * 128 + i * 64 + p) &&& 0b1111 = p := by decide
  obtain ⟨hh, hl⟩ := hstatus _ hhi _ hlo
  obtain ⟨hn, hi, hp⟩ := hbits _ hN _ hI _ hpm
  refine congrArg Fis.setDeviceBits ?_
  cases b
  simp only [SetDeviceBits.mk.injEq, List.getD_cons_zero, List.getD_cons_succ, and_true, true_and]
  exact ⟨hh, hl, hn, hi, hp⟩

theorem pioLba_eq (lba : Nat) :
    ((lba / 2 ^ 40) <<< (8 * 3) ||| lba / 2 ^ 24 % 2 ^ 16) <<< (8 * 3) |||
        ((lba / 2 ^ 16 % 2 ^ 8) <<< (8 * 2) ||| lba % 2 ^ 16) =
      lba + lba / 2 ^ 40 * (2 ^ 48 - 2 ^ 40) := by
  rw [or_shiftLeft (a := lba / 2 ^ 24 % 2 ^ 16) (by omega),
    or_shiftLeft (a := lba % 2 ^ 16) (by omega), or_shiftLeft (by omega)]
  omega

theorem pioSetup_encode {p : PioSetup} (h : Fits (.pioSetup p)) :
    ∃ bytes, encode (.pioSetup p) = some bytes ∧
      Decodes 0x5f [1, 1, 1, 1, 1, 1, 2, 1, 1, 2, 1, 1, 2, 2, 2] pioSetup
        (.pioSetup { p with
          directionBit := 0, lba := p.lba + p.lba / 2 ^ 40 * (2 ^ 48 - 2 ^ 40) }) bytes := by
  obtain ⟨her, hst, hD, hpm, hty, hde, hlba, hcn, htc⟩ := h
  refine ⟨_, rfl, ?_⟩
  simp only [lbaLow, lbaHigh, List.append_assoc]
  refine ⟨first_dword .., by simp, ?_⟩
  simp (disch := omega) only [items_beBytes, items_last]
  have hbits : ∀ d < 2, ∀ p < 16, ((d * 32 + p) &&& 0b10000) >>> 4 = 0 ∧
      (d * 32 + p) &&& 0b1111 = p := by decide
  obtain ⟨hbit, hport⟩ := hbits _ hD _ hpm
  refine congrArg Fis.pioSetup ?_
  cases p
  simp only [PioSetup.mk.injEq, List.getD_cons_zero, List.getD_cons_succ, and_true, true_and]
  exact ⟨hbit, hport, hty.symm, pioLba_eq _⟩

/-- What a frame is decoded to once its bytes are read from the right place: a
PIO Setup loses its direction, and its address is wrong from bit 40 on. -/
def misread : Fis → Fis
  | .pioSetup p => .pioSetup { p with
      directionBit := 0, lba := p.lba + p.lba / 2 ^ 40 * (2 ^ 48 - 2 ^ 40) }
  | fis => fis

/-- **With the LO-PHI word cut off and its two names bound, decoding would give
back every frame, but for the two fields of a PIO Setup.** -/
theorem extractSataData_encode {fis : Fis} (h : Fits fis) :
    ∃ bytes, encode fis = some bytes ∧ ∀ direction seqn payload,
      extractSataData ⟨some direction, some seqn⟩ (bytes ++ payload) =
        .ok (some (⟨some (misread fis), some direction, seqn⟩, some (flipEndianess payload))) := by
  cases fis with
  | registerHtoD r =>
    obtain ⟨bytes, hb, hd⟩ := registerHtoD_encode h
    exact ⟨bytes, hb, hd.extractSataData rfl⟩
  | registerDtoH r =>
    obtain ⟨bytes, hb, hd⟩ := registerDtoH_encode h
    exact ⟨bytes, hb, hd.extractSataData rfl⟩
  | dmaActivate a =>
    obtain ⟨bytes, hb, hd⟩ := dmaActivate_encode h
    exact ⟨bytes, hb, hd.extractSataData rfl⟩
  | dmaSetup d =>
    obtain ⟨bytes, hb, hd⟩ := dmaSetup_encode h
    exact ⟨bytes, hb, hd.extractSataData rfl⟩
  | data =>
    have hd : Decodes 0x46 [1, 1, 1, 1] (fun _ => .data) .data [0, 0, 0, 0x46] :=
      ⟨⟨_, _, _, _, rfl⟩, rfl, rfl⟩
    exact ⟨_, rfl, hd.extractSataData rfl⟩
  | bistActivate => exact h.elim
  | pioSetup p =>
    obtain ⟨bytes, hb, hd⟩ := pioSetup_encode h
    exact ⟨bytes, hb, hd.extractSataData rfl⟩
  | setDeviceBits b =>
    obtain ⟨bytes, hb, hd⟩ := setDeviceBits_encode h
    exact ⟨bytes, hb, hd.extractSataData rfl⟩

/-! ## The function as it stands -/

/-- A packet of four bytes or more is never decoded: one of the two names is read
before anything is returned. -/
theorem extractSataData_ne_ok (packet : List UInt8) (r : Header × Option (List UInt8)) :
    extractSataData moduleNames packet ≠ .ok (some r) := by
  unfold extractSataData
  split
  · split
    · rename_i fmt header _
      generalize extractHeader fmt _ = x
      cases x with
      | error e => simp [bind, Except.bind]
      | ok x => simp [bind, Except.bind, readName, moduleNames]
    · simp [bind, Except.bind, readName, moduleNames]
  · simp [pure, Except.pure]

/-- The LO-PHI word stands where the type is looked for, and a direction is no
type: the read of the sequence number raises. -/
theorem extractSataData_repr {seqn direction : Nat} {data : List UInt8} (h : direction < 2) :
    extractSataData moduleNames (SATAFrame.repr ⟨seqn, direction, data⟩) =
      .error (.nameError "lophi_seqn") := by
  have hd : direction = 0 ∨ direction = 1 := by omega
  rcases hd with rfl | rfl <;> rfl

/-- **No frame, sequence number, direction and payload are given back.** -/
theorem never_inverts (fis : Fis) (seqn direction : Nat) (payload : List UInt8) :
    ¬ Inverts fis seqn direction payload := by
  rintro ⟨bytes, _, h⟩
  exact extractSataData_ne_ok _ _ h

/-- A queued read of one sector: the call raises. -/
theorem queuedRead_not_decoded :
    ¬ Inverts (.registerHtoD
        { C := 1, command := 0x60, features := 1, lba := 9, count := 24, tag := 3 }) 7 0 [] ∧
      ∃ bytes, encode (.registerHtoD
        { C := 1, command := 0x60, features := 1, lba := 9, count := 24, tag := 3 }) = some bytes ∧
        extractSataData moduleNames (SATAFrame.repr ⟨7, 0, bytes⟩) =
          .error (.nameError "lophi_seqn") := by
  refine ⟨?_, _, rfl, extractSataData_repr (by decide)⟩
  rintro ⟨bytes, _, h⟩
  exact extractSataData_ne_ok _ _ h

end LoPhi.Sata.Interpreter
