import LoPhi.Data.DataStruct

/-! # Writing a capture and reading it back

`CaptureWriter.run` and `CaptureReader` of `capture/__init__.py`. A capture is a sequence of
records: a header with a time and a length, then the data. The writer takes the length
from `len(packet)` and the bytes from `repr(packet)`, also for a string: its test for a
string compares a type with the text `'str'`. -/

namespace LoPhi.Capture
open LoPhi.Lib.Effect LoPhi.Lib.Python LoPhi.Lib.Struct LoPhi.Data.DataStruct

def capHeader : Class Scalar where
  STRUCT := [("timestamp", formatString .big 0 .f 0), ("length", formatString .big 0 .I 0)]
  distinct := by decide
  free := by decide

theorem capHeader_structSize : capHeader.structSize = 8 := rfl

/-- What a complete header says. -/
theorem capHeader_fields {o : Instance Scalar} {data : List UInt8} (h : data.length = 8) :
    (capHeader.unpack o data).fields "timestamp" =
      .one (.float (widen (UInt32.ofNat (beNat (data.take 4))))) ∧
    (capHeader.unpack o data).fields "length" = .one (.int (beNat (data.drop 4))) := by
  rw [capHeader.unpack_long (by rw [h]; exact Nat.le_refl 8), capHeader_structSize,
    List.take_of_length_le (by omega)]
  have hdrop : (data.drop 4).length = 4 := by
    rw [List.length_drop]
    omega
  constructor
  · simp [unpackFields, capHeader, formatString, Format.padded, Code.format, single,
      ByteOrder.nat, List.take_take]
  · simp [unpackFields, capHeader, formatString, Format.padded, Code.format, unsigned, single,
      ByteOrder.nat, List.take_take, List.take_of_length_le hdrop.le]

/-! ## The representation of a string -/

/-- A byte inside the quotes. -/
def escape (quote c : UInt8) : List UInt8 :=
  let hex (d : UInt8) : UInt8 := if d < 10 then 48 + d else 87 + d
  if c = quote ∨ c = 92 then [92, c]
  else if c = 9 then [92, 116]
  else if c = 10 then [92, 110]
  else if c = 13 then [92, 114]
  else if c < 32 ∨ 127 ≤ c then [92, 120, hex (c / 16), hex (c % 16)]
  else [c]

/-- `repr(s)` of a string: in single quotes, or in double quotes if it has single quotes
and no double ones. -/
def strRepr (s : List UInt8) : List UInt8 :=
  let quote : UInt8 := if 39 ∈ s ∧ 34 ∉ s then 34 else 39
  quote :: s.flatMap (escape quote) ++ [quote]

theorem length_escape_pos (quote c : UInt8) : 1 ≤ (escape quote c).length := by
  unfold escape
  repeat' split
  all_goals simp

theorem length_strRepr (s : List UInt8) : s.length + 2 ≤ (strRepr s).length := by
  have hbody : ∀ quote : UInt8, s.length ≤ (s.flatMap (escape quote)).length := by
    intro quote
    induction s with
    | nil => exact Nat.le_refl 0
    | cons c s ih =>
      have hc := length_escape_pos quote c
      rw [List.flatMap_cons, List.length_append, List.length_cons]
      omega
  unfold strRepr
  simp only [List.length_append, List.length_cons, List.length_nil]
  have := hbody (if 39 ∈ s ∧ 34 ∉ s then 34 else 39)
  omega

/-! ## The packets -/

/-- What is put on the queue: a string, or an instance of a `DataStruct`, whatever it was made from
and whatever was assigned to it. -/
inductive Packet where
  | str (s : List UInt8)
  | struct (cls : Class Scalar) (o : Instance Scalar)

def Packet.len : Packet → Nat
  | .str s => s.length
  | .struct cls o => cls.len o

def Packet.repr : Packet → Except PyError (List UInt8)
  | .str s => .ok (strRepr s)
  | .struct _ o => o.repr

/-- The buffer of a `DataStruct` and its data. -/
def bytesOf (o : Instance Scalar) : List UInt8 := o.structRawData.getD [] ++ o.data.getD []

/-- What a record of the packet should hold. -/
def Packet.content : Packet → List UInt8
  | .str s => s
  | .struct _ o => bytesOf o

def Packet.isStr : Packet → Bool
  | .str _ => true
  | .struct _ _ => false

/-- The packet can be represented: a `DataStruct` that was given too little data has no buffer. -/
def Packet.Buffered : Packet → Prop
  | .str _ => True
  | .struct _ o => o.structRawData.isSome

/-- A `DataStruct` whose buffer was packed to its end. -/
def Packet.Whole : Packet → Prop
  | .str _ => False
  | .struct cls o => ∃ raw, o.structRawData = some raw ∧ raw.length = cls.structSize

/-- A `DataStruct` whose buffer may have been left when a field did not pack. -/
def Packet.Within : Packet → Prop
  | .str _ => False
  | .struct cls o => ∃ raw, o.structRawData = some raw ∧ raw.length ≤ cls.structSize

theorem Packet.Whole.within {packet : Packet} (h : packet.Whole) : packet.Within := by
  cases packet with
  | str s => exact h
  | struct cls o =>
    obtain ⟨raw, hraw, hlength⟩ := h
    exact ⟨raw, hraw, hlength.le⟩

theorem Packet.Within.buffered {packet : Packet} (h : packet.Within) : packet.Buffered := by
  cases packet with
  | str s => exact trivial
  | struct cls o =>
    obtain ⟨raw, hraw, -⟩ := h
    exact Option.isSome_iff_exists.mpr ⟨raw, hraw⟩

theorem repr_bytesOf {o : Instance Scalar} (h : o.structRawData.isSome) :
    o.repr = .ok (bytesOf o) := by
  obtain ⟨raw, hraw⟩ := Option.isSome_iff_exists.mp h
  unfold Instance.repr bytesOf
  rw [hraw]
  cases o.data with
  | none => exact congrArg Except.ok (List.append_nil raw).symm
  | some data => rfl

/-- The lengths of the data and the buffer against `len(packet)`. -/
theorem length_bytesOf {cls : Class Scalar} {o : Instance Scalar} {raw : List UInt8}
    (h : o.structRawData = some raw) :
    (bytesOf o).length + cls.structSize = raw.length + cls.len o := by
  unfold bytesOf Class.len
  rw [h, List.length_append, Option.getD_some]
  cases o.data with
  | none =>
    simp only [Option.getD_none, List.length_nil]
    omega
  | some data =>
    simp only [Option.getD_some]
    omega

theorem Packet.within_iff {packet : Packet} (h : packet.Buffered) :
    packet.Within ↔ packet.isStr = false ∧ packet.content.length ≤ packet.len := by
  cases packet with
  | str s => exact ⟨fun hfalse => hfalse.elim, fun hstr => nomatch hstr.1⟩
  | struct cls o =>
    obtain ⟨raw, hraw⟩ := Option.isSome_iff_exists.mp h
    have hlength : _ = raw.length + cls.len o := length_bytesOf hraw
    have hwithin : Packet.Within (.struct cls o) ↔ raw.length ≤ cls.structSize := by
      constructor
      · rintro ⟨raw', hraw', hle⟩
        cases hraw.symm.trans hraw'
        exact hle
      · exact fun hle => ⟨raw, hraw, hle⟩
    rw [hwithin]
    simp only [Packet.isStr, Packet.content, Packet.len, true_and]
    omega

theorem Packet.whole_iff {packet : Packet} (h : packet.Buffered) :
    packet.Whole ↔ packet.isStr = false ∧ packet.content.length = packet.len := by
  cases packet with
  | str s => exact ⟨fun hfalse => hfalse.elim, fun hstr => nomatch hstr.1⟩
  | struct cls o =>
    obtain ⟨raw, hraw⟩ := Option.isSome_iff_exists.mp h
    have hlength : _ = raw.length + cls.len o := length_bytesOf hraw
    have hwhole : Packet.Whole (.struct cls o) ↔ raw.length = cls.structSize := by
      constructor
      · rintro ⟨raw', hraw', heq⟩
        cases hraw.symm.trans hraw'
        exact heq
      · exact fun heq => ⟨raw, hraw, heq⟩
    rw [hwhole]
    simp only [Packet.isStr, Packet.content, Packet.len, true_and]
    omega

/-- An instance is whole after `__init__` if there was no data or enough of it. -/
theorem whole_init (cls : Class Scalar) (start : Option (List UInt8)) :
    Packet.Whole (.struct cls (cls.init start)) ↔
      ∀ data, start = some data → cls.structSize ≤ data.length := by
  cases start with
  | none => exact ⟨fun _ _ h => (nomatch h), fun _ => ⟨_, rfl, List.length_replicate⟩⟩
  | some data =>
    have hinit : cls.init (some data) = cls.unpack blank data := rfl
    constructor
    · rintro ⟨raw, hraw, -⟩ data' heq
      cases heq
      by_contra hshort
      rw [hinit, cls.unpack_short (Nat.lt_of_not_le hshort)] at hraw
      cases hraw
    · intro h
      have hlong := h data rfl
      rw [hinit, cls.unpack_long hlong]
      refine ⟨_, rfl, ?_⟩
      rw [List.length_take]
      exact Nat.min_eq_left hlong

/-- Assignments of values that fit keep an instance whole. -/
theorem whole_assign {cls : Class Scalar} {assignments : List (String × Value Scalar)}
    {o : Instance Scalar} (hfit : cls.AllFit o.fields)
    (h : ∀ assignment ∈ assignments, cls.Proper assignment)
    (hwhole : Packet.Whole (.struct cls o) ∨ assignments ≠ []) :
    Packet.Whole (.struct cls (cls.assign assignments o).2) := by
  obtain ⟨hlast, hassign⟩ := cls.assign_eq hfit h
  rw [hassign]
  by_cases hnil : assignments = []
  · obtain ⟨raw, hraw, hlength⟩ := hwhole.resolve_right fun hne => hne hnil
    exact ⟨raw, (if_pos hnil).trans hraw, hlength⟩
  · exact ⟨_, if_neg hnil, cls.length_packed hlast⟩

/-- A whole `DataStruct`, as the sensors put it on a queue. -/
structure Struct where
  cls : Class Scalar
  instance_ : Instance Scalar
  raw : List UInt8
  structRawData : instance_.structRawData = some raw
  length_raw : raw.length = cls.structSize

def Struct.packet (p : Struct) : Packet := .struct p.cls p.instance_

/-- The packed bytes of a `DataStruct`. -/
def Struct.bytes (p : Struct) : List UInt8 := p.raw ++ p.instance_.data.getD []

theorem Struct.whole (p : Struct) : p.packet.Whole := ⟨p.raw, p.structRawData, p.length_raw⟩

theorem Struct.content_packet (p : Struct) : p.packet.content = p.bytes := by
  show bytesOf p.instance_ = p.bytes
  rw [bytesOf, p.structRawData]
  rfl

theorem Struct.length_bytes (p : Struct) : p.bytes.length = p.packet.len := by
  rw [← p.content_packet]
  exact ((Packet.whole_iff p.whole.within.buffered).mp p.whole).2

/-! ## The writer -/

structure Writer where
  f : List UInt8
  capHeader : Instance Scalar

/-- A step on the header. -/
def onHeader {β : Type} (m : Prog PyError (Instance Scalar) β) : Prog PyError Writer β :=
  fun w => ((m w.capHeader).1, { w with capHeader := (m w.capHeader).2 })

def write (data : List UInt8) : Prog PyError Writer Unit :=
  modify fun w => { w with f := w.f ++ data }

/-- `type(packet) == 'str'`: a type is not equal to a string. -/
def typeIsText (_ : Packet) : Bool := false

/-- A time that fits a single: `time.time()` is far below the largest one. -/
abbrev Time := { bits : UInt64 // (narrow .big bits).isSome }

/-- The body of the loop of `run`. -/
def writePacket (entry : Time × Packet) : Prog PyError Writer PUnit := do
  onHeader (capHeader.setattr "timestamp" (.one (.float entry.1.val)))
  onHeader (capHeader.setattr "length" (.one (.int entry.2.len)))
  let w ← get
  let header ← ofExcept w.capHeader.repr
  write header
  if typeIsText entry.2 then write entry.2.content
  else do
    let data ← ofExcept entry.2.repr
    write data

/-- `run` over the packets of the queue. -/
def run (packets : List (Time × Packet)) : Except PyError PUnit × List UInt8 :=
  let (result, w) := packets.forM writePacket { f := [], capHeader := capHeader.init none }
  (result, w.f)

/-! ## The reader -/

/-- How an iteration over a capture ends. -/
inductive Ending where
  | stopIteration
  | raised (e : PyError)
  | outOfFuel
  deriving DecidableEq

/-- `next`, on what is left of the file: a record and what is left after it. -/
def next (rest : List UInt8) : Except Ending ((Value Scalar × List UInt8) × List UInt8) :=
  let cap_header := capHeader.init none
  let header_data := rest.take (capHeader.len cap_header)
  if header_data.length = 0 then .error .stopIteration
  else
    let rest := rest.drop header_data.length
    let cap_header := capHeader.unpack cap_header header_data
    match cap_header.fields "length" with
    | .one (.int length) =>
      .ok ((cap_header.fields "timestamp", rest.take length.toNat), rest.drop length.toNat)
    -- a short header leaves `None`, and `"%d"` does not take it
    | _ => .error (.raised .typeError)

def iterate : Nat → List UInt8 → List (Value Scalar × List UInt8) × Ending
  | 0, _ => ([], .outOfFuel)
  | fuel + 1, rest =>
    match next rest with
    | .error ending => ([], ending)
    | .ok (record, rest) =>
      let (records, ending) := iterate fuel rest
      (record :: records, ending)

/-- Iterating over the file. -/
def readAll (file : List UInt8) : List (Value Scalar × List UInt8) × Ending :=
  iterate (file.length + 1) file

/-! ## What is written -/

/-- The packed header. -/
def headerBytes (time : Time) (length : Nat) : List UInt8 :=
  packedValue (formatString .big 0 .f 0) (.one (.float time.val)) ++
    packedValue (formatString .big 0 .I 0) (.one (.int length))

theorem fits_time (time : Time) : Fits (formatString .big 0 .f 0) (.one (.float time.val)) := by
  obtain ⟨bits, hbits⟩ := Option.isSome_iff_exists.mp time.property
  have hpack : (formatString .big 0 .f 0).pack (.float time.val) =
      some (ByteOrder.big.bytes 4 bits.toNat) := by
    refine ((single .big).padded_pack_none _).trans ?_
    rw [single_pack_float, hbits]
    rfl
  exact ⟨_, packField_one hpack⟩

theorem packField_length {n : Nat} (h : n < 2 ^ 32) :
    packField (formatString .big 0 .I 0) (.one (.int n)) = .ok (beBytes 4 n) := by
  have hpack : (formatString .big 0 .I 0).pack (.int n) = some (beBytes 4 n) :=
    ((unsigned .big 4).padded_pack_none _).trans (unsigned_pack (by omega))
  exact packField_one hpack

theorem headerBytes_eq (time : Time) {n : Nat} (h : n < 2 ^ 32) :
    headerBytes time n =
      packedValue (formatString .big 0 .f 0) (.one (.float time.val)) ++ beBytes 4 n := by
  have hpack := packField_length h
  rw [packField_eq ⟨_, hpack⟩] at hpack
  rw [headerBytes, Except.ok.inj hpack]

theorem length_time (time : Time) :
    (packedValue (formatString .big 0 .f 0) (.one (.float time.val))).length = 4 :=
  length_packField (packField_eq (fits_time time))

theorem length_headerBytes (time : Time) {n : Nat} (h : n < 2 ^ 32) :
    (headerBytes time n).length = 8 := by
  rw [headerBytes_eq time h, List.length_append, length_time, beBytes_length]

/-- What the file gets of a packet after the header. -/
def Packet.written : Packet → List UInt8
  | .str s => strRepr s
  | .struct _ o => bytesOf o

theorem Packet.repr_eq {packet : Packet} (h : packet.Buffered) :
    packet.repr = .ok packet.written := by
  cases packet with
  | str s => rfl
  | struct cls o => exact repr_bytesOf h

/-- Without its buffer a packet cannot be represented. -/
theorem Packet.repr_unbuffered {packet : Packet} (h : ¬ packet.Buffered) :
    packet.repr = .error .attributeError := by
  cases packet with
  | str s => exact absurd trivial h
  | struct cls o =>
    have hnone : o.structRawData = none := Option.not_isSome_iff_eq_none.mp h
    show o.repr = _
    unfold Instance.repr
    rw [hnone]

/-- The header between two packets: every field packs, and no data follows. -/
structure HeaderReady (o : Instance Scalar) : Prop where
  allFit : capHeader.AllFit o.fields
  data : o.data = none

theorem onHeader_ok {β : Type} {m : Prog PyError (Instance Scalar) β} {w : Writer} {b : β}
    {o : Instance Scalar} (h : m w.capHeader = (.ok b, o)) :
    onHeader m w = (.ok b, { w with capHeader := o }) := by
  unfold onHeader
  rw [h]

/-- Setting both fields of the header. -/
theorem capHeader_assign {o : Instance Scalar} (ho : HeaderReady o) (time : Time) {n : Nat}
    (h : n < 2 ^ 32) :
    ∃ o₁ o₂, capHeader.setattr "timestamp" (.one (.float time.val)) o = (.ok (), o₁) ∧
      capHeader.setattr "length" (.one (.int n)) o₁ = (.ok (), o₂) ∧
      o₂.repr = .ok (headerBytes time n) ∧ HeaderReady o₂ := by
  have htime : "timestamp" ∈ capHeader.STRUCT.map Prod.fst := by decide
  have hlength : "length" ∈ capHeader.STRUCT.map Prod.fst := by decide
  have hproper : capHeader.Proper ("timestamp", .one (.float time.val)) := by
    refine ⟨htime, fun entry hentry hkey => ?_⟩
    obtain rfl | hentry := List.mem_cons.mp hentry
    · exact fits_time time
    · obtain rfl := List.mem_singleton.mp hentry
      simp at hkey
  have hfit₁ := capHeader.allFit_update ho.allFit hproper
  have hfit₂ := capHeader.allFit_update hfit₁
    (show capHeader.Proper ("length", .one (.int n)) from ⟨hlength, fun entry hentry hkey => by
      obtain rfl | hentry := List.mem_cons.mp hentry
      · simp at hkey
      · obtain rfl := List.mem_singleton.mp hentry
        exact ⟨_, packField_length h⟩⟩)
  refine ⟨_, _, capHeader.setattr_eq htime hfit₁, capHeader.setattr_eq hlength hfit₂,
    ?_, hfit₂, ho.data⟩
  unfold Instance.repr
  simp only [ho.data]
  refine congrArg Except.ok ?_
  rw [Class.packed, capHeader, List.flatMap_cons, List.flatMap_singleton, headerBytes]
  rfl

/-- One packet adds its header and its representation, or raises. -/
theorem writePacket_eq {w : Writer} (hw : HeaderReady w.capHeader) (entry : Time × Packet)
    (h : entry.2.len < 2 ^ 32) :
    ∃ o, HeaderReady o ∧
      (entry.2.Buffered → writePacket entry w = (.ok ⟨⟩,
        { f := w.f ++ (headerBytes entry.1 entry.2.len ++ entry.2.written), capHeader := o })) ∧
      (¬ entry.2.Buffered → (writePacket entry w).1 = .error .attributeError) := by
  obtain ⟨o₁, o₂, htime, hlength, hrepr, ho₂⟩ := capHeader_assign hw entry.1 h
  refine ⟨o₂, ho₂, fun hbuffered => ?_, fun hunbuffered => ?_⟩
  · refine (bind_ok (onHeader_ok htime)).trans ?_
    refine (bind_ok (onHeader_ok hlength)).trans ?_
    refine (bind_ok rfl).trans ((bind_ok (congrArg (·, _) hrepr)).trans ?_)
    refine (bind_ok rfl).trans
      ((bind_ok (congrArg (·, _) (Packet.repr_eq hbuffered))).trans ?_)
    rw [← List.append_assoc]
    rfl
  · have hraised : writePacket entry w = (.error .attributeError,
        { f := w.f ++ headerBytes entry.1 entry.2.len, capHeader := o₂ }) := by
      refine (bind_ok (onHeader_ok htime)).trans ?_
      refine (bind_ok (onHeader_ok hlength)).trans ?_
      refine (bind_ok rfl).trans ((bind_ok (congrArg (·, _) hrepr)).trans ?_)
      refine (bind_ok rfl).trans ?_
      exact bind_error (congrArg (·, _) (Packet.repr_unbuffered hunbuffered))
    rw [hraised]

/-- The bytes of a record as the writer makes it. -/
def recordBytes (entry : Time × Packet) : List UInt8 :=
  headerBytes entry.1 entry.2.len ++ entry.2.written

theorem run_eq {packets : List (Time × Packet)} (h : ∀ entry ∈ packets, entry.2.len < 2 ^ 32)
    (hbuffered : ∀ entry ∈ packets, entry.2.Buffered) :
    run packets = (.ok ⟨⟩, packets.flatMap recordBytes) := by
  have hloop : ∀ w : Writer, HeaderReady w.capHeader →
      ∃ o, packets.forM writePacket w =
        (.ok ⟨⟩, { f := w.f ++ packets.flatMap recordBytes, capHeader := o }) := by
    induction packets with
    | nil =>
      intro w _
      refine ⟨w.capHeader, ?_⟩
      rw [List.flatMap_nil, List.append_nil]
      rfl
    | cons entry packets ih =>
      intro w hw
      obtain ⟨o, ho, hfirst, -⟩ := writePacket_eq hw entry (h entry (by simp))
      obtain ⟨o', hrest⟩ := ih (fun other hother => h other (by simp [hother]))
        (fun other hother => hbuffered other (by simp [hother]))
        { f := w.f ++ recordBytes entry, capHeader := o } ho
      refine ⟨o', (bind_ok (hfirst (hbuffered entry (by simp)))).trans (hrest.trans ?_)⟩
      rw [List.flatMap_cons, ← List.append_assoc]
  obtain ⟨o, ho⟩ := hloop { f := [], capHeader := capHeader.init none }
    ⟨capHeader.init_allFit none, rfl⟩
  unfold run
  rw [ho]
  rfl

/-- A writer that comes to a packet without a buffer raises. -/
theorem buffered_of_run {packets : List (Time × Packet)}
    (h : ∀ entry ∈ packets, entry.2.len < 2 ^ 32) (hrun : (run packets).1 = .ok ⟨⟩) :
    ∀ entry ∈ packets, entry.2.Buffered := by
  have hloop : ∀ w : Writer, HeaderReady w.capHeader → (packets.forM writePacket w).1 = .ok ⟨⟩ →
      ∀ entry ∈ packets, entry.2.Buffered := by
    clear hrun
    induction packets with
    | nil =>
      intro w _ _ entry hentry
      cases hentry
    | cons first packets ih =>
      intro w hw hreturns
      obtain ⟨o, ho, hok, hraises⟩ := writePacket_eq hw first (h first (by simp))
      obtain ⟨_, w₁, hfirst, hrest⟩ := bind_returns (returns_of_fst hreturns)
      have hbuffered : first.2.Buffered := by
        by_contra hunbuffered
        have hraised := hraises hunbuffered
        rw [hfirst] at hraised
        cases hraised
      cases hfirst.symm.trans (hok hbuffered)
      intro entry hentry
      rcases List.mem_cons.mp hentry with rfl | hentry
      · exact hbuffered
      · exact ih (fun other hother => h other (by simp [hother]))
          { f := w.f ++ recordBytes first, capHeader := o } ho (congrArg Prod.fst hrest) entry
          hentry
  exact hloop _ ⟨capHeader.init_allFit none, rfl⟩ hrun

/-! ## What is read -/

/-- A header that is cut off leaves the length unset. -/
theorem next_short {rest : List UInt8} (hpos : 0 < rest.length) (h : rest.length < 8) :
    next rest = .error (.raised .typeError) := by
  have hlen : (rest.take (capHeader.len (capHeader.init none))).length = rest.length := by
    rw [List.length_take]
    exact Nat.min_eq_right h.le
  unfold next
  simp only [hlen]
  rw [if_neg (by omega), capHeader.unpack_short (by rw [hlen]; exact h)]
  rfl

/-- A complete header and as much of the data as there is. -/
theorem next_long {rest : List UInt8} (h : 8 ≤ rest.length) :
    next rest = .ok ((.one (.float (widen (UInt32.ofNat (beNat (rest.take 4))))),
      (rest.drop 8).take (beNat ((rest.drop 4).take 4))),
      (rest.drop 8).drop (beNat ((rest.drop 4).take 4))) := by
  have hlen : (rest.take 8).length = 8 := by
    rw [List.length_take]
    omega
  obtain ⟨htime, hlength⟩ := capHeader_fields (o := capHeader.init none) hlen
  have hsize : capHeader.len (capHeader.init none) = 8 := rfl
  unfold next
  simp only [hsize, hlen]
  rw [if_neg (by omega), hlength, htime, List.take_take, List.drop_take]
  rfl

theorem next_header (time : Time) {n : Nat} (h : n < 2 ^ 32) (rest : List UInt8) :
    ∃ stamp, next (headerBytes time n ++ rest) = .ok ((stamp, rest.take n), rest.drop n) := by
  have hlen := length_headerBytes time h
  have hnext : next (headerBytes time n ++ rest) = _ := next_long (by
    rw [List.length_append, hlen]
    omega)
  have hlength : beNat (((headerBytes time n ++ rest).drop 4).take 4) = n := by
    rw [headerBytes_eq time h, List.append_assoc, List.drop_left' (length_time time),
      List.take_left' (beBytes_length 4 n), beNat_beBytes, Nat.mod_eq_of_lt (by omega)]
  rw [hlength, List.drop_left' hlen] at hnext
  exact ⟨_, hnext⟩

/-- Whatever `next` returns has taken a header and the data from the file. -/
theorem next_consumes {rest rest' : List UInt8} {record : Value Scalar × List UInt8}
    (h : next rest = .ok (record, rest')) : rest.length = 8 + record.2.length + rest'.length := by
  cases rest with
  | nil => cases h
  | cons b rest =>
    by_cases hlen : (b :: rest).length < 8
    · rw [next_short (by simp) hlen] at h
      cases h
    · rw [next_long (by omega)] at h
      cases h
      simp only [List.length_take, List.length_drop]
      omega

/-- Iteration that stops at the end of the file has gone through all its bytes. -/
theorem iterate_consumes {fuel : Nat} {rest : List UInt8}
    (h : (iterate fuel rest).2 = .stopIteration) :
    rest.length = ((iterate fuel rest).1.map fun record => 8 + record.2.length).sum := by
  induction fuel generalizing rest with
  | zero => cases h
  | succ fuel ih =>
    unfold iterate at h ⊢
    cases hnext : next rest with
    | error ending =>
      rw [hnext] at h
      cases h
      cases rest with
      | nil => rfl
      | cons b rest =>
        by_cases hlen : (b :: rest).length < 8
        · rw [next_short (by simp) hlen] at hnext
          cases hnext
        · rw [next_long (by omega)] at hnext
          cases hnext
    | ok result =>
      rw [hnext] at h
      rw [next_consumes hnext, ih h]
      rfl

/-! ## Reading back -/

/-- The file `run` makes gives one record for each packet, with its content, and nothing
after the last. -/
def ReadsBack (packets : List (Time × Packet)) : Prop :=
  (run packets).1 = .ok ⟨⟩ ∧ (readAll (run packets).2).2 = .stopIteration ∧
    (readAll (run packets).2).1.map Prod.snd = packets.map fun entry => entry.2.content

/-- All packets are `DataStruct`s with a buffer, packed to its end in all but the last. -/
def Readable (packets : List (Time × Packet)) : Prop :=
  (∀ entry ∈ packets.dropLast, entry.2.Whole) ∧ ∀ entry ∈ packets.getLast?, entry.2.Within

section Readable
variable {entry : Time × Packet} {packets : List (Time × Packet)}

theorem readable_cons : Readable (entry :: packets) ↔
    entry.2.Within ∧ (packets ≠ [] → entry.2.Whole) ∧ Readable packets := by
  unfold Readable
  cases packets with
  | nil =>
    constructor
    · exact fun h => ⟨h.2 entry rfl, fun hne => absurd rfl hne, fun _ hin => (nomatch hin),
        fun _ hin => (nomatch hin)⟩
    · rintro ⟨hwithin, -⟩
      refine ⟨fun _ hin => (nomatch hin), fun other hin => ?_⟩
      cases hin
      exact hwithin
  | cons next packets =>
    rw [List.dropLast_cons_cons, List.getLast?_cons_cons, List.forall_mem_cons]
    constructor
    · rintro ⟨⟨hfirst, hrest⟩, hlast⟩
      exact ⟨hfirst.within, fun _ => hfirst, hrest, hlast⟩
    · rintro ⟨-, hfirst, hrest, hlast⟩
      exact ⟨⟨hfirst (List.cons_ne_nil _ _), hrest⟩, hlast⟩

theorem Readable.within (h : Readable packets) : ∀ entry ∈ packets, entry.2.Within := by
  induction packets with
  | nil =>
    intro entry hentry
    cases hentry
  | cons first packets ih =>
    obtain ⟨hfirst, -, hrest⟩ := readable_cons.mp h
    exact List.forall_mem_cons.mpr ⟨hfirst, ih hrest⟩

theorem readable_of_whole (h : ∀ entry ∈ packets, entry.2.Whole) : Readable packets :=
  ⟨fun entry hentry => h entry (List.mem_of_mem_dropLast hentry),
    fun entry hentry => (h entry (List.mem_of_getLast? hentry)).within⟩

end Readable

/-- What is written of a `DataStruct` is what its record should hold. -/
theorem Packet.written_eq {packet : Packet} (h : packet.isStr = false) :
    packet.written = packet.content := by
  cases packet with
  | str s => cases h
  | struct cls o => rfl

theorem iterate_records {packets : List (Time × Packet)}
    (h : ∀ entry ∈ packets, entry.2.len < 2 ^ 32) (hreadable : Readable packets) {fuel : Nat}
    (hfuel : packets.length < fuel) :
    (iterate fuel (packets.flatMap recordBytes)).2 = .stopIteration ∧
      (iterate fuel (packets.flatMap recordBytes)).1.map Prod.snd =
        packets.map fun entry => entry.2.content := by
  induction packets generalizing fuel with
  | nil =>
    cases fuel with
    | zero => cases hfuel
    | succ fuel => exact ⟨rfl, rfl⟩
  | cons entry packets ih =>
    cases fuel with
    | zero => cases hfuel
    | succ fuel =>
      obtain ⟨hwithin, hwhole, hrest⟩ := readable_cons.mp hreadable
      obtain ⟨hstr, hle⟩ := (Packet.within_iff hwithin.buffered).mp hwithin
      obtain ⟨stamp, hnext⟩ := next_header entry.1 (h entry (by simp))
        (entry.2.content ++ packets.flatMap recordBytes)
      -- only the last record may be shorter than its header says
      have hrecord : (entry.2.content ++ packets.flatMap recordBytes).take entry.2.len =
            entry.2.content ∧
          (entry.2.content ++ packets.flatMap recordBytes).drop entry.2.len =
            packets.flatMap recordBytes := by
        by_cases hlast : packets = []
        · rw [hlast, List.flatMap_nil, List.append_nil]
          exact ⟨List.take_of_length_le hle, List.drop_eq_nil_of_le hle⟩
        · have hlen := ((Packet.whole_iff hwithin.buffered).mp (hwhole hlast)).2
          exact ⟨List.take_left' hlen, List.drop_left' hlen⟩
      rw [hrecord.1, hrecord.2] at hnext
      obtain ⟨hend, hrecords⟩ := ih (fun other hother => h other (by simp [hother])) hrest
        (Nat.lt_of_succ_lt_succ hfuel)
      rw [List.flatMap_cons, recordBytes, Packet.written_eq hstr, List.append_assoc]
      unfold iterate
      rw [hnext]
      refine ⟨hend, ?_⟩
      rw [List.map_cons, List.map_cons, ← hrecords]

/-- Records that hold the contents of `DataStruct`s were found where they begin. -/
theorem readable_of_records {packets : List (Time × Packet)}
    (h : ∀ entry ∈ packets, entry.2.len < 2 ^ 32)
    (hbuffered : ∀ entry ∈ packets, entry.2.Buffered)
    (hstr : ∀ entry ∈ packets, entry.2.isStr = false) {fuel : Nat}
    (hrecords : (iterate fuel (packets.flatMap recordBytes)).1.map Prod.snd =
      packets.map fun entry => entry.2.content) : Readable packets := by
  induction packets generalizing fuel with
  | nil => exact ⟨fun _ hin => (nomatch hin), fun _ hin => (nomatch hin)⟩
  | cons entry packets ih =>
    have hfirst := hstr entry (by simp)
    have hbuffer := hbuffered entry (by simp)
    cases fuel with
    | zero => cases hrecords
    | succ fuel =>
      obtain ⟨stamp, hnext⟩ := next_header entry.1 (h entry (by simp))
        (entry.2.content ++ packets.flatMap recordBytes)
      rw [List.flatMap_cons, recordBytes, Packet.written_eq hfirst, List.append_assoc] at hrecords
      unfold iterate at hrecords
      rw [hnext, List.map_cons, List.map_cons] at hrecords
      obtain ⟨hdata, hmore⟩ := List.cons.inj hrecords
      have hlength := congrArg List.length hdata
      rw [List.length_take, List.length_append] at hlength
      have hwhole : packets ≠ [] → entry.2.content.length = entry.2.len := by
        intro hne
        obtain ⟨next, rest, rfl⟩ := List.exists_cons_of_ne_nil hne
        have hheader := length_headerBytes next.1 (h next (by simp))
        rw [List.flatMap_cons, recordBytes, List.length_append, List.length_append, hheader]
          at hlength
        omega
      refine readable_cons.mpr ⟨(Packet.within_iff hbuffer).mpr ⟨hfirst, by omega⟩,
        fun hne => (Packet.whole_iff hbuffer).mpr ⟨hfirst, hwhole hne⟩, ?_⟩
      by_cases hlast : packets = []
      · rw [hlast]
        exact ⟨fun _ hin => (nomatch hin), fun _ hin => (nomatch hin)⟩
      · rw [List.drop_left' (hwhole hlast)] at hmore
        exact ih (fun other hother => h other (by simp [hother]))
          (fun other hother => hbuffered other (by simp [hother]))
          (fun other hother => hstr other (by simp [hother])) hmore

theorem length_recordBytes {entry : Time × Packet} (h : entry.2.len < 2 ^ 32) :
    8 + entry.2.content.length ≤ (recordBytes entry).length ∧
      (entry.2.isStr = true → 8 + entry.2.content.length < (recordBytes entry).length) := by
  rw [recordBytes, List.length_append, length_headerBytes entry.1 h]
  cases entry.2 with
  | str s =>
    have hrepr := length_strRepr s
    simp only [Packet.content, Packet.written]
    exact ⟨by omega, fun _ => by omega⟩
  | struct cls o => exact ⟨Nat.le_refl _, fun hstr => by cases hstr⟩

/-- A string makes its record longer than the header says. -/
theorem length_records {packets : List (Time × Packet)}
    (h : ∀ entry ∈ packets, entry.2.len < 2 ^ 32) :
    (packets.map fun entry => 8 + entry.2.content.length).sum ≤
        (packets.flatMap recordBytes).length ∧
      ((∃ entry ∈ packets, entry.2.isStr = true) →
        (packets.map fun entry => 8 + entry.2.content.length).sum <
          (packets.flatMap recordBytes).length) := by
  induction packets with
  | nil =>
    refine ⟨Nat.le_refl 0, fun hstr => ?_⟩
    obtain ⟨entry, hentry, -⟩ := hstr
    cases hentry
  | cons first packets ih =>
    obtain ⟨hle, hlt⟩ := ih fun other hother => h other (by simp [hother])
    obtain ⟨hfirst, hstr⟩ := length_recordBytes (h first (by simp))
    rw [List.map_cons, List.sum_cons, List.flatMap_cons, List.length_append]
    refine ⟨by omega, fun hexists => ?_⟩
    obtain ⟨entry, hentry, hentryStr⟩ := hexists
    obtain rfl | hentry := List.mem_cons.mp hentry
    · have := hstr hentryStr
      omega
    · have := hlt ⟨entry, hentry, hentryStr⟩
      omega

/-- Packets that can be read back are. -/
theorem Readable.readsBack {packets : List (Time × Packet)}
    (h : ∀ entry ∈ packets, entry.2.len < 2 ^ 32) (hreadable : Readable packets) :
    ReadsBack packets := by
  have hfuel : packets.length ≤ (packets.flatMap recordBytes).length := by
    refine le_trans ?_ (length_records h).1
    rw [← List.length_map (f := fun entry : Time × Packet => 8 + entry.2.content.length)]
    exact List.length_le_sum_of_one_le _ fun n hn => by
      obtain ⟨entry, -, rfl⟩ := List.mem_map.mp hn
      omega
  unfold ReadsBack
  rw [run_eq h fun entry hentry => (hreadable.within entry hentry).buffered]
  exact ⟨rfl, iterate_records h hreadable (Nat.lt_succ_of_le hfuel)⟩

/-- **A capture reads back what was written exactly when** no packet is a string, every
`DataStruct` has a buffer, and only in the last it is not packed to its end: the records of a file
that is read to its end fill it, and the record of a string is longer than what is read of it. -/
theorem readsBack_iff (packets : List (Time × Packet))
    (h : ∀ entry ∈ packets, entry.2.len < 2 ^ 32) : ReadsBack packets ↔ Readable packets := by
  refine ⟨fun hread => ?_, fun hreadable => hreadable.readsBack h⟩
  obtain ⟨hrun, hend, hrecords⟩ := hread
  have hbuffered := buffered_of_run h hrun
  rw [run_eq h hbuffered] at hend hrecords
  have hmap : ((readAll (packets.flatMap recordBytes)).1.map fun record =>
      8 + record.2.length) = packets.map fun entry => 8 + entry.2.content.length := by
    have := congrArg (List.map fun data => 8 + data.length) hrecords
    rwa [List.map_map, List.map_map] at this
  have hsum : (packets.flatMap recordBytes).length =
      (packets.map fun entry => 8 + entry.2.content.length).sum :=
    (iterate_consumes hend).trans (congrArg List.sum hmap)
  refine readable_of_records h hbuffered (fun entry hentry => ?_) hrecords
  cases hstr : entry.2.isStr with
  | false => rfl
  | true =>
    have := (length_records h).2 ⟨entry, hentry, hstr⟩
    omega

/-- A new disk sensor packet, followed by one byte of data. -/
def newDiskPacket : Packet :=
  .struct diskSensorPacket { diskSensorPacket.init none with data := some [7] }

/-- Two packets of the disk sensor are read back. -/
theorem readsBack_diskPackets :
    (∀ entry ∈ [((⟨0, rfl⟩, newDiskPacket) : Time × Packet), (⟨0, rfl⟩, newDiskPacket)],
      entry.2.len < 2 ^ 32) ∧
    ReadsBack [(⟨0, rfl⟩, newDiskPacket), (⟨0, rfl⟩, newDiskPacket)] := by
  have hlen : ∀ entry ∈ [((⟨0, rfl⟩, newDiskPacket) : Time × Packet),
      (⟨0, rfl⟩, newDiskPacket)], entry.2.len < 2 ^ 32 := by decide
  have hwhole : newDiskPacket.Whole := ⟨_, rfl, rfl⟩
  refine ⟨hlen, (readsBack_iff _ hlen).mpr (readable_of_whole fun entry hentry => ?_)⟩
  rcases List.mem_cons.mp hentry with rfl | hentry
  · exact hwhole
  · rw [List.mem_singleton.mp hentry]
    exact hwhole

/-- The string `a` is not read back: the record holds the opening quote. -/
theorem not_readsBack_str : ¬ ReadsBack [(⟨0, rfl⟩, .str [97])] := by
  intro h
  have hrecords := h.2.2
  revert hrecords
  decide

end LoPhi.Capture
