import LoPhi.Capture.ReadBack
import LoPhi.Disk.Virtual
import LoPhi.Lib.Dict
import LoPhi.Sata.Interpreter
import LoPhi.Sata.Reconstructor

/-! # Live analysis, capture and replay

`DiskEngine.run` takes packets off a disk sensor and hands the accesses in them to the semantic
engine as they come. `DcapEngine.run` puts the packets on the queue of a `CaptureWriter` instead,
and `DiskAnalysis.replay` hands the accesses of a capture to a semantic engine later and counts
what was reported. The two semantic engines are classes of different modules, the live one of
`filesystem_reconstructor` and that of the replay of `filesystems`, and each comes from outside:
`get_access` may report operations, or nothing, or, for a volume that is not NTFS, a dictionary of
files, and it may raise. -/

namespace LoPhi.Disk.Replay
open LoPhi.Lib LoPhi.Lib.Effect LoPhi.Lib.Python LoPhi.Lib.Struct LoPhi.Data.DataStruct
open LoPhi.Capture LoPhi.Disk.Virtual
open LoPhi.Sata.Frame (PhysicalPacket)
open LoPhi.Sata.Interpreter (Header extractSataData moduleNames)
open LoPhi.Sata.Reconstructor (SATAReconstructor processPacket)

/-! ## The semantic engine -/

/-- The arguments of `get_access`. -/
structure Access where
  sector : Value Scalar
  numSectors : Value Scalar
  diskOperation : Value Scalar
  data : Option (List UInt8)

/-- The access in a `DiskSensorPacket` of `data.py`. -/
def accessOf (o : Instance Scalar) : Access where
  sector := o.fields "sector"
  numSectors := o.fields "num_sectors"
  diskOperation := o.fields "disk_operation"
  data := o.data

/-- The access in a packet the SATA reconstructor makes. -/
def accessOfSata (p : Sata.Frame.DiskSensorPacket UInt8) : Access where
  sector := .one (.int p.sector)
  numSectors := .one (.int p.numSectors)
  diskOperation := .one (.int p.diskOperation)
  data := some p.data

/-- The `inode` of an operation: a number or a text. -/
inductive Inode where
  | number (n : Nat)
  | text (s : String)
  deriving DecidableEq, Repr

/-- What the replay reads of an operation. -/
structure FsOperation where
  sector : Nat
  op : String
  opType : String
  inode : Inode
  filename : String
  rawData : Option (List UInt8) := none
  deriving DecidableEq, Repr

/-- What `get_access` returns: `None`, a list of operations, or a dictionary, of which only the
keys are used. -/
inductive Report where
  | outside
  | operations (ops : List FsOperation)
  | files (names : List String)
  deriving DecidableEq, Repr

/-- `get_access` of a semantic engine. -/
abbrev GetAccess (S : Type) := Access → Prog Unit S Report

/-- `lophi_packet` with what `extract_sata_data` has returned. -/
def physicalPacket (header : Header) (sataData : List UInt8) : Option (PhysicalPacket UInt8) :=
  match header.fis, header.direction with
  | some fis, some direction =>
    some { direction := direction, fis := fis, sataData := sataData, lophiSeqn := header.lophiSeqn }
  | _, _ => none

/-- The exceptions that end a loop: one of the modelled functions, or a missing key. -/
inductive EngineError where
  | raised (e : PyError)
  | keyError
  deriving DecidableEq, Repr

/-! ## The loops over packets -/

/-- The commands of the queue, by the first word. -/
inductive Command where
  | pause
  | unpause
  | stop
  | other
  deriving DecidableEq, Repr

/-- What one turn of a loop finds: the command on the queue, whether `_disconnect` raises, and
what `disk_get_packet` does. -/
structure Turn where
  cmd : Option Command := none
  raises : Bool := false
  packet : Except Unit (Option Struct)

/-- What the commands leave: whether the loop is paused, whether it goes on, and whether it is
left at once. -/
structure Polled where
  paused : Bool
  running : Bool := true
  breaks : Bool := false
  deriving DecidableEq, Repr

/-- The `try` block around the commands. An exception of `_disconnect` is swallowed, and then the
`break` is not reached. -/
def poll (raises paused : Bool) : Option Command → Polled
  | some .pause => { paused := true }
  | some .unpause => { paused := false }
  | some .stop => { paused := paused, running := false, breaks := !raises }
  | some .other => { paused := paused }
  | none => { paused := paused }

section Live
variable {S : Type} (getAccess : GetAccess S)

/-- What `DiskEngine.run` works with. `reported` are the lists of operations that go to
`parse_actions` and are not empty. -/
structure DiskEngine (S : Type) where
  semanticEngine : S
  sataReconstructor : SATAReconstructor UInt8
  paused : Bool := false
  reported : List (List FsOperation) := []

/-- The inner `try` block. `parse_actions` returns at once without operations, and raises for a
dictionary with keys, which are not operations. -/
def bridge (a : Access) : Prog EngineError (DiskEngine S) Unit := fun e =>
  match getAccess a e.semanticEngine with
  | (.ok (.operations (op :: ops)), s) =>
    (.ok (), { e with semanticEngine := s, reported := e.reported ++ [op :: ops] })
  | (_, s) => (.ok (), { e with semanticEngine := s })

/-- `disk_sensor_pkts` of a physical machine. A frame of unknown type has no `type`. -/
def reconstruct (data : List UInt8) : Prog EngineError (DiskEngine S) (List Access) := do
  let extracted ← ofExcept ((extractSataData moduleNames data).mapError .raised)
  let (header, sataData) ← orRaise (.raised .typeError) extracted
  let packet ← orRaise .keyError (physicalPacket header (sataData.getD []))
  let e ← get
  let (sataReconstructor, outcome) := processPacket e.sataReconstructor packet
  modify fun e => { e with sataReconstructor := sataReconstructor }
  let packets ← ofExcept (outcome.mapError .raised)
  pure ((packets.getD []).map accessOfSata)

/-- A packet of the sensor. A packet is never empty, so none is skipped. -/
def DiskEngine.process (physical : Bool) (p : Struct) : Prog EngineError (DiskEngine S) PUnit := do
  if physical then
    let accesses ← reconstruct p.bytes
    accesses.forM (bridge getAccess)
  else bridge getAccess (accessOf p.instance_)

/-- A turn after the commands. `goOn` is what is left of the loop. -/
def DiskEngine.turn (physical : Bool) (polled : Polled) (packet : Except Unit (Option Struct))
    (goOn : Prog EngineError (DiskEngine S) PUnit) : Prog EngineError (DiskEngine S) PUnit :=
  if polled.breaks then pure ⟨⟩
  else if polled.paused then goOn
  else
    match packet with
    | .error _ => pure ⟨⟩
    | .ok none => goOn
    | .ok (some p) => do
      DiskEngine.process getAccess physical p
      goOn

/-- The loop of `DiskEngine.run`. -/
def DiskEngine.run (physical : Bool) : List Turn → Prog EngineError (DiskEngine S) PUnit
  | [] => pure ⟨⟩
  | t :: ts => do
    let e ← get
    let polled := poll t.raises e.paused t.cmd
    modify fun e => { e with paused := polled.paused }
    DiskEngine.turn getAccess physical polled t.packet
      (if polled.running then DiskEngine.run physical ts else pure ⟨⟩)

end Live

/-- `DcapEngine.run`: the packets it puts on the output queue. Its `break` comes before anything
could raise. -/
def dcapRun (paused : Bool) : List Turn → List Struct
  | [] => []
  | t :: ts =>
    let polled := poll false paused t.cmd
    if polled.breaks then []
    else if polled.paused then dcapRun polled.paused ts
    else
      match t.packet with
      | .error _ => []
      | .ok none => dcapRun polled.paused ts
      | .ok (some p) => p :: dcapRun polled.paused ts

/-! ## The replay -/

/-- An element of `output_log`: an operation, or a key of a dictionary. -/
inductive Entry where
  | operation (op : FsOperation)
  | name (s : String)
  deriving DecidableEq, Repr

/-- What goes to `output_log`. -/
def entries : Report → List Entry
  | .outside => []
  | .operations ops => ops.map .operation
  | .files names => names.map .name

section Replay
variable {S : Type} (getAccess : GetAccess S)

/-- What `replay` works with. -/
structure DiskAnalysis (S : Type) where
  semanticEngine : S
  sataReconstructor : SATAReconstructor UInt8
  outputLog : List Entry := []

/-- The inner `try` block. -/
def logAccess (a : Access) : Prog EngineError (DiskAnalysis S) PUnit := fun d =>
  match getAccess a d.semanticEngine with
  | (.ok report, s) =>
    (.ok ⟨⟩, { d with semanticEngine := s, outputLog := d.outputLog ++ entries report })
  | (.error _, s) => (.ok ⟨⟩, { d with semanticEngine := s })

/-- A record of the capture. For a physical machine `(a, b) = None` raises, and a packet without
header or data is skipped. -/
def replayRecord (physical : Bool) (data : List UInt8) :
    Prog EngineError (DiskAnalysis S) PUnit := do
  if physical then
    let extracted ← ofExcept ((extractSataData moduleNames data).mapError .raised)
    let (header, sataData) ← orRaise (.raised .typeError) extracted
    match sataData.bind (physicalPacket header) with
    | none => pure ⟨⟩
    | some packet =>
      let d ← get
      let (sataReconstructor, outcome) := processPacket d.sataReconstructor packet
      modify fun d => { d with sataReconstructor := sataReconstructor }
      let packets ← ofExcept (outcome.mapError .raised)
      (packets.getD []).forM fun p => logAccess getAccess (accessOfSata p)
  else logAccess getAccess (accessOf (diskSensorPacket.init (some data)))

/-- The key of `fs_dict`. -/
abbrev Key := String × String × Inode

def FsOperation.key (op : FsOperation) : Key := (op.opType, op.filename, op.inode)

/-- `fs_dict[key] += 1`, or `fs_dict[key] = 1`. -/
def countKey (fsDict : Dict Key Nat) (key : Key) : Dict Key Nat :=
  match fsDict.get? key with
  | some n => fsDict.insert key (n + 1)
  | none => fsDict.insert key 1

/-- The last loop of `replay`. Subscripting a key of a dictionary, a string, raises. -/
def consolidate (fsDict : Dict Key Nat) : List Entry → Except EngineError (Dict Key Nat)
  | [] => .ok fsDict
  | .operation op :: log => consolidate (countKey fsDict op.key) log
  | .name _ :: _ => .error (.raised .typeError)

/-- `replay` of a capture file. -/
def replay (physical : Bool) (s : S) (file : List UInt8) : Except EngineError (Dict Key Nat) :=
  let (records, ending) := readAll file
  match records.forM (fun record => replayRecord getAccess physical record.2)
      { semanticEngine := s, sataReconstructor := Sata.Reconstructor.init 512 } with
  | (.error e, _) => .error e
  | (.ok _, d) =>
    match ending with
    | .raised e => .error (.raised e)
    | _ => consolidate .empty d.outputLog

end Replay

/-! ## The semantic engine on a list of accesses -/

section Feed
variable {S : Type} {getAccess : GetAccess S} {s : S} {a : Access} {as : List Access}

/-- What the semantic engine reports of accesses, one after the other. Where it raises there is no
report, but its state is what it was left in. -/
def feed (getAccess : GetAccess S) : List Access → S → List Report
  | [], _ => []
  | a :: as, s =>
    match getAccess a s with
    | (.ok report, s) => report :: feed getAccess as s
    | (.error _, s) => feed getAccess as s

/-- The operations of a report. -/
def operationsOf : Report → List FsOperation
  | .operations ops => ops
  | _ => []

theorem logAccess_forM (as : List Access) (d : DiskAnalysis S) :
    ∃ s', as.forM (logAccess getAccess) d = (.ok ⟨⟩, { d with
      semanticEngine := s'
      outputLog := d.outputLog ++ (feed getAccess as d.semanticEngine).flatMap entries }) := by
  induction as generalizing d with
  | nil => exact ⟨d.semanticEngine, by simp [feed, List.forM, pure]⟩
  | cons a as ih =>
    cases hrun : getAccess a d.semanticEngine with
    | mk outcome s₁ =>
      cases outcome with
      | error e =>
        have hfirst : logAccess getAccess a d = (.ok ⟨⟩, { d with semanticEngine := s₁ }) := by
          unfold logAccess
          rw [hrun]
        obtain ⟨s', hrest⟩ := ih { d with semanticEngine := s₁ }
        refine ⟨s', (bind_ok hfirst).trans (hrest.trans ?_)⟩
        rw [feed, hrun]
      | ok report =>
        have hfirst : logAccess getAccess a d = (.ok ⟨⟩, { d with
            semanticEngine := s₁, outputLog := d.outputLog ++ entries report }) := by
          unfold logAccess
          rw [hrun]
        obtain ⟨s', hrest⟩ := ih { d with
          semanticEngine := s₁, outputLog := d.outputLog ++ entries report }
        refine ⟨s', (bind_ok hfirst).trans (hrest.trans ?_)⟩
        rw [feed, hrun, List.flatMap_cons, List.append_assoc]

theorem feed_cons (a : Access) (as : List Access) (s : S) :
    feed getAccess (a :: as) s =
      match getAccess a s with
      | (.ok report, s) => report :: feed getAccess as s
      | (.error _, s) => feed getAccess as s := rfl

/-- One access of the live analysis. -/
theorem bridge_reports (a : Access) (e : DiskEngine S) :
    ∃ s' more, bridge getAccess a e =
        (.ok (), { e with semanticEngine := s', reported := e.reported ++ more }) ∧
      ∀ as, (feed getAccess (a :: as) e.semanticEngine).flatMap operationsOf =
        more.flatten ++ (feed getAccess as s').flatMap operationsOf := by
  simp only [feed_cons]
  unfold bridge
  cases hrun : getAccess a e.semanticEngine with
  | mk outcome s₁ =>
    cases outcome with
    | error e => exact ⟨s₁, [], by simp, fun as => rfl⟩
    | ok report =>
      cases report with
      | outside => exact ⟨s₁, [], by simp, fun as => rfl⟩
      | files names => exact ⟨s₁, [], by simp, fun as => rfl⟩
      | operations ops =>
        cases ops with
        | nil => exact ⟨s₁, [], by simp, fun as => rfl⟩
        | cons op ops => exact ⟨s₁, [op :: ops], rfl, fun as => by simp [operationsOf]⟩

end Feed

/-! ## The live analysis of a virtual machine -/

/-- The packets that `DiskEngine.run` processes. -/
def processed (paused : Bool) : List Turn → List Struct
  | [] => []
  | t :: ts =>
    let polled := poll t.raises paused t.cmd
    let rest := if polled.running then processed polled.paused ts else []
    if polled.breaks then []
    else if polled.paused then rest
    else
      match t.packet with
      | .error _ => []
      | .ok none => rest
      | .ok (some p) => p :: rest

/-- The operations the live analysis of a virtual machine hands to `parse_actions`. -/
def liveOperations {S : Type} (getAccess : GetAccess S) (s : S) (turns : List Turn) :
    List FsOperation :=
  (DiskEngine.run getAccess false turns
    { semanticEngine := s, sataReconstructor := Sata.Reconstructor.init 512 }).2.reported.flatten

section Live
variable {S : Type} {getAccess : GetAccess S}

/-- Whatever the commands, the analysis reports what the semantic engine makes of the packets that
are processed, in their order. -/
theorem run_reports (turns : List Turn) (e : DiskEngine S) :
    ∃ e', DiskEngine.run getAccess false turns e = (.ok ⟨⟩, e') ∧
      e'.reported.flatten = e.reported.flatten ++
        (feed getAccess ((processed e.paused turns).map fun p => accessOf p.instance_)
          e.semanticEngine).flatMap operationsOf := by
  induction turns generalizing e with
  | nil => exact ⟨e, rfl, by simp [processed, feed]⟩
  | cons t ts ih =>
    have hgoOn : ∀ e₁ : DiskEngine S, e₁.paused = (poll t.raises e.paused t.cmd).paused →
        ∃ e', (if (poll t.raises e.paused t.cmd).running then DiskEngine.run getAccess false ts
            else pure ⟨⟩ : Prog EngineError (DiskEngine S) PUnit) e₁ = (.ok ⟨⟩, e') ∧
          e'.reported.flatten = e₁.reported.flatten ++ (feed getAccess
            ((if (poll t.raises e.paused t.cmd).running then
              processed (poll t.raises e.paused t.cmd).paused ts else []).map
                fun p => accessOf p.instance_) e₁.semanticEngine).flatMap operationsOf := by
      intro e₁ hpaused
      split
      · rw [← hpaused]
        exact ih e₁
      · exact ⟨e₁, rfl, by simp [feed]⟩
    have hturn : ∃ e', DiskEngine.turn getAccess false (poll t.raises e.paused t.cmd) t.packet
        (if (poll t.raises e.paused t.cmd).running then DiskEngine.run getAccess false ts
          else pure ⟨⟩) { e with paused := (poll t.raises e.paused t.cmd).paused } =
          (.ok ⟨⟩, e') ∧ e'.reported.flatten = e.reported.flatten ++ (feed getAccess
            ((processed e.paused (t :: ts)).map fun p => accessOf p.instance_)
              e.semanticEngine).flatMap operationsOf := by
      unfold DiskEngine.turn processed
      dsimp only
      split
      · exact ⟨_, rfl, by simp [feed]⟩
      · split
        · exact hgoOn { e with paused := (poll t.raises e.paused t.cmd).paused } rfl
        · cases t.packet with
          | error _ => exact ⟨_, rfl, by simp [feed]⟩
          | ok packet =>
            cases packet with
            | none => exact hgoOn { e with paused := (poll t.raises e.paused t.cmd).paused } rfl
            | some p =>
              obtain ⟨s', more, hbridge, hfeed⟩ := @bridge_reports S getAccess
                (accessOf p.instance_) { e with paused := (poll t.raises e.paused t.cmd).paused }
              obtain ⟨e', hrest, hreported⟩ := hgoOn { e with
                paused := (poll t.raises e.paused t.cmd).paused
                semanticEngine := s', reported := e.reported ++ more } rfl
              refine ⟨e', (bind_ok hbridge).trans hrest, hreported.trans ?_⟩
              rw [List.map_cons, hfeed, List.flatten_append, List.append_assoc]
    obtain ⟨e', hrun, hreported⟩ := hturn
    exact ⟨e', (bind_ok rfl).trans ((bind_ok rfl).trans hrun), hreported⟩

theorem liveOperations_eq (s : S) (turns : List Turn) :
    liveOperations getAccess s turns =
      (feed getAccess ((processed false turns).map fun p => accessOf p.instance_) s).flatMap
        operationsOf := by
  obtain ⟨e', hrun, hreported⟩ := @run_reports S getAccess turns
    { semanticEngine := s, sataReconstructor := Sata.Reconstructor.init 512 }
  unfold liveOperations
  rw [hrun, hreported]
  rfl

end Live

/-! ## The packets of a virtual machine -/

theorem value_raw (p : DiskPacket) : p.value.structRawData = some p.header := by
  have hsize : diskSensorPacket.structSize = 20 := rfl
  have hinit : diskSensorPacket.init (some p.header) =
      diskSensorPacket.unpack blank p.header := rfl
  unfold DiskPacket.value
  rw [hinit, diskSensorPacket.unpack_long (by rw [hsize, p.length_header]), hsize,
    List.take_of_length_le p.length_header.le]

/-- A packet of the virtual sensor as it is put on a queue. -/
def packetOf (p : DiskPacket) : Struct where
  cls := diskSensorPacket
  instance_ := p.value
  raw := p.header
  structRawData := value_raw p
  length_raw := p.length_header

/-- The access of a packet that is parsed again: no data is `None` there, and no string. -/
def reparsed (p : DiskPacket) : Access :=
  { accessOf p.value with data := if p.data = [] then none else some p.data }

theorem accessOf_init (p : DiskPacket) :
    accessOf (diskSensorPacket.init (some p.encode)) = reparsed p := by
  have hsize : diskSensorPacket.structSize = 20 := rfl
  have hlen := p.length_encode
  have htake : p.encode.take 20 = p.header := List.take_left' p.length_header
  have hdrop : p.encode.drop 20 = p.data := List.drop_left' p.length_header
  have hinit : diskSensorPacket.init (some p.encode) =
      diskSensorPacket.unpack blank p.encode := rfl
  have hheader : diskSensorPacket.init (some p.header) =
      diskSensorPacket.unpack blank p.header := rfl
  unfold reparsed accessOf DiskPacket.value
  rw [hinit, diskSensorPacket.unpack_long (by rw [hsize]; omega), hheader,
    diskSensorPacket.unpack_long (by rw [hsize, p.length_header]), hsize, htake, hdrop,
    List.take_of_length_le p.length_header.le]
  by_cases hempty : p.data = []
  · have hshort : ¬ p.encode.length > 20 := by
      rw [hlen, hempty]
      exact Nat.lt_irrefl 20
    simp [hempty, hshort, blank]
  · have hlong : p.encode.length > 20 := by
      have hpos := List.length_pos_iff.mpr hempty
      omega
    simp [hempty, hlong]

/-! ## What a replay gives -/

/-- The file a `CaptureWriter` makes of the packets on its queue, each written at a time. -/
def captureFile (times : List Time) (queue : List Struct) : List UInt8 :=
  (Capture.run (times.zip (queue.map Struct.packet))).2

/-- The accesses in the records of a capture. -/
def recorded (queue : List Struct) : List Access :=
  queue.map fun p => accessOf (diskSensorPacket.init (some p.bytes))

section Outcome
variable {S : Type} {getAccess : GetAccess S} {s : S} {times : List Time} {queue : List Struct}

/-- A capture is read back record by record. -/
theorem readAll_captureFile (htimes : times.length = queue.length)
    (hlen : ∀ p ∈ queue, p.bytes.length < 2 ^ 32) :
    (readAll (captureFile times queue)).2 = .stopIteration ∧
      (readAll (captureFile times queue)).1.map Prod.snd = queue.map Struct.bytes := by
  have hsnd : (times.zip (queue.map Struct.packet)).map Prod.snd = queue.map Struct.packet :=
    List.map_snd_zip (by rw [List.length_map, htimes])
  have hmem : ∀ entry ∈ times.zip (queue.map Struct.packet),
      ∃ p ∈ queue, p.packet = entry.2 := by
    intro entry hentry
    have := List.mem_map_of_mem (f := Prod.snd) hentry
    rw [hsnd] at this
    exact List.mem_map.mp this
  have hlens : ∀ entry ∈ times.zip (queue.map Struct.packet), entry.2.len < 2 ^ 32 := by
    intro entry hentry
    obtain ⟨p, hp, heq⟩ := hmem entry hentry
    rw [← heq, ← p.length_bytes]
    exact hlen p hp
  have hreadable : Readable (times.zip (queue.map Struct.packet)) :=
    readable_of_whole fun entry hentry => by
      obtain ⟨p, -, heq⟩ := hmem entry hentry
      rw [← heq]
      exact p.whole
  have hcontent : (times.zip (queue.map Struct.packet)).map (fun entry => entry.2.content) =
      queue.map Struct.bytes := by
    rw [show (fun entry : Time × Packet => entry.2.content) = Packet.content ∘ Prod.snd from rfl,
      ← List.map_map, hsnd, List.map_map]
    exact List.map_congr_left fun p _ => p.content_packet
  obtain ⟨-, hend, hrecords⟩ := hreadable.readsBack hlens
  exact ⟨hend, hrecords.trans hcontent⟩

theorem replayRecord_forM {α : Type} (records : List (α × List UInt8)) :
    records.forM (fun record => replayRecord getAccess false record.2) =
      (records.map fun record => accessOf (diskSensorPacket.init (some record.2))).forM
        (logAccess getAccess) := by
  induction records with
  | nil => rfl
  | cons record records ih =>
    show (replayRecord getAccess false record.2 >>= fun _ => _) = _
    rw [ih]
    rfl

/-- The replay of a virtual machine is the last loop over what the semantic engine reports. -/
theorem replay_virtual (htimes : times.length = queue.length)
    (hlen : ∀ p ∈ queue, p.bytes.length < 2 ^ 32) :
    replay getAccess false s (captureFile times queue) =
      consolidate .empty ((feed getAccess (recorded queue) s).flatMap entries) := by
  obtain ⟨hend, hrecords⟩ := readAll_captureFile htimes hlen
  unfold replay
  generalize readAll (captureFile times queue) = result at hend hrecords ⊢
  obtain ⟨records, ending⟩ := result
  dsimp only at hend hrecords ⊢
  have haccesses : (records.map fun record =>
      accessOf (diskSensorPacket.init (some record.2))) = recorded queue := by
    have := congrArg (List.map fun data => accessOf (diskSensorPacket.init (some data))) hrecords
    rwa [List.map_map, List.map_map] at this
  obtain ⟨s', hloop⟩ := @logAccess_forM S getAccess (recorded queue)
    { semanticEngine := s, sataReconstructor := Sata.Reconstructor.init 512 }
  rw [← haccesses, ← replayRecord_forM, haccesses] at hloop
  rw [hloop, hend]
  rfl

theorem countKey_eq (fsDict : Dict Key Nat) (key : Key) :
    countKey fsDict key = fsDict.bump key := by
  rw [Dict.bump_eq_insert, countKey]
  cases fsDict.get? key with
  | none => rfl
  | some n => rfl

theorem consolidate_operations (fsDict : Dict Key Nat) (ops : List FsOperation) :
    consolidate fsDict (ops.map .operation) =
      .ok ((ops.map FsOperation.key).foldl Dict.bump fsDict) := by
  induction ops generalizing fsDict with
  | nil => rfl
  | cons op ops ih =>
    rw [List.map_cons, consolidate, ih, countKey_eq]
    rfl

theorem consolidate_name {log : List Entry} {name : String} (h : .name name ∈ log)
    (fsDict : Dict Key Nat) : consolidate fsDict log = .error (.raised .typeError) := by
  induction log generalizing fsDict with
  | nil => cases h
  | cons entry log ih =>
    cases entry with
    | name _ => rfl
    | operation op =>
      rcases List.mem_cons.mp h with heq | hmem
      · cases heq
      · exact ih hmem _

/-- Some access was reported as files. -/
def ReportsFiles (reports : List Report) : Prop :=
  ∃ names, names ≠ [] ∧ Report.files names ∈ reports

theorem entries_of_not_files {reports : List Report} (h : ¬ ReportsFiles reports) :
    reports.flatMap entries = (reports.flatMap operationsOf).map .operation := by
  induction reports with
  | nil => rfl
  | cons report reports ih =>
    have hrest : ¬ ReportsFiles reports := by
      rintro ⟨names, hne, hmem⟩
      exact h ⟨names, hne, List.mem_cons_of_mem _ hmem⟩
    rw [List.flatMap_cons, List.flatMap_cons, ih hrest, List.map_append]
    congr 1
    cases report with
    | outside => rfl
    | operations ops => rfl
    | files names =>
      cases names with
      | nil => rfl
      | cons name names => exact absurd ⟨name :: names, by simp, List.mem_cons_self⟩ h

theorem consolidate_reports (reports : List Report) :
    (ReportsFiles reports →
      consolidate .empty (reports.flatMap entries) = .error (.raised .typeError)) ∧
    (¬ ReportsFiles reports → consolidate .empty (reports.flatMap entries) =
      .ok (Dict.tally ((reports.flatMap operationsOf).map FsOperation.key))) := by
  constructor
  · rintro ⟨names, hne, hmem⟩
    obtain ⟨name, hname⟩ := List.exists_mem_of_ne_nil _ hne
    exact consolidate_name
      (List.mem_flatMap.mpr ⟨Report.files names, hmem, List.mem_map_of_mem hname⟩) _
  · intro h
    rw [entries_of_not_files h, consolidate_operations]
    rfl

/-- Nothing is ever extracted from a frame, so the first record of a physical machine raises. -/
theorem replayRecord_physical (data : List UInt8) (d : DiskAnalysis S) :
    ∃ e d', replayRecord getAccess true data d = (.error e, d') := by
  have hnone : ∀ r, extractSataData moduleNames data ≠ .ok (some r) :=
    Sata.Interpreter.extractSataData_ne_ok data
  unfold replayRecord
  rw [if_pos rfl]
  cases hextract : extractSataData moduleNames data with
  | error e => exact ⟨_, _, bind_error rfl⟩
  | ok extracted =>
    cases extracted with
    | none => exact ⟨_, _, (bind_ok rfl).trans (bind_error rfl)⟩
    | some r => exact absurd hextract (hnone r)

theorem replay_physical (htimes : times.length = queue.length)
    (hlen : ∀ p ∈ queue, p.bytes.length < 2 ^ 32) :
    (∃ e, replay getAccess true s (captureFile times queue) = .error e) ↔ queue ≠ [] := by
  obtain ⟨hend, hrecords⟩ := readAll_captureFile htimes hlen
  unfold replay
  generalize readAll (captureFile times queue) = result at hend hrecords ⊢
  obtain ⟨records, ending⟩ := result
  dsimp only at hend hrecords ⊢
  cases records with
  | nil =>
    have hqueue : queue = [] := List.map_eq_nil_iff.mp hrecords.symm
    rw [hend, hqueue]
    constructor
    · rintro ⟨e, he⟩
      cases he
    · exact fun hne => absurd rfl hne
  | cons record records =>
    have hqueue : queue ≠ [] := by
      rintro rfl
      cases hrecords
    obtain ⟨e, d', hfirst⟩ := @replayRecord_physical S getAccess record.2
      { semanticEngine := s, sataReconstructor := Sata.Reconstructor.init 512 }
    have hloop : (record :: records).forM (fun record => replayRecord getAccess true record.2)
        { semanticEngine := s, sataReconstructor := Sata.Reconstructor.init 512 } =
          (.error e, d') := bind_error hfirst
    rw [hloop]
    exact ⟨fun _ => hqueue, fun _ => ⟨e, rfl⟩⟩

/-- **When a replay raises**: for a physical machine on every capture that is not empty, for a
virtual one exactly where an access was reported as files of a volume that is not NTFS. Otherwise
it counts every operation that the semantic engine reports. -/
theorem replay_raises_iff (physical : Bool) (getAccess : GetAccess S) (s : S)
    (htimes : times.length = queue.length) (hlen : ∀ p ∈ queue, p.bytes.length < 2 ^ 32) :
    ((∃ e, replay getAccess physical s (captureFile times queue) = .error e) ↔
      if physical then queue ≠ [] else ReportsFiles (feed getAccess (recorded queue) s)) ∧
    (physical = false → ¬ ReportsFiles (feed getAccess (recorded queue) s) →
      replay getAccess physical s (captureFile times queue) =
        .ok (Dict.tally (((feed getAccess (recorded queue) s).flatMap operationsOf).map
          FsOperation.key))) := by
  obtain ⟨hfiles, hlists⟩ := consolidate_reports (feed getAccess (recorded queue) s)
  cases physical with
  | true => exact ⟨replay_physical htimes hlen, nofun⟩
  | false =>
    rw [replay_virtual htimes hlen]
    refine ⟨⟨fun he => ?_, fun h => ⟨_, hfiles h⟩⟩, fun _ => hlists⟩
    by_contra hno
    obtain ⟨e, he⟩ := he
    rw [hlists hno] at he
    cases he

end Outcome

theorem replay_raises_files :
    ∃ e, replay (fun _ s => (.ok (.files ["name"]), s)) false ()
      (captureFile [⟨0, rfl⟩] [packetOf twoBytes]) = .error e :=
  (replay_raises_iff false (fun _ s => (.ok (.files ["name"]), s)) () rfl (by decide)).1.mpr
    ⟨["name"], by decide, by decide⟩

/-! ## Live and replayed -/

/-- On these accesses the semantic engine of the live analysis and that of the replay report
operations with the same keys, in the same order, and the second reports no dictionary with keys. -/
def ReportAlike {L R : Type} (liveAccess : GetAccess L) (l : L) (replayAccess : GetAccess R) (r : R)
    (as : List Access) : Prop :=
  ((feed liveAccess as l).flatMap operationsOf).map FsOperation.key =
      ((feed replayAccess as r).flatMap operationsOf).map FsOperation.key ∧
    ¬ ReportsFiles (feed replayAccess as r)

/-- A semantic engine that reports no dictionaries. -/
def ListsOnly {S : Type} (getAccess : GetAccess S) : Prop :=
  ∀ a s names s', getAccess a s ≠ (.ok (.files names), s')

theorem not_reportsFiles {S : Type} {getAccess : GetAccess S} (h : ListsOnly getAccess)
    (as : List Access) (s : S) : ¬ ReportsFiles (feed getAccess as s) := by
  rintro ⟨names, -, hmem⟩
  induction as generalizing s with
  | nil => cases hmem
  | cons a as ih =>
    rw [feed_cons] at hmem
    cases hrun : getAccess a s with
    | mk outcome s₁ =>
      rw [hrun] at hmem
      cases outcome with
      | error e => exact ih s₁ hmem
      | ok report =>
        rcases List.mem_cons.mp hmem with rfl | hmem
        · exact h a s names s₁ hrun
        · exact ih s₁ hmem

theorem recorded_packetOf (packets : List DiskPacket) :
    recorded (packets.map packetOf) = packets.map reparsed := by
  unfold recorded
  rw [List.map_map]
  exact List.map_congr_left fun p _ => accessOf_init p

/-- A semantic engine that reports whether it was given data. -/
def spy : GetAccess Unit := fun a s =>
  (.ok (.operations [{
    sector := 0, op := "", opType := "", inode := .number 0
    filename := if a.data.isNone then "none" else "some" }]), s)

theorem listsOnly_spy : ListsOnly spy := by
  intro a s names s' h
  have hreport := Except.ok.inj (congrArg Prod.fst h)
  cases hreport

theorem keys_spy (as : List Access) :
    ((feed spy as ()).flatMap operationsOf).map FsOperation.key =
      as.map fun a => ("", if a.data.isNone then "none" else "some", Inode.number 0) := by
  induction as with
  | nil => rfl
  | cons a as ih =>
    rw [feed_cons, List.map_cons, ← ih]
    rfl

/-- A session without commands. -/
def session (packets : List DiskPacket) : List Turn :=
  packets.map fun p => { packet := .ok (some (packetOf p)) }

theorem processed_session (packets : List DiskPacket) :
    processed false (session packets) = packets.map packetOf := by
  induction packets with
  | nil => rfl
  | cons p packets ih =>
    rw [List.map_cons, ← ih]
    rfl

theorem dcapRun_session (packets : List DiskPacket) :
    dcapRun false (session packets) = packets.map packetOf := by
  induction packets with
  | nil => rfl
  | cons p packets ih =>
    rw [List.map_cons, ← ih]
    rfl

/-- A session that is paused for a turn. -/
def pausedSession : List Turn :=
  [{ cmd := some .pause, packet := .error () },
    { cmd := some .unpause, packet := .ok (some (packetOf twoBytes)) }, { packet := .ok none }]

/-- A semantic engine that reports the same with the number of the access as the sector. -/
def countingSpy : GetAccess Nat := fun a n =>
  (.ok (.operations [{
    sector := n, op := "", opType := "", inode := .number 0
    filename := if a.data.isNone then "none" else "some" }]), n + 1)

theorem listsOnly_countingSpy : ListsOnly countingSpy := by
  intro a n names n' h
  have hreport := Except.ok.inj (congrArg Prod.fst h)
  cases hreport

end LoPhi.Disk.Replay
