import LoPhi.Ntfs.Ownership
import LoPhi.Ntfs.Records
import LoPhi.Ntfs.Reload

/-! # Created and deleted files

After a write `get_access` goes through `updated_mft_entries`, in the order of the dictionary: it
loads each record again and compares its flags with those before the write. A record that was not
there before has no old flags, and there the loop does not go on with the next record: it ends. -/

namespace LoPhi.Ntfs.Events
open LoPhi.Lib.Effect LoPhi.Ntfs.Volume LoPhi.Ntfs.Engine LoPhi.Ntfs.Records
open LoPhi.Ntfs.Refresh LoPhi.Ntfs.Ownership LoPhi.Ntfs.Reload

variable {g : Geometry} {o : Outside} {entries : Entries} {e : SevNtfsSparse}

/-! ## The records of a write -/

/-- Records the write touches in the new file system, if they are not there yet. -/
def addNewInodes (newInodes : List Nat) (entries : Entries) : Entries :=
  newInodes.foldl (fun entries inode =>
    if entries.any (·.1 = inode) then entries else setEntry entries inode none) entries

/-- `updated_mft_entries` as the loop finds it. -/
def updatedMftEntries (g : Geometry) (o : Outside) (w : Write) : Method Entries := do
  let entries ← touchedEntries g w
  modify fun e => { e with lastInum := e.fileSystem.lastInum }
  updateIfTouched g o w entries
  parseNewPaths
  let e ← get
  let entries ← loadNew g (e.fileSystem.lastInum - e.lastInum) entries
  modify fun e => { e with lastInum := e.fileSystem.lastInum }
  let e ← get
  let runs ← orRaise .ioError (mftDataruns e.fileSystem)
  pure (addNewInodes (getRecordsFromSectors g runs (List.range' w.sector w.sectorCount)) entries)

/-- The rest is the loop. -/
theorem applyWrite_loop (w : Write) :
    applyWrite g o w = updatedMftEntries g o w >>= fun entries =>
      reloadEntries g entries (o.order (entries.map Prod.fst)) := by
  unfold updatedMftEntries applyWrite refresh
  simp only [bind_bind]
  rfl

/-- A dictionary has a key once. -/
def KeysNodup (entries : Entries) : Prop := (entries.map Prod.fst).Nodup

theorem KeysNodup.setEntry (h : KeysNodup entries) (inode : Nat) (f : Option File) :
    KeysNodup (setEntry entries inode f) := by
  unfold Engine.setEntry KeysNodup
  split
  · rw [List.map_map]
    have hkeys : (Prod.fst ∘ fun entry : Nat × Option File =>
        if entry.1 = inode then (inode, f) else entry) = Prod.fst := by
      funext entry
      dsimp only [Function.comp]
      split
      · rename_i heq
        exact heq.symm
      · rfl
    rw [hkeys]
    exact h
  · rename_i hnew
    rw [List.map_append]
    refine List.nodup_append.mpr ⟨h, List.nodup_singleton _, ?_⟩
    intro a ha b hb heq
    obtain rfl := List.mem_singleton.mp hb
    obtain ⟨entry, hentry, rfl⟩ := List.mem_map.mp ha
    exact hnew (List.any_eq_true.mpr ⟨entry, hentry, by simpa using heq⟩)

theorem keysNodup_openEntries (fs : FileSystem) {inodes : List Nat} (h : inodes.Nodup) :
    KeysNodup (openEntries fs inodes) := by
  unfold openEntries KeysNodup
  rw [List.map_filterMap]
  refine h.filterMap ?_
  intro a a' b hb hb'
  simp only [Option.map_map, Option.mem_def, Option.map_eq_some_iff] at hb hb'
  obtain ⟨f, -, hf⟩ := hb
  obtain ⟨f', -, hf'⟩ := hb'
  exact hf.trans hf'.symm

theorem KeysNodup.addNewInodes (h : KeysNodup entries) (newInodes : List Nat) :
    KeysNodup (addNewInodes newInodes entries) := by
  unfold Events.addNewInodes
  induction newInodes generalizing entries with
  | nil => exact h
  | cons inode newInodes ih =>
    rw [List.foldl_cons]
    split
    · exact ih h
    · exact ih (h.setEntry inode none)

theorem KeysNodup.loadNew (h : KeysNodup entries) {count : Nat} {entries' : Entries}
    {e' : SevNtfsSparse} (hload : loadNew g count entries e = (.ok entries', e')) :
    KeysNodup entries' := by
  induction count generalizing entries e with
  | zero =>
    cases hload
    exact h
  | succ count ih =>
    obtain ⟨_, e₁, -, hload⟩ := bind_returns hload
    obtain ⟨e₂, e₃, -, hload⟩ := bind_returns hload
    obtain ⟨_, e₄, -, hload⟩ := bind_returns hload
    exact ih (h.setEntry _ none) hload

/-- When the loop begins, the `$MFT` can be read and no record is there twice. -/
theorem updatedMftEntries_spec {w : Write} {e₁ : SevNtfsSparse}
    (h : updatedMftEntries g o w e = (.ok entries, e₁)) :
    KeysNodup entries ∧ ∃ runs, mftDataruns e₁.fileSystem = some runs := by
  obtain ⟨touched, e₂, htouched, h⟩ := bind_returns h
  obtain ⟨_, e₃, -, h⟩ := bind_returns h
  obtain ⟨_, e₄, -, h⟩ := bind_returns h
  obtain ⟨_, e₅, -, h⟩ := bind_returns h
  obtain ⟨e₆, e₇, -, h⟩ := bind_returns h
  obtain ⟨loaded, e₈, hloaded, h⟩ := bind_returns h
  obtain ⟨_, e₉, -, h⟩ := bind_returns h
  obtain ⟨e₁₀, e₁₁, hget, h⟩ := bind_returns h
  cases hget
  obtain ⟨runs, e₁₂, hruns, h⟩ := bind_returns h
  cases h
  have htouchedKeys : KeysNodup touched := by
    obtain ⟨e', e'', hget, htouched⟩ := bind_returns htouched
    obtain ⟨runs, e''', -, htouched⟩ := bind_returns htouched
    cases htouched
    exact keysNodup_openEntries _ (nodup_recordsFrom g _ _ 0 List.nodup_nil)
  refine ⟨(htouchedKeys.loadNew hloaded).addNewInodes _, runs, ?_⟩
  cases hmft : mftDataruns e₉.fileSystem with
  | none =>
    rw [hmft] at hruns
    cases hruns
  | some runs' =>
    rw [hmft] at hruns
    cases hruns
    exact hmft

/-! ## One record -/

/-- What should be reported of a record: its allocation flag was set, or, if it was not, the flag
that it is unallocated. -/
def changeOf (oldF newF : File) : Option OpType :=
  if oldF.flags &&& flagAlloc = 0 ∧ newF.flags &&& flagAlloc ≠ 0 then some .fileCreated
  else if oldF.flags &&& flagUnalloc = 0 ∧ newF.flags &&& flagUnalloc ≠ 0 then some .fileDeleted
  else none

/-- The operations reported for a record. -/
def reportedFor (n : Nat) (operations : List FsOperation) : List OpType :=
  (operations.filter (·.inode = n)).map FsOperation.opType

@[simp] theorem reportedFor_append (n : Nat) (a b : List FsOperation) :
    reportedFor n (a ++ b) = reportedFor n a ++ reportedFor n b := by
  unfold reportedFor
  rw [List.filter_append, List.map_append]

/-- Reporting needs the first sector of the record. -/
theorem report_eq {runs : List Run} (hruns : mftDataruns e.fileSystem = some runs) (t : OpType)
    (n : Nat) :
    ∃ resident, report g t n e =
      (match (recordSectors g runs n).head? with
        | none => .error .indexError
        | some s => .ok [⟨s, t, n, (e.inodeToPath n).getD "unknown"⟩],
        { e with sectorResident := resident }) := by
  obtain ⟨resident, hlookup⟩ := mftRecordToSectors_eq (g := g) n hruns
  refine ⟨resident, (bind_ok hlookup).trans ?_⟩
  show (orRaise NtfsError.indexError (recordSectors g runs n).head? >>= fun s => pure _ :
    Method (List FsOperation)) _ = _
  cases (recordSectors g runs n).head? with
  | none => rfl
  | some s => rfl

theorem reportChange_changeOf (oldF newF : File) (n : Nat) :
    reportChange g oldF newF n =
      match changeOf oldF newF with
      | none => pure []
      | some t => report g t n := by
  unfold reportChange changeOf
  split
  · rfl
  · split
    · rfl
    · rfl

/-- The record can be loaded again, and if it has changed, its sectors are known. -/
def Fine (g : Geometry) (entries : Entries) (fs : FileSystem) (runs : List Run) (n : Nat) : Prop :=
  ∃ newF, fs.openMeta n = some newF ∧
    ∀ oldF, entries.lookup n = some (some oldF) → changeOf oldF newF ≠ none →
      recordSectors g runs n ≠ []

section Changed
variable {runs : List Run} {n : Nat} {oldF newF : File}

/-- A change is reported once, and only for its record. -/
theorem reportChange_reports (hruns : mftDataruns e.fileSystem = some runs)
    (hsectors : changeOf oldF newF ≠ none → recordSectors g runs n ≠ []) :
    ∃ operations resident, reportChange g oldF newF n e =
        (.ok operations, { e with sectorResident := resident }) ∧
      ∀ m, reportedFor m operations = if m = n then (changeOf oldF newF).toList else [] := by
  rw [reportChange_changeOf]
  cases hchange : changeOf oldF newF with
  | none => exact ⟨[], e.sectorResident, rfl, fun m => (ite_self _).symm⟩
  | some t =>
    obtain ⟨resident, hreport⟩ := report_eq (g := g) hruns t n
    cases hlist : recordSectors g runs n with
    | nil => exact absurd hlist (hsectors (by rw [hchange]; exact Option.some_ne_none t))
    | cons s rest =>
      rw [hlist] at hreport
      refine ⟨_, resident, hreport, fun m => ?_⟩
      by_cases hm : m = n
      · rw [if_pos hm, hm]
        simp [reportedFor]
      · rw [if_neg hm]
        simp [reportedFor, Ne.symm hm]

/-- A change of a record that lies nowhere raises. -/
theorem reportChange_raises (hruns : mftDataruns e.fileSystem = some runs)
    (hchange : changeOf oldF newF ≠ none) (hsectors : recordSectors g runs n = []) :
    (reportChange g oldF newF n e).1 = .error .indexError := by
  rw [reportChange_changeOf]
  obtain ⟨t, ht⟩ := Option.ne_none_iff_exists'.mp hchange
  obtain ⟨resident, hreport⟩ := report_eq (g := g) hruns t n
  rw [hsectors] at hreport
  rw [ht]
  exact congrArg Prod.fst hreport

end Changed

/-! ## The loop -/

/-- The record was there before the write. -/
def Existed (entries : Entries) (n : Nat) : Prop := ∃ oldF, entries.lookup n = some (some oldF)

/-- The records the loop gets to: up to the first that was not there before the write. -/
def reached (entries : Entries) : List Nat → List Nat
  | [] => []
  | n :: rest =>
    match entries.lookup n with
    | some (some _) => n :: reached entries rest
    | _ => [n]

/-- What should be reported of a record of the write. -/
def expected (entries : Entries) (fs : FileSystem) (n : Nat) : Option OpType :=
  match entries.lookup n, fs.openMeta n with
  | some (some oldF), some newF => changeOf oldF newF
  | _, _ => none

section Loop
variable {runs : List Run} {n : Nat} {newF : File} {rest : List Nat}

theorem reached_existed {oldF : File} (h : entries.lookup n = some (some oldF)) :
    reached entries (n :: rest) = n :: reached entries rest := by
  rw [reached, h]

theorem reached_new (h : ¬ Existed entries n) : reached entries (n :: rest) = [n] := by
  unfold reached
  split
  · rename_i oldF hold
    exact absurd ⟨oldF, hold⟩ h
  · rfl

theorem reached_initial (entries : Entries) (order : List Nat) :
    reached entries order <+: order := by
  induction order with
  | nil => exact List.prefix_rfl
  | cons m rest ih =>
    by_cases hexisted : Existed entries m
    · obtain ⟨oldF, hold⟩ := hexisted
      rw [reached_existed hold]
      exact List.cons_prefix_cons.mpr ⟨rfl, ih⟩
    · rw [reached_new hexisted]
      exact List.cons_prefix_cons.mpr ⟨rfl, List.nil_prefix⟩

theorem expected_new (h : ¬ Existed entries n) (fs : FileSystem) :
    expected entries fs n = none := by
  unfold expected
  split
  · rename_i oldF _ hold _
    exact absurd ⟨oldF, hold⟩ h
  · rfl

theorem reloadEntries_unopened (hf : e.fileSystem.openMeta n = none) :
    reloadEntries g entries (n :: rest) e = (.error .ioError, e) :=
  bind_error (reloadFileEntry_unopened hf)

/-- A record that can be opened is loaded again. The loop goes on if it was there before. -/
theorem reloadEntries_opened (g : Geometry) (entries : Entries) (rest : List Nat)
    (hruns : mftDataruns e.fileSystem = some runs)
    (hf : e.fileSystem.openMeta n = some newF) :
    ∃ e₁, Reloaded g n newF e e₁ ∧
      (¬ Existed entries n → reloadEntries g entries (n :: rest) e = (.ok [], e₁)) ∧
      ∀ oldF, entries.lookup n = some (some oldF) →
        reloadEntries g entries (n :: rest) e =
          (reportChange g oldF newF n >>= fun operations =>
            reloadEntries g entries rest >>= fun more => pure (operations ++ more)) e₁ := by
  obtain ⟨e₁, hreload, hresult⟩ := reloadFileEntry_eq (g := g) hruns hf
  have hopen : (orRaise NtfsError.ioError (e₁.fileSystem.openMeta n) : Method File) e₁ =
      (.ok newF, e₁) := by
    rw [hresult.fileSystem, hf]
    rfl
  refine ⟨e₁, hresult, fun hnew => ?_, fun oldF hold => ?_⟩
  · refine (bind_ok hreload).trans ((bind_ok rfl).trans ((bind_ok hopen).trans ?_))
    cases hold : entries.lookup n with
    | none => rfl
    | some old =>
      cases old with
      | none => rfl
      | some oldF => exact absurd ⟨oldF, hold⟩ hnew
  · refine (bind_ok hreload).trans ((bind_ok rfl).trans ((bind_ok hopen).trans ?_))
    rw [hold]

/-- What loading these records again leaves: the sectors are theirs, in this order, and the paths
and both copies of the `$MFT` are the same. -/
structure Leaves (g : Geometry) (loaded : List Nat) (e e' : SevNtfsSparse) : Prop where
  owners : e'.sectorToInode =
    loaded.foldl (fun owners n => reloadOwner g e.fileSystem n owners) e.sectorToInode
  inodeToPath : e'.inodeToPath = e.inodeToPath
  fileSystem : e'.fileSystem = e.fileSystem
  mftRaw : e'.mftRaw = e.mftRaw
  oldMftRaw : e'.oldMftRaw = e.oldMftRaw
  loads : ∃ new, e'.loads = new ++ e.loads ∧ new.map Prod.fst = loaded.reverse

theorem leaves_nil (g : Geometry) (e : SevNtfsSparse) : Leaves g [] e e :=
  ⟨rfl, rfl, rfl, rfl, rfl, [], rfl, rfl⟩

/-- One record, and then others. Noting where it lies changes nothing of this. -/
theorem Leaves.cons {loaded : List Nat} {e₁ e' : SevNtfsSparse} {resident : Nat → Option Nat}
    (hf : e.fileSystem.openMeta n = some newF) (hresult : Reloaded g n newF e e₁)
    (h : Leaves g loaded { e₁ with sectorResident := resident } e') :
    Leaves g (n :: loaded) e e' := by
  obtain ⟨new, hloads, hkeys⟩ := h.loads
  refine ⟨?_, h.inodeToPath.trans hresult.inodeToPath, h.fileSystem.trans hresult.fileSystem,
    h.mftRaw.trans hresult.mftRaw, h.oldMftRaw.trans hresult.oldMftRaw,
    new ++ [(n, newF.runs)], ?_, ?_⟩
  · rw [h.owners, List.foldl_cons, hresult.fileSystem]
    exact congrArg (fun owners => List.foldl _ owners loaded) (hresult.reloadOwner hf)
  · rw [hloads, List.append_assoc]
    exact congrArg (new ++ ·) hresult.loads
  · rw [List.map_append, hkeys, List.reverse_cons]
    rfl

/-- The loop loads the records it gets to, and reports those of them that have changed. -/
theorem reloadEntries_fine {fs : FileSystem} (hruns : mftDataruns fs = some runs)
    {order : List Nat} (hnodup : order.Nodup)
    (hfine : ∀ n ∈ reached entries order, Fine g entries fs runs n) (hfs : e.fileSystem = fs) :
    ∃ operations e', reloadEntries g entries order e = (.ok operations, e') ∧
      Leaves g (reached entries order) e e' ∧
      ∀ n, reportedFor n operations =
        if n ∈ reached entries order then (expected entries fs n).toList else [] := by
  induction order generalizing e with
  | nil => exact ⟨[], e, rfl, leaves_nil g e, fun n => rfl⟩
  | cons n rest ih =>
    obtain ⟨hnotin, hnodup⟩ := List.nodup_cons.mp hnodup
    subst hfs
    by_cases hexisted : Existed entries n
    · obtain ⟨oldF, hold⟩ := hexisted
      rw [reached_existed hold] at hfine ⊢
      obtain ⟨newF, hopen, hsectors⟩ := hfine n List.mem_cons_self
      obtain ⟨e₁, hresult, -, hstep⟩ := reloadEntries_opened g entries rest hruns hopen
      rw [hstep oldF hold]
      obtain ⟨operations, resident, hreport, hreported⟩ := reportChange_reports (g := g) (e := e₁)
        (by rw [hresult.fileSystem]; exact hruns) (hsectors oldF hold)
      obtain ⟨more, e₂, hmore, hleaves, hrest⟩ :=
        ih (e := { e₁ with sectorResident := resident }) hnodup
          (fun m hm => hfine m (List.mem_cons_of_mem n hm)) hresult.fileSystem
      refine ⟨operations ++ more, e₂, (bind_ok hreport).trans ((bind_ok hmore).trans rfl),
        hleaves.cons hopen hresult, fun m => ?_⟩
      rw [reportedFor_append, hreported, hrest]
      by_cases hm : m = n
      · subst hm
        have hout : m ∉ reached entries rest := fun h =>
          hnotin ((reached_initial entries rest).subset h)
        rw [if_pos rfl, if_neg hout, if_pos List.mem_cons_self, List.append_nil, expected, hold,
          hopen]
      · rw [if_neg hm, List.nil_append]
        simp only [List.mem_cons, hm, false_or]
    · rw [reached_new hexisted] at hfine ⊢
      obtain ⟨newF, hopen, -⟩ := hfine n (List.mem_singleton_self n)
      obtain ⟨e₁, hresult, hstep, -⟩ := reloadEntries_opened g entries rest hruns hopen
      have hnil : Leaves g [] { e₁ with sectorResident := e₁.sectorResident } e₁ :=
        leaves_nil g e₁
      refine ⟨[], e₁, hstep hexisted, hnil.cons hopen hresult, fun m => ?_⟩
      by_cases hm : m ∈ [n]
      · rw [if_pos hm, List.mem_singleton.mp hm, expected_new hexisted]
        rfl
      · rw [if_neg hm]
        rfl

/-- A loop that returns has not met a record it could not load or report. -/
theorem fine_of_returns {fs : FileSystem} (hruns : mftDataruns fs = some runs)
    {order : List Nat} {operations : List FsOperation} {e' : SevNtfsSparse}
    (h : reloadEntries g entries order e = (.ok operations, e')) (hfs : e.fileSystem = fs) :
    ∀ n ∈ reached entries order, Fine g entries fs runs n := by
  induction order generalizing e e' operations with
  | nil =>
    intro n hn
    cases hn
  | cons n rest ih =>
    subst hfs
    cases hopen : e.fileSystem.openMeta n with
    | none =>
      rw [reloadEntries_unopened hopen] at h
      cases h
    | some newF =>
      obtain ⟨e₁, hresult, -, hstep⟩ := reloadEntries_opened g entries rest hruns hopen
      by_cases hexisted : Existed entries n
      · obtain ⟨oldF, hold⟩ := hexisted
        rw [hstep oldF hold] at h
        have hruns₁ : mftDataruns e₁.fileSystem = some runs := by
          rw [hresult.fileSystem]
          exact hruns
        obtain ⟨reported, e₂, hreport, h⟩ := bind_returns h
        obtain ⟨more, e₃, hmore, -⟩ := bind_returns h
        have hsectors : changeOf oldF newF ≠ none → recordSectors g runs n ≠ [] := by
          intro hchange hnone
          have hraise := reportChange_raises hruns₁ hchange hnone
          rw [hreport] at hraise
          cases hraise
        have hfs₂ : e₂.fileSystem = e.fileSystem := by
          obtain ⟨operations', resident, hreport', -⟩ := reportChange_reports hruns₁ hsectors
          rw [hreport] at hreport'
          rw [(Prod.mk.inj hreport').2]
          exact hresult.fileSystem
        rw [reached_existed hold]
        intro m hm
        rcases List.mem_cons.mp hm with rfl | hm
        · refine ⟨newF, hopen, fun oldF' hold' => ?_⟩
          rw [hold] at hold'
          cases hold'
          exact hsectors
        · exact ih hmore hfs₂ m hm
      · rw [reached_new hexisted]
        intro m hm
        rw [List.mem_singleton.mp hm]
        exact ⟨newF, hopen, fun oldF hold => absurd ⟨oldF, hold⟩ hexisted⟩

end Loop

/-! ## All records -/

theorem reached_eq_iff {order : List Nat} :
    reached entries order = order ↔
      ∀ before n after, order = before ++ n :: after → after ≠ [] → Existed entries n := by
  induction order with
  | nil =>
    refine ⟨fun _ before n after h => ?_, fun _ => rfl⟩
    exact absurd h (by simp)
  | cons m rest ih =>
    by_cases hexisted : Existed entries m
    · obtain ⟨oldF, hold⟩ := hexisted
      rw [reached_existed hold, List.cons.injEq, ih]
      constructor
      · rintro ⟨-, h⟩ before n after heq hafter
        cases before with
        | nil =>
          cases heq
          exact ⟨oldF, hold⟩
        | cons first before =>
          cases heq
          exact h before n after rfl hafter
      · intro h
        exact ⟨rfl, fun before n after heq => h (m :: before) n after (congrArg (m :: ·) heq)⟩
    · rw [reached_new hexisted, List.cons.injEq]
      constructor
      · rintro ⟨-, rfl⟩ before n after heq hafter
        cases before with
        | nil =>
          cases heq
          exact absurd rfl hafter
        | cons first before => exact absurd (List.cons.inj heq).2 (by simp)
      · intro h
        refine ⟨rfl, ?_⟩
        by_contra hrest
        exact hexisted (h [] m rest rfl (Ne.symm hrest))

/-- The records can all be opened, those that have changed lie in the `$MFT`, and in the order of
the dictionary nothing comes after a record that was not there before. -/
structure Reportable (g : Geometry) (entries : Entries) (fs : FileSystem) (order : List Nat) :
    Prop where
  opens : ∀ n ∈ entries.map Prod.fst, (fs.openMeta n).isSome
  located : ∀ n oldF newF, entries.lookup n = some (some oldF) → fs.openMeta n = some newF →
    changeOf oldF newF ≠ none → ∃ runs, mftDataruns fs = some runs ∧ recordSectors g runs n ≠ []
  newLast : ∀ before n after, order = before ++ n :: after → after ≠ [] → Existed entries n

theorem mem_keys_of_lookup {n : Nat} {f : Option File} (h : entries.lookup n = some f) :
    n ∈ entries.map Prod.fst := by
  obtain ⟨before, after, rfl, -⟩ := List.lookup_eq_some_iff.mp h
  simp

theorem reloads_iff {e₁ e' : SevNtfsSparse} {new : List (Nat × List Run)}
    (hloads : e'.loads = new ++ e₁.loads) (n : Nat) :
    Reloads e₁ e' n ↔ n ∈ new.map Prod.fst := by
  constructor
  · rintro ⟨new', hloads', hn⟩
    rwa [← List.append_cancel_right (hloads'.symm.trans hloads)]
  · exact fun hn => ⟨new, hloads, hn⟩

/-- A loop that has loaded all records again met nothing that kept it from it. -/
theorem reportable_of_reloads {runs : List Run} {order : List Nat} {changes : List FsOperation}
    {e' : SevNtfsSparse} (hruns : mftDataruns e.fileSystem = some runs)
    (hkeys : KeysNodup entries) (horder : order.Perm (entries.map Prod.fst))
    (h : reloadEntries g entries order e = (.ok changes, e'))
    (hreloads : ∀ n ∈ entries.map Prod.fst, Reloads e e' n) :
    Reportable g entries e.fileSystem order := by
  have hnodup : order.Nodup := horder.nodup_iff.mpr hkeys
  have hfine := fine_of_returns (g := g) hruns h rfl
  obtain ⟨_, e'', hloop, hleaves, -⟩ := reloadEntries_fine hruns hnodup hfine rfl
  obtain ⟨new, hloads, hnew⟩ := hleaves.loads
  cases h.symm.trans hloop
  have hsubset : order ⊆ reached entries order := by
    intro n hn
    have hmem := (reloads_iff hloads n).mp (hreloads n (horder.mem_iff.mp hn))
    rwa [hnew, List.mem_reverse] at hmem
  have hall : reached entries order = order :=
    (reached_initial entries order).eq_of_length_le
      (List.Nodup.length_le_of_subset hnodup hsubset)
  rw [hall] at hfine
  refine ⟨fun n hn => ?_, fun n oldF newF hold hopen hchange => ⟨runs, hruns, ?_⟩,
    reached_eq_iff.mp hall⟩
  · obtain ⟨newF, hopen, -⟩ := hfine n (horder.mem_iff.mpr hn)
    rw [hopen]
    rfl
  · obtain ⟨newF', hopen', hsectors⟩ := hfine n (horder.mem_iff.mpr (mem_keys_of_lookup hold))
    rw [hopen] at hopen'
    cases hopen'
    exact hsectors oldF hold hchange

/-- Where nothing keeps it from it, the loop loads all records again and reports those that were
there before. -/
theorem Reportable.loop {order : List Nat} (h : Reportable g entries e.fileSystem order)
    {runs : List Run} (hruns : mftDataruns e.fileSystem = some runs)
    (hkeys : KeysNodup entries) (horder : order.Perm (entries.map Prod.fst)) :
    ∃ changes e', reloadEntries g entries order e = (.ok changes, e') ∧ Leaves g order e e' ∧
      (∀ n ∈ entries.map Prod.fst, Reloads e e' n) ∧
      ∀ n oldF, entries.lookup n = some (some oldF) →
        ∃ newF, e.fileSystem.openMeta n = some newF ∧
          reportedFor n changes = (changeOf oldF newF).toList := by
  have hall : reached entries order = order := reached_eq_iff.mpr h.newLast
  have hfine : ∀ n ∈ reached entries order, Fine g entries e.fileSystem runs n := by
    intro n hn
    rw [hall] at hn
    obtain ⟨newF, hopen⟩ := Option.isSome_iff_exists.mp (h.opens n (horder.mem_iff.mp hn))
    refine ⟨newF, hopen, fun oldF hold hchange => ?_⟩
    obtain ⟨runs', hruns', hsectors⟩ := h.located n oldF newF hold hopen hchange
    rw [hruns] at hruns'
    cases hruns'
    exact hsectors
  obtain ⟨changes, e', hloop, hleaves, hreported⟩ :=
    reloadEntries_fine hruns (horder.nodup_iff.mpr hkeys) hfine rfl
  rw [hall] at hleaves hreported hfine
  obtain ⟨new, hloads, hnew⟩ := hleaves.loads
  refine ⟨changes, e', hloop, hleaves, fun n hn => (reloads_iff hloads n).mpr ?_,
    fun n oldF hold => ?_⟩
  · rw [hnew, List.mem_reverse]
    exact horder.mem_iff.mpr hn
  · have hn : n ∈ order := horder.mem_iff.mpr (mem_keys_of_lookup hold)
    obtain ⟨newF, hopen, -⟩ := hfine n hn
    refine ⟨newF, hopen, ?_⟩
    rw [hreported n, if_pos hn, expected, hold, hopen]

end LoPhi.Ntfs.Events
