import LoPhi.Ntfs.Renames

/-! # Created and deleted files, as `get_access` returns them

What the loop over `updated_mft_entries` has found is returned only if nothing is raised after it,
where the sectors of the write are reported: for each sector of the `$MFT` the paths of all updated
records are resolved again, and a written sector of another file is reported with the name of the
file. -/

namespace LoPhi.Ntfs.Changes
open LoPhi.Lib.Effect LoPhi.Lib.Overwrite LoPhi.Ntfs.Volume LoPhi.Ntfs.Engine LoPhi.Ntfs.Reload
open LoPhi.Ntfs.Refresh LoPhi.Ntfs.Ownership LoPhi.Ntfs.Events LoPhi.Ntfs.Paths LoPhi.Ntfs.Report
open LoPhi.Ntfs.Renames

variable {g : Geometry} {o : Outside} {py : Interpreter} {a : Access} {entries : Entries}
variable {base e e' : SevNtfsSparse}

/-! ## When the sectors can be reported -/

/-- Where a resolution looks. -/
def placeIn (py : Interpreter) (base : SevNtfsSparse) (r : Resolution) : Nat → Place :=
  if r.inOld then oldPlace py base else newPlace py base

/-- The resolution returns. -/
def Returns (py : Interpreter) (base : SevNtfsSparse) (r : Resolution) : Prop :=
  Terminates (placeIn py base r) py.limit r.inode

/-- The record has a path, or gets one where the paths of the updated records are resolved, or it
can be opened. -/
def Named (py : Interpreter) (entries : Entries) (order : List Nat) (a : Access)
    (base : SevNtfsSparse) (i m : Nat) : Prop :=
  (base.inodeToPath m).isSome ∨ (base.fileSystem.openMeta m).isSome ∨
    (∃ j < i, IsMftSector base a j) ∧
      ∃ r ∈ resolutions entries order, ∃ path, Resolution.written py base r m path

/-- The sectors of a write can be reported: the record of each has a name, and if one of them is of
the `$MFT`, the path resolutions return. -/
structure Nameable (py : Interpreter) (entries : Entries) (order : List Nat) (a : Access)
    (base : SevNtfsSparse) : Prop where
  named : ∀ i < a.sectorCount, ∀ m, base.sectorToInode (a.sector + i) = some m →
    Named py entries order a base i m
  resolves : (∃ i < a.sectorCount, IsMftSector base a i) →
    ∀ r ∈ resolutions entries order, Returns py base r

theorem pathIn_returns_iff {raw : SevNtfsSparse → Option (List UInt8)} {n : Nat} :
    (∃ path e', pathIn py raw n e = (.ok path, e')) ↔
      Terminates (sparsePlace py.parseRecord (raw e)) py.limit n := by
  rw [← pathOf_returns_iff, ← getPath_value py.limit n e.inodeToPath]
  unfold pathIn onPaths
  cases hrun : getPath (sparsePlace py.parseRecord (raw e)) py.limit n e.inodeToPath with
  | mk value paths =>
    cases value with
    | error err =>
      refine ⟨fun ⟨path, e', hraised⟩ => ?_, fun ⟨path, hraised⟩ => ?_⟩
      · cases hraised
      · cases hraised
    | ok path => exact ⟨fun _ => ⟨path, rfl⟩, fun _ => ⟨path, _, rfl⟩⟩

/-- The metadata of a record can be compared if it can be opened and its paths be resolved. -/
theorem diffEntry_returns_iff {n : Nat} (hbase : OnlyPaths base e) :
    (∃ diff e', diffEntry py entries n e = (.ok diff, e')) ↔
      (base.fileSystem.openMeta n).isSome ∧ ∀ r ∈ resolutionsOf entries n, Returns py base r := by
  have hnew : ∀ {e : SevNtfsSparse}, OnlyPaths base e →
      ((∃ path e', pathIn py SevNtfsSparse.mftRaw n e = (.ok path, e')) ↔
        Returns py base ⟨false, n⟩) := by
    intro e he
    rw [pathIn_returns_iff, he.fields.1]
    rfl
  have hold : ∀ {e : SevNtfsSparse}, OnlyPaths base e →
      ((∃ path e', pathIn py SevNtfsSparse.oldMftRaw n e = (.ok path, e')) ↔
        Returns py base ⟨true, n⟩) := by
    intro e he
    rw [pathIn_returns_iff, he.fields.2.1]
    rfl
  have hopens : e.fileSystem = base.fileSystem := by
    unfold OnlyPaths at hbase
    rw [hbase]
  constructor
  · rintro ⟨diff, e', h⟩
    obtain ⟨e₁, e₂, hget, hfound⟩ := bind_returns h
    cases hget
    obtain ⟨newF, e₃, hnewF, hdiff⟩ := bind_returns hfound
    obtain ⟨hopen, rfl⟩ := orRaise_returns hnewF
    obtain ⟨path, e₄, hpath, hrest⟩ := bind_returns hdiff
    refine ⟨by rw [← hopens, hopen]; rfl, ?_⟩
    have hfirst := (hnew hbase).mp ⟨path, e₄, hpath⟩
    have hbase₄ := composes_onlyPaths.trans hbase (pathIn_overwrites hpath).2
    unfold resolutionsOf
    cases hentry : entries.lookup n with
    | none => exact fun r hr => List.mem_singleton.mp hr ▸ hfirst
    | some old =>
      cases old with
      | none => exact fun r hr => List.mem_singleton.mp hr ▸ hfirst
      | some oldF =>
        simp only [hentry] at hrest
        obtain ⟨oldPath, e₅, hpath', -⟩ := bind_returns hrest
        have hsecond := (hold hbase₄).mp ⟨oldPath, e₅, hpath'⟩
        intro r hr
        rcases List.mem_cons.mp hr with rfl | hr
        · exact hfirst
        · exact List.mem_singleton.mp hr ▸ hsecond
  · rintro ⟨hopen, hreturns⟩
    obtain ⟨newF, hnewF⟩ := Option.isSome_iff_exists.mp hopen
    obtain ⟨path, e₁, hpath⟩ := (hnew hbase).mpr (hreturns _ (resolutionsOf_new entries n))
    have hbase₁ := composes_onlyPaths.trans hbase (pathIn_overwrites hpath).2
    have hstart : diffEntry py entries n e =
        diffMetadata py ((entries.lookup n).getD none) newF n e := by
      refine (bind_ok rfl).trans ?_
      rw [hopens, hnewF]
      rfl
    rw [hstart]
    unfold resolutionsOf at hreturns
    cases hentry : entries.lookup n with
    | none => exact ⟨_, _, bind_ok hpath⟩
    | some old =>
      cases old with
      | none => exact ⟨_, _, bind_ok hpath⟩
      | some oldF =>
        rw [hentry] at hreturns
        obtain ⟨oldPath, e₂, hpath'⟩ := (hold hbase₁).mpr
          (hreturns ⟨true, n⟩ (List.mem_cons_of_mem _ (List.mem_singleton_self _)))
        exact ⟨_, _, (bind_ok hpath).trans (bind_ok hpath')⟩

theorem diffEntries_returns_iff {order : List Nat} (hbase : OnlyPaths base e)
    (hopens : ∀ n ∈ order, (base.fileSystem.openMeta n).isSome) :
    (∃ diffs e', collect (diffEntry py entries) order e = (.ok diffs, e')) ↔
      ∀ r ∈ resolutions entries order, Returns py base r := by
  rw [collect_returns_iff (I := fun _ e => OnlyPaths base e)
    (P := fun _ n => (base.fileSystem.openMeta n).isSome ∧
      ∀ r ∈ resolutionsOf entries n, Returns py base r)
    (fun _ n e he => diffEntry_returns_iff he)
    (fun _ n e diff e' he h => (diffEntry_performs he h).2) [] hbase]
  constructor
  · intro h r hr
    obtain ⟨n, hn, hmem⟩ := List.mem_flatMap.mp hr
    obtain ⟨before, after, hsplit⟩ := List.append_of_mem hn
    exact (h before n after hsplit).2 r hmem
  · intro h before n after heq
    have hn : n ∈ order := by
      rw [heq]
      exact List.mem_append_right _ List.mem_cons_self
    exact ⟨hopens n hn, fun r hr => h r (List.mem_flatMap.mpr ⟨n, hn, hr⟩)⟩

theorem writtenName_returns_iff {inode : Nat} :
    (∃ name e', writtenName inode e = (.ok name, e')) ↔
      (e.inodeToPath inode).isSome ∨ (e.fileSystem.openMeta inode).isSome := by
  constructor
  · rintro ⟨name, e', h⟩
    obtain ⟨e₁, e₂, hget, h⟩ := bind_returns h
    cases hget
    cases hpath : e.inodeToPath inode with
    | some path => exact .inl rfl
    | none =>
      simp only [hpath] at h
      obtain ⟨f, e₃, hopen, -⟩ := bind_returns h
      rw [(orRaise_returns hopen).1]
      exact .inr rfl
  · intro h
    cases hpath : e.inodeToPath inode with
    | some path =>
      refine ⟨path, e, (bind_ok rfl).trans ?_⟩
      rw [hpath]
      rfl
    | none =>
      rw [hpath] at h
      obtain ⟨f, hopen⟩ := Option.isSome_iff_exists.mp (h.resolve_left Bool.false_ne_true)
      refine ⟨f.name.getD "unknown", e, (bind_ok rfl).trans ?_⟩
      have hget : (orRaise (.engine .ioError) (e.fileSystem.openMeta inode) :
          AccessMethod _) e = (.ok f, e) := by
        rw [hopen]
        rfl
      rw [hpath]
      exact (bind_ok hget).trans rfl

/-! ## The sectors of a write -/

/-- The state in which a sector is reported: the sectors before it have left their paths. -/
def Before (py : Interpreter) (o : Outside) (entries : Entries) (a : Access)
    (base : SevNtfsSparse) (done : List Nat) (e : SevNtfsSparse) : Prop :=
  Performs (done.flatMap (sectorWrites py o entries base a)) base.inodeToPath e.inodeToPath ∧
    OnlyPaths base e

/-- A sector can be reported after these. -/
def Reported (py : Interpreter) (o : Outside) (entries : Entries) (a : Access)
    (base : SevNtfsSparse) (done : List Nat) (i : Nat) : Prop :=
  ∀ m, base.sectorToInode (a.sector + i) = some m →
    ((base.inodeToPath m).isSome ∨ (base.fileSystem.openMeta m).isSome ∨
      ∃ w ∈ done.flatMap (sectorWrites py o entries base a), ∃ path, w m path) ∧
    (m = 0 → ∀ r ∈ resolutions entries (o.order (entries.map Prod.fst)), Returns py base r)

theorem writtenSector_known {i inode : Nat} (h : e.sectorToInode (a.sector + i) = some inode) :
    writtenSector g o py entries a i e = knownWrite g o py entries a i inode e := by
  have hget : writtenSector g o py entries a i e = _ := bind_ok rfl
  rw [hget, h]

theorem writtenSector_unknown {i : Nat} (h : e.sectorToInode (a.sector + i) = none) :
    ∃ operation, writtenSector g o py entries a i e = (.ok operation, e) := by
  have hget : writtenSector g o py entries a i e = _ := bind_ok rfl
  rw [hget, h]
  exact ⟨_, rfl⟩

theorem writtenSector_returns_iff {done : List Nat} {i : Nat}
    (hopens : ∀ n ∈ o.order (entries.map Prod.fst), (base.fileSystem.openMeta n).isSome)
    (h : Before py o entries a base done e) :
    (∃ operation e', writtenSector g o py entries a i e = (.ok operation, e')) ↔
      Reported py o entries a base done i := by
  obtain ⟨hperforms, honly⟩ := h
  have howners := honly.fields.2.2
  have hfiles : e.fileSystem = base.fileSystem := by
    unfold OnlyPaths at honly
    rw [honly]
  unfold Reported
  cases howner : base.sectorToInode (a.sector + i) with
  | none =>
    obtain ⟨operation, hrun⟩ :
        ∃ operation, writtenSector g o py entries a i e = (.ok operation, e) :=
      writtenSector_unknown (howners.symm ▸ howner)
    refine ⟨fun _ m hm => ?_, fun _ => ⟨operation, e, hrun⟩⟩
    cases hm
  | some inode =>
    rw [writtenSector_known (howners.symm ▸ howner)]
    have hname : (∃ name e', writtenName inode e = (.ok name, e')) ↔ _ := writtenName_returns_iff
    rw [hperforms.isSome_iff, hfiles, or_assoc, or_comm (a := ∃ w ∈ _, _)] at hname
    constructor
    · rintro ⟨operation, e', hrun⟩ m hm
      cases hm
      obtain ⟨name, e₁, hnamed, hrest⟩ := bind_returns hrun
      refine ⟨hname.mp ⟨name, e₁, hnamed⟩, fun hmft => ?_⟩
      obtain rfl := writtenName_returns hnamed
      rw [if_pos hmft] at hrest
      obtain ⟨diffs, e₂, hdiffs, -⟩ := bind_returns hrest
      exact (diffEntries_returns_iff honly hopens).mp ⟨diffs, e₂, hdiffs⟩
    · intro hall
      obtain ⟨hnamed, hresolves⟩ := hall inode rfl
      obtain ⟨name, e₁, hrun⟩ := hname.mpr hnamed
      obtain rfl := writtenName_returns hrun
      by_cases hmft : inode = 0
      · obtain ⟨diffs, e₂, hdiffs⟩ :=
          (diffEntries_returns_iff honly hopens).mpr (hresolves hmft)
        show ∃ operation e', (writtenName inode >>= _ : AccessMethod Operation) e₁ =
          (.ok operation, e')
        rw [bind_ok hrun, if_pos hmft, bind_ok hdiffs]
        exact ⟨_, e₂, rfl⟩
      · show ∃ operation e', (writtenName inode >>= _ : AccessMethod Operation) e₁ =
          (.ok operation, e')
        rw [bind_ok hrun, if_neg hmft]
        exact ⟨_, e₁, rfl⟩

theorem range_split {count i : Nat} {before after : List Nat}
    (h : List.range count = before ++ i :: after) : before = List.range i ∧ i < count := by
  have hlt : before.length < count := by
    have hlength := congrArg List.length h
    rw [List.length_range, List.length_append, List.length_cons] at hlength
    omega
  have hi : before.length = i := by
    have hget := congrArg (fun l : List Nat => l[before.length]?) h
    rw [List.getElem?_range hlt, List.getElem?_append_right (Nat.le_refl _), Nat.sub_self] at hget
    exact Option.some.inj hget
  have hbefore := congrArg (List.take before.length) h
  rw [List.take_range, Nat.min_eq_left (Nat.le_of_lt hlt), List.take_left' rfl, hi] at hbefore
  exact ⟨hbefore.symm, hi ▸ hlt⟩

/-- What the sectors before this one have written. -/
theorem earlier_writes {i m : Nat} :
    (∃ w ∈ (List.range i).flatMap (sectorWrites py o entries base a), ∃ path, w m path) ↔
      (∃ j < i, IsMftSector base a j) ∧ ∃ r ∈ resolutions entries (o.order (entries.map Prod.fst)),
        ∃ path, Resolution.written py base r m path := by
  constructor
  · rintro ⟨w, hw, path, hpath⟩
    obtain ⟨j, hj, hw⟩ := List.mem_flatMap.mp hw
    unfold sectorWrites at hw
    split at hw
    · rename_i hmft
      obtain ⟨r, hr, rfl⟩ := List.mem_map.mp hw
      exact ⟨⟨j, List.mem_range.mp hj, hmft⟩, r, hr, path, hpath⟩
    · cases hw
  · rintro ⟨⟨j, hj, hmft⟩, r, hr, path, hpath⟩
    refine ⟨_, List.mem_flatMap.mpr ⟨j, List.mem_range.mpr hj, ?_⟩, path, hpath⟩
    unfold sectorWrites
    rw [if_pos hmft]
    exact List.mem_map.mpr ⟨r, hr, rfl⟩

/-- The sectors of a write are all reported if and only if that can be done. -/
theorem writtenSectors_returns_iff
    (hopens : ∀ n ∈ o.order (entries.map Prod.fst), (base.fileSystem.openMeta n).isSome) :
    (∃ operations e', collect (writtenSector g o py entries a) (List.range a.sectorCount) base =
        (.ok operations, e')) ↔
      Nameable py entries (o.order (entries.map Prod.fst)) a base := by
  rw [collect_returns_iff (I := Before py o entries a base) (P := Reported py o entries a base)
    (fun done i e h => writtenSector_returns_iff hopens h) (fun done i e operation e' h hrun => ?_)
    [] ⟨rfl, composes_onlyPaths.refl base⟩]
  · constructor
    · intro h
      have hsector : ∀ i < a.sectorCount, Reported py o entries a base (List.range i) i := by
        intro i hi
        obtain ⟨before, after, hsplit⟩ := List.append_of_mem (List.mem_range.mpr hi)
        have hreported := h before i after hsplit
        rwa [List.nil_append, (range_split hsplit).1] at hreported
      refine ⟨fun i hi m hm => ?_, fun ⟨i, hi, hmft⟩ => (hsector i hi 0 hmft).2 rfl⟩
      have hnamed := (hsector i hi m hm).1
      rwa [earlier_writes] at hnamed
    · intro h before i after hsplit m hm
      obtain ⟨hbefore, hi⟩ := range_split hsplit
      refine ⟨?_, fun hmft => ?_⟩
      · rw [List.nil_append, hbefore, earlier_writes]
        exact h.named i hi m hm
      · subst hmft
        exact h.resolves ⟨i, hi, hm⟩
  · obtain ⟨hwrites, honly⟩ := writtenSector_performs h.2 hrun
    refine ⟨?_, honly⟩
    rw [List.flatMap_append, List.flatMap_singleton]
    exact h.1.append hwrites

/-! ## What is returned -/

/-- The type of a report of a created or deleted file. -/
def OperationType.change : OperationType → Option OpType
  | .fileCreated => some .fileCreated
  | .fileDeleted => some .fileDeleted
  | _ => none

/-- The creations and deletions returned for a record. -/
def returnedFor (n : Nat) (operations : List Operation) : List OpType :=
  (operations.filter (·.inode = .record n)).filterMap fun operation =>
    OperationType.change operation.opType

theorem returnedFor_append (n : Nat) (a b : List Operation) :
    returnedFor n (a ++ b) = returnedFor n a ++ returnedFor n b := by
  unfold returnedFor
  rw [List.filter_append, List.filterMap_append]

theorem returnedFor_ofChange (n : Nat) (changes : List FsOperation) :
    returnedFor n (changes.map ofChange) = reportedFor n changes := by
  induction changes with
  | nil => rfl
  | cons change changes ih =>
    have hhead : returnedFor n [ofChange change] = reportedFor n [change] := by
      unfold returnedFor reportedFor ofChange
      by_cases hn : change.inode = n
      · cases htype : change.opType <;> simp [hn, htype, OperationType.change]
      · simp [hn]
    rw [List.map_cons, ← List.singleton_append, returnedFor_append, ih, hhead,
      ← reportedFor_append, List.singleton_append]

theorem change_writtenSector {i : Nat} {operation : Operation}
    (h : writtenSector g o py entries a i e = (.ok operation, e')) :
    OperationType.change operation.opType = none := by
  obtain ⟨e₁, e₂, hget, hsector⟩ := bind_returns h
  cases hget
  cases howner : e.sectorToInode (a.sector + i) with
  | none =>
    simp only [howner] at hsector
    cases hsector
    rfl
  | some inode =>
    simp only [howner] at hsector
    obtain ⟨name, e₃, -, hrest⟩ := bind_returns hsector
    by_cases hmft : inode = 0
    · rw [if_pos hmft] at hrest
      obtain ⟨diffs, e₄, -, hrest⟩ := bind_returns hrest
      cases hrest
      rfl
    · rw [if_neg hmft] at hrest
      cases hrest
      dsimp only
      split <;> rfl

theorem returnedFor_written {written : List Operation} {sectors : List Nat} (n : Nat)
    (h : collect (writtenSector g o py entries a) sectors e = (.ok written, e')) :
    returnedFor n written = [] := by
  have hall := collect_returns
    (P := fun _ operation => OperationType.change operation.opType = none)
    (fun i _ _ _ hi => change_writtenSector hi) h
  refine List.filterMap_eq_nil_iff.mpr fun operation hin => ?_
  have hwritten := List.mem_of_mem_filter hin
  clear h hin
  induction hall with
  | nil => cases hwritten
  | cons hhead _ ih =>
    rcases List.mem_cons.mp hwritten with rfl | hwritten
    · exact hhead
    · exact ih hwritten

/-- Every record of the write was loaded again, and for each that was there before exactly the
operation its flags call for is returned. -/
def AllReported (entries : Entries) (e₁ : SevNtfsSparse)
    (result : Except AccessError (List Operation) × SevNtfsSparse) : Prop :=
  ∃ operations, result.1 = .ok operations ∧ (∀ n ∈ entries.map Prod.fst, Reloads e₁ result.2 n) ∧
    ∀ n oldF, entries.lookup n = some (some oldF) →
      ∃ newF, e₁.fileSystem.openMeta n = some newF ∧
        returnedFor n operations = (changeOf oldF newF).toList

/-- The engine with the owners the sectors have once these records are loaded again. -/
def loadedAgain (g : Geometry) (order : List Nat) (e : SevNtfsSparse) : SevNtfsSparse :=
  { e with sectorToInode :=
      order.foldl (fun owners n => reloadOwner g e.fileSystem n owners) e.sectorToInode }

theorem nameable_leaves {order loaded : List Nat} (h : Leaves g loaded e e') :
    Nameable py entries order a e' ↔ Nameable py entries order a (loadedAgain g loaded e) := by
  obtain ⟨howners, hpaths, hfiles, hnew, hold, -⟩ := h
  cases e
  cases e'
  dsimp only at howners hpaths hfiles hnew hold
  subst howners hpaths hfiles hnew hold
  exact ⟨fun h => ⟨h.named, h.resolves⟩, fun h => ⟨h.named, h.resolves⟩⟩

theorem reloads_onlyPaths {e₁ : SevNtfsSparse} {n : Nat} (h : OnlyPaths e e') :
    Reloads e₁ e' n ↔ Reloads e₁ e n := by
  unfold OnlyPaths at h
  rw [h]
  rfl

/-- Once the loop has found changes, they are returned if the sectors can be reported. -/
theorem getAccess_changes {e₁ e₂ : SevNtfsSparse} {changes : List FsOperation}
    (hwrite : a.isWrite = true)
    (hentries : updatedMftEntries g o a.write e = (.ok entries, e₁))
    (hloop : reloadEntries g entries (o.order (entries.map Prod.fst)) e₁ = (.ok changes, e₂)) :
    Report.getAccess g o py a e =
      (collect (writtenSector g o py entries a) (List.range a.sectorCount) >>= fun written =>
        pure (changes.map ofChange ++ written)) e₂ := by
  have hfirst : ofMethod (updatedMftEntries g o a.write) e = (.ok entries, e₁) := by
    unfold ofMethod
    rw [hentries]
    rfl
  have hsecond : ofMethod (reloadEntries g entries (o.order (entries.map Prod.fst))) e₁ =
      (.ok changes, e₂) := by
    unfold ofMethod
    rw [hloop]
    rfl
  unfold Report.getAccess
  rw [if_pos hwrite, bind_ok hfirst, bind_ok hsecond]

/-- **All touched records are loaded again and their creation or deletion is returned if and only
if** they can be opened, those that have changed lie in the `$MFT`, no record comes after one that
is new, and the sectors of the write can be reported. -/
theorem allReported_iff (g : Geometry) (o : Outside) (py : Interpreter) (a : Access)
    (e e₁ : SevNtfsSparse) (entries : Entries) (hwrite : a.isWrite = true)
    (hentries : updatedMftEntries g o a.write e = (.ok entries, e₁))
    (horder : (o.order (entries.map Prod.fst)).Perm (entries.map Prod.fst)) :
    AllReported entries e₁ (Report.getAccess g o py a e) ↔
      Reportable g entries e₁.fileSystem (o.order (entries.map Prod.fst)) ∧
        Nameable py entries (o.order (entries.map Prod.fst)) a
          (loadedAgain g (o.order (entries.map Prod.fst)) e₁) := by
  obtain ⟨hkeys, runs, hruns⟩ := updatedMftEntries_spec hentries
  -- the second half begins in what the loop leaves
  have hsecond : ∀ {e₂ : SevNtfsSparse},
      Leaves g (o.order (entries.map Prod.fst)) e₁ e₂ →
      Reportable g entries e₁.fileSystem (o.order (entries.map Prod.fst)) →
      ((∃ operations e', collect (writtenSector g o py entries a) (List.range a.sectorCount) e₂ =
          (.ok operations, e')) ↔
        Nameable py entries (o.order (entries.map Prod.fst)) a
          (loadedAgain g (o.order (entries.map Prod.fst)) e₁)) := by
    intro e₂ hleaves hreportable
    rw [← nameable_leaves hleaves]
    refine writtenSectors_returns_iff fun n hn => ?_
    rw [hleaves.fileSystem]
    exact hreportable.opens n (horder.mem_iff.mp hn)
  constructor
  · rintro ⟨operations, hreturn, hreloads, -⟩
    obtain ⟨e', hrun⟩ : ∃ e', Report.getAccess g o py a e = (.ok operations, e') :=
      ⟨_, returns_of_fst hreturn⟩
    rw [hrun] at hreloads
    unfold Report.getAccess at hrun
    rw [if_pos hwrite] at hrun
    obtain ⟨entries', e₂, hentries', hrest⟩ := bind_returns hrun
    cases hentries.symm.trans (ofMethod_returns hentries')
    obtain ⟨changes, e₃, hchanges, hrest⟩ := bind_returns hrest
    obtain ⟨written, e₄, hwritten, hrest⟩ := bind_returns hrest
    cases hrest
    have hloop := ofMethod_returns hchanges
    have honly : OnlyPaths e₃ e' := by
      have hkeeps := keeps_collect composes_onlyPaths
        (fun i (_ : i ∈ List.range a.sectorCount) => (writtenSector_onlyPaths entries i :
          Keeps OnlyPaths (writtenSector g o py entries a i))) e₃
      rwa [hwritten] at hkeeps
    have hreportable := reportable_of_reloads hruns hkeys horder hloop fun n hn =>
      (reloads_onlyPaths honly).mp (hreloads n hn)
    obtain ⟨changes', e₂', hloop', hleaves, -⟩ := hreportable.loop hruns hkeys horder
    cases hloop.symm.trans hloop'
    exact ⟨hreportable, (hsecond hleaves hreportable).mp ⟨written, e', hwritten⟩⟩
  · rintro ⟨hreportable, hnameable⟩
    obtain ⟨changes, e₂, hloop, hleaves, hreloads, hreported⟩ :=
      hreportable.loop hruns hkeys horder
    obtain ⟨written, e', hwritten⟩ := (hsecond hleaves hreportable).mpr hnameable
    have honly : OnlyPaths e₂ e' := by
      have hkeeps := keeps_collect composes_onlyPaths
        (fun i (_ : i ∈ List.range a.sectorCount) => (writtenSector_onlyPaths entries i :
          Keeps OnlyPaths (writtenSector g o py entries a i))) e₂
      rwa [hwritten] at hkeeps
    rw [getAccess_changes hwrite hentries hloop, bind_ok hwritten]
    refine ⟨changes.map ofChange ++ written, rfl,
      fun n hn => (reloads_onlyPaths honly).mpr (hreloads n hn), fun n oldF hold => ?_⟩
    obtain ⟨newF, hopen, hchange⟩ := hreported n oldF hold
    refine ⟨newF, hopen, ?_⟩
    rw [returnedFor_append, returnedFor_ofChange, returnedFor_written n hwritten,
      List.append_nil, hchange]

/-! ## A write that fills one record and makes another -/

/-- The `$MFT` has its records in the blocks 1 to 4. The first byte of record 1 says whether the
record is in use, and whether record 2 is there. -/
def secondRecord (img : Nat → UInt8) : FileSystem where
  lastInum := if img 2048 = 1 then 2 else 1
  rootInum := 5
  openMeta n :=
    if n = 0 then some { attributes := [⟨true, [⟨4, 1⟩]⟩], content := some [] }
    else if n = 1 then some { attributes := [], flags := if img 2048 = 1 then 1 else 2 }
    else if n = 2 ∧ img 2048 = 1 then some { attributes := [], flags := 1 }
    else none
  openDir _ := some []

/-- A dictionary that is iterated in some order. -/
def iterated (order : List Nat → List Nat) : Outside where
  fsInfo img := some (secondRecord img)
  order := order
  renamed _ e := e.inodeToPath

def emptyRecord : SevNtfsSparse :=
  { img := fun _ => 0, fileSystem := secondRecord fun _ => 0, rootInum := 5, lastInum := 1 }

def fillRecord : Write := ⟨4, 2, 1 :: List.replicate 1023 0⟩

def filledEntries : Entries := [(1, some { attributes := [], flags := 2 }), (2, none)]

/-- The engine knows the sectors of the `$MFT`, and resolves paths in them. -/
def ownedRecord : SevNtfsSparse :=
  { emptyRecord with sectorToInode := fun s => if 2 ≤ s ∧ s < 10 then some 0 else none }

/-- No record has a name. -/
def nameless : Interpreter where
  parseRecord _ := { fns := [] }
  limit := 1000
  info _ _ := 0

def fillAccess : Access := ⟨true, 4, 2, fillRecord.data⟩

/-- The engine at the beginning of the loop. -/
def beforeLoop (order : List Nat → List Nat) : SevNtfsSparse :=
  (updatedMftEntries tinyVolume (iterated order) fillAccess.write ownedRecord).2

theorem filledEntries_eq (order : List Nat → List Nat) :
    updatedMftEntries tinyVolume (iterated order) fillAccess.write ownedRecord =
      (.ok filledEntries, beforeLoop order) := rfl

/-- The new record is the last. -/
theorem allReported_new_last :
    AllReported filledEntries (beforeLoop id)
      (Report.getAccess tinyVolume (iterated id) nameless fillAccess ownedRecord) := by
  refine (allReported_iff tinyVolume (iterated id) nameless fillAccess ownedRecord (beforeLoop id)
    filledEntries rfl (filledEntries_eq id) (List.Perm.refl _)).mpr ⟨⟨?_, ?_, ?_⟩, ?_, ?_⟩
  · intro n hn
    rcases List.mem_cons.mp hn with rfl | hn
    · rfl
    · rw [List.mem_singleton.mp hn]
      rfl
  · intro n oldF newF hold hopen _
    obtain rfl : n = 1 := by
      have hn := mem_keys_of_lookup hold
      rcases List.mem_cons.mp hn with rfl | hn
      · rfl
      · rw [List.mem_singleton.mp hn] at hold
        cases hold
    exact ⟨[⟨4, 1⟩], rfl, by decide⟩
  · intro before n after heq hafter
    cases before with
    | nil =>
      cases heq
      exact ⟨_, rfl⟩
    | cons first before =>
      have hlast := (List.cons.inj heq).2
      cases before with
      | nil =>
        cases hlast
        exact absurd rfl hafter
      | cons second before => exact absurd (List.cons.inj hlast).2 (by simp)
  · -- both sectors are the `$MFT`'s, which can be opened
    intro i hi m hm
    obtain rfl : m = 0 := by
      match i, hi with
      | 0, _ => exact (Option.some.inj hm).symm
      | 1, _ => exact (Option.some.inj hm).symm
    exact .inr (.inl rfl)
  · -- the copy of the `$MFT` is empty
    intro _ r hr
    have hmissing : ∀ n, placeIn nameless (loadedAgain tinyVolume [1, 2] (beforeLoop id)) r n =
        .missing := by
      intro n
      unfold placeIn newPlace oldPlace
      split
      · rfl
      · exact if_pos (by simp [rawRecord])
    refine ⟨[], r.inode, .here _, by decide, ?_, fun _ filename hin => (nomatch hin)⟩
    rintro ⟨parRef, filename, hbelow⟩
    cases (hmissing _).symm.trans hbelow

/-- The new record comes first: the other is not loaded again, and that it is in use now is not
reported. -/
theorem new_first_unreported :
    ¬ (∀ (g : Geometry) (o : Outside) (py : Interpreter) (a : Access) (e e₁ : SevNtfsSparse)
      (entries : Entries), a.isWrite = true →
      updatedMftEntries g o a.write e = (.ok entries, e₁) →
      (o.order (entries.map Prod.fst)).Perm (entries.map Prod.fst) →
      AllReported entries e₁ (Report.getAccess g o py a e)) := by
  intro h
  obtain ⟨operations, hreturn, -, hreport⟩ := h tinyVolume (iterated List.reverse) nameless
    fillAccess ownedRecord (beforeLoop List.reverse) filledEntries rfl (filledEntries_eq _)
    (List.reverse_perm _)
  obtain ⟨newF, hopen, hreported⟩ := hreport 1 { attributes := [], flags := 2 } rfl
  have hnone : (Report.getAccess tinyVolume (iterated List.reverse) nameless fillAccess
      ownedRecord).1.map (returnedFor 1) = .ok [] := by decide +kernel
  have hnew : (beforeLoop List.reverse).fileSystem.openMeta 1 =
      some { attributes := [], flags := 1 } := by decide +kernel
  rw [hreturn] at hnone
  rw [hnew] at hopen
  cases hopen
  have hnil : returnedFor 1 operations = [] := by
    injection hnone
  rw [hnil] at hreported
  revert hreported
  decide

end LoPhi.Ntfs.Changes
