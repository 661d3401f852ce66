import LoPhi.Lib.Overwrite
import LoPhi.Ntfs.Report

/-! # Paths after a write to the `$MFT`

For every sector of the `$MFT` that is written, `_diff_metadata` finds the path of each updated
record in the new `$MFT` and, if the record was there before, in the old one after that. Both calls
leave in `fs_inode_to_path` what they find, for the record and for all records above it. -/

namespace LoPhi.Ntfs.Renames
open LoPhi.Lib.Effect LoPhi.Lib.Overwrite LoPhi.Ntfs.Volume LoPhi.Ntfs.Engine LoPhi.Ntfs.Events
open LoPhi.Ntfs.Paths LoPhi.Ntfs.Report

/-! ## One resolution -/

section Resolution
variable {place : Nat → Place} {limit inode n : Nat} {names : List String} {path : String}
variable {paths paths' : PathMap}

/-- The record has this path. -/
def Resolves (place : Nat → Place) (n : Nat) (path : String) : Prop :=
  ∃ limit, pathOf place limit n = .ok (some path)

/-- What a resolution of a record writes: the path of every record that is passed. -/
def resolution (place : Nat → Place) (inode : Nat) : Written Nat String :=
  fun n path => (∃ names, Climbs place inode names n) ∧ Resolves place n path

theorem pathOf_succ {result : Option String} (h : pathOf place limit n = .ok result) :
    pathOf place (limit + 1) n = .ok result := by
  induction limit generalizing n result with
  | zero => cases h
  | succ limit ih =>
    by_cases hon : (place n).goesOn
    · obtain ⟨parRef, filename, hbelow⟩ := hon
      rw [pathOf_below hbelow] at h ⊢
      cases hparent : pathOf place limit parRef with
      | error e =>
        rw [hparent] at h
        cases h
      | ok parentpath =>
        rw [ih hparent]
        rw [hparent] at h
        exact h
    · rw [pathOf_end hon] at h ⊢
      exact h

theorem pathOf_add {result : Option String} (h : pathOf place limit n = .ok result)
    (more : Nat) : pathOf place (limit + more) n = .ok result := by
  induction more with
  | zero => exact h
  | succ more ih => exact pathOf_succ ih

theorem Resolves.of_returns {result : Option String} (h : Resolves place n path)
    (hreturns : pathOf place limit n = .ok result) : result = some path := by
  obtain ⟨limit', hpath⟩ := h
  have hleft := pathOf_add hreturns limit'
  have hright := pathOf_add hpath limit
  rw [Nat.add_comm] at hright
  rw [hleft] at hright
  cases hright
  rfl

theorem Resolves.unique {path' : String} (h : Resolves place n path)
    (h' : Resolves place n path') : path' = path := by
  obtain ⟨limit, hpath⟩ := h'
  exact Option.some.inj (h.of_returns hpath)

/-- A call that needs no other notes what it finds. -/
theorem getPath_end (hend : ¬ (place inode).goesOn) (limit : Nat) (paths : PathMap) :
    (getPath place (limit + 1) inode paths).2 =
      match (place inode).path with
      | none => paths
      | some path => fun k => if k = inode then some path else paths k := by
  unfold getPath
  cases hplace : place inode with
  | missing => rfl
  | noFnRecord => rfl
  | inRoot filename => rfl
  | selfReferential filename => rfl
  | below parRef filename => exact absurd ⟨parRef, filename, hplace⟩ hend

theorem end_overwrites (hend : ¬ (place inode).goesOn) (limit : Nat) (paths : PathMap) :
    Overwrites (resolution place inode) paths (getPath place (limit + 1) inode paths).2 := by
  have hvalue := pathOf_end hend 0
  have hself : ∀ {n path}, resolution place inode n path →
      n = inode ∧ (place inode).path = some path := by
    rintro n path ⟨⟨names, hclimbs⟩, hresolves⟩
    cases hclimbs with
    | here => exact ⟨rfl, hresolves.of_returns hvalue⟩
    | up hbelow _ => exact absurd ⟨_, _, hbelow⟩ hend
  rw [getPath_end hend]
  cases hpath : (place inode).path with
  | none =>
    rw [hpath] at hself
    exact ⟨fun hwritten => (nomatch (hself hwritten).2), fun _ => rfl⟩
  | some path =>
    rw [hpath] at hself hvalue
    refine ⟨fun hwritten => ?_, fun {n} hn => if_neg fun heq => hn path ?_⟩
    · obtain ⟨rfl, hsome⟩ := hself hwritten
      exact (if_pos rfl).trans hsome
    · rw [heq]
      exact ⟨⟨[], .here inode⟩, 1, hvalue⟩

/-- A call that returns has noted the path of every record it passed. -/
theorem getPath_overwrites {result : Option String}
    (h : getPath place limit inode paths = (.ok result, paths')) :
    Overwrites (resolution place inode) paths paths' := by
  induction limit generalizing inode result paths' with
  | zero => cases h
  | succ limit ih =>
    by_cases hon : (place inode).goesOn
    · obtain ⟨parRef, filename, hbelow⟩ := hon
      have hvalue : (getPath place (limit + 1) inode paths).1 = pathOf place (limit + 1) inode :=
        getPath_value (limit + 1) inode paths
      rw [h] at hvalue
      unfold getPath at h
      rw [hbelow] at h
      obtain ⟨parentpath, paths₁, hparent, h⟩ := bind_returns h
      have habove := ih hparent
      cases hjoin : joinPath parentpath filename with
      | error e =>
        rw [hjoin] at h
        cases h
      | ok path =>
        rw [hjoin] at h
        cases h
        refine ⟨?_, fun {n} hn => ?_⟩
        · rintro n path' ⟨⟨names, hclimbs⟩, hresolves⟩
          by_cases heq : n = inode
          · rw [heq] at hresolves ⊢
            exact (if_pos rfl).trans (hresolves.of_returns hvalue.symm)
          · refine (if_neg heq).trans ?_
            cases hclimbs with
            | here => exact absurd rfl heq
            | up hbelow' hrest =>
              cases hbelow.symm.trans hbelow'
              exact habove.written ⟨⟨_, hrest⟩, hresolves⟩
        · by_cases heq : n = inode
          · rw [heq] at hn
            exact absurd ⟨⟨[], .here inode⟩, limit + 1, hvalue.symm⟩ (hn path)
          · refine (if_neg heq).trans (habove.others fun path' hwritten => hn path' ?_)
            obtain ⟨⟨names, hclimbs⟩, hresolves⟩ := hwritten
            exact ⟨⟨filename :: names, .up hbelow hclimbs⟩, hresolves⟩
    · have hend := end_overwrites hon limit paths
      rw [h] at hend
      exact hend

end Resolution

/-! ## The resolutions of a write -/

variable {g : Geometry} {o : Outside} {py : Interpreter} {a : Access} {entries : Entries}
variable {base e e' : SevNtfsSparse}

/-- The new `$MFT` and the old one. -/
def newPlace (py : Interpreter) (e : SevNtfsSparse) : Nat → Place :=
  sparsePlace py.parseRecord e.mftRaw

def oldPlace (py : Interpreter) (e : SevNtfsSparse) : Nat → Place :=
  sparsePlace py.parseRecord e.oldMftRaw

/-- One call of `_get_path` by `_diff_metadata`. -/
structure Resolution where
  inOld : Bool
  inode : Nat
  deriving DecidableEq, Repr

/-- What the call writes. -/
def Resolution.written (py : Interpreter) (e : SevNtfsSparse) (r : Resolution) :
    Written Nat String :=
  resolution (if r.inOld then oldPlace py e else newPlace py e) r.inode

/-- The calls for a record: for one that was there before, the last is in the old `$MFT`. -/
def resolutionsOf (entries : Entries) (n : Nat) : List Resolution :=
  match entries.lookup n with
  | some (some _) => [⟨false, n⟩, ⟨true, n⟩]
  | _ => [⟨false, n⟩]

/-- The calls for one sector of the `$MFT`. -/
def resolutions (entries : Entries) (order : List Nat) : List Resolution :=
  order.flatMap (resolutionsOf entries)

theorem pathIn_overwrites {raw : SevNtfsSparse → Option (List UInt8)} {n : Nat}
    {result : Option String} (h : pathIn py raw n e = (.ok result, e')) :
    Overwrites (resolution (sparsePlace py.parseRecord (raw e)) n) e.inodeToPath e'.inodeToPath ∧
      OnlyPaths e e' := by
  unfold pathIn onPaths at h
  cases hrun : getPath (sparsePlace py.parseRecord (raw e)) py.limit n e.inodeToPath with
  | mk value paths =>
    rw [hrun] at h
    cases value with
    | error err => cases h
    | ok path =>
      cases h
      exact ⟨getPath_overwrites hrun, rfl⟩

theorem diffEntry_performs {n : Nat} {diff : MetaDiff} (hbase : OnlyPaths base e)
    (h : diffEntry py entries n e = (.ok diff, e')) :
    Performs ((resolutionsOf entries n).map (Resolution.written py base)) e.inodeToPath
      e'.inodeToPath ∧ OnlyPaths base e' := by
  obtain ⟨e₁, e₂, hget, hopen⟩ := bind_returns h
  cases hget
  obtain ⟨newF, e₃, hnewF, hdiff⟩ := bind_returns hopen
  obtain ⟨-, rfl⟩ := orRaise_returns hnewF
  obtain ⟨mftFilename, e₄, hnew, hrest⟩ := bind_returns hdiff
  obtain ⟨hwrite, honly⟩ := pathIn_overwrites hnew
  have hbase₄ := composes_onlyPaths.trans hbase honly
  rw [hbase.fields.1] at hwrite
  unfold resolutionsOf
  cases hentry : entries.lookup n with
  | none =>
    simp only [hentry] at hrest
    cases hrest
    exact ⟨⟨_, hwrite, rfl⟩, hbase₄⟩
  | some old =>
    cases old with
    | none =>
      simp only [hentry] at hrest
      cases hrest
      exact ⟨⟨_, hwrite, rfl⟩, hbase₄⟩
    | some oldF =>
      simp only [hentry] at hrest
      obtain ⟨oldMftFilename, e₅, hold, hrest⟩ := bind_returns hrest
      cases hrest
      obtain ⟨hwriteOld, honlyOld⟩ := pathIn_overwrites hold
      rw [hbase₄.fields.2.1] at hwriteOld
      exact ⟨⟨_, hwrite, _, hwriteOld, rfl⟩, composes_onlyPaths.trans hbase₄ honlyOld⟩

/-! ## All sectors -/

theorem collect_performs {α β : Type} {body : α → AccessMethod β}
    {writes : α → List (Written Nat String)}
    (hbody : ∀ x y e e', OnlyPaths base e → body x e = (.ok y, e') →
      Performs (writes x) e.inodeToPath e'.inodeToPath ∧ OnlyPaths base e')
    {xs : List α} {ys : List β} (hbase : OnlyPaths base e)
    (h : collect body xs e = (.ok ys, e')) :
    Performs (xs.flatMap writes) e.inodeToPath e'.inodeToPath ∧ OnlyPaths base e' := by
  induction xs generalizing e ys with
  | nil =>
    cases h
    exact ⟨rfl, hbase⟩
  | cons x xs ih =>
    obtain ⟨y, e₁, hx, hrest⟩ := bind_returns h
    obtain ⟨ys', e₂, hxs, hlast⟩ := bind_returns hrest
    cases hlast
    obtain ⟨hfirst, hbase₁⟩ := hbody x y e e₁ hbase hx
    obtain ⟨hmore, hdone⟩ := ih hbase₁ hxs
    exact ⟨hfirst.append hmore, hdone⟩

/-- The sector is one of the `$MFT`. -/
def IsMftSector (base : SevNtfsSparse) (a : Access) (i : Nat) : Prop :=
  base.sectorToInode (a.sector + i) = some 0

instance (base : SevNtfsSparse) (a : Access) (i : Nat) : Decidable (IsMftSector base a i) :=
  inferInstanceAs (Decidable (_ = _))

/-- The writes of all calls for one sector. -/
def sectorWrites (py : Interpreter) (o : Outside) (entries : Entries) (base : SevNtfsSparse)
    (a : Access) (i : Nat) : List (Written Nat String) :=
  if IsMftSector base a i then
    (resolutions entries (o.order (entries.map Prod.fst))).map (Resolution.written py base)
  else []

theorem writtenName_returns {inode : Nat} {filename : String}
    (h : writtenName inode e = (.ok filename, e')) : e' = e := by
  obtain ⟨e₁, e₂, hget, hmatch⟩ := bind_returns h
  cases hget
  cases hpath : e.inodeToPath inode with
  | some path =>
    simp only [hpath] at hmatch
    cases hmatch
    rfl
  | none =>
    simp only [hpath] at hmatch
    obtain ⟨f, e₃, hopen, hpure⟩ := bind_returns hmatch
    cases hpure
    exact (orRaise_returns hopen).2

theorem writtenSector_performs {i : Nat} {operation : Operation} (hbase : OnlyPaths base e)
    (h : writtenSector g o py entries a i e = (.ok operation, e')) :
    Performs (sectorWrites py o entries base a i) e.inodeToPath e'.inodeToPath ∧
      OnlyPaths base e' := by
  obtain ⟨e₁, e₂, hget, hmatch⟩ := bind_returns h
  cases hget
  have howner : IsMftSector base a i ↔ e.sectorToInode (a.sector + i) = some 0 := by
    rw [hbase.fields.2.2]
    rfl
  unfold sectorWrites
  cases hinode : e.sectorToInode (a.sector + i) with
  | none =>
    simp only [hinode] at hmatch
    cases hmatch
    rw [if_neg fun hsector => nomatch hinode.symm.trans (howner.mp hsector)]
    exact ⟨rfl, hbase⟩
  | some inode =>
    simp only [hinode] at hmatch
    obtain ⟨filename, e₃, hname, hknown⟩ := bind_returns hmatch
    obtain rfl := writtenName_returns hname
    by_cases hmft : inode = 0
    · rw [if_pos hmft] at hknown
      obtain ⟨diffs, e₄, hdiffs, hrest⟩ := bind_returns hknown
      cases hrest
      rw [hmft] at hinode
      rw [if_pos (howner.mpr hinode), resolutions, List.map_flatMap]
      exact collect_performs (fun n _ _ _ hb hn => diffEntry_performs hb hn) hbase hdiffs
    · rw [if_neg hmft] at hknown
      cases hknown
      rw [if_neg fun hsector => hmft (Option.some.inj (hinode.symm.trans (howner.mp hsector)))]
      exact ⟨rfl, hbase⟩

/-- The calls of all sectors end with those of one sector of the `$MFT`, if there is one. -/
theorem sectorWrites_last {sectors : List Nat} (h : ∃ i ∈ sectors, IsMftSector base a i) :
    ∃ before, sectors.flatMap (sectorWrites py o entries base a) = before ++
      (resolutions entries (o.order (entries.map Prod.fst))).map (Resolution.written py base) := by
  obtain ⟨before, i, after, rfl, hi, hafter⟩ := exists_last h
  refine ⟨before.flatMap (sectorWrites py o entries base a), ?_⟩
  have hnone : after.flatMap (sectorWrites py o entries base a) = [] :=
    List.flatMap_eq_nil_iff.mpr fun j hj => if_neg (hafter j hj)
  rw [List.flatMap_append, List.flatMap_cons, hnone, List.append_nil]
  exact congrArg _ (if_pos hi)

/-! ## Paths from the new `$MFT` -/

/-- The records of the write that have a path in the new `$MFT` are known by it. -/
def ReflectsNew (py : Interpreter) (entries : Entries) (e : SevNtfsSparse) : Prop :=
  ∀ n ∈ entries.map Prod.fst, ∀ path, Resolves (newPlace py e) n path →
    e.inodeToPath n = some path

/-- Where the last of the calls that comes by a record is one in the old `$MFT`, the record has
the same path in the new one. -/
def LastAgrees (py : Interpreter) (entries : Entries) (order : List Nat) (base : SevNtfsSparse) :
    Prop :=
  ∀ n ∈ entries.map Prod.fst, ∀ path, Resolves (newPlace py base) n path →
    ∀ before m after oldPath, resolutions entries order = before ++ ⟨true, m⟩ :: after →
      resolution (oldPlace py base) m n oldPath →
      (∀ r ∈ after, ∀ path', ¬ Resolution.written py base r n path') → oldPath = path

theorem resolutionsOf_new (entries : Entries) (n : Nat) : ⟨false, n⟩ ∈ resolutionsOf entries n := by
  unfold resolutionsOf
  split
  · exact List.mem_cons_self
  · exact List.mem_cons_self

theorem lastAgrees_iff {order : List Nat} {before : List (Written Nat String)}
    {paths : PathMap} (horder : order.Perm (entries.map Prod.fst))
    (h : Performs (before ++ (resolutions entries order).map (Resolution.written py base)) paths
      e'.inodeToPath) (hmft : e'.mftRaw = base.mftRaw) :
    ReflectsNew py entries e' ↔ LastAgrees py entries order base := by
  have hplace : newPlace py e' = newPlace py base := by
    unfold newPlace
    rw [hmft]
  -- what the last call that comes by a record has written is there in the end
  have hlast : ∀ {n path first r after},
      resolutions entries order = first ++ r :: after → Resolution.written py base r n path →
      (∀ r' ∈ after, ∀ path', ¬ Resolution.written py base r' n path') →
      e'.inodeToPath n = some path := by
    intro n path first r after hsplit hr hafter
    rw [hsplit, List.map_append, List.map_cons, ← List.append_assoc] at h
    refine h.last hr fun w hw => ?_
    obtain ⟨r', hr', rfl⟩ := List.mem_map.mp hw
    exact hafter r' hr'
  unfold ReflectsNew LastAgrees
  rw [hplace]
  constructor
  · intro hnew n hn path hresolves first m after oldPath hsplit hold hafter
    have hfinal := hlast hsplit hold hafter
    rw [hnew n hn path hresolves] at hfinal
    exact (Option.some.inj hfinal).symm
  · intro hagrees n hn path hresolves
    have hself : ∃ r ∈ resolutions entries order, ∃ path', Resolution.written py base r n path' :=
      ⟨⟨false, n⟩,
        List.mem_flatMap.mpr ⟨n, horder.mem_iff.mpr hn, resolutionsOf_new entries n⟩,
        path, ⟨[], .here n⟩, hresolves⟩
    obtain ⟨first, r, after, hsplit, ⟨found, hfound⟩, hafter⟩ := exists_last hself
    have hnone : ∀ r' ∈ after, ∀ path', ¬ Resolution.written py base r' n path' :=
      fun r' hr' path' hwritten => hafter r' hr' ⟨path', hwritten⟩
    rw [hlast hsplit hfound hnone]
    obtain ⟨inOld, m⟩ := r
    cases inOld with
    | false => exact congrArg some (hresolves.unique hfound.2)
    | true =>
      exact congrArg some (hagrees n hn path hresolves first m after found hsplit hfound hnone)

/-- The condition on the engine before the sectors are reported. -/
structure PathsStay (py : Interpreter) (o : Outside) (entries : Entries) (a : Access)
    (base : SevNtfsSparse) : Prop where
  resolved : (∃ i < a.sectorCount, IsMftSector base a i) →
    LastAgrees py entries (o.order (entries.map Prod.fst)) base
  known : (∀ i < a.sectorCount, ¬ IsMftSector base a i) → ReflectsNew py entries base

/-- **Paths reflect the new `$MFT` if and only if** the last call that comes by each record of the
write finds its new path. -/
theorem reflectsNew_iff {operations : List Operation} {changes : List FsOperation}
    {e₁ : SevNtfsSparse} (hwrite : a.isWrite = true)
    (hentries : updatedMftEntries g o a.write e = (.ok entries, e₁))
    (horder : (o.order (entries.map Prod.fst)).Perm (entries.map Prod.fst))
    (happly : applyWrite g o a.write e = (.ok changes, base))
    (h : Report.getAccess g o py a e = (.ok operations, e')) :
    ReflectsNew py entries e' ↔ PathsStay py o entries a base := by
  have hperforms : Performs ((List.range a.sectorCount).flatMap (sectorWrites py o entries base a))
      base.inodeToPath e'.inodeToPath ∧ OnlyPaths base e' := by
    unfold Report.getAccess at h
    rw [if_pos hwrite] at h
    obtain ⟨entries', e₂, hentries', hrest⟩ := bind_returns h
    cases hentries.symm.trans (ofMethod_returns hentries')
    obtain ⟨changes', e₃, hchanges, hrest⟩ := bind_returns hrest
    rw [applyWrite_loop, bind_ok hentries] at happly
    cases happly.symm.trans (ofMethod_returns hchanges)
    obtain ⟨written, e₄, hwritten, hrest⟩ := bind_returns hrest
    cases hrest
    exact collect_performs (fun i _ _ _ hb hi => writtenSector_performs hb hi)
      (composes_onlyPaths.refl base) hwritten
  obtain ⟨hperforms, honly⟩ := hperforms
  by_cases hsector : ∃ i < a.sectorCount, IsMftSector base a i
  · obtain ⟨before, hbefore⟩ : ∃ before,
        (List.range a.sectorCount).flatMap (sectorWrites py o entries base a) = before ++
          (resolutions entries (o.order (entries.map Prod.fst))).map
            (Resolution.written py base) := by
      obtain ⟨i, hi, hmft⟩ := hsector
      exact sectorWrites_last ⟨i, List.mem_range.mpr hi, hmft⟩
    rw [hbefore] at hperforms
    have hiff := lastAgrees_iff horder hperforms honly.fields.1
    constructor
    · intro hnew
      refine ⟨fun _ => hiff.mp hnew, fun hnone => ?_⟩
      obtain ⟨i, hi, hmft⟩ := hsector
      exact absurd hmft (hnone i hi)
    · exact fun hstay => hiff.mpr (hstay.resolved hsector)
  · have hnone : ∀ i < a.sectorCount, ¬ IsMftSector base a i :=
      fun i hi hmft => hsector ⟨i, hi, hmft⟩
    -- no path is written
    have hnil : (List.range a.sectorCount).flatMap (sectorWrites py o entries base a) = [] :=
      List.flatMap_eq_nil_iff.mpr fun i hi => if_neg (hnone i (List.mem_range.mp hi))
    rw [hnil] at hperforms
    have hsame : ReflectsNew py entries e' ↔ ReflectsNew py entries base := by
      unfold ReflectsNew newPlace
      rw [honly.fields.1, show e'.inodeToPath = base.inodeToPath from hperforms]
    constructor
    · exact fun hnew => ⟨fun hmft => absurd hmft hsector, fun _ => hsame.mp hnew⟩
    · exact fun hstay => hsame.mpr (hstay.known hnone)

/-! ## A file that gets another name -/

/-- A record whose first byte is not zero is in the root directory, with the name `a` if the byte
is 1, and `b` otherwise. -/
def nameByByte : Interpreter where
  parseRecord raw :=
    match raw with
    | [] => { fns := [] }
    | b :: _ => { fns := if b = 0 then [] else [⟨5, if b = 1 then "a" else "b", 1⟩] }
  limit := 1000
  info _ _ := 0

/-- The two records of the `$MFT`, in the blocks 1 and 2. -/
def twoRecords (img : Nat → UInt8) : List UInt8 :=
  (img 1024 :: List.replicate 1023 0) ++ (img 2048 :: List.replicate 1023 0)

def namedFile (img : Nat → UInt8) : FileSystem where
  lastInum := 1
  rootInum := 5
  openMeta n :=
    if n = 0 then some { attributes := [⟨true, [⟨2, 1⟩]⟩], content := some (twoRecords img) }
    else if n = 1 then some { attributes := [], flags := 1 }
    else none
  openDir _ := some []

def namedOutside : Outside where
  fsInfo img := some (namedFile img)
  order keys := keys
  renamed _ e := e.inodeToPath

/-- The file has the name `a`. -/
def imageWithA (x : Nat) : UInt8 := if x = 2048 then 1 else 0

/-- The engine with a copy of the `$MFT`, or without one. -/
def beforeRename (mftRaw : Option (List UInt8)) : SevNtfsSparse where
  img := imageWithA
  fileSystem := namedFile imageWithA
  sectorToInode s := if 2 ≤ s ∧ s < 6 then some 0 else none
  rootInum := 5
  lastInum := 1
  mftRaw := mftRaw

/-- The record of the file is written with the name `b`. -/
def rename : Access := ⟨true, 4, 2, 2 :: List.replicate 1023 0⟩

def renameEntries : Entries := [(1, some { attributes := [], flags := 1 })]

/-- The engine when the sectors are reported, and after that. -/
def reported (mftRaw : Option (List UInt8)) : SevNtfsSparse :=
  (applyWrite tinyVolume namedOutside rename.write (beforeRename mftRaw)).2

def afterRename (mftRaw : Option (List UInt8)) : SevNtfsSparse :=
  (Report.getAccess tinyVolume namedOutside nameByByte rename (beforeRename mftRaw)).2

def renameOperations (mftRaw : Option (List UInt8)) : List Operation :=
  ((Report.getAccess tinyVolume namedOutside nameByByte rename
    (beforeRename mftRaw)).1.toOption).getD []

theorem of_toOption {ε α : Type} {result : Except ε (List α)} (h : result.toOption.isSome) :
    result = .ok (result.toOption.getD []) := by
  cases result with
  | error e => cases h
  | ok a => rfl

theorem rename_returns {mftRaw : Option (List UInt8)}
    (h : (Report.getAccess tinyVolume namedOutside nameByByte rename
      (beforeRename mftRaw)).1.toOption.isSome) :
    Report.getAccess tinyVolume namedOutside nameByByte rename (beforeRename mftRaw) =
      (.ok (renameOperations mftRaw), afterRename mftRaw) := by
  unfold renameOperations afterRename
  exact returns_of_fst (of_toOption h)

theorem reported_returns {mftRaw : Option (List UInt8)}
    (h : (applyWrite tinyVolume namedOutside rename.write (beforeRename mftRaw)).1 = .ok []) :
    applyWrite tinyVolume namedOutside rename.write (beforeRename mftRaw) =
      (.ok [], reported mftRaw) := by
  unfold reported
  exact returns_of_fst h

/-- At the first write there is no old `$MFT`. -/
theorem reflectsNew_first_write : ReflectsNew nameByByte renameEntries (afterRename none) := by
  refine (reflectsNew_iff rfl (returns_of_fst (by decide +kernel)) (List.Perm.refl _)
    (reported_returns (by decide +kernel)) (rename_returns (by decide +kernel))).mpr ⟨?_, ?_⟩
  · intro _ n _ path _ before m after oldPath _ hold _
    obtain ⟨-, limit, hpath⟩ := hold
    have hnone : (reported none).oldMftRaw = none := by decide +kernel
    cases limit with
    | zero => cases hpath
    | succ limit =>
      unfold oldPlace at hpath
      rw [hnone] at hpath
      cases hpath
  · intro hnone
    exact absurd (by decide +kernel) (hnone 0 (by decide))

/-- The file keeps its old name. -/
theorem rename_keeps_old :
    ¬ (∀ (g : Geometry) (o : Outside) (py : Interpreter) (a : Access) (entries : Entries)
      (operations : List Operation) (e e₁ e' : SevNtfsSparse), a.isWrite = true →
      updatedMftEntries g o a.write e = (.ok entries, e₁) →
      (o.order (entries.map Prod.fst)).Perm (entries.map Prod.fst) →
      Report.getAccess g o py a e = (.ok operations, e') →
      (∃ i < a.sectorCount, e'.sectorToInode (a.sector + i) = some 0) →
      ReflectsNew py entries e') := by
  intro h
  have hnew := h tinyVolume namedOutside nameByByte rename renameEntries
    (renameOperations (some (twoRecords imageWithA))) (beforeRename (some (twoRecords imageWithA)))
    _ (afterRename (some (twoRecords imageWithA))) rfl (returns_of_fst (by decide +kernel))
    (List.Perm.refl _) (rename_returns (by decide +kernel)) ⟨0, by decide, by decide +kernel⟩
  have hb := hnew 1 (by decide) "/b" ⟨1, by decide +kernel⟩
  have ha : (afterRename (some (twoRecords imageWithA))).inodeToPath 1 = some "/a" := by
    decide +kernel
  rw [ha] at hb
  revert hb
  decide

end LoPhi.Ntfs.Renames
