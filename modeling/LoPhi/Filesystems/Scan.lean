import LoPhi.Lib.Claims
import LoPhi.Lib.Dict
import LoPhi.Ntfs.Engine

/-! # Scanning a file system

The constructor of `SemanticEngineVolumePyTSK` goes through all directories and notes for every
file its path, and for every block of its runs that the block is the file's. Where a block has a
file already the later one takes it over, unless both are regular files with different inodes:
then the earlier one keeps it and the collision goes to the error log. -/

namespace LoPhi.Filesystems.Scan
open LoPhi.Lib LoPhi.Lib.Claims
open LoPhi.Ntfs.Volume (Run)
open LoPhi.Ntfs.Engine (join)

/-- The exceptions: a directory `pytsk3` cannot open, and the first character of no name. -/
inductive ScanError where
  | ioError
  | indexError
  deriving DecidableEq, Repr

/-- A file object of `pytsk3`. `object` tells apart the Python objects, `inode` is the address in
its `meta` if it has one, and `opens` is whether `as_directory` works. -/
structure FileObject where
  object : Nat
  name : String
  isDir : Bool := false
  inode : Option Nat
  attributes : List (List Run) := []
  opens : Bool := true
  deriving DecidableEq, Repr

/-- What a directory lists: the files in order, each with what it lists itself. -/
inductive Directory where
  | nil
  | cons (f : FileObject) (inside rest : Directory)
  deriving DecidableEq, Repr

/-- The entries of `error_log`. -/
inductive Logged where
  | datarunOutOfBounds (filename : String) (numBlocks blockAddr : Nat)
  | datarunCollision (filename1 : String) (inode1 : Nat) (filename2 : String) (inode2 : Nat)
      (blockAddr : Nat)
  deriving DecidableEq, Repr

/-- The attributes of the engine that the scan fills. -/
structure Scanned where
  fsBlockToFile : Dict Nat FileObject := .empty
  fsFileToPath : Dict FileObject String := .empty
  errorLog : List Logged := []

/-- `name[0] != '$'`. -/
def isRegular (name : String) : Except ScanError Bool :=
  match name.toList.head? with
  | none => .error .indexError
  | some c => .ok (c ≠ '$')

/-- `f.info.name.name[0] != '$' and f2.info.name.name[0] != '$'`. -/
def bothRegular (f f2 : FileObject) : Except ScanError Bool := do
  if ← isRegular f.name then isRegular f2.name else pure false

/-- The loop of `_add_run`, for a block inside the volume. -/
def claimBlock (f : FileObject) (s : Scanned) (block : Nat) : Except ScanError Scanned :=
  let own := { s with fsBlockToFile := s.fsBlockToFile.insert block f }
  match s.fsBlockToFile.get? block with
  | none => .ok own
  | some f2 => do
    if ← bothRegular f f2 then
      match f.inode, f2.inode with
      | some inode1, some inode2 =>
        if inode1 ≠ inode2 then
          pure { s with
            errorLog := s.errorLog ++ [.datarunCollision f.name inode1 f2.name inode2 block] }
        else pure own
      | _, _ => pure own
    else pure own

section Methods
variable (blockCount : Nat)

/-- `_add_run`. -/
def addRun (f : FileObject) (s : Scanned) (run : Run) : Except ScanError Scanned :=
  (List.range run.length).foldlM (fun s i =>
    if run.length > blockCount ∨ run.addr + run.length > blockCount then
      .ok { s with errorLog := s.errorLog ++ [.datarunOutOfBounds f.name run.length run.addr] }
    else claimBlock f s (run.addr + i)) s

/-- `_add_file`. A run with address 0 is sparse, except that of `$Boot`. -/
def addFile (f : FileObject) (path : String) (s : Scanned) : Except ScanError Scanned :=
  f.attributes.foldlM (fun s attr =>
    attr.foldlM (fun s run =>
      if run.addr ≠ 0 ∨ f.name = "$Boot" then addRun blockCount f s run else .ok s) s)
    { s with fsFileToPath := s.fsFileToPath.insert f path }

/-- `_scan_file_system`. -/
def scanFileSystem (path : String) : Directory → Scanned → Except ScanError Scanned
  | .nil, s => .ok s
  | .cons f inside rest, s =>
    if f.name = "." ∨ f.name = ".." then scanFileSystem path rest s
    else do
      let absFilename := join path f.name
      let s ← addFile blockCount f absFilename s
      if f.isDir ∧ f.inode.isSome then
        if f.opens then do
          let s ← scanFileSystem absFilename inside s
          scanFileSystem path rest s
        else .error .ioError
      else scanFileSystem path rest s

end Methods

/-! ## The tree -/

/-- The files the scan comes to, in its order, and their paths. -/
def placed (path : String) : Directory → List (FileObject × String)
  | .nil => []
  | .cons f inside rest =>
    if f.name = "." ∨ f.name = ".." then placed path rest
    else
      (f, join path f.name) ::
        ((if f.isDir ∧ f.inode.isSome then placed (join path f.name) inside else []) ++
          placed path rest)

/-- Every turn of the loop over a directory gives a new Python object. -/
def Distinct (d : Directory) : Prop := ((placed "" d).map fun p => p.1.object).Nodup

instance (d : Directory) : Decidable (Distinct d) := inferInstanceAs (Decidable (List.Nodup _))

/-- The file has a run over the block. -/
structure Covers (blockCount : Nat) (f : FileObject) (block : Nat) (run : Run) : Prop where
  has : ∃ attr ∈ f.attributes, run ∈ attr
  real : run.addr ≠ 0 ∨ f.name = "$Boot"
  inside : run.addr + run.length ≤ blockCount
  from_addr : run.addr ≤ block
  before_end : block < run.addr + run.length

/-- The blocks of a run, unless it leaves the volume. -/
def runBlocks (blockCount : Nat) (run : Run) : List Nat :=
  if run.addr + run.length ≤ blockCount then List.range' run.addr run.length else []

/-- The claims of one file, in the order of the scan. -/
def fileClaims (blockCount : Nat) (f : FileObject) : List (Nat × FileObject) :=
  f.attributes.flatMap fun attr => attr.flatMap fun run =>
    if run.addr ≠ 0 ∨ f.name = "$Boot" then (runBlocks blockCount run).map fun block => (block, f)
    else []

/-- The claims of all files. -/
def claims (blockCount : Nat) (path : String) (d : Directory) : List (Nat × FileObject) :=
  (placed path d).flatMap fun p => fileClaims blockCount p.1

/-- Regular files with different inodes. -/
def Collides (f f2 : FileObject) : Prop :=
  f.name.toList.head? ≠ some '$' ∧ f2.name.toList.head? ≠ some '$' ∧
    f.inode.isSome ∧ f2.inode.isSome ∧ f.inode ≠ f2.inode

instance (f f2 : FileObject) : Decidable (Collides f f2) :=
  inferInstanceAs (Decidable (_ ∧ _))

/-- The entry of the error log about a claim that is turned away. -/
def collision (n : Nat × FileObject × FileObject) : Logged :=
  .datarunCollision n.2.1.name (n.2.1.inode.getD 0) n.2.2.name (n.2.2.inode.getD 0) n.1

def Logged.isCollision : Logged → Bool
  | .datarunCollision .. => true
  | .datarunOutOfBounds .. => false

/-- The board of claims that the scan stands for. -/
structure Represents (s : Scanned) (b : Board Nat FileObject) : Prop where
  holder : ∀ block, b.holder block = s.fsBlockToFile.get? block
  noted : s.errorLog.filter Logged.isCollision = b.noted.map collision

theorem represents_new : Represents {} ⟨fun _ => none, []⟩ := ⟨fun _ => rfl, rfl⟩

/-- The step makes the claims and writes no path. -/
structure Makes (l : List (Nat × FileObject)) (s s' : Scanned) : Prop where
  board : ∀ b, Represents s b → Represents s' (l.foldl (claim Collides) b)
  paths : s'.fsFileToPath = s.fsFileToPath

section Steps
variable {blockCount block : Nat} {f f2 : FileObject} {s s' s'' : Scanned} {run : Run}
  {l l' : List (Nat × FileObject)} {path : String} {d : Directory}

theorem Makes.refl (s : Scanned) : Makes [] s s := ⟨fun _ h => h, rfl⟩

theorem Makes.trans (h : Makes l s s') (h' : Makes l' s' s'') : Makes (l ++ l') s s'' := by
  refine ⟨fun b hb => ?_, h'.paths.trans h.paths⟩
  rw [List.foldl_append]
  exact h'.board _ (h.board b hb)

/-- A loop makes the claims of its turns. -/
theorem Makes.foldlM {α : Type} {g : Scanned → α → Except ScanError Scanned}
    {c : α → List (Nat × FileObject)} {xs : List α}
    (hg : ∀ {s s'}, ∀ x ∈ xs, g s x = .ok s' → Makes (c x) s s') (h : xs.foldlM g s = .ok s') :
    Makes (xs.flatMap c) s s' := by
  induction xs generalizing s with
  | nil =>
    cases h
    exact Makes.refl _
  | cons x xs ih =>
    rw [List.foldlM_cons] at h
    cases hx : g s x with
    | error e =>
      rw [hx] at h
      cases h
    | ok between =>
      rw [hx] at h
      rw [List.flatMap_cons]
      exact (hg x List.mem_cons_self hx).trans
        (ih (fun y hy => hg y (List.mem_cons_of_mem _ hy)) h)

theorem isRegular_ok {name : String} {regular : Bool} (h : isRegular name = .ok regular) :
    regular = true ↔ name.toList.head? ≠ some '$' := by
  unfold isRegular at h
  cases hhead : name.toList.head? with
  | none =>
    rw [hhead] at h
    cases h
  | some c =>
    rw [hhead] at h
    cases h
    simp

theorem bothRegular_ok {regular : Bool} (h : bothRegular f f2 = .ok regular) :
    regular = true ↔
      f.name.toList.head? ≠ some '$' ∧ f2.name.toList.head? ≠ some '$' := by
  unfold bothRegular at h
  cases hf : isRegular f.name with
  | error e =>
    rw [hf] at h
    cases h
  | ok first =>
    rw [hf] at h
    have hfirst := isRegular_ok hf
    cases first with
    | false =>
      cases h
      simp [← hfirst]
    | true =>
      have hsecond : isRegular f2.name = .ok regular := h
      rw [← isRegular_ok hsecond]
      simp [← hfirst]

/-- What `claimBlock` does: the holder keeps the block where the two collide. -/
theorem claimBlock_ok (h : claimBlock f s block = .ok s') :
    (∃ f2, s.fsBlockToFile.get? block = some f2 ∧ Collides f f2 ∧
      s' = { s with errorLog := s.errorLog ++ [collision (block, f, f2)] }) ∨
    ((∀ f2, s.fsBlockToFile.get? block = some f2 → ¬ Collides f f2) ∧
      s' = { s with fsBlockToFile := s.fsBlockToFile.insert block f }) := by
  unfold claimBlock at h
  cases hget : s.fsBlockToFile.get? block with
  | none =>
    rw [hget] at h
    cases h
    exact .inr ⟨nofun, rfl⟩
  | some f2 =>
    rw [hget] at h
    dsimp only at h
    cases hboth : bothRegular f f2 with
    | error e =>
      rw [hboth] at h
      cases h
    | ok regular =>
      rw [hboth] at h
      have hregular := bothRegular_ok hboth
      have hown : ¬ Collides f f2 → ∀ f2', some f2 = some f2' → ¬ Collides f f2' := by
        intro hno f2' heq
        rwa [← Option.some.inj heq]
      cases regular with
      | false =>
        cases h
        exact .inr ⟨hown fun hc => absurd (hregular.mpr ⟨hc.1, hc.2.1⟩) nofun, rfl⟩
      | true =>
        obtain ⟨hf, hf2⟩ := hregular.mp rfl
        cases hinode : f.inode with
        | none =>
          rw [hinode] at h
          cases h
          exact .inr ⟨hown fun hc => by simp [Collides, hinode] at hc, rfl⟩
        | some inode1 =>
          cases hinode2 : f2.inode with
          | none =>
            rw [hinode, hinode2] at h
            cases h
            exact .inr ⟨hown fun hc => by simp [Collides, hinode2] at hc, rfl⟩
          | some inode2 =>
            rw [hinode, hinode2] at h
            by_cases hne : inode1 ≠ inode2
            · have hs' : .ok { s with errorLog := s.errorLog ++
                  [.datarunCollision f.name inode1 f2.name inode2 block] } =
                    Except.ok (ε := ScanError) s' := by
                rw [← h]
                exact (if_pos hne).symm
              cases hs'
              refine .inl ⟨f2, rfl, ⟨hf, hf2, ?_⟩, ?_⟩
              · simp [hinode, hinode2, hne]
              · simp [collision, hinode, hinode2]
            · have hs' : .ok { s with fsBlockToFile := s.fsBlockToFile.insert block f } =
                  Except.ok (ε := ScanError) s' := by
                rw [← h]
                exact (if_neg hne).symm
              cases hs'
              refine .inr ⟨hown fun hc => ?_, rfl⟩
              refine hne fun heq => hc.2.2.2.2 ?_
              rw [hinode, hinode2, heq]

theorem claimBlock_makes (h : claimBlock f s block = .ok s') : Makes [(block, f)] s s' := by
  rcases claimBlock_ok h with ⟨f2, hget, hcollides, rfl⟩ | ⟨hno, rfl⟩
  · refine ⟨fun b hb => ⟨fun block' => ?_, ?_⟩, rfl⟩
    · rw [List.foldl_cons, List.foldl_nil, holder_claim, ← hb.holder]
      dsimp only
      split
      · rename_i heq
        subst heq
        rw [hb.holder, hget, settle, if_pos hcollides]
      · rfl
    · rw [List.foldl_cons, List.foldl_nil, List.filter_append, hb.noted, claim, hb.holder, hget,
        note, if_pos hcollides, List.map_append]
      rfl
  · refine ⟨fun b hb => ⟨fun block' => ?_, ?_⟩, rfl⟩
    · rw [List.foldl_cons, List.foldl_nil, holder_claim, Dict.get?_insert]
      dsimp only
      by_cases heq : block = block'
      · subst heq
        rw [if_pos rfl, if_pos rfl, hb.holder]
        cases hget : s.fsBlockToFile.get? block with
        | none => rfl
        | some f2 => rw [settle, if_neg (hno f2 hget)]
      · rw [if_neg heq, if_neg (Ne.symm heq), hb.holder]
    · have hnote : note Collides block (s.fsBlockToFile.get? block) f = [] := by
        cases hget : s.fsBlockToFile.get? block with
        | none => rfl
        | some f2 => rw [note, if_neg (hno f2 hget)]
      rw [List.foldl_cons, List.foldl_nil, claim, hb.holder, hnote, List.append_nil]
      exact hb.noted

theorem addRun_makes (h : addRun blockCount f s run = .ok s') :
    Makes ((runBlocks blockCount run).map fun block => (block, f)) s s' := by
  by_cases hinside : run.addr + run.length ≤ blockCount
  · have hmakes : Makes ((List.range run.length).flatMap fun i => [(run.addr + i, f)]) s s' := by
      refine Makes.foldlM (fun i _ hi => ?_) h
      rw [if_neg (by omega)] at hi
      exact claimBlock_makes hi
    rw [runBlocks, if_pos hinside, List.range'_eq_map_range, List.map_map]
    rw [← List.map_eq_flatMap] at hmakes
    exact hmakes
  · have hmakes : Makes ((List.range run.length).flatMap fun _ => []) s s' := by
      refine Makes.foldlM (fun i _ hi => ?_) h
      rw [if_pos (by omega)] at hi
      cases hi
      refine ⟨fun b hb => ⟨hb.holder, ?_⟩, rfl⟩
      rw [List.filter_append, hb.noted]
      exact List.append_nil _
    rw [runBlocks, if_neg hinside]
    rwa [List.flatMap_eq_nil_iff.mpr fun _ _ => rfl] at hmakes

theorem addFile_makes (h : addFile blockCount f path s = .ok s') :
    Makes (fileClaims blockCount f)
      { s with fsFileToPath := s.fsFileToPath.insert f path } s' := by
  refine Makes.foldlM (fun attr _ hattr => ?_) h
  refine Makes.foldlM (fun run _ hrun => ?_) hattr
  by_cases hreal : run.addr ≠ 0 ∨ f.name = "$Boot"
  · rw [if_pos hreal] at hrun ⊢
    exact addRun_makes hrun
  · rw [if_neg hreal] at hrun ⊢
    cases hrun
    exact Makes.refl _

/-- What a whole scan does: the claims of the tree, and its paths. -/
theorem scanFileSystem_makes (h : scanFileSystem blockCount path d s = .ok s') :
    (∀ b, Represents s b →
      Represents s' ((claims blockCount path d).foldl (claim Collides) b)) ∧
    s'.fsFileToPath =
      (placed path d).foldl (fun paths p => paths.insert p.1 p.2) s.fsFileToPath := by
  induction d generalizing path s s' with
  | nil =>
    cases h
    exact ⟨fun b hb => hb, rfl⟩
  | cons f inside rest ihInside ihRest =>
    unfold scanFileSystem at h
    unfold claims placed
    by_cases hdots : f.name = "." ∨ f.name = ".."
    · rw [if_pos hdots] at h ⊢
      exact ihRest h
    · rw [if_neg hdots] at h ⊢
      dsimp only at h
      cases hadd : addFile blockCount f (join path f.name) s with
      | error e =>
        rw [hadd] at h
        cases h
      | ok added =>
        rw [hadd] at h
        replace h : (if f.isDir ∧ f.inode.isSome then
            if f.opens then do
              let s ← scanFileSystem blockCount (join path f.name) inside added
              scanFileSystem blockCount path rest s
            else .error .ioError
          else scanFileSystem blockCount path rest added) = .ok s' := h
        have hmakes := addFile_makes hadd
        have hboard : ∀ b, Represents s b →
            Represents added ((fileClaims blockCount f).foldl (claim Collides) b) :=
          fun b hb => hmakes.board b ⟨hb.holder, hb.noted⟩
        rw [List.flatMap_cons, List.flatMap_append]
        by_cases hdir : f.isDir ∧ f.inode.isSome
        · rw [if_pos hdir] at h ⊢
          by_cases hopens : f.opens
          · rw [if_pos hopens] at h
            cases hin : scanFileSystem blockCount (join path f.name) inside added with
            | error e =>
              rw [hin] at h
              cases h
            | ok between =>
              rw [hin] at h
              obtain ⟨hboardIn, hpathsIn⟩ := ihInside hin
              obtain ⟨hboardRest, hpathsRest⟩ := ihRest h
              refine ⟨fun b hb => ?_, ?_⟩
              · rw [List.foldl_append, List.foldl_append]
                exact hboardRest _ (hboardIn _ (hboard b hb))
              · rw [hpathsRest, hpathsIn, hmakes.paths, List.foldl_cons, List.foldl_append]
          · rw [if_neg hopens] at h
            cases h
        · rw [if_neg hdir] at h ⊢
          obtain ⟨hboardRest, hpathsRest⟩ := ihRest h
          refine ⟨fun b hb => ?_, ?_⟩
          · rw [List.foldl_append]
            exact hboardRest _ (hboard b hb)
          · rw [hpathsRest, hmakes.paths]
            rfl

theorem mem_runBlocks :
    block ∈ runBlocks blockCount run ↔
      run.addr + run.length ≤ blockCount ∧ run.addr ≤ block ∧ block < run.addr + run.length := by
  unfold runBlocks
  split
  · rename_i hinside
    simp [List.mem_range'_1, hinside]
  · rename_i houtside
    simp [houtside]

theorem mem_fileClaims {f' : FileObject} :
    (block, f') ∈ fileClaims blockCount f ↔ f' = f ∧ ∃ run, Covers blockCount f block run := by
  unfold fileClaims
  constructor
  · intro h
    obtain ⟨attr, hattr, h⟩ := List.mem_flatMap.mp h
    obtain ⟨run, hrun, h⟩ := List.mem_flatMap.mp h
    split at h
    · rename_i hreal
      obtain ⟨block', hblock, heq⟩ := List.mem_map.mp h
      cases heq
      obtain ⟨hinside, hfrom, hbefore⟩ := mem_runBlocks.mp hblock
      exact ⟨rfl, run, ⟨attr, hattr, hrun⟩, hreal, hinside, hfrom, hbefore⟩
    · cases h
  · rintro ⟨rfl, run, ⟨attr, hattr, hrun⟩, hreal, hinside, hfrom, hbefore⟩
    refine List.mem_flatMap.mpr ⟨attr, hattr, List.mem_flatMap.mpr ⟨run, hrun, ?_⟩⟩
    rw [if_pos hreal]
    exact List.mem_map_of_mem (mem_runBlocks.mpr ⟨hinside, hfrom, hbefore⟩)

/-- The claims are the runs of the files. -/
theorem mem_claims :
    (block, f) ∈ claims blockCount path d ↔
      (∃ abs, (f, abs) ∈ placed path d) ∧ ∃ run, Covers blockCount f block run := by
  unfold claims
  rw [List.mem_flatMap]
  constructor
  · rintro ⟨⟨f', abs⟩, hplaced, hclaim⟩
    obtain ⟨rfl, hcovers⟩ := mem_fileClaims.mp hclaim
    exact ⟨⟨abs, hplaced⟩, hcovers⟩
  · rintro ⟨⟨abs, hplaced⟩, hcovers⟩
    exact ⟨(f, abs), hplaced, mem_fileClaims.mpr ⟨rfl, hcovers⟩⟩

end Steps

/-! ## Who owns a block -/

/-- The collisions reported at a block: who was turned away. -/
def reportedAt (block : Nat) (log : List Logged) : List (String × Nat) :=
  log.filterMap fun entry =>
    match entry with
    | .datarunCollision name inode _ _ at' => if at' = block then some (name, inode) else none
    | .datarunOutOfBounds .. => none

/-- No metafile is over the block, and all files over it have inodes. -/
def Plain (blockCount : Nat) (d : Directory) (block : Nat) : Prop :=
  ∀ f ∈ claimants block (claims blockCount "" d),
    f.name.toList.head? ≠ some '$' ∧ f.inode.isSome

instance (blockCount : Nat) (d : Directory) (block : Nat) : Decidable (Plain blockCount d block) :=
  inferInstanceAs (Decidable (∀ f ∈ _, _))

section Owner
variable {blockCount block : Nat} {d : Directory} {s : Scanned} {f : FileObject} {path : String}

theorem reportedAt_collisions (log : List Logged) :
    reportedAt block log = reportedAt block (log.filter Logged.isCollision) := by
  unfold reportedAt
  rw [List.filterMap_filter]
  refine List.filterMap_congr fun entry _ => ?_
  cases entry <;> rfl

theorem reportedAt_map_collision (noted : List (Nat × FileObject × FileObject)) :
    reportedAt block (noted.map collision) =
      (notedAt block noted).map fun f => (f.name, f.inode.getD 0) := by
  unfold reportedAt notedAt
  rw [List.filterMap_map, List.map_filterMap]
  refine List.filterMap_congr fun n _ => ?_
  by_cases hblock : n.1 = block
  · simp [collision, hblock]
  · simp [collision, hblock]

theorem plain_ofKind (h : Plain blockCount d block) :
    OfKind Collides FileObject.inode (claimants block (claims blockCount "" d)) := by
  intro f hf f2 hf2
  obtain ⟨hname, hinode⟩ := h f hf
  obtain ⟨hname2, hinode2⟩ := h f2 hf2
  exact ⟨fun hc => hc.2.2.2.2, fun hne => ⟨hname, hname2, hinode, hinode2, hne⟩⟩

/-- What holds after the scan, from its claims. -/
theorem scanned (h : scanFileSystem blockCount "" d {} = .ok s) :
    (∀ block, s.fsBlockToFile.get? block =
      (claimants block (claims blockCount "" d)).foldl (settle Collides) none) ∧
    (∀ block, reportedAt block s.errorLog =
      (turnedAway Collides none (claimants block (claims blockCount "" d))).map
        fun f => (f.name, f.inode.getD 0)) ∧
    s.fsFileToPath = (placed "" d).foldl (fun paths p => paths.insert p.1 p.2) .empty := by
  obtain ⟨hboard, hpaths⟩ := scanFileSystem_makes h
  have hrepresents := hboard _ represents_new
  refine ⟨fun block => ?_, fun block => ?_, hpaths⟩
  · rw [← hrepresents.holder, holder_foldl]
  · rw [reportedAt_collisions, hrepresents.noted, reportedAt_map_collision, notedAt_foldl]
    rfl

theorem paths_scanned (hd : Distinct d) (h : scanFileSystem blockCount "" d {} = .ok s) :
    s.fsFileToPath.get? f = some path ↔ (f, path) ∈ placed "" d := by
  rw [(scanned h).2.2]
  refine Dict.get?_foldl_insert_iff (List.Nodup.of_map FileObject.object ?_)
  rw [List.map_map]
  exact hd

/-- A block goes to a file with a run over it, and that file has a path. -/
theorem scan_total (hd : Distinct d) (h : scanFileSystem blockCount "" d {} = .ok s)
    (block : Nat) (f : FileObject) (hf : s.fsBlockToFile.get? block = some f) :
    (s.fsFileToPath.get? f).isSome ∧ ∃ run, Covers blockCount f block run := by
  rw [(scanned h).1] at hf
  rcases mem_of_foldl_settle hf with hnone | hmem
  · cases hnone
  · obtain ⟨⟨path, hplaced⟩, run, hcovers⟩ := mem_claims.mp (mem_claimants.mp hmem)
    exact ⟨Option.isSome_iff_exists.mpr ⟨path, (paths_scanned hd h).mpr hplaced⟩, run, hcovers⟩

/-- **The block map is the runs of the tree**: after the scan every file has the path of its place
in the tree, a block has a file exactly where some file has a run over it, and it is one of these
files. Where all of them are regular files with inodes, the block stays with the inode that the
scan met there first, and the error log has exactly the claims of other inodes, in order. -/
theorem scan_owners (hd : Distinct d) (h : scanFileSystem blockCount "" d {} = .ok s) :
    (∀ f path, s.fsFileToPath.get? f = some path ↔ (f, path) ∈ placed "" d) ∧
    (∀ block, (s.fsBlockToFile.get? block).isSome ↔
      ∃ f path run, (f, path) ∈ placed "" d ∧ Covers blockCount f block run) ∧
    (∀ block f, s.fsBlockToFile.get? block = some f →
      (s.fsFileToPath.get? f).isSome ∧ ∃ run, Covers blockCount f block run) ∧
    ∀ block first others, claimants block (claims blockCount "" d) = first :: others →
      Plain blockCount d block →
      (∃ o ∈ first :: others, s.fsBlockToFile.get? block = some o ∧ o.inode = first.inode) ∧
      reportedAt block s.errorLog =
        (others.filter fun f => f.inode ≠ first.inode).map fun f => (f.name, f.inode.getD 0) := by
  obtain ⟨howner, hreported, -⟩ := scanned h
  refine ⟨fun f path => paths_scanned hd h, fun block => ?_, scan_total hd h,
    fun block first others hclaimants hplain => ?_⟩
  · rw [howner, isSome_foldl_settle]
    constructor
    · rintro (hnone | hne)
      · cases hnone
      · obtain ⟨f, hf⟩ := List.exists_mem_of_ne_nil _ hne
        obtain ⟨⟨path, hplaced⟩, run, hcovers⟩ := mem_claims.mp (mem_claimants.mp hf)
        exact ⟨f, path, run, hplaced, hcovers⟩
    · rintro ⟨f, path, run, hplaced, hcovers⟩
      exact .inr (List.ne_nil_of_mem
        (mem_claimants.mpr (mem_claims.mpr ⟨⟨path, hplaced⟩, run, hcovers⟩)))
  · have hkind := plain_ofKind hplain
    rw [hclaimants] at hkind
    obtain ⟨howns, haway⟩ := foldl_settle_ofKind hkind
    refine ⟨?_, ?_⟩
    · rw [howner, hclaimants]
      exact howns
    · rw [hreported, hclaimants]
      exact congrArg _ haway

end Owner

/-- Two files that overlap in block 5, and a directory. -/
def overlapping : Directory :=
  .cons { object := 0, name := ".", inode := some 5 } .nil
    (.cons { object := 1, name := "first", inode := some 10, attributes := [[⟨3, 3⟩]] } .nil
      (.cons { object := 2, name := "inner", isDir := true, inode := some 11 }
        (.cons { object := 3, name := "second", inode := some 12, attributes := [[⟨0, 9⟩, ⟨2, 5⟩]] }
          .nil .nil) .nil))

theorem scan_owners_overlapping :
    ∃ s, scanFileSystem 8 "" overlapping {} = .ok s ∧
      (∃ o, s.fsBlockToFile.get? 5 = some o ∧ o.inode = some 10) ∧
      reportedAt 5 s.errorLog = [("second", 12)] := by
  have hruns : (scanFileSystem 8 "" overlapping {}).isOk := by decide +kernel
  cases h : scanFileSystem 8 "" overlapping {} with
  | error e =>
    rw [h] at hruns
    cases hruns
  | ok s =>
    have hplain : Plain 8 overlapping 5 := by decide +kernel
    obtain ⟨⟨o, -, ho, hinode⟩, hreported⟩ :=
      (scan_owners (by decide +kernel) h).2.2.2 5
        { object := 1, name := "first", inode := some 10, attributes := [[⟨3, 3⟩]] }
        [{ object := 3, name := "second", inode := some 12, attributes := [[⟨0, 9⟩, ⟨2, 5⟩]] }]
        (by decide +kernel) hplain
    refine ⟨s, rfl, ⟨o, ho, hinode⟩, hreported.trans ?_⟩
    decide +kernel

end LoPhi.Filesystems.Scan
