import LoPhi.Lib.Chain
import LoPhi.Ntfs.Engine

/-! # Paths from the records of the `$MFT`

`_get_path` finds the path of a record from its name and the path of the record it names as its
parent, and so on up to the root directory. Only a record that is its own parent is cut off. The
record parser (`mft.parse_record`) is not part of the program; how many calls can be nested is a
limit of the interpreter. -/

namespace LoPhi.Ntfs.Paths
open LoPhi.Lib.Effect LoPhi.Lib.Chain
open LoPhi.Ntfs.Engine (join)

/-! ## Records -/

/-- An attribute `'fn', j` of a record. -/
structure FnAttribute where
  parRef : Nat
  name : String
  nspace : Nat
  deriving DecidableEq, Repr

/-- What `mft.parse_record` finds: the attributes `'fn', 0` to `'fn', fncnt - 1`, and the
`mft_record_no` of each entry of the attribute list. -/
structure MftRecord where
  fns : List FnAttribute
  attributeList : List Nat := []
  deriving DecidableEq, Repr

/-- `nspace == 0x1 or nspace == 0x3`. -/
def FnAttribute.isWin32 (fn : FnAttribute) : Bool := fn.nspace = 1 ∨ fn.nspace = 3

/-- `record['par_ref']` and `record['name']`. With several names the loop looks at the first and
at the last only. -/
def parentAndName : List FnAttribute → Option (Nat × String)
  | [] => none
  | [fn] => some (fn.parRef, fn.name)
  | first :: second :: rest =>
    let last := (second :: rest).getLast (by simp)
    some (first.parRef,
      if last.isWin32 then last.name
      else if first.isWin32 then first.name
      else last.name)

/-- `raw_mft[inode*1024:(inode+1)*1024]`. -/
def rawRecord (rawMft : List UInt8) (inode : Nat) : List UInt8 :=
  (rawMft.drop (inode * 1024)).take 1024

/-- The whole record is in the `$MFT`. -/
def Complete (rawMft : List UInt8) (inode : Nat) : Prop := (rawRecord rawMft inode).length = 1024

/-- Where a record says it is. -/
inductive Place where
  | missing
  | noFnRecord
  | inRoot (filename : String)
  | selfReferential (filename : String)
  | below (parRef : Nat) (filename : String)
  deriving DecidableEq, Repr

/-- The branches on the parsed record. The root directory is record 5. -/
def placeOf (inode : Nat) (record : MftRecord) : Place :=
  match parentAndName record.fns with
  | none => .noFnRecord
  | some (parRef, filename) =>
    if parRef = 5 then .inRoot filename
    else if parRef = inode then .selfReferential filename
    else .below parRef filename

theorem placeOf_ne_missing (inode : Nat) (record : MftRecord) :
    placeOf inode record ≠ .missing := by
  unfold placeOf
  split
  · exact Place.noConfusion
  · split
    · exact Place.noConfusion
    · split
      · exact Place.noConfusion
      · exact Place.noConfusion

section Engines
variable (parseRecord : List UInt8 → MftRecord)

/-- `SEV_NTFS_Sparse._get_path` before it calls itself. -/
def sparsePlace (rawMft : Option (List UInt8)) (inode : Nat) : Place :=
  match rawMft with
  | none => .missing
  | some raw =>
    if (rawRecord raw inode).length < 4 then .missing
    else if (rawRecord raw inode).length ≠ 1024 then .noFnRecord
    else placeOf inode (parseRecord (rawRecord raw inode))

/-- `SemanticEngineVolumePyTSK_NTFS._get_path` before it calls itself: whatever the slice is, it
is parsed. -/
def pytskPlace (rawMft : List UInt8) (inode : Nat) : Place :=
  placeOf inode (parseRecord (rawRecord rawMft inode))

/-- What is missing is not complete. -/
theorem sparsePlace_missing (rawMft : List UInt8) (inode : Nat)
    (h : sparsePlace parseRecord (some rawMft) inode = .missing) : ¬ Complete rawMft inode := by
  intro hcomplete
  unfold Complete at hcomplete
  simp only [sparsePlace, hcomplete] at h
  exact placeOf_ne_missing inode _ h

theorem pytskPlace_ne_missing (rawMft : List UInt8) (inode : Nat) :
    pytskPlace parseRecord rawMft inode ≠ .missing := placeOf_ne_missing inode _

end Engines

/-! ## Resolution -/

/-- The exceptions: an attribute of `None`, and too many nested calls. -/
inductive PathError where
  | attributeError
  | runtimeError
  deriving DecidableEq, Repr

/-- `fs_inode_to_path`. -/
abbrev PathMap := Nat → Option String

/-- `os.path.join` of what `_get_path` returns. A name that begins with a slash is returned before
anything is asked of the parent. -/
def joinPath (parentpath : Option String) (filename : String) : Except PathError String :=
  match parentpath with
  | some parent => .ok (join parent filename)
  | none => if filename.startsWith "/" then .ok filename else .error .attributeError

/-- `self.fs_inode_to_path[inode] = path`, and its value is returned. -/
def note (inode : Nat) (path : String) : Prog PathError PathMap (Option String) := do
  modify fun paths k => if k = inode then some path else paths k
  pure (some path)

section Resolution
variable (place : Nat → Place)

/-- `_get_path`, with at most `limit` nested calls. -/
def getPath : Nat → Nat → Prog PathError PathMap (Option String)
  | 0, _ => raise .runtimeError
  | limit + 1, inode =>
    match place inode with
    | .missing => pure none
    | .noFnRecord => note inode "NoFNRecord"
    | .inRoot filename => note inode (join "/" filename)
    | .selfReferential filename => note inode ("ORPHAN/" ++ filename)
    | .below parRef filename => do
      let parentpath ← getPath limit parRef
      let path ← ofExcept (joinPath parentpath filename)
      note inode path

/-- What `_get_path` returns. -/
def pathOf : Nat → Nat → Except PathError (Option String)
  | 0, _ => .error .runtimeError
  | limit + 1, inode =>
    match place inode with
    | .missing => .ok none
    | .noFnRecord => .ok (some "NoFNRecord")
    | .inRoot filename => .ok (some (join "/" filename))
    | .selfReferential filename => .ok (some ("ORPHAN/" ++ filename))
    | .below parRef filename => do
      let parentpath ← pathOf limit parRef
      let path ← joinPath parentpath filename
      pure (some path)

/-- The record a record refers to as its parent. -/
def parentOf (inode : Nat) : Option Nat :=
  match place inode with
  | .below parRef _ => some parRef
  | .selfReferential _ => some inode
  | _ => none

end Resolution

variable {place : Nat → Place} {inode limit : Nat} {names : List String} {z : Nat}

/-- The value does not depend on the paths that were noted. -/
theorem getPath_value (limit inode : Nat) (paths : PathMap) :
    (getPath place limit inode paths).1 = pathOf place limit inode := by
  induction limit generalizing inode paths with
  | zero => rfl
  | succ limit ih =>
    unfold getPath pathOf
    cases place inode with
    | missing => rfl
    | noFnRecord => rfl
    | inRoot filename => rfl
    | selfReferential filename => rfl
    | below parRef filename =>
      dsimp only
      rw [← ih parRef paths]
      cases hrun : getPath place limit parRef paths with
      | mk result paths' =>
        cases result with
        | error e =>
          rw [bind_error hrun]
          rfl
        | ok parentpath =>
          rw [bind_ok hrun]
          show _ = (joinPath parentpath filename >>= fun path => pure (some path))
          cases joinPath parentpath filename with
          | error e => rfl
          | ok path => rfl

/-! ## The chain of parents -/

/-- The parents lead from a record to another, and these are the names of the records below it. -/
inductive Climbs (place : Nat → Place) : Nat → List String → Nat → Prop
  | here (inode : Nat) : Climbs place inode [] inode
  | up {inode parRef : Nat} {filename : String} {names : List String} {z : Nat} :
      place inode = .below parRef filename → Climbs place parRef names z →
      Climbs place inode (filename :: names) z

/-- The path that ends the recursion. -/
def Place.path : Place → Option String
  | .missing => none
  | .noFnRecord => some "NoFNRecord"
  | .inRoot filename => some (join "/" filename)
  | .selfReferential filename => some ("ORPHAN/" ++ filename)
  | .below _ _ => none

/-- The recursion goes on from this record. -/
def Place.goesOn (p : Place) : Prop := ∃ parRef filename, p = .below parRef filename

/-- The names are joined to the path above them, the last first. -/
def joinAll (names : List String) (base : Except PathError (Option String)) :
    Except PathError (Option String) :=
  names.foldr (fun filename result => do
    let parentpath ← result
    let path ← joinPath parentpath filename
    pure (some path)) base

theorem pathOf_end (h : ¬ (place inode).goesOn) (limit : Nat) :
    pathOf place (limit + 1) inode = .ok (place inode).path := by
  unfold pathOf
  cases hplace : place inode with
  | missing => rfl
  | noFnRecord => rfl
  | inRoot filename => rfl
  | selfReferential filename => rfl
  | below parRef filename => exact absurd ⟨parRef, filename, hplace⟩ h

theorem pathOf_below {parRef : Nat} {filename : String}
    (h : place inode = .below parRef filename) (limit : Nat) :
    pathOf place (limit + 1) inode = joinAll [filename] (pathOf place limit parRef) := by
  rw [pathOf, h]
  rfl

theorem Climbs.pathOf_eq (h : Climbs place inode names z) (limit : Nat) :
    pathOf place (limit + names.length) inode = joinAll names (pathOf place limit z) := by
  induction h with
  | here inode => rfl
  | up hbelow _ ih =>
    rw [List.length_cons, ← Nat.add_assoc, pathOf_below hbelow, ih]
    rfl

/-- A call that returns has come to a record where the recursion ends. -/
theorem climbs_of_returns {path : Option String} (h : pathOf place limit inode = .ok path) :
    ∃ names z, Climbs place inode names z ∧ names.length < limit ∧ ¬ (place z).goesOn := by
  induction limit generalizing inode path with
  | zero => cases h
  | succ limit ih =>
    by_cases hon : (place inode).goesOn
    · obtain ⟨parRef, filename, hbelow⟩ := hon
      rw [pathOf_below hbelow] at h
      cases hparent : pathOf place limit parRef with
      | error e =>
        rw [hparent] at h
        cases h
      | ok parentpath =>
        obtain ⟨names, z, hclimbs, hlt, hend⟩ := ih hparent
        exact ⟨filename :: names, z, .up hbelow hclimbs, Nat.succ_lt_succ hlt, hend⟩
    · exact ⟨[], inode, .here inode, Nat.succ_pos limit, hon⟩

/-- What is not the record itself is above it. -/
theorem Climbs.meets {P : Nat → Prop} (h : Climbs place inode names z) (hne : names ≠ [])
    (hz : P z) : Meets (parentOf place) P inode := by
  induction h with
  | here inode => exact absurd rfl hne
  | @up inode parRef filename names z hbelow hrest ih =>
    have hparent : parentOf place inode = some parRef := by rw [parentOf, hbelow]
    rw [meets_iff hparent]
    cases hrest with
    | here => exact .inl hz
    | up hbelow' hrest' => exact .inr (ih (by simp) hz)

/-- The parents come to an end within the limit, and if that is at a record that is missing, the
name below it begins with a slash. -/
def Terminates (place : Nat → Place) (limit inode : Nat) : Prop :=
  ∃ names z, Climbs place inode names z ∧ names.length < limit ∧ ¬ (place z).goesOn ∧
    (place z = .missing → ∀ filename ∈ names.getLast?, filename.startsWith "/")

theorem joinAll_top (names : List String) (top : String) :
    ∃ path, joinAll names (.ok (some top)) = .ok (some path) := by
  induction names with
  | nil => exact ⟨top, rfl⟩
  | cons filename names ih =>
    obtain ⟨parent, hparent⟩ := ih
    exact ⟨join parent filename, congrArg (fun r => joinAll [filename] r) hparent⟩

/-- Below a missing record only the last name is joined to `None`. -/
theorem joinAll_missing (names : List String) :
    (∃ path, joinAll names (.ok none) = .ok path) ↔
      ∀ filename ∈ names.getLast?, filename.startsWith "/" := by
  rcases names.eq_nil_or_concat with rfl | ⟨above, last, rfl⟩
  · exact ⟨fun _ filename hin => (nomatch hin), fun _ => ⟨none, rfl⟩⟩
  · rw [List.concat_eq_append, List.getLast?_append]
    have hsplit : joinAll (above ++ [last]) (.ok none) =
        joinAll above (joinPath none last >>= fun path => pure (some path)) :=
      List.foldr_append
    rw [hsplit]
    by_cases hslash : last.startsWith "/"
    · have hjoin : joinPath none last = .ok last := if_pos hslash
      obtain ⟨path, hpath⟩ := joinAll_top above last
      rw [hjoin]
      refine ⟨fun _ filename hin => ?_, fun _ => ⟨_, hpath⟩⟩
      cases hin
      exact hslash
    · have hjoin : joinPath none last = .error .attributeError := if_neg hslash
      have hraised : ∀ names : List String,
          joinAll names (.error .attributeError) = .error .attributeError := by
        intro names
        induction names with
        | nil => rfl
        | cons filename names ih => exact congrArg (fun r => joinAll [filename] r) ih
      rw [hjoin]
      refine ⟨fun ⟨path, hpath⟩ => ?_, fun hall => absurd (hall last rfl) hslash⟩
      cases hpath.symm.trans (hraised above)

theorem Climbs.pathOf_end (h : Climbs place inode names z) (hlt : names.length < limit)
    (hend : ¬ (place z).goesOn) :
    pathOf place limit inode = joinAll names (.ok (place z).path) := by
  obtain ⟨extra, rfl⟩ := Nat.exists_eq_add_of_lt hlt
  have heq := h.pathOf_eq (extra + 1)
  rw [Paths.pathOf_end hend] at heq
  rw [← heq]
  congr 1
  omega

/-- A place that ends the recursion without a path is missing. -/
theorem path_eq_none (h : ¬ (place z).goesOn) : (place z).path = none ↔ place z = .missing := by
  cases hplace : place z with
  | missing => exact ⟨fun _ => rfl, fun _ => rfl⟩
  | noFnRecord => exact ⟨fun hnone => (nomatch hnone), fun heq => (nomatch heq)⟩
  | inRoot filename => exact ⟨fun hnone => (nomatch hnone), fun heq => (nomatch heq)⟩
  | selfReferential filename => exact ⟨fun hnone => (nomatch hnone), fun heq => (nomatch heq)⟩
  | below parRef filename => exact absurd ⟨parRef, filename, hplace⟩ h

/-- A call returns if and only if it comes to an end. -/
theorem pathOf_returns_iff :
    (∃ path, pathOf place limit inode = .ok path) ↔ Terminates place limit inode := by
  constructor
  · rintro ⟨path, hreturns⟩
    obtain ⟨names, z, hclimbs, hlt, hend⟩ := climbs_of_returns hreturns
    refine ⟨names, z, hclimbs, hlt, hend, fun hmissing => (joinAll_missing names).mp ⟨path, ?_⟩⟩
    rw [hclimbs.pathOf_end hlt hend, (path_eq_none hend).mpr hmissing] at hreturns
    exact hreturns
  · rintro ⟨names, z, hclimbs, hlt, hend, habove⟩
    rw [hclimbs.pathOf_end hlt hend]
    cases htop : (place z).path with
    | none => exact (joinAll_missing names).mpr (habove ((path_eq_none hend).mp htop))
    | some top =>
      obtain ⟨path, hpath⟩ := joinAll_top names top
      exact ⟨_, hpath⟩

/-! ## Absolute names and orphans -/

/-- The path begins with a slash. -/
def Absolute (path : String) : Prop := path.startsWith "/"

/-- The path has one of the marks of a file that is not below the root. -/
def OrphanStyle (path : String) : Prop :=
  path.startsWith "ORPHAN/" ∨ path.startsWith "Orphan" ∨ path.startsWith "NoFNRecord"

theorem startsWith_self (mark : String) : mark.startsWith mark :=
  String.startsWith_string_iff.mpr List.prefix_rfl

theorem startsWith_append {mark a : String} (h : a.startsWith mark) (b : String) :
    (a ++ b).startsWith mark := by
  rw [String.startsWith_string_iff] at h ⊢
  rw [String.toList_append]
  exact h.trans (List.prefix_append _ _)

theorem join_relative (parent : String) {filename : String} (h : ¬ Absolute filename) :
    ∃ rest, join parent filename = parent ++ rest := by
  unfold join
  rw [if_neg (show ¬ filename.startsWith "/" from h)]
  split
  · exact ⟨filename, rfl⟩
  · exact ⟨"/" ++ filename, String.append_assoc ..⟩

theorem join_absolute {parent filename : String} (h : Absolute parent ∨ Absolute filename) :
    Absolute (join parent filename) := by
  by_cases hfile : Absolute filename
  · unfold join
    rw [if_pos (show filename.startsWith "/" from hfile)]
    exact hfile
  · obtain ⟨rest, hrest⟩ := join_relative parent hfile
    rw [hrest]
    exact startsWith_append (h.resolve_right hfile) rest

theorem OrphanStyle.append {a : String} (h : OrphanStyle a) (b : String) :
    OrphanStyle (a ++ b) := by
  rcases h with h | h | h
  · exact .inl (startsWith_append h b)
  · exact .inr (.inl (startsWith_append h b))
  · exact .inr (.inr (startsWith_append h b))

theorem OrphanStyle.not_absolute {path : String} (h : OrphanStyle path) : ¬ Absolute path := by
  intro habs
  unfold OrphanStyle Absolute at *
  simp only [String.startsWith_string_iff] at h habs
  obtain ⟨rest, hrest⟩ := habs
  rw [← hrest] at h
  rcases h with ⟨tail, h⟩ | ⟨tail, h⟩ | ⟨tail, h⟩ <;> simp at h

/-- A relative result has only relative names in it, and something relative above them. -/
theorem joinAll_relative {base : Option String} {path : String}
    (h : joinAll names (.ok base) = .ok (some path)) (hrel : ¬ Absolute path) :
    (∃ top, base = some top ∧ ¬ Absolute top) ∧ ∀ filename ∈ names, ¬ Absolute filename := by
  induction names generalizing path with
  | nil =>
    cases h
    exact ⟨⟨path, rfl, hrel⟩, by simp⟩
  | cons filename names ih =>
    unfold joinAll at h ih
    rw [List.foldr_cons] at h
    generalize List.foldr _ _ names = above at h ih
    cases above with
    | error e => cases h
    | ok parentpath =>
      cases parentpath with
      | none =>
        -- only an absolute name can be joined to `None`, and it is the result
        exfalso
        by_cases hfile : filename.startsWith "/"
        · have hpath : joinPath none filename = .ok filename := if_pos hfile
          cases h.symm.trans (congrArg (fun r => r >>= fun path => pure (some path)) hpath)
          exact hrel hfile
        · have hpath : joinPath none filename = .error .attributeError := if_neg hfile
          cases h.symm.trans (congrArg (fun r => r >>= fun path => pure (some path)) hpath)
      | some parent =>
        cases h
        have hparent : ¬ Absolute parent := fun habs => hrel (join_absolute (.inl habs))
        have hfile : ¬ Absolute filename := fun habs => hrel (join_absolute (.inr habs))
        obtain ⟨htop, hnames⟩ := ih rfl hparent
        refine ⟨htop, fun name hname => ?_⟩
        rcases List.mem_cons.mp hname with rfl | hname
        · exact hfile
        · exact hnames name hname

theorem joinAll_some (names : List String) (top : String) :
    ∃ path, joinAll names (.ok (some top)) = .ok (some path) ∧
      (OrphanStyle top → (∀ filename ∈ names, ¬ Absolute filename) → OrphanStyle path) := by
  induction names with
  | nil => exact ⟨top, rfl, fun htop _ => htop⟩
  | cons filename names ih =>
    obtain ⟨parent, hparent, horphan⟩ := ih
    refine ⟨join parent filename, ?_, fun htop hnames => ?_⟩
    · exact congrArg (fun r => joinAll [filename] r) hparent
    · obtain ⟨rest, hrest⟩ := join_relative parent (hnames filename (by simp))
      rw [hrest]
      exact (horphan htop fun name hname => hnames name (by simp [hname])).append rest

/-! ## Totality -/

/-- A call for a record returns, with a string if the record is complete, and with the path of an
orphan if the parents are in a cycle or one of them is not complete. -/
structure Total (up : Nat → Option Nat) (complete : Nat → Prop) (inode : Nat)
    (result : Except PathError (Option String)) : Prop where
  returns : ∃ path, result = .ok path
  string : complete inode → ∃ path, result = .ok (some path)
  orphan : Cyclic up inode ∨ Meets up (fun n => ¬ complete n) inode →
    ∃ path, result = .ok (some path) ∧ OrphanStyle path

/-- The parents come to an end within the limit. If they are in a cycle, or one of them is not
complete, that is at a record without a name or one that is its own parent, and no name below it
begins with a slash. -/
def Resolvable (place : Nat → Place) (complete : Nat → Prop) (limit inode : Nat) : Prop :=
  ∃ names z, Climbs place inode names z ∧ names.length < limit ∧ ¬ (place z).goesOn ∧
    (Cyclic (parentOf place) inode ∨ Meets (parentOf place) (fun n => ¬ complete n) inode →
      (place z = .noFnRecord ∨ ∃ filename, place z = .selfReferential filename) ∧
        ∀ filename ∈ names, ¬ Absolute filename)

theorem total_iff {complete : Nat → Prop} (hmissing : ∀ n, place n = .missing → ¬ complete n)
    (limit inode : Nat) :
    Total (parentOf place) complete inode (pathOf place limit inode) ↔
      Resolvable place complete limit inode := by
  constructor
  · rintro ⟨⟨path, hreturns⟩, -, horphan⟩
    obtain ⟨names, z, hclimbs, hlt, hend⟩ := climbs_of_returns hreturns
    refine ⟨names, z, hclimbs, hlt, hend, fun hlost => ?_⟩
    obtain ⟨path, hpath, hstyle⟩ := horphan hlost
    rw [hclimbs.pathOf_end hlt hend] at hpath
    obtain ⟨⟨top, htop, hrel⟩, hnames⟩ := joinAll_relative hpath hstyle.not_absolute
    refine ⟨?_, hnames⟩
    cases hplace : place z with
    | missing =>
      rw [hplace] at htop
      cases htop
    | noFnRecord => exact .inl rfl
    | inRoot filename =>
      rw [hplace] at htop
      cases htop
      exact absurd (join_absolute (.inl (startsWith_self "/"))) hrel
    | selfReferential filename => exact .inr ⟨filename, rfl⟩
    | below parRef filename => exact absurd ⟨parRef, filename, hplace⟩ hend
  · rintro ⟨names, z, hclimbs, hlt, hend, hlost⟩
    rw [hclimbs.pathOf_end hlt hend]
    by_cases hz : place z = .missing
    · -- only the record itself can be missing
      have hnames : names = [] := by
        by_contra hne
        have hplace := (hlost (.inr (hclimbs.meets hne (hmissing z hz)))).1
        simp [hz] at hplace
      subst hnames
      cases hclimbs
      refine ⟨⟨_, rfl⟩, fun hcomplete => absurd hcomplete (hmissing inode hz), fun h => ?_⟩
      have hplace := (hlost h).1
      simp [hz] at hplace
    · obtain ⟨top, htop⟩ : ∃ top, (place z).path = some top := by
        cases hplace : place z with
        | missing => exact absurd hplace hz
        | noFnRecord => exact ⟨_, rfl⟩
        | inRoot filename => exact ⟨_, rfl⟩
        | selfReferential filename => exact ⟨_, rfl⟩
        | below parRef filename => exact absurd ⟨parRef, filename, hplace⟩ hend
      obtain ⟨path, hpath, horphan⟩ := joinAll_some names top
      rw [htop, hpath]
      refine ⟨⟨_, rfl⟩, fun _ => ⟨path, rfl⟩, fun h => ⟨path, rfl, ?_⟩⟩
      obtain ⟨hplace, hnames⟩ := hlost h
      refine horphan ?_ hnames
      rcases hplace with hplace | ⟨filename, hplace⟩
      · rw [hplace] at htop
        cases htop
        exact .inr (.inr (startsWith_self _))
      · rw [hplace] at htop
        cases htop
        exact .inl (startsWith_append (startsWith_self _) filename)

end LoPhi.Ntfs.Paths
