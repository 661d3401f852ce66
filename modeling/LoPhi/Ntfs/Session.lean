import LoPhi.Lib.Dict
import LoPhi.Ntfs.Paths

/-! # Sessions over an `$MFT`

`MftSession` reads the records of an `$MFT` one after the other, and after each of them finds all
paths that are not known yet. A path that was found stays in its record, and so a call for the path
of a record never follows more than one reference: the record it comes to is not there yet, has its
path, or has no name. -/

namespace LoPhi.Ntfs.Session
open LoPhi.Lib LoPhi.Lib.Effect LoPhi.Lib.Chain LoPhi.Ntfs.Paths

/-- A record of `self.mft`. Those that were read for the attribute list of another have no
`par_ref` and no `name`. -/
structure SessionRecord where
  filename : String := ""
  fncnt : Nat
  parentAndName : Option (Nat × String)
  deriving DecidableEq, Repr

/-- `self.mft`. -/
abbrev Mft := Dict Nat SessionRecord

/-- The order in which a dictionary with given keys is iterated. -/
structure Iteration where
  order : List Nat → List Nat
  perm : ∀ keys, (order keys).Perm keys

/-- `self.mft[seqnum]['filename'] = path`, and its value is returned. -/
def setFilename (seqnum : Nat) (record : SessionRecord) (path : String) :
    Prog PathError Mft String := do
  modify (Dict.insert seqnum { record with filename := path })
  pure path

/-- `get_folder_path`, with at most `limit` nested calls. -/
def getFolderPath : Nat → Nat → Prog PathError Mft String
  | 0, _ => raise .runtimeError
  | limit + 1, seqnum => do
    let mft ← get
    match mft.get? seqnum with
    | none => pure "Orphan"
    | some record =>
      if record.filename ≠ "" then pure record.filename
      else
        match record.parentAndName with
        | none => setFilename seqnum record "NoFNRecord"
        | some (parRef, name) =>
          if parRef = 5 then setFilename seqnum record ("/" ++ name)
          else if parRef = seqnum then setFilename seqnum record ("ORPHAN/" ++ name)
          else do
            let parentpath ← getFolderPath limit parRef
            setFilename seqnum record (parentpath ++ "/" ++ name)

section Session
variable (iteration : Iteration) (limit : Nat)

/-- The loop body of `gen_filepaths`. The comparison in its `else` branch does nothing. -/
def genFilepath (i : Nat) : Prog PathError Mft Unit := do
  let mft ← get
  match mft.get? i with
  | none => pure ()
  | some record =>
    if record.filename = "" ∧ 0 < record.fncnt then do
      let _ ← getFolderPath limit i
      pure ()
    else pure ()

/-- `gen_filepaths`. -/
def genFilepaths : Prog PathError Mft Unit := do
  let mft ← get
  (iteration.order (mft.items.map Prod.fst)).forM (genFilepath limit)

variable (parseRecord : List UInt8 → MftRecord) (rawMft : List UInt8)

/-- The loop body of `_process_children`. -/
def processChild (recordNo other : Nat) : Prog PathError Mft Unit :=
  if other ≠ recordNo then
    modify (Dict.insert other
      { fncnt := (parseRecord (rawRecord rawMft other)).fns.length, parentAndName := none })
  else pure ()

/-- `update_record` from the raw `$MFT` of the session. -/
def updateRecord (recordNo : Nat) : Prog PathError Mft Unit := do
  let record := parseRecord (rawRecord rawMft recordNo)
  modify (Dict.insert recordNo
    { fncnt := record.fns.length, parentAndName := parentAndName record.fns })
  record.attributeList.forM (processChild parseRecord rawMft recordNo)
  genFilepaths iteration limit

/-- `process_mft_file`. -/
def processMftFile : Prog PathError Mft Unit := do
  (List.range (rawMft.length / 1024)).forM (updateRecord iteration limit parseRecord rawMft)
  genFilepaths iteration limit

end Session

/-! ## Known paths -/

variable {parseRecord : List UInt8 → MftRecord} {rawMft : List UInt8} {mft : Mft}
variable {limit i n : Nat} {record : SessionRecord} {path : String}

/-- The parent references of the raw `$MFT`. -/
def parentRef (parseRecord : List UInt8 → MftRecord) (rawMft : List UInt8) : Nat → Option Nat :=
  parentOf (sparsePlace parseRecord (some rawMft))

/-- The parents of the record are in a cycle, or one of them is not complete. -/
def Lost (parseRecord : List UInt8 → MftRecord) (rawMft : List UInt8) (n : Nat) : Prop :=
  Cyclic (parentRef parseRecord rawMft) n ∨
    Meets (parentRef parseRecord rawMft) (fun m => ¬ Complete rawMft m) n

/-- The path is that of an orphan if the record is lost. -/
def Styled (parseRecord : List UInt8 → MftRecord) (rawMft : List UInt8) (n : Nat)
    (path : String) : Prop :=
  OrphanStyle path ∨ (Complete rawMft n ∧ ¬ Lost parseRecord rawMft n)

/-- What a record of the session has agrees with the raw `$MFT`. -/
structure Fits (parseRecord : List UInt8 → MftRecord) (rawMft : List UInt8) (n : Nat)
    (record : SessionRecord) : Prop where
  styled : record.filename ≠ "" → Styled parseRecord rawMft n record.filename
  named : ∀ parent name, record.parentAndName = some (parent, name) → Complete rawMft n ∧
    parentAndName (parseRecord (rawRecord rawMft n)).fns = some (parent, name)
  counted : record.parentAndName ≠ none → 0 < record.fncnt

def Sound (parseRecord : List UInt8 → MftRecord) (rawMft : List UInt8) (mft : Mft) : Prop :=
  ∀ n record, mft.get? n = some record → Fits parseRecord rawMft n record

/-- The record has its path if it has a name. -/
def Settled (n : Nat) (mft : Mft) : Prop :=
  ∀ record, mft.get? n = some record → record.parentAndName ≠ none → record.filename ≠ ""

/-- What has its path keeps it. -/
def KeepsSettled (mft mft' : Mft) : Prop := ∀ n, Settled n mft → Settled n mft'

theorem composes_keepsSettled : Composes KeepsSettled :=
  ⟨fun _ _ h => h, fun h h' n hn => h' n (h n hn)⟩

theorem Sound.insert (h : Sound parseRecord rawMft mft) (n : Nat) (record : SessionRecord)
    (hfits : Fits parseRecord rawMft n record) :
    Sound parseRecord rawMft (mft.insert n record) := by
  intro m record' hget
  rw [Dict.get?_insert] at hget
  split at hget
  · rename_i hm
    cases hget
    rw [hm]
    exact hfits
  · exact h m record' hget

theorem keepsSettled_insert (h : record.parentAndName ≠ none → record.filename ≠ "") :
    KeepsSettled mft (mft.insert n record) ∧ Settled n (mft.insert n record) := by
  have hn : Settled n (mft.insert n record) := by
    intro record' hget
    rw [Dict.get?_insert, if_pos rfl] at hget
    cases hget
    exact h
  refine ⟨fun m hm => ?_, hn⟩
  by_cases heq : m = n
  · rw [heq]
    exact hn
  · intro record' hget
    rw [Dict.get?_insert, if_neg heq] at hget
    exact hm record' hget

/-- A call for a path returns, and what it leaves agrees with the raw `$MFT` again. -/
structure Finds (parseRecord : List UInt8 → MftRecord) (rawMft : List UInt8) (n : Nat) (mft : Mft)
    (path : String) (mft' : Mft) : Prop where
  sound : Sound parseRecord rawMft mft'
  keeps : KeepsSettled mft mft'
  settled : Settled n mft'
  styled : Styled parseRecord rawMft n path

theorem setFilename_finds (path : String) (h : Sound parseRecord rawMft mft)
    (hfits : Fits parseRecord rawMft n record) (hne : path ≠ "")
    (hstyled : Styled parseRecord rawMft n path) :
    ∃ mft', setFilename n record path mft = (.ok path, mft') ∧
      Finds parseRecord rawMft n mft path mft' := by
  refine ⟨_, rfl, h.insert n _ ⟨fun _ => hstyled, hfits.named, hfits.counted⟩, ?_, ?_, hstyled⟩
  · exact (keepsSettled_insert fun _ => hne).1
  · exact (keepsSettled_insert fun _ => hne).2

/-! ## References -/

section References
variable {parent : Nat} {name : String}

theorem place_of_named (hfits : Fits parseRecord rawMft n record)
    (hname : record.parentAndName = some (parent, name)) :
    sparsePlace parseRecord (some rawMft) n =
      if parent = 5 then .inRoot name
      else if parent = n then .selfReferential name
      else .below parent name := by
  obtain ⟨hcomplete, hparsed⟩ := hfits.named parent name hname
  unfold Complete at hcomplete
  simp only [sparsePlace, hcomplete, placeOf, hparsed]
  rfl

theorem styled_inRoot (hfits : Fits parseRecord rawMft n record)
    (hname : record.parentAndName = some (5, name)) (path : String) :
    Styled parseRecord rawMft n path := by
  have hparent : parentRef parseRecord rawMft n = none := by
    unfold parentRef parentOf
    rw [place_of_named hfits hname]
    rfl
  refine .inr ⟨(hfits.named 5 name hname).1, ?_⟩
  rintro (hcyclic | hmeets)
  · exact not_cyclic hparent hcyclic
  · exact not_meets hparent hmeets

theorem styled_below (hfits : Fits parseRecord rawMft n record)
    (hname : record.parentAndName = some (parent, name)) (hroot : parent ≠ 5) (hself : parent ≠ n)
    (hparent : Styled parseRecord rawMft parent path) (rest : String) :
    Styled parseRecord rawMft n (path ++ rest) := by
  rcases hparent with horphan | ⟨hcomplete, hlost⟩
  · exact .inl (horphan.append rest)
  · have href : parentRef parseRecord rawMft n = some parent := by
      unfold parentRef parentOf
      rw [place_of_named hfits hname, if_neg hroot, if_neg hself]
    refine .inr ⟨(hfits.named parent name hname).1, ?_⟩
    rintro (hcyclic | hmeets)
    · exact hlost (.inl ((cyclic_iff href).mp hcyclic))
    · rcases (meets_iff href).mp hmeets with hout | hmeets
      · exact hout hcomplete
      · exact hlost (.inr hmeets)

end References

/-! ## Calls -/

/-- A record that is not there, has its path or has no name needs no other. -/
theorem getFolderPath_settled (h : Sound parseRecord rawMft mft) (hn : Settled n mft)
    (limit : Nat) :
    ∃ path mft', getFolderPath (limit + 1) n mft = (.ok path, mft') ∧
      Finds parseRecord rawMft n mft path mft' := by
  show ∃ path mft', (match mft.get? n with | none => _ | some record => _ :
    Prog PathError Mft String) mft = _ ∧ _
  cases hget : mft.get? n with
  | none => exact ⟨_, mft, rfl, h, composes_keepsSettled.refl mft, hn, .inl (.inr (.inl
      (startsWith_self _)))⟩
  | some record =>
    dsimp only
    have hfits := h n record hget
    by_cases hpath : record.filename = ""
    · rw [if_neg (not_not_intro hpath)]
      cases hname : record.parentAndName with
      | none =>
        obtain ⟨mft', hset⟩ := setFilename_finds "NoFNRecord" h hfits (by decide)
          (.inl (.inr (.inr (startsWith_self _))))
        exact ⟨_, mft', hset⟩
      | some parentName =>
        exact absurd hpath (hn record hget (by rw [hname]; exact Option.some_ne_none _))
    · rw [if_pos hpath]
      exact ⟨_, mft, rfl, h, composes_keepsSettled.refl mft, hn, hfits.styled hpath⟩

/-- With one record whose path is not known, two calls are enough. -/
theorem getFolderPath_finds (h : Sound parseRecord rawMft mft)
    (hothers : ∀ m, m ≠ i → Settled m mft) (limit n : Nat) :
    ∃ path mft', getFolderPath (limit + 2) n mft = (.ok path, mft') ∧
      Finds parseRecord rawMft n mft path mft' := by
  by_cases hn : Settled n mft
  · exact getFolderPath_settled h hn (limit + 1)
  · unfold Settled at hn
    push Not at hn
    obtain ⟨record, hget, hname, hpath⟩ := hn
    obtain ⟨⟨parent, name⟩, hname⟩ := Option.ne_none_iff_exists'.mp hname
    have hfits := h n record hget
    have hunknown : n = i := by
      by_contra hne
      exact hothers n hne record hget (by rw [hname]; exact Option.some_ne_none _) hpath
    show ∃ path mft', (match mft.get? n with | none => _ | some record => _ :
      Prog PathError Mft String) mft = _ ∧ _
    rw [hget]
    dsimp only
    rw [if_neg (not_not_intro hpath), hname]
    dsimp only
    split
    · rename_i hroot
      subst hroot
      obtain ⟨mft', hset⟩ := setFilename_finds ("/" ++ name) h hfits (by simp)
        (styled_inRoot hfits hname _)
      exact ⟨_, mft', hset⟩
    · rename_i hroot
      split
      · obtain ⟨mft', hset⟩ := setFilename_finds ("ORPHAN/" ++ name) h hfits (by simp)
          (.inl (.inl (startsWith_append (startsWith_self _) name)))
        exact ⟨_, mft', hset⟩
      · rename_i hself
        obtain ⟨parentpath, mft₁, hparent, hfound⟩ := getFolderPath_settled h
          (hothers parent (by rw [← hunknown]; exact hself)) limit
        obtain ⟨mft', hset, hdone⟩ := setFilename_finds (parentpath ++ "/" ++ name) hfound.sound
          hfits (by simp)
          (by
            rw [String.append_assoc]
            exact styled_below hfits hname hroot hself hfound.styled _)
        refine ⟨_, mft', (bind_ok hparent).trans hset, hdone.sound, ?_, hdone.settled,
          hdone.styled⟩
        exact composes_keepsSettled.trans hfound.keeps hdone.keeps

/-! ## Reading the records -/

/-- The loop body of `gen_filepaths` leaves its record with a path. -/
theorem genFilepath_settles (h : Sound parseRecord rawMft mft)
    (hothers : ∀ m, m ≠ i → Settled m mft) (limit n : Nat) :
    ∃ mft', genFilepath (limit + 2) n mft = (.ok (), mft') ∧
      (Sound parseRecord rawMft mft' ∧ ∀ m, m ≠ i → Settled m mft') ∧
      KeepsSettled mft mft' ∧ Settled n mft' := by
  have hrefl := composes_keepsSettled.refl mft
  show ∃ mft', (match mft.get? n with | none => _ | some record => _ :
    Prog PathError Mft Unit) mft = _ ∧ _
  cases hget : mft.get? n with
  | none =>
    exact ⟨mft, rfl, ⟨h, hothers⟩, hrefl, fun record hrecord => nomatch hget.symm.trans hrecord⟩
  | some record =>
    dsimp only
    split
    · obtain ⟨path, mft', hpath, hfound⟩ := getFolderPath_finds h hothers limit n
      exact ⟨mft', bind_ok hpath, ⟨hfound.sound, fun m hm => hfound.keeps m (hothers m hm)⟩,
        hfound.keeps, hfound.settled⟩
    · rename_i hknown
      refine ⟨mft, rfl, ⟨h, hothers⟩, hrefl, fun record' hrecord hname hempty => ?_⟩
      cases hget.symm.trans hrecord
      exact hknown ⟨hempty, (h n record hget).counted hname⟩

/-- Everything is known, and agrees with the raw `$MFT`. -/
def Known (parseRecord : List UInt8 → MftRecord) (rawMft : List UInt8) (mft : Mft) : Prop :=
  Sound parseRecord rawMft mft ∧ ∀ n, Settled n mft

theorem genFilepaths_known (iteration : Iteration) (limit : Nat)
    (h : Sound parseRecord rawMft mft) (hothers : ∀ m, m ≠ i → Settled m mft) :
    ∃ mft', genFilepaths iteration (limit + 2) mft = (.ok (), mft') ∧
      Known parseRecord rawMft mft' := by
  obtain ⟨mft', hloop, ⟨hsound, -⟩, hkeeps, hall⟩ : ∃ mft',
      (iteration.order (mft.items.map Prod.fst)).forM (genFilepath (limit + 2)) mft =
        (.ok (), mft') ∧
      (Sound parseRecord rawMft mft' ∧ ∀ m, m ≠ i → Settled m mft') ∧ KeepsSettled mft mft' ∧
      ∀ n ∈ iteration.order (mft.items.map Prod.fst), Settled n mft' :=
    forM_establishes composes_keepsSettled (P := Settled) (fun n _ _ hkeeps hn => hkeeps n hn)
      (fun n _ mft hmft => genFilepath_settles hmft.1 hmft.2 limit n) ⟨h, hothers⟩
  refine ⟨mft', hloop, hsound, fun n => ?_⟩
  by_cases hin : n ∈ mft.items.map Prod.fst
  · exact hall n ((iteration.perm _).mem_iff.mpr hin)
  · refine hkeeps n fun record hget => ?_
    have hmem := List.mem_map_of_mem (f := Prod.fst) (Dict.get?_eq_some_iff.mp hget)
    exact absurd hmem hin

theorem processChildren_sound (h : Sound parseRecord rawMft mft)
    (hothers : ∀ m, m ≠ i → Settled m mft) (children : List Nat) :
    ∃ mft', children.forM (processChild parseRecord rawMft i) mft = (.ok (), mft') ∧
      Sound parseRecord rawMft mft' ∧ ∀ m, m ≠ i → Settled m mft' := by
  induction children generalizing mft with
  | nil => exact ⟨mft, rfl, h, hothers⟩
  | cons other children ih =>
    obtain ⟨mft₁, hchild, hsound, hsettled⟩ : ∃ mft₁,
        processChild parseRecord rawMft i other mft = (.ok (), mft₁) ∧
        Sound parseRecord rawMft mft₁ ∧ ∀ m, m ≠ i → Settled m mft₁ := by
      unfold processChild
      split
      · refine ⟨_, rfl,
          h.insert other _ ⟨fun hne => absurd rfl hne, ?_, fun hne => absurd rfl hne⟩, ?_⟩
        · intro parent name hname
          cases hname
        · exact fun m hm => (keepsSettled_insert fun hne => absurd rfl hne).1 m (hothers m hm)
      · exact ⟨mft, rfl, h, hothers⟩
    obtain ⟨mft', hrest, hdone⟩ := ih hsound hsettled
    exact ⟨mft', (bind_ok hchild).trans hrest, hdone⟩

theorem updateRecord_known (iteration : Iteration) (limit : Nat)
    (h : Known parseRecord rawMft mft) (hcomplete : Complete rawMft n) :
    ∃ mft', updateRecord iteration (limit + 2) parseRecord rawMft n mft = (.ok (), mft') ∧
      Known parseRecord rawMft mft' := by
  have hsound := h.1.insert n
    { fncnt := (parseRecord (rawRecord rawMft n)).fns.length
      parentAndName := parentAndName (parseRecord (rawRecord rawMft n)).fns }
    ⟨fun hne => absurd rfl hne, fun parent name hname => ⟨hcomplete, hname⟩, fun hne => by
      refine List.length_pos_iff.mpr fun hnil => hne ?_
      rw [hnil]
      rfl⟩
  obtain ⟨mft₁, hchildren, hsound₁, hothers⟩ := processChildren_sound (i := n) hsound
    (fun m hm record hget => by
      rw [Dict.get?_insert, if_neg hm] at hget
      exact h.2 m record hget)
    (parseRecord (rawRecord rawMft n)).attributeList
  obtain ⟨mft', hgen, hknown⟩ := genFilepaths_known iteration limit hsound₁ hothers
  exact ⟨mft', (bind_ok rfl).trans ((bind_ok hchildren).trans hgen), hknown⟩

theorem complete_of_lt (h : n < rawMft.length / 1024) : Complete rawMft n := by
  unfold Complete rawRecord
  rw [List.length_take, List.length_drop]
  omega

theorem processMftFile_known (iteration : Iteration) (limit : Nat)
    (parseRecord : List UInt8 → MftRecord) (rawMft : List UInt8) :
    ∃ mft, processMftFile iteration (limit + 2) parseRecord rawMft Dict.empty = (.ok (), mft) ∧
      Known parseRecord rawMft mft := by
  have hempty : Known parseRecord rawMft Dict.empty :=
    ⟨fun n record hget => (nomatch hget), fun n record hget => (nomatch hget)⟩
  have hbody : ∀ n ∈ List.range (rawMft.length / 1024), ∀ mft, Known parseRecord rawMft mft →
      ∃ mft', updateRecord iteration (limit + 2) parseRecord rawMft n mft = (.ok (), mft') ∧
        Known parseRecord rawMft mft' ∧ True ∧ True := by
    intro n hn mft hmft
    obtain ⟨mft', hupdate, hknown⟩ := updateRecord_known iteration limit hmft
      (complete_of_lt (List.mem_range.mp hn))
    exact ⟨mft', hupdate, hknown, trivial, trivial⟩
  obtain ⟨mft₁, hloop, hknown, -⟩ := forM_establishes (R := fun _ _ => True)
    (P := fun _ _ => True) ⟨fun _ => trivial, fun _ _ => trivial⟩ (fun _ _ _ _ _ => trivial) hbody
    hempty
  obtain ⟨mft, hgen, hdone⟩ := genFilepaths_known (i := 0) iteration limit hknown.1
    fun m _ => hknown.2 m
  exact ⟨mft, (bind_ok hloop).trans hgen, hdone⟩

/-! ## Totality -/

/-- The `$MFT` is read, and then the call for the record is total. -/
def SessionTotal (iteration : Iteration) (limit : Nat) (parseRecord : List UInt8 → MftRecord)
    (rawMft : List UInt8) (n : Nat) : Prop :=
  ∃ mft, processMftFile iteration limit parseRecord rawMft Dict.empty = (.ok (), mft) ∧
    Total (parentRef parseRecord rawMft) (Complete rawMft) n
      ((getFolderPath limit n mft).1.map some)

theorem sessionTotal (iteration : Iteration) (limit : Nat) (parseRecord : List UInt8 → MftRecord)
    (rawMft : List UInt8) (n : Nat) : SessionTotal iteration (limit + 2) parseRecord rawMft n := by
  obtain ⟨mft, hprocess, hsound, hsettled⟩ :=
    processMftFile_known iteration limit parseRecord rawMft
  obtain ⟨path, mft', hpath, hfound⟩ := getFolderPath_finds (i := 0) hsound
    (fun m _ => hsettled m) limit n
  refine ⟨mft, hprocess, ?_⟩
  rw [hpath]
  refine ⟨⟨_, rfl⟩, fun _ => ⟨_, rfl⟩, fun hlost => ⟨_, rfl, ?_⟩⟩
  rcases hfound.styled with horphan | ⟨-, hfound⟩
  · exact horphan
  · exact absurd hlost hfound

/-- **Path resolution is total if and only if** the chain of parents comes to an end: for the two
engines that is a condition on the `$MFT`, and a session is always total. -/
theorem resolution_total_iff (parseRecord : List UInt8 → MftRecord) (rawMft : List UInt8)
    (inode limit : Nat) (paths : PathMap) (iteration : Iteration) :
    (Total (parentOf (sparsePlace parseRecord (some rawMft))) (Complete rawMft) inode
        (getPath (sparsePlace parseRecord (some rawMft)) limit inode paths).1 ↔
      Resolvable (sparsePlace parseRecord (some rawMft)) (Complete rawMft) limit inode) ∧
    (Total (parentOf (pytskPlace parseRecord rawMft)) (Complete rawMft) inode
        (getPath (pytskPlace parseRecord rawMft) limit inode paths).1 ↔
      Resolvable (pytskPlace parseRecord rawMft) (Complete rawMft) limit inode) ∧
    SessionTotal iteration (limit + 2) parseRecord rawMft inode := by
  refine ⟨?_, ?_, sessionTotal iteration limit parseRecord rawMft inode⟩
  · rw [getPath_value]
    exact total_iff (sparsePlace_missing parseRecord rawMft) limit inode
  · rw [getPath_value]
    exact total_iff (fun n hn => absurd hn (pytskPlace_ne_missing parseRecord rawMft n)) limit inode

/-! ## Two directories, each in the other -/

/-- A record whose first byte is not zero has the name `dir`, and the byte is one more than the
number of its parent. -/
def parseFirstByte (raw : List UInt8) : MftRecord where
  fns :=
    match raw with
    | [] => []
    | b :: _ => if b = 0 then [] else [⟨b.toNat - 1, "dir", 1⟩]

def crossedMft : List UInt8 :=
  (2 :: List.replicate 1023 0) ++ (1 :: List.replicate 1023 0)

theorem crossed_raises {place : Nat → Place} (h₀ : place 0 = .below 1 "dir")
    (h₁ : place 1 = .below 0 "dir") (limit : Nat) :
    pathOf place limit 0 = .error .runtimeError ∧ pathOf place limit 1 = .error .runtimeError := by
  induction limit with
  | zero => exact ⟨rfl, rfl⟩
  | succ limit ih =>
    rw [pathOf_below h₀, pathOf_below h₁, ih.1, ih.2]
    exact ⟨rfl, rfl⟩

/-- Both engines call themselves until the limit is reached. -/
theorem crossed_not_total :
    ¬ Total (parentOf (sparsePlace parseFirstByte (some crossedMft))) (Complete crossedMft) 0
        (getPath (sparsePlace parseFirstByte (some crossedMft)) 1000 0 fun _ => none).1 ∧
      ¬ Total (parentOf (pytskPlace parseFirstByte crossedMft)) (Complete crossedMft) 0
        (getPath (pytskPlace parseFirstByte crossedMft) 1000 0 fun _ => none).1 := by
  constructor
  · rintro ⟨⟨path, hreturns⟩, -, -⟩
    rw [getPath_value, (crossed_raises (by decide +kernel) (by decide +kernel) 1000).1] at hreturns
    cases hreturns
  · rintro ⟨⟨path, hreturns⟩, -, -⟩
    rw [getPath_value, (crossed_raises (by decide +kernel) (by decide +kernel) 1000).1] at hreturns
    cases hreturns

end LoPhi.Ntfs.Session
