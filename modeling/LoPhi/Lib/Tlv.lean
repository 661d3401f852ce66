import Mathlib.Data.List.Basic

/-! # Tagged records

A byte sequence of records, each a tag, a length and a value of that length. A pad tag stands for
itself, and a stop tag ends the sequence. The reader takes what is there: a value that is cut off
is a shorter value, and a sequence may end without a stop. Only a tag without a length is no
record. -/

namespace LoPhi.Lib.Tlv

/-- A tag and its value. -/
abbrev Record := Nat × List Nat

/-- How a sequence ends: at a stop, where there is nothing more, or at a tag without a length. -/
inductive End where
  | stopped
  | exhausted
  | cut
  deriving DecidableEq, Repr

/-- The bytes of records. -/
def write (rs : List Record) : List Nat := rs.flatMap fun r => r.1 :: r.2.length :: r.2

/-- The records in a sequence. Every turn takes at least one byte. -/
def readAux (pad stop : Nat) : Nat → List Nat → List Record × End
  | 0, _ => ([], .exhausted)
  | _ + 1, [] => ([], .exhausted)
  | fuel + 1, tag :: rest =>
    if tag = pad then readAux pad stop fuel rest
    else if tag = stop then ([], .stopped)
    else
      match rest with
      | [] => ([], .cut)
      | size :: rest =>
        ((tag, rest.take size) :: (readAux pad stop fuel (rest.drop size)).1,
          (readAux pad stop fuel (rest.drop size)).2)

def read (pad stop : Nat) (data : List Nat) : List Record × End :=
  readAux pad stop data.length data

variable {pad stop tag size fuel fuel' : Nat} {data rest : List Nat} {rs : List Record}

/-- As much fuel as bytes is enough. -/
theorem readAux_congr (h : data.length ≤ fuel) (h' : data.length ≤ fuel') :
    readAux pad stop fuel data = readAux pad stop fuel' data := by
  induction fuel generalizing fuel' data with
  | zero =>
    rw [List.eq_nil_of_length_eq_zero (Nat.le_zero.mp h)]
    cases fuel' <;> rfl
  | succ fuel ih =>
    cases data with
    | nil => cases fuel' <;> rfl
    | cons tag rest =>
      cases fuel' with
      | zero => cases h'
      | succ fuel' =>
        rw [List.length_cons] at h h'
        have hrest := Nat.le_of_succ_le_succ h
        have hrest' := Nat.le_of_succ_le_succ h'
        unfold readAux
        split
        · exact ih hrest hrest'
        · split
          · rfl
          · cases rest with
            | nil => rfl
            | cons size rest =>
              have hdrop : (rest.drop size).length ≤ rest.length := by simp
              rw [List.length_cons] at hrest hrest'
              have heq : readAux pad stop fuel (rest.drop size) =
                  readAux pad stop fuel' (rest.drop size) := ih (by omega) (by omega)
              dsimp only
              rw [heq]

theorem readAux_eq (h : data.length ≤ fuel) : readAux pad stop fuel data = read pad stop data :=
  readAux_congr h (Nat.le_refl _)

/-! ## What is read -/

theorem read_stop (h : stop ≠ pad) : read pad stop (stop :: rest) = ([], .stopped) := by
  unfold read
  rw [List.length_cons, readAux.eq_def]
  dsimp only
  rw [if_neg h, if_pos rfl]

theorem read_record (hpad : tag ≠ pad) (hstop : tag ≠ stop) :
    read pad stop (tag :: size :: rest) =
      ((tag, rest.take size) :: (read pad stop (rest.drop size)).1,
        (read pad stop (rest.drop size)).2) := by
  have hfuel : (rest.drop size).length ≤ (size :: rest).length := by
    rw [List.length_drop, List.length_cons]
    omega
  rw [read, List.length_cons, readAux.eq_def]
  dsimp only
  rw [if_neg hpad, if_neg hstop, readAux_eq hfuel]

/-- Records that are written and stopped are read back, whatever follows. -/
theorem read_write (hstop : stop ≠ pad) (h : ∀ r ∈ rs, r.1 ≠ pad ∧ r.1 ≠ stop) :
    read pad stop (write rs ++ stop :: rest) = (rs, .stopped) := by
  induction rs with
  | nil => exact read_stop hstop
  | cons r rs ih =>
    obtain ⟨tag, value⟩ := r
    have htag := h (tag, value) List.mem_cons_self
    have hrest := ih fun r hr => h r (List.mem_cons_of_mem _ hr)
    have hbytes : write ((tag, value) :: rs) ++ stop :: rest =
        tag :: value.length :: (value ++ (write rs ++ stop :: rest)) := by
      simp [write]
    rw [hbytes, read_record htag.1 htag.2, List.take_left, List.drop_left, hrest]

/-- No record has the tag of a pad or of the stop. -/
theorem tag_of_mem_readAux {r : Record} (h : r ∈ (readAux pad stop fuel data).1) :
    r.1 ≠ pad ∧ r.1 ≠ stop := by
  induction fuel generalizing data with
  | zero => cases h
  | succ fuel ih =>
    cases data with
    | nil => cases h
    | cons tag rest =>
      unfold readAux at h
      split at h
      · exact ih h
      · rename_i hpad
        split at h
        · cases h
        · rename_i hstop
          cases rest with
          | nil => cases h
          | cons size rest =>
            rcases List.mem_cons.mp h with rfl | hmem
            · exact ⟨hpad, hstop⟩
            · exact ih hmem

end LoPhi.Lib.Tlv
