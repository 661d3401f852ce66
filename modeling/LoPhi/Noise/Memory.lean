import LoPhi.Lib.Dict

/-! # The memory noise filter

`MemoryFilter` of `analysis_filter.py` counts what a number of analyses of the same system have
in common, in order to take it out of another one. Most plugins are counted by their entries;
those of a few plugins hold addresses and the like, so that what is counted there is how many
entries there are with the same key. A function that raises an exception returns nothing. -/

namespace LoPhi.Noise.Memory
open LoPhi.Lib

abbrev Str := List Char

/-- An entry of an analysis. -/
inductive Entry where
  | text (s : Str)
  | list (parts : List Str)
  deriving DecidableEq

/-- What a plugin returned: its entries in categories, or an error value, which is a string or
`None`. -/
inductive Result where
  | categories (d : Dict Str (List Entry))
  | error (value : Option Str)

/-- `results_dict`. -/
abbrev Analysis := Dict Str Result

/-- What a key function returns. -/
inductive Key where
  | text (s : Str)
  | tuple (parts : List Str)
  | none
  deriving DecidableEq

/-! ## Strings -/

/-- What `strip` and `split` take for whitespace. -/
def isSpace (c : Char) : Bool := [' ', '\t', '\n', '\r', '\x0b', '\x0c'].contains c

def strip (s : Str) : Str := ((s.dropWhile isSpace).reverse.dropWhile isSpace).reverse

/-- The words of a string, with the letters of the one before it. -/
def splitLoop : Str → Str → List Str
  | word, [] => if word.isEmpty then [] else [word]
  | word, c :: s =>
    if isSpace c then
      if word.isEmpty then splitLoop [] s else word :: splitLoop [] s
    else splitLoop (word ++ [c]) s

def split (s : Str) : List Str := splitLoop [] s

/-- `s.split(":")[0]`. -/
def beforeColon (s : Str) : Str := s.takeWhile fun c => c ≠ ':'

/-- `s[start:stop]`. -/
def slice (start stop : Nat) (s : Str) : Str := (s.take stop).drop start

/-! ## Keys -/

/-- A list has none of the methods that a key function calls. -/
def onText (f : Str → Option Key) : Entry → Option Key
  | .text s => f s
  | .list _ => none

def getFilescanKey : Entry → Option Key :=
  onText fun entry => some (.text (strip (entry.drop 40)))

def getLdrmodulesKey : Entry → Option Key :=
  onText fun entry =>
    match split (entry.take 69) with
    | [_, _, _, _, _, _] => some (.text (strip (entry.drop 69)))
    | _ => none

def getPsscanKey : Entry → Option Key :=
  onText fun entry => some (.text (strip (slice 19 33 entry)))

def getTimersKey : Entry → Option Key :=
  onText fun entry =>
    match split entry with
    | [_, _, _, _, _, modul] => some (.text modul)
    | _ => none

def getEnvarsKey : Entry → Option Key :=
  onText fun entry =>
    match split entry with
    | _ :: _ :: _ :: name :: value => some (.tuple [name, value.flatten])
    | _ => none

/-- The states are `TCP_STATE_ENUM.values()` of volatility. -/
def getNetscanKey (tcpStates : List Str) : Entry → Option Key :=
  onText fun entry =>
    match split entry with
    | _ :: proto :: near :: far :: state :: _ =>
      some (.tuple [proto, beforeColon near, beforeColon far,
        if tcpStates.contains state then state else "N/A".toList])
    | _ => none

def getPsxviewKey : Entry → Option Key :=
  onText fun entry =>
    let str1 := strip (slice 19 42 entry)
    let splitVar2 := split (entry.drop 42)
    if (split str1).isEmpty || splitVar2.isEmpty then some .none
    else if splitVar2.length < 7 then some (.tuple [str1, "ERROR".toList])
    else
      match splitVar2 with
      | _ :: a :: b :: c :: d :: e :: f :: g :: _ => some (.tuple [str1, a, b, c, d, e, f, g])
      | _ => none

/-- `SPECIAL_PLUGINS_KEY`. -/
def specialPluginsKey (tcpStates : List Str) : List (Str × (Entry → Option Key)) :=
  [("filescan".toList, getFilescanKey), ("ldrmodules".toList, getLdrmodulesKey),
    ("psscan".toList, getPsscanKey), ("timers".toList, getTimersKey),
    ("envars".toList, getEnvarsKey), ("netscan".toList, getNetscanKey tcpStates),
    ("psxview".toList, getPsxviewKey)]

/-- The key function of a special plugin. -/
def keyOf (tcpStates : List Str) (plugin : Str) : Option (Entry → Option Key) :=
  Dict.lookup (specialPluginsKey tcpStates) plugin

/-! ## Filters -/

/-- What is counted: an entry, or a key and how many entries have it. -/
inductive FilterEntry where
  | plain (s : Str)
  | counted (k : Key) (count : Nat)
  deriving DecidableEq

structure MemoryFilter where
  occurrencesDict : Dict Str (Dict Str (Dict FilterEntry Nat))
  numAnalyses : Nat

def MemoryFilter.initial : MemoryFilter := ⟨.empty, 0⟩

/-- The order in which Python goes through dictionaries. -/
structure Order where
  iter : {α : Type} → List α → List α
  perm : ∀ {α : Type} (l : List α), (iter l).Perm l

/-- What is not in the source: the states, and the order. -/
structure Setting where
  tcpStates : List Str
  order : Order

/-- Dictionaries that give their items in the order in which they were added. -/
def addedOrder : Setting := ⟨[], ⟨fun l => l, fun l => .refl l⟩⟩

/-! ## `add_analysis` -/

/-- The keys of all entries. -/
def keys (key : Entry → Option Key) : List Entry → Option (List Key)
  | [] => some []
  | entry :: entries =>
    match key entry, keys key entries with
    | some k, some ks => some (k :: ks)
    | _, _ => none

/-- A category in `add_special_plugin`. -/
def specialEntries (order : Order) (key : Entry → Option Key) (entries : List Entry) :
    Option (List FilterEntry) :=
  match keys key entries with
  | none => none
  | some ks => some ((order.iter (Dict.tally ks).items).map fun p => .counted p.1 p.2)

/-- A list is joined. -/
def plainEntry : Entry → FilterEntry
  | .text s => .plain s
  | .list parts => .plain ([' '].intercalate parts)

/-- What is counted in a category. -/
def counted (setting : Setting) (plugin : Str) (entries : List Entry) :
    Option (List FilterEntry) :=
  match keyOf setting.tcpStates plugin with
  | some key => specialEntries setting.order key entries
  | none => some (entries.map plainEntry)

/-- The categories of a plugin, one after the other. -/
def addCategories (occurrences : Dict Str (Dict FilterEntry Nat))
    (retDict : List (Str × List FilterEntry)) : Dict Str (Dict FilterEntry Nat) :=
  retDict.foldl
    (fun occurrences p => occurrences.alter p.1 fun d => p.2.foldl Dict.bump (d.getD .empty))
    occurrences

def addPlugin (setting : Setting) (occurrences : Dict Str (Dict Str (Dict FilterEntry Nat)))
    (plugin : Str) : Result → Option (Dict Str (Dict Str (Dict FilterEntry Nat)))
  | .error _ => some (occurrences.alter plugin fun d => d.getD .empty)
  | .categories categories =>
    match categories.traverse fun _ entries => counted setting plugin entries with
    | none => none
    | some retDict =>
      some (occurrences.alter plugin fun d => addCategories (d.getD .empty) retDict.items)

def addPlugins (setting : Setting) :
    List (Str × Result) → Dict Str (Dict Str (Dict FilterEntry Nat)) →
      Option (Dict Str (Dict Str (Dict FilterEntry Nat)))
  | [], occurrences => some occurrences
  | (plugin, result) :: results, occurrences =>
    match addPlugin setting occurrences plugin result with
    | none => none
    | some occurrences => addPlugins setting results occurrences

def addAnalysis (setting : Setting) (f : MemoryFilter) (analysis : Analysis) :
    Option MemoryFilter :=
  match addPlugins setting analysis.items f.occurrencesDict with
  | none => none
  | some occurrences => some ⟨occurrences, f.numAnalyses + 1⟩

/-- One analysis after the other. -/
def addAll (setting : Setting) : List Analysis → MemoryFilter → Option MemoryFilter
  | [], f => some f
  | analysis :: analyses, f =>
    match addAnalysis setting f analysis with
    | none => none
    | some f => addAll setting analyses f

/-- `occurrences_dict[plugin][category]`. -/
def MemoryFilter.category (f : MemoryFilter) (plugin category : Str) :
    Option (Dict FilterEntry Nat) :=
  (f.occurrencesDict.get? plugin).bind fun d => d.get? category

/-! ## `adjust_filter` -/

/-- A count that was seen in `analyses` runs: it goes to the lower ones that are there. -/
def addCount (counts : Dict Nat Nat) (count analyses : Nat) : Dict Nat Nat :=
  (counts.map fun c n => if c < count then n + analyses else n).alter count fun _ => analyses

/-- `entry_dict`, from the items of a category. -/
def entryDict : List (FilterEntry × Nat) → Dict Key (Dict Nat Nat) →
    Option (Dict Key (Dict Nat Nat))
  | [], d => some d
  | (.plain _, _) :: _, _ => none
  | (.counted k count, analyses) :: items, d =>
    entryDict items (d.alter k fun counts => addCount (counts.getD .empty) count analyses)

/-- The loop for `highest_count`, which starts at -1, and its number of analyses. -/
def highest (threshold : Int) : List (Nat × Nat) → Int × Int → Int × Int
  | [], best => best
  | (count, analyses) :: counts, best =>
    highest threshold counts
      (if threshold ≤ analyses ∧ best.1 < count then (count, analyses) else best)

/-- `adjusted_dict`, from the items of `entry_dict`. -/
def adjustedDict (order : Order) (threshold : Int) :
    List (Key × Dict Nat Nat) → Dict FilterEntry Nat → Dict FilterEntry Nat
  | [], d => d
  | (k, counts) :: items, d =>
    let best := highest threshold (order.iter counts.items) (-1, -1)
    adjustedDict order threshold items
      (if 0 < best.1 then d.alter (.counted k best.1.toNat) fun _ => best.2.toNat else d)

/-- A category. Without entries there is nothing to adjust; and the statistics that are printed
divide by the number of analyses. -/
def adjustCategory (order : Order) (threshold : Int) (numAnalyses : Nat)
    (d : Dict FilterEntry Nat) : Option (Dict FilterEntry Nat) :=
  match entryDict (order.iter d.items) .empty with
  | none => none
  | some entries =>
    if d.items.isEmpty then some d
    else if numAnalyses = 0 then none
    else some (adjustedDict order threshold (order.iter entries.items) .empty)

def adjustFilter (setting : Setting) (threshold : Int) (f : MemoryFilter) : Option MemoryFilter :=
  if threshold < 0 ∨ f.numAnalyses < threshold then some f
  else
    match f.occurrencesDict.traverse fun plugin categories =>
      if (keyOf setting.tcpStates plugin).isSome then
        categories.traverse fun _ d => adjustCategory setting.order threshold f.numAnalyses d
      else some categories with
    | none => none
    | some occurrences => some { f with occurrencesDict := occurrences }

/-! ## `apply_filter` -/

/-- `set(entries)`: a list in it cannot be hashed. -/
def toSet : List Entry → Option (List Str)
  | [] => some []
  | .list _ :: _ => none
  | .text s :: entries =>
    match toSet entries with
    | none => none
    | some set => some (set.insert s)

/-- The entries of the set that have a key, and those that have another. -/
def partitionKey (key : Entry → Option Key) (k : Key) : List Str → Option (List Str × List Str)
  | [] => some ([], [])
  | s :: set =>
    match key (.text s), partitionKey key k set with
    | some k', some (same, others) =>
      if k = k' then some (s :: same, others) else some (same, s :: others)
    | _, _ => none

/-- The entries of a special plugin that remain: those with a key go if there are no more of
them than were counted. -/
def filterSpecial (key : Entry → Option Key) : List FilterEntry → List Str → Option (List Str)
  | [], set => some set
  | .plain _ :: _, _ => none
  | .counted k count :: filters, set =>
    match partitionKey key k set with
    | none => none
    | some (same, others) =>
      filterSpecial key filters (if same.length ≤ count then others else set)

/-- The entries of a normal plugin that remain. -/
def filterNormal : List FilterEntry → List Str → List Str
  | [], set => set
  | .plain s :: filters, set => filterNormal filters (set.filter fun t => t ≠ s)
  | .counted _ _ :: filters, set => filterNormal filters set

def applyCategory (setting : Setting) (plugin : Str) (d : Dict FilterEntry Nat)
    (entries : List Entry) : Option (List Entry) :=
  match toSet entries with
  | none => none
  | some set =>
    match keyOf setting.tcpStates plugin with
    | some key =>
      match filterSpecial key ((setting.order.iter d.items).map Prod.fst) set with
      | none => none
      | some set => some (set.map .text)
    | none => some ((filterNormal ((setting.order.iter d.items).map Prod.fst) set).map .text)

/-- A plugin that the filter knows. An error value is gone through letter by letter, and a letter
that is a category is no index for it; `None` cannot be gone through. -/
def applyPlugin (setting : Setting) (plugin : Str) (known : Dict Str (Dict FilterEntry Nat)) :
    Result → Option Result
  | .error none => none
  | .error (some message) =>
    if message.any fun c => (known.get? [c]).isSome then none else some (.error (some message))
  | .categories categories =>
    match categories.traverse fun category entries =>
      match known.get? category with
      | none => some entries
      | some d => applyCategory setting plugin d entries with
    | none => none
    | some categories => some (.categories categories)

def applyFilter (setting : Setting) (f : MemoryFilter) (analysis : Analysis) : Option Analysis :=
  analysis.traverse fun plugin result =>
    match f.occurrencesDict.get? plugin with
    | none => some result
    | some known => applyPlugin setting plugin known result

end LoPhi.Noise.Memory
