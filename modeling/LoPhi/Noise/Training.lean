import LoPhi.Noise.Learning

/-! # What a filter was trained on

A filter is to leave nothing of an analysis that was added to it. `add_analysis` joins an entry
that is a list and passes over an error value; `apply_filter` does neither. -/

namespace LoPhi.Noise.Training
open LoPhi.Lib LoPhi.Noise.Memory LoPhi.Noise.Learning

/-! ## Sets -/

section Sets
variable {entries : List Entry} {set : List Str} {key : Entry → Option Key}

theorem isSome_toSet (entries : List Entry) :
    (toSet entries).isSome ↔ ∀ entry ∈ entries, ∃ s, entry = .text s := by
  induction entries with
  | nil => simp [toSet]
  | cons entry entries ih =>
    rw [List.forall_mem_cons, ← ih]
    cases entry with
    | list parts => simp [toSet]
    | text s =>
      rw [toSet]
      cases toSet entries with
      | none => simp
      | some set => simp

theorem mem_of_toSet (h : toSet entries = some set) {s : Str} (hs : s ∈ set) :
    .text s ∈ entries := by
  induction entries generalizing set with
  | nil =>
    cases h
    cases hs
  | cons entry entries ih =>
    cases entry with
    | list parts => cases h
    | text t =>
      unfold toSet at h
      split at h
      · cases h
      · rename_i rest hrest
        cases h
        rcases List.mem_insert_iff.mp hs with rfl | hs
        · exact List.mem_cons_self
        · exact List.mem_cons_of_mem _ (ih hrest hs)

/-- A set has no more of a kind than the list. -/
theorem countP_toSet_le (h : toSet entries = some set) (test : Entry → Bool) :
    (set.countP fun s => test (.text s)) ≤ entries.countP test := by
  induction entries generalizing set with
  | nil =>
    cases h
    exact Nat.le_refl 0
  | cons entry entries ih =>
    cases entry with
    | list parts => cases h
    | text t =>
      unfold toSet at h
      split at h
      · cases h
      · rename_i rest hrest
        cases h
        have hle := ih hrest
        rw [List.countP_cons]
        by_cases ht : t ∈ rest
        · rw [List.insert_of_mem ht]
          omega
        · rw [List.insert_of_not_mem ht, List.countP_cons]
          omega

/-! ## Filters -/

theorem partitionKey_eq (hkey : ∀ s ∈ set, (key (.text s)).isSome) (k : Key) :
    partitionKey key k set =
      some (set.filter fun s => key (.text s) = some k,
        set.filter fun s => key (.text s) ≠ some k) := by
  induction set with
  | nil => rfl
  | cons s set ih =>
    rw [List.forall_mem_cons] at hkey
    obtain ⟨k', hk'⟩ := Option.isSome_iff_exists.mp hkey.1
    unfold partitionKey
    rw [ih hkey.2, hk']
    by_cases hk : k = k'
    · simp [hk, hk']
    · simp [hk, hk', Ne.symm hk]

/-- The entries with a key go when the filter comes to a count of it that is high enough. -/
theorem filterSpecial_eq_nil {filters : List FilterEntry}
    (hcounted : ∀ entry ∈ filters, ∃ k c, entry = .counted k c)
    (hkey : ∀ s ∈ set, (key (.text s)).isSome)
    (henough : ∀ s ∈ set, ∃ k c, key (.text s) = some k ∧ .counted k c ∈ filters ∧
      (set.countP fun t => key (.text t) = some k) ≤ c) :
    filterSpecial key filters set = some [] := by
  induction filters generalizing set with
  | nil =>
    cases set with
    | nil => rfl
    | cons s set =>
      obtain ⟨k, c, -, hmem, -⟩ := henough s List.mem_cons_self
      cases hmem
  | cons entry filters ih =>
    rw [List.forall_mem_cons] at hcounted
    obtain ⟨⟨k, c, rfl⟩, hrest⟩ := hcounted
    unfold filterSpecial
    rw [partitionKey_eq hkey k]
    simp only
    rw [← List.countP_eq_length_filter]
    split
    · refine ih hrest (fun s hs => hkey s (List.mem_of_mem_filter hs)) fun s hs => ?_
      obtain ⟨hs, hne⟩ := List.mem_filter.mp hs
      obtain ⟨k', c', hk', hmem, hle⟩ := henough s hs
      have hother : FilterEntry.counted k' c' ≠ .counted k c := by
        rintro heq
        cases heq
        simp [hk'] at hne
      exact ⟨k', c', hk', (List.mem_cons.mp hmem).resolve_left hother,
        Nat.le_trans List.filter_sublist.countP_le hle⟩
    · rename_i hmore
      refine ih hrest hkey fun s hs => ?_
      obtain ⟨k', c', hk', hmem, hle⟩ := henough s hs
      have hother : FilterEntry.counted k' c' ≠ .counted k c := by
        rintro heq
        cases heq
        exact hmore hle
      exact ⟨k', c', hk', (List.mem_cons.mp hmem).resolve_left hother, hle⟩

theorem mem_of_filterNormal {filters : List FilterEntry} {s : Str}
    (h : s ∈ filterNormal filters set) : s ∈ set ∧ .plain s ∉ filters := by
  induction filters generalizing set with
  | nil => exact ⟨h, List.not_mem_nil⟩
  | cons entry filters ih =>
    cases entry with
    | counted k c =>
      obtain ⟨hs, hnot⟩ := ih h
      exact ⟨hs, by simpa using hnot⟩
    | plain t =>
      obtain ⟨hs, hnot⟩ := ih h
      obtain ⟨hs, hne⟩ := List.mem_filter.mp hs
      exact ⟨hs, by simpa [hnot] using hne⟩

end Sets

/-! ## Conditions -/

/-- Every entry of a special plugin is one from which its key can be taken. -/
def KeysTaken (setting : Setting) (analysis : Analysis) : Prop :=
  ∀ plugin key, keyOf setting.tcpStates plugin = some key →
    ∀ d category entries, analysis.get? plugin = some (.categories d) →
      d.get? category = some entries → ∀ entry ∈ entries, (key entry).isSome

/-- No entry is a list. -/
def NoLists (analysis : Analysis) : Prop :=
  ∀ plugin d category entries, analysis.get? plugin = some (.categories d) →
    d.get? category = some entries → ∀ entry ∈ entries, ∃ s, entry = .text s

/-- An error value is a string, of which no letter is a category of the plugin elsewhere. -/
def ErrorsApart (analyses : List Analysis) (analysis : Analysis) : Prop :=
  ∀ plugin value, analysis.get? plugin = some (.error value) →
    ∃ message, value = some message ∧ ∀ c ∈ message, ∀ other ∈ analyses, ∀ d,
      other.get? plugin = some (.categories d) → d.get? [c] = none

/-- Nothing is left in any category. -/
def Emptied (analysis : Analysis) : Prop :=
  ∀ plugin d category entries, analysis.get? plugin = some (.categories d) →
    d.get? category = some entries → entries = []

section Trained
variable {setting : Setting} {analyses : List Analysis} {analysis : Analysis} {f : MemoryFilter}
  {plugin category : Str} {known : Dict Str (Dict FilterEntry Nat)} {d : Dict FilterEntry Nat}

theorem isSome_specialEntries (order : Order) (key : Entry → Option Key) (entries : List Entry) :
    (specialEntries order key entries).isSome ↔ ∀ entry ∈ entries, (key entry).isSome := by
  rw [← isSome_keys]
  unfold specialEntries
  cases keys key entries with
  | none => simp
  | some ks => simp

theorem keysTaken_iff :
    KeysTaken setting analysis ↔
      ∀ plugin result, analysis.get? plugin = some result → Countable setting plugin result := by
  constructor
  · intro h plugin result hresult cats category entries hcats hentries
    subst hcats
    cases hkey : keyOf setting.tcpStates plugin with
    | none =>
      unfold counted
      rw [hkey]
      rfl
    | some key =>
      rw [counted_special hkey, isSome_specialEntries]
      exact h plugin key hkey cats category entries hresult hentries
  · intro h plugin key hkey cats category entries hcats hentries
    have hcounted := h plugin _ hcats cats category entries rfl hentries
    rwa [counted_special hkey, isSome_specialEntries] at hcounted

theorem contribution_eq {cats : Dict Str (List Entry)} {entries : List Entry}
    (hcats : analysis.get? plugin = some (.categories cats))
    (hentries : cats.get? category = some entries) :
    contribution setting plugin category analysis = counted setting plugin entries := by
  unfold contribution
  rw [hcats, Option.bind_some]
  unfold contributed
  simp only
  rw [hentries, Option.bind_some]

theorem mem_filters {order : Order} {entry : FilterEntry} :
    entry ∈ (order.iter d.items).map Prod.fst ↔ entry ∈ d.items.map Prod.fst :=
  ((order.perm d.items).map Prod.fst).mem_iff

/-- A special plugin: the analysis itself has a key as often as the count it contributed says. -/
theorem filterSpecial_trained (hadd : addAll setting analyses .initial = some f)
    (hmem : analysis ∈ analyses) (hd : f.category plugin category = some d)
    {key : Entry → Option Key} (hkey : keyOf setting.tcpStates plugin = some key)
    {entries : List Entry}
    (hcontribution : contribution setting plugin category analysis =
      specialEntries setting.order key entries)
    (hkeys : ∀ entry ∈ entries, (key entry).isSome) {set : List Str}
    (hset : toSet entries = some set) :
    filterSpecial key ((setting.order.iter d.items).map Prod.fst) set = some [] := by
  obtain ⟨ks, hks⟩ := Option.isSome_iff_exists.mp ((isSome_keys key entries).mpr hkeys)
  unfold specialEntries at hcontribution
  rw [hks] at hcontribution
  refine filterSpecial_eq_nil (fun entry hentry => ?_) (fun s hs => ?_) fun s hs => ?_
  · obtain ⟨p, hp, rfl⟩ := List.mem_map.mp (mem_filters.mp hentry)
    exact exists_counted hadd hkey hd p hp
  · exact hkeys _ (mem_of_toSet hset hs)
  · have hin := mem_of_toSet hset hs
    obtain ⟨k, hk⟩ := Option.isSome_iff_exists.mp (hkeys _ hin)
    have hcount := count_keys hks k
    have hpos : 0 < ks.count k := by
      rw [hcount]
      exact List.countP_pos_iff.mpr ⟨_, hin, by simp [hk]⟩
    have hitem : (k, ks.count k) ∈ setting.order.iter (Dict.tally ks).items :=
      ((setting.order.perm _).mem_iff).mpr (Dict.mem_tally.mpr ⟨rfl, hpos⟩)
    refine ⟨k, ks.count k, hk, mem_filters.mpr ?_, ?_⟩
    · exact mem_category hadd hd hmem hcontribution (List.mem_map.mpr ⟨_, hitem, rfl⟩)
    · rw [hcount]
      exact countP_toSet_le hset fun entry => key entry = some k

/-- A normal plugin: every string of the analysis is in the filter. -/
theorem filterNormal_trained (hadd : addAll setting analyses .initial = some f)
    (hmem : analysis ∈ analyses) (hd : f.category plugin category = some d) {entries : List Entry}
    (hcontribution : contribution setting plugin category analysis =
      some (entries.map plainEntry))
    {set : List Str} (hset : toSet entries = some set) :
    filterNormal ((setting.order.iter d.items).map Prod.fst) set = [] := by
  refine List.eq_nil_iff_forall_not_mem.mpr fun s hs => ?_
  obtain ⟨hs, hnot⟩ := mem_of_filterNormal hs
  refine hnot (mem_filters.mpr (mem_category hadd hd hmem hcontribution ?_))
  exact List.mem_map.mpr ⟨_, mem_of_toSet hset hs, rfl⟩

/-- The entries of a category have to be a set. -/
theorem text_of_applyCategory {entries : List Entry}
    (h : (applyCategory setting plugin d entries).isSome) :
    ∀ entry ∈ entries, ∃ s, entry = .text s := by
  rw [← isSome_toSet]
  unfold applyCategory at h
  split at h
  · cases h
  · rename_i set hset
    exact Option.isSome_iff_exists.mpr ⟨set, hset⟩

theorem applyCategory_trained (hadd : addAll setting analyses .initial = some f)
    (hmem : analysis ∈ analyses) (hd : f.category plugin category = some d)
    {cats : Dict Str (List Entry)} {entries : List Entry}
    (hcats : analysis.get? plugin = some (.categories cats))
    (hentries : cats.get? category = some entries)
    (htext : ∀ entry ∈ entries, ∃ s, entry = .text s) :
    applyCategory setting plugin d entries = some [] := by
  obtain ⟨set, hset⟩ := Option.isSome_iff_exists.mp ((isSome_toSet entries).mpr htext)
  have hcontribution := @contribution_eq setting _ _ _ _ _ hcats hentries
  unfold applyCategory
  rw [hset]
  simp only
  split
  · rename_i key hkey
    rw [counted_special hkey] at hcontribution
    have hcountable := (isSome_addAll analyses .initial).mp
      (Option.isSome_iff_exists.mpr ⟨f, hadd⟩) analysis hmem
    have hkeys := keysTaken_iff.mpr hcountable plugin key hkey cats category entries hcats hentries
    rw [filterSpecial_trained hadd hmem hd hkey hcontribution hkeys hset]
    rfl
  · rename_i hkey
    have hplain : counted setting plugin entries = some (entries.map plainEntry) := by
      unfold counted
      rw [hkey]
    rw [filterNormal_trained hadd hmem hd (hcontribution.trans hplain) hset]
    rfl

/-- The categories that a filter knows of a plugin. -/
theorem isSome_known (hadd : addAll setting analyses .initial = some f)
    (hknown : f.occurrencesDict.get? plugin = some known) (category : Str) :
    (known.get? category).isSome ↔ ∃ other ∈ analyses, ∃ cats,
      other.get? plugin = some (.categories cats) ∧ (cats.get? category).isSome := by
  have hcategory : f.category plugin category = known.get? category := by
    unfold MemoryFilter.category
    rw [hknown, Option.bind_some]
  have hcountable := (isSome_addAll analyses .initial).mp (Option.isSome_iff_exists.mpr ⟨f, hadd⟩)
  rw [← hcategory, isSome_category_addAll hadd]
  constructor
  · rintro ⟨other, hother, hsome⟩
    obtain ⟨entries, hentries⟩ := Option.isSome_iff_exists.mp hsome
    obtain ⟨result, hresult, hcontributed⟩ := Option.bind_eq_some_iff.mp hentries
    cases result with
    | error value => cases hcontributed
    | categories cats =>
      obtain ⟨l, hl, -⟩ := Option.bind_eq_some_iff.mp hcontributed
      exact ⟨other, hother, cats, hresult, Option.isSome_iff_exists.mpr ⟨l, hl⟩⟩
  · rintro ⟨other, hother, cats, hcats, hsome⟩
    obtain ⟨l, hl⟩ := Option.isSome_iff_exists.mp hsome
    refine ⟨other, hother, ?_⟩
    rw [contribution_eq hcats hl]
    exact hcountable other hother plugin _ hcats cats category l rfl hl

/-- What is left of a category of a plugin that the filter knows. -/
def applyKnown (setting : Setting) (plugin : Str) (known : Dict Str (Dict FilterEntry Nat))
    (category : Str) (entries : List Entry) : Option (List Entry) :=
  match known.get? category with
  | none => some entries
  | some d => applyCategory setting plugin d entries

theorem applyPlugin_categories (cats : Dict Str (List Entry)) :
    applyPlugin setting plugin known (.categories cats) =
      (cats.traverse (applyKnown setting plugin known)).map .categories := by
  unfold applyPlugin
  simp only
  split
  · rename_i hnone
    change cats.traverse (applyKnown setting plugin known) = none at hnone
    rw [hnone, Option.map_none]
  · rename_i cats' hsome
    change cats.traverse (applyKnown setting plugin known) = some cats' at hsome
    rw [hsome, Option.map_some]

section Plugin
variable (hadd : addAll setting analyses .initial = some f) (hmem : analysis ∈ analyses)
  (hknown : f.occurrencesDict.get? plugin = some known) {cats : Dict Str (List Entry)}
  (hcats : analysis.get? plugin = some (.categories cats))
include hadd hmem hknown hcats

/-- A filter knows the categories of an analysis that was added. -/
theorem applyKnown_eq {entries : List Entry} (hentries : cats.get? category = some entries) :
    ∃ d, f.category plugin category = some d ∧
      applyKnown setting plugin known category entries =
        applyCategory setting plugin d entries := by
  obtain ⟨d, hd⟩ := Option.isSome_iff_exists.mp ((isSome_known hadd hknown category).mpr
    ⟨analysis, hmem, cats, hcats, Option.isSome_iff_exists.mpr ⟨entries, hentries⟩⟩)
  refine ⟨d, ?_, ?_⟩
  · unfold MemoryFilter.category
    rw [hknown, Option.bind_some, hd]
  · unfold applyKnown
    rw [hd]

theorem text_of_applyPlugin
    (h : (applyPlugin setting plugin known (.categories cats)).isSome) {entries : List Entry}
    (hentries : cats.get? category = some entries) : ∀ entry ∈ entries, ∃ s, entry = .text s := by
  rw [applyPlugin_categories, Option.isSome_map] at h
  have hknows := Dict.traverse_isSome.mp h category entries hentries
  obtain ⟨d, -, heq⟩ := applyKnown_eq hadd hmem hknown hcats hentries
  rw [heq] at hknows
  exact text_of_applyCategory hknows

theorem applyPlugin_trained
    (htext : ∀ category entries, cats.get? category = some entries →
      ∀ entry ∈ entries, ∃ s, entry = .text s) :
    ∃ cats', applyPlugin setting plugin known (.categories cats) = some (.categories cats') ∧
      ∀ category entries, cats'.get? category = some entries → entries = [] := by
  have hempty : ∀ category entries, cats.get? category = some entries →
      applyKnown setting plugin known category entries = some [] := by
    intro category entries hentries
    obtain ⟨d, hd, heq⟩ := applyKnown_eq hadd hmem hknown hcats hentries
    rw [heq]
    exact applyCategory_trained hadd hmem hd hcats hentries (htext category entries hentries)
  obtain ⟨cats', hcats'⟩ := Option.isSome_iff_exists.mp (Dict.traverse_isSome.mpr
    fun category entries hentries =>
      Option.isSome_iff_exists.mpr ⟨[], hempty category entries hentries⟩)
  refine ⟨cats', ?_, fun category rest hrest => ?_⟩
  · rw [applyPlugin_categories, hcats', Option.map_some]
  · rw [Dict.get?_traverse hcats'] at hrest
    obtain ⟨entries, hentries, happly⟩ := Option.bind_eq_some_iff.mp hrest
    exact (Option.some.inj ((hempty category entries hentries).symm.trans happly)).symm

end Plugin

/-- An error value stays, if it can be gone through. -/
theorem applyPlugin_error {value : Option Str} {result : Result} :
    applyPlugin setting plugin known (.error value) = some result ↔
      result = .error value ∧ ∃ message, value = some message ∧
        ∀ c ∈ message, known.get? [c] = none := by
  cases value with
  | none =>
    constructor
    · intro h
      cases h
    · rintro ⟨-, message, h, -⟩
      cases h
  | some message =>
    unfold applyPlugin
    simp only
    split
    · rename_i hany
      obtain ⟨c, hc, hsome⟩ := List.any_eq_true.mp hany
      constructor
      · intro h
        cases h
      · rintro ⟨-, message', h, hnone⟩
        cases h
        rw [hnone c hc] at hsome
        cases hsome
    · rename_i hnot
      have hnone : ∀ c ∈ message, known.get? [c] = none := by
        intro c hc
        by_contra hsome
        exact hnot (List.any_eq_true.mpr ⟨c, hc, Option.isSome_iff_ne_none.mpr hsome⟩)
      constructor
      · intro h
        cases h
        exact ⟨rfl, message, rfl, hnone⟩
      · rintro ⟨rfl, -⟩
        rfl

theorem get?_known_eq_none (hadd : addAll setting analyses .initial = some f)
    (hknown : f.occurrencesDict.get? plugin = some known) (c : Char) :
    known.get? [c] = none ↔ ∀ other ∈ analyses, ∀ d,
      other.get? plugin = some (.categories d) → d.get? [c] = none := by
  have hiff := isSome_known hadd hknown [c]
  constructor
  · intro hnone other hother d hd
    by_contra hsome
    have hknows := hiff.mpr ⟨other, hother, d, hd, Option.isSome_iff_ne_none.mpr hsome⟩
    rw [hnone] at hknows
    cases hknows
  · intro hall
    by_contra hsome
    obtain ⟨other, hother, d, hd, hin⟩ := hiff.mp (Option.isSome_iff_ne_none.mpr hsome)
    rw [hall other hother d hd] at hin
    cases hin

/-- `apply_filter` can go through an analysis that was added to the filter. -/
def Readable (analyses : List Analysis) (analysis : Analysis) : Prop :=
  NoLists analysis ∧ ErrorsApart analyses analysis

theorem readable_of_applyFilter (hadd : addAll setting analyses .initial = some f)
    (hmem : analysis ∈ analyses) {result : Analysis}
    (happly : applyFilter setting f analysis = some result) : Readable analyses analysis := by
  have hplugin : ∀ plugin r, analysis.get? plugin = some r →
      ∃ known, f.occurrencesDict.get? plugin = some known ∧
        (applyPlugin setting plugin known r).isSome := by
    intro plugin r hr
    obtain ⟨known, hknown⟩ := Option.isSome_iff_exists.mp (isSome_plugin_addAll hadd
      (.inr ⟨analysis, hmem, Option.isSome_iff_exists.mpr ⟨r, hr⟩⟩))
    obtain ⟨w, hw, -⟩ := Dict.exists_of_traverse happly hr
    rw [hknown] at hw
    exact ⟨known, hknown, Option.isSome_iff_exists.mpr ⟨w, hw⟩⟩
  constructor
  · intro plugin cats category entries hcats hentries
    obtain ⟨known, hknown, hsome⟩ := hplugin plugin _ hcats
    exact text_of_applyPlugin hadd hmem hknown hcats hsome hentries
  · intro plugin value hvalue
    obtain ⟨known, hknown, hsome⟩ := hplugin plugin _ hvalue
    obtain ⟨w, hw⟩ := Option.isSome_iff_exists.mp hsome
    obtain ⟨-, message, hmessage, hnone⟩ := applyPlugin_error.mp hw
    exact ⟨message, hmessage, fun c hc => (get?_known_eq_none hadd hknown c).mp (hnone c hc)⟩

theorem applyFilter_trained (hadd : addAll setting analyses .initial = some f)
    (hmem : analysis ∈ analyses) (hreadable : Readable analyses analysis) :
    ∃ result, applyFilter setting f analysis = some result ∧ Emptied result := by
  have hplugin : ∀ plugin r, analysis.get? plugin = some r →
      ∃ known r', f.occurrencesDict.get? plugin = some known ∧
        applyPlugin setting plugin known r = some r' ∧
        ∀ cats category entries, r' = .categories cats → cats.get? category = some entries →
          entries = [] := by
    intro plugin r hr
    obtain ⟨known, hknown⟩ := Option.isSome_iff_exists.mp (isSome_plugin_addAll hadd
      (.inr ⟨analysis, hmem, Option.isSome_iff_exists.mpr ⟨r, hr⟩⟩))
    cases r with
    | error value =>
      obtain ⟨message, hmessage, happart⟩ := hreadable.2 plugin value hr
      refine ⟨known, .error value, hknown, applyPlugin_error.mpr ⟨rfl, message, hmessage,
        fun c hc => (get?_known_eq_none hadd hknown c).mpr (happart c hc)⟩, ?_⟩
      intro cats category entries hcats
      cases hcats
    | categories cats =>
      obtain ⟨cats', happly, hempty⟩ := applyPlugin_trained hadd hmem hknown hr
        fun category entries hentries => hreadable.1 plugin cats category entries hr hentries
      refine ⟨known, .categories cats', hknown, happly, ?_⟩
      intro cats₁ category entries hcats
      cases hcats
      exact hempty category entries
  have hall : (applyFilter setting f analysis).isSome := by
    refine Dict.traverse_isSome.mpr fun plugin r hr => ?_
    obtain ⟨known, r', hknown, happly, -⟩ := hplugin plugin r hr
    rw [hknown]
    exact Option.isSome_iff_exists.mpr ⟨r', happly⟩
  obtain ⟨result, hresult⟩ := Option.isSome_iff_exists.mp hall
  refine ⟨result, hresult, fun plugin cats category entries hcats hentries => ?_⟩
  rw [Dict.get?_traverse hresult] at hcats
  obtain ⟨r, hr, happly⟩ := Option.bind_eq_some_iff.mp hcats
  obtain ⟨known, r', hknown, happly', hempty⟩ := hplugin plugin r hr
  rw [hknown] at happly
  obtain rfl : r' = .categories cats := Option.some.inj (happly'.symm.trans happly)
  exact hempty cats category entries rfl hentries

end Trained

/-! ## Examples of both -/

/-- A special plugin, a normal one and an error. -/
def mixed : Analysis :=
  ⟨[("psscan".toList,
      .categories ⟨[("Added Entries".toList,
        [.text "0x0000000002a1b3c8 svchost.exe".toList,
          .text "0x0000000002a1b3d0 svchost.exe".toList])], by simp⟩),
    ("modules".toList,
      .categories ⟨[("Removed Entries".toList, [.text "0xfa80 ntfs.sys".toList])], by simp⟩),
    ("sockets".toList, .error (some "ERROR".toList))], by simp⟩

theorem entries_mixed {plugin category : Str} {d : Dict Str (List Entry)} {entries : List Entry}
    (hd : mixed.get? plugin = some (.categories d)) (hentries : d.get? category = some entries) :
    (plugin = "psscan".toList ∨ plugin = "modules".toList) ∧
      ∀ entry ∈ entries, ∃ s, entry = .text s := by
  have hd := Dict.get?_eq_some_iff.mp hd
  simp only [mixed, List.mem_cons, Prod.mk.injEq, Result.categories.injEq, List.not_mem_nil,
    or_false] at hd
  rcases hd with ⟨hplugin, rfl⟩ | ⟨hplugin, rfl⟩ | ⟨-, h⟩
  · have hentries := Dict.get?_eq_some_iff.mp hentries
    simp only [List.mem_singleton, Prod.mk.injEq] at hentries
    rw [hentries.2]
    exact ⟨.inl hplugin, by simp⟩
  · have hentries := Dict.get?_eq_some_iff.mp hentries
    simp only [List.mem_singleton, Prod.mk.injEq] at hentries
    rw [hentries.2]
    exact ⟨.inr hplugin, by simp⟩
  · cases h

/-- An entry that is a list. -/
def listed : Analysis :=
  ⟨[("modules".toList,
    .categories ⟨[("Added Entries".toList, [.list ["0xfa80".toList, "ntfs.sys".toList]])],
      by simp⟩)], by simp⟩

end LoPhi.Noise.Training
