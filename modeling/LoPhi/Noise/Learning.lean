import LoPhi.Noise.Memory

/-! # What a filter has learned

A category of a filter is the tally of everything that the analyses contributed to it. -/

namespace LoPhi.Noise.Learning
open LoPhi.Lib LoPhi.Noise.Memory

variable {setting : Setting}

/-- What the result of a plugin contributes to a category, if it has it. -/
def contributed (setting : Setting) (plugin category : Str) : Result → Option (List FilterEntry)
  | .error _ => none
  | .categories d => (d.get? category).bind (counted setting plugin)

/-- What an analysis contributes. -/
def contribution (setting : Setting) (plugin category : Str) (analysis : Analysis) :
    Option (List FilterEntry) :=
  (analysis.get? plugin).bind (contributed setting plugin category)

/-- A category after a contribution to it. -/
def learn (d : Option (Dict FilterEntry Nat)) : Option (List FilterEntry) →
    Option (Dict FilterEntry Nat)
  | none => d
  | some entries => some (entries.foldl Dict.bump (d.getD .empty))

theorem get?_addCategories (occurrences : Dict Str (Dict FilterEntry Nat))
    {l : List (Str × List FilterEntry)} (hnodup : (l.map Prod.fst).Nodup) (category : Str) :
    (addCategories occurrences l).get? category =
      learn (occurrences.get? category) (Dict.lookup l category) := by
  unfold addCategories
  induction l generalizing occurrences with
  | nil => rfl
  | cons p l ih =>
    obtain ⟨c, entries⟩ := p
    obtain ⟨hnot, hrest⟩ := List.nodup_cons.mp hnodup
    rw [List.foldl_cons, ih _ hrest, Dict.get?_alter, Dict.lookup_cons]
    by_cases hc : category = c
    · subst hc
      rw [if_pos rfl, if_pos rfl, Dict.lookup_eq_none hnot]
      rfl
    · rw [if_neg hc, if_neg (Ne.symm hc)]

/-- A category of a plugin in `occurrences_dict`. -/
def categoryOf (occurrences : Dict Str (Dict Str (Dict FilterEntry Nat))) (plugin category : Str) :
    Option (Dict FilterEntry Nat) := (occurrences.get? plugin).bind fun d => d.get? category

section Occurrences
variable {occurrences occurrences' : Dict Str (Dict Str (Dict FilterEntry Nat))}

/-- The category of another plugin is left as it is. -/
theorem categoryOf_alter (plugin : Str)
    (f : Option (Dict Str (Dict FilterEntry Nat)) → Dict Str (Dict FilterEntry Nat))
    (other category : Str) :
    categoryOf (occurrences.alter plugin f) other category =
      if other = plugin then (f (occurrences.get? plugin)).get? category
      else categoryOf occurrences other category := by
  unfold categoryOf
  rw [Dict.get?_alter]
  split
  · rfl
  · rfl

theorem get?_getD (plugin category : Str) :
    ((occurrences.get? plugin).getD .empty).get? category =
      categoryOf occurrences plugin category := by
  unfold categoryOf
  cases occurrences.get? plugin with
  | none => rfl
  | some d => rfl

theorem categoryOf_addPlugin {plugin : Str} {result : Result}
    (h : addPlugin setting occurrences plugin result = some occurrences') (other category : Str) :
    categoryOf occurrences' other category =
      if other = plugin then
        learn (categoryOf occurrences plugin category)
          (contributed setting plugin category result)
      else categoryOf occurrences other category := by
  cases result with
  | error value =>
    cases h
    rw [categoryOf_alter, get?_getD]
    rfl
  | categories d =>
    unfold addPlugin at h
    simp only at h
    split at h
    · cases h
    · rename_i retDict hret
      cases h
      have hcontributed : contributed setting plugin category (.categories d) =
          Dict.lookup retDict.items category := (Dict.get?_traverse hret category).symm
      rw [categoryOf_alter, get?_addCategories _ retDict.nodup, get?_getD, hcontributed]

theorem categoryOf_addPlugins {results : List (Str × Result)}
    (hnodup : (results.map Prod.fst).Nodup)
    (h : addPlugins setting results occurrences = some occurrences') (plugin category : Str) :
    categoryOf occurrences' plugin category =
      learn (categoryOf occurrences plugin category)
        ((Dict.lookup results plugin).bind (contributed setting plugin category)) := by
  induction results generalizing occurrences with
  | nil =>
    cases h
    rfl
  | cons p results ih =>
    obtain ⟨name, result⟩ := p
    obtain ⟨hnot, hrest⟩ := List.nodup_cons.mp hnodup
    unfold addPlugins at h
    split at h
    · cases h
    · rename_i occurrences₁ hadd
      rw [ih hrest h, categoryOf_addPlugin hadd, Dict.lookup_cons]
      by_cases hname : plugin = name
      · subst hname
        rw [if_pos rfl, if_pos rfl, Dict.lookup_eq_none hnot]
        rfl
      · rw [if_neg hname, if_neg (Ne.symm hname)]

end Occurrences

theorem category_addAnalysis {f f' : MemoryFilter} {analysis : Analysis}
    (h : addAnalysis setting f analysis = some f') (plugin category : Str) :
    f'.category plugin category =
      learn (f.category plugin category) (contribution setting plugin category analysis) := by
  unfold addAnalysis at h
  split at h
  · cases h
  · rename_i occurrences hadd
    cases h
    exact categoryOf_addPlugins analysis.nodup hadd plugin category

/-- All that the analyses contribute. -/
def contributions (setting : Setting) (plugin category : Str) (analyses : List Analysis) :
    List FilterEntry :=
  analyses.flatMap fun analysis => (contribution setting plugin category analysis).getD []

theorem category_addAll_getD {f f' : MemoryFilter} {analyses : List Analysis}
    (h : addAll setting analyses f = some f') (plugin category : Str) :
    (f'.category plugin category).getD .empty =
        (contributions setting plugin category analyses).foldl Dict.bump
          ((f.category plugin category).getD .empty) ∧
      ((f'.category plugin category).isSome ↔ (f.category plugin category).isSome ∨
        ∃ analysis ∈ analyses, (contribution setting plugin category analysis).isSome) := by
  induction analyses generalizing f with
  | nil =>
    cases h
    exact ⟨rfl, by simp⟩
  | cons analysis analyses ih =>
    unfold addAll at h
    split at h
    · cases h
    · rename_i f₁ hadd
      obtain ⟨htally, hsome⟩ := ih h
      have hfirst := category_addAnalysis hadd plugin category
      rw [htally, hsome, hfirst]
      unfold contributions
      rw [List.flatMap_cons, List.foldl_append]
      cases hc : contribution setting plugin category analysis with
      | none => simp [learn, hc]
      | some entries => simp [learn, hc]

/-- A category is the tally of what was contributed to it. -/
theorem category_addAll {f : MemoryFilter} {analyses : List Analysis}
    (h : addAll setting analyses .initial = some f) {plugin category : Str}
    {d : Dict FilterEntry Nat} (hd : f.category plugin category = some d) :
    d = Dict.tally (contributions setting plugin category analyses) := by
  have htally := (category_addAll_getD h plugin category).1
  rw [hd] at htally
  exact htally

/-- It is there if an analysis has it. -/
theorem isSome_category_addAll {f : MemoryFilter} {analyses : List Analysis}
    (h : addAll setting analyses .initial = some f) (plugin category : Str) :
    (f.category plugin category).isSome ↔
      ∃ analysis ∈ analyses, (contribution setting plugin category analysis).isSome := by
  rw [(category_addAll_getD h plugin category).2]
  simp [MemoryFilter.initial, MemoryFilter.category]

/-! ## Plugins -/

theorem isSome_plugin_addPlugins {results : List (Str × Result)}
    {occurrences occurrences' : Dict Str (Dict Str (Dict FilterEntry Nat))}
    (h : addPlugins setting results occurrences = some occurrences') {plugin : Str}
    (hplugin : (occurrences.get? plugin).isSome ∨ plugin ∈ results.map Prod.fst) :
    (occurrences'.get? plugin).isSome := by
  induction results generalizing occurrences with
  | nil =>
    cases h
    exact hplugin.resolve_right List.not_mem_nil
  | cons p results ih =>
    obtain ⟨name, result⟩ := p
    unfold addPlugins at h
    split at h
    · cases h
    · rename_i occurrences₁ hadd
      refine ih h ?_
      obtain ⟨g, hg⟩ : ∃ g, occurrences₁ = occurrences.alter name g := by
        unfold addPlugin at hadd
        split at hadd
        · cases hadd
          exact ⟨_, rfl⟩
        · split at hadd
          · cases hadd
          · cases hadd
            exact ⟨_, rfl⟩
      rw [hg, Dict.get?_alter]
      by_cases hname : plugin = name
      · rw [if_pos hname]
        exact .inl rfl
      · rw [if_neg hname]
        exact hplugin.imp_right fun hin => (List.mem_cons.mp hin).resolve_left hname

/-- A filter knows the plugins of every analysis. -/
theorem isSome_plugin_addAll {f f' : MemoryFilter} {analyses : List Analysis}
    (h : addAll setting analyses f = some f') {plugin : Str}
    (hplugin : (f.occurrencesDict.get? plugin).isSome ∨
      ∃ analysis ∈ analyses, (analysis.get? plugin).isSome) :
    (f'.occurrencesDict.get? plugin).isSome := by
  induction analyses generalizing f with
  | nil =>
    cases h
    refine hplugin.resolve_right ?_
    rintro ⟨analysis, hmem, -⟩
    cases hmem
  | cons analysis analyses ih =>
    unfold addAll at h
    split at h
    · cases h
    · rename_i f₁ hadd
      refine ih h ?_
      unfold addAnalysis at hadd
      split at hadd
      · cases hadd
      · rename_i occurrences hplugins
        cases hadd
        rcases hplugin with hold | ⟨analysis', hmem, hsome⟩
        · exact .inl (isSome_plugin_addPlugins hplugins (.inl hold))
        · rcases List.mem_cons.mp hmem with rfl | hmem
          · obtain ⟨result, hresult⟩ := Option.isSome_iff_exists.mp hsome
            have hin : plugin ∈ analysis'.items.map Prod.fst :=
              List.mem_map.mpr ⟨_, Dict.get?_eq_some_iff.mp hresult, rfl⟩
            exact .inl (isSome_plugin_addPlugins hplugins (.inr hin))
          · exact .inr ⟨analysis', hmem, hsome⟩

theorem numAnalyses_addAll {f f' : MemoryFilter} {analyses : List Analysis}
    (h : addAll setting analyses f = some f') :
    f'.numAnalyses = f.numAnalyses + analyses.length := by
  induction analyses generalizing f with
  | nil =>
    cases h
    rfl
  | cons analysis analyses ih =>
    unfold addAll at h
    split at h
    · cases h
    · rename_i f₁ hadd
      rw [ih h, List.length_cons]
      unfold addAnalysis at hadd
      split at hadd
      · cases hadd
      · cases hadd
        simp only
        omega

/-! ## Which analyses can be added -/

/-- What is to be counted in the categories of a plugin can be. -/
def Countable (setting : Setting) (plugin : Str) (result : Result) : Prop :=
  ∀ d category entries, result = .categories d → d.get? category = some entries →
    (counted setting plugin entries).isSome

theorem isSome_addPlugin (occurrences : Dict Str (Dict Str (Dict FilterEntry Nat)))
    (plugin : Str) (result : Result) :
    (addPlugin setting occurrences plugin result).isSome ↔ Countable setting plugin result := by
  cases result with
  | error value =>
    refine ⟨fun _ d category entries hd => ?_, fun _ => rfl⟩
    cases hd
  | categories d =>
    have hiff : (addPlugin setting occurrences plugin (.categories d)).isSome ↔
        (d.traverse fun _ entries => counted setting plugin entries).isSome := by
      unfold addPlugin
      simp only
      split
      · rename_i hnone
        simp [hnone]
      · rename_i retDict hret
        rw [hret]
        exact Iff.rfl
    rw [hiff, Dict.traverse_isSome]
    constructor
    · intro h d' category entries hd hget
      cases hd
      exact h category entries hget
    · exact fun h category entries hget => h d category entries rfl hget

theorem isSome_addPlugins (results : List (Str × Result))
    (occurrences : Dict Str (Dict Str (Dict FilterEntry Nat))) :
    (addPlugins setting results occurrences).isSome ↔
      ∀ p ∈ results, Countable setting p.1 p.2 := by
  induction results generalizing occurrences with
  | nil => simp [addPlugins]
  | cons p results ih =>
    obtain ⟨plugin, result⟩ := p
    have hfirst := @isSome_addPlugin setting occurrences plugin result
    unfold addPlugins
    rw [List.forall_mem_cons]
    split
    · rename_i hnone
      rw [hnone] at hfirst
      exact ⟨fun h => absurd h (by simp), fun h => absurd (hfirst.mpr h.1) (by simp)⟩
    · rename_i occurrences' hsome
      rw [hsome] at hfirst
      rw [ih occurrences']
      exact ⟨fun h => ⟨hfirst.mp rfl, h⟩, fun h => h.2⟩

/-- Analyses can be added if all that there is to count in them can be. -/
theorem isSome_addAll (analyses : List Analysis) (f : MemoryFilter) :
    (addAll setting analyses f).isSome ↔
      ∀ analysis ∈ analyses, ∀ plugin result, analysis.get? plugin = some result →
        Countable setting plugin result := by
  induction analyses generalizing f with
  | nil => simp [addAll]
  | cons analysis analyses ih =>
    have hfirst : (addAnalysis setting f analysis).isSome ↔
        ∀ plugin result, analysis.get? plugin = some result →
          Countable setting plugin result := by
      have hplugins := @isSome_addPlugins setting analysis.items f.occurrencesDict
      have hiff : (addAnalysis setting f analysis).isSome ↔
          (addPlugins setting analysis.items f.occurrencesDict).isSome := by
        unfold addAnalysis
        split
        · rename_i hnone
          simp [hnone]
        · rename_i occurrences hsome
          rw [hsome]
          exact Iff.rfl
      rw [hiff, hplugins]
      exact ⟨fun h plugin result hget => h _ (Dict.get?_eq_some_iff.mp hget),
        fun h p hp => h p.1 p.2 (Dict.get?_eq_some_iff.mpr hp)⟩
    unfold addAll
    rw [List.forall_mem_cons, ← hfirst]
    split
    · rename_i hnone
      simp [hnone]
    · rename_i f' hsome
      rw [hsome, ih f']
      exact ⟨fun h => ⟨rfl, h⟩, fun h => h.2⟩

/-! ## Special plugins -/

section Special
variable {analyses : List Analysis} {f : MemoryFilter} {plugin category : Str}
  {key : Entry → Option Key} {d : Dict FilterEntry Nat}

theorem count_keys {entries : List Entry} {ks : List Key} (h : keys key entries = some ks)
    (k : Key) : ks.count k = entries.countP fun entry => key entry = some k := by
  induction entries generalizing ks with
  | nil =>
    cases h
    rfl
  | cons entry entries ih =>
    unfold keys at h
    split at h
    · rename_i k' ks' hk' hks'
      cases h
      rw [List.count_cons, List.countP_cons, ih hks', hk']
      simp
    · cases h

theorem isSome_keys (key : Entry → Option Key) (entries : List Entry) :
    (keys key entries).isSome ↔ ∀ entry ∈ entries, (key entry).isSome := by
  induction entries with
  | nil => simp [keys]
  | cons entry entries ih =>
    unfold keys
    rw [List.forall_mem_cons, ← ih]
    cases key entry with
    | none => simp
    | some k =>
      cases keys key entries with
      | none => simp
      | some ks => simp

theorem counted_special (hkey : keyOf setting.tcpStates plugin = some key)
    (entries : List Entry) :
    counted setting plugin entries = specialEntries setting.order key entries := by
  unfold counted
  rw [hkey]

/-- What is contributed is in the category. -/
theorem mem_category (hadd : addAll setting analyses .initial = some f)
    (hd : f.category plugin category = some d) {analysis : Analysis} (hmem : analysis ∈ analyses)
    {entries : List FilterEntry}
    (hcontributed : contribution setting plugin category analysis = some entries)
    {entry : FilterEntry} (hentry : entry ∈ entries) : entry ∈ d.items.map Prod.fst := by
  have hin : entry ∈ contributions setting plugin category analyses := by
    refine List.mem_flatMap.mpr ⟨analysis, hmem, ?_⟩
    rw [hcontributed]
    exact hentry
  rw [category_addAll hadd hd]
  exact List.mem_map.mpr ⟨(entry, _), Dict.mem_tally.mpr ⟨rfl, List.count_pos_iff.mpr hin⟩, rfl⟩

/-- The entries of a special plugin are keys with a count. -/
theorem exists_counted (hadd : addAll setting analyses .initial = some f)
    (hkey : keyOf setting.tcpStates plugin = some key)
    (hd : f.category plugin category = some d) :
    ∀ p ∈ d.items, ∃ k c, p.1 = .counted k c := by
  rintro ⟨entry, n⟩ hp
  rw [category_addAll hadd hd] at hp
  obtain ⟨hn, hpos⟩ := Dict.mem_tally.mp hp
  have hin : entry ∈ contributions setting plugin category analyses :=
    List.count_pos_iff.mp (by omega)
  obtain ⟨analysis, -, hin⟩ := List.mem_flatMap.mp hin
  cases hc : contribution setting plugin category analysis with
  | none =>
    rw [hc] at hin
    cases hin
  | some l =>
    rw [hc, Option.getD_some] at hin
    obtain ⟨result, -, hresult⟩ := Option.bind_eq_some_iff.mp hc
    cases result with
    | error value => cases hresult
    | categories cats =>
      obtain ⟨entries, -, hcounted⟩ := Option.bind_eq_some_iff.mp hresult
      rw [counted_special hkey] at hcounted
      unfold specialEntries at hcounted
      split at hcounted
      · cases hcounted
      · cases hcounted
        obtain ⟨p, -, rfl⟩ := List.mem_map.mp hin
        exact ⟨p.1, p.2, rfl⟩

end Special

end LoPhi.Noise.Learning
