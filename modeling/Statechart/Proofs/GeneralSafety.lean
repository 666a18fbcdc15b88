import Statechart.Proofs.Safety

/-!
Safety of charts in general. Several initial targets of the root may be entered into regions that
were already entered by default, and a history state may be restored from inside its parent, above
the domain of the transition. A configuration may become invalid in both ways; here is exactly when.
-/
namespace Statechart.Engine

open Chart (root)

variable {σ : Type} {e : Engine σ} {s : Session σ}

theorem configuration_entered (e : Engine σ) (s : Session σ) (script : Script) :
    (e.entered s script).configuration =
      Command.applyAll StateSet.empty script.commands :=
  (e.followed_follow none _ script).configuration

/-- The first entry, whatever the initial targets of the root: it exists if no chain of history
defaults leads back to itself, makes all initial targets active, and is valid unless some compound
state has got two active regions. If targets entered together are separate that happens exactly
when the first initial target of a compound root does not bring the others along. -/
theorem first_entry_safety {d : ChartDecl} (hb : d.build = .ok e.chart) (s : Session σ) :
    (e.chart.Grounded → ∃ script, Script.start? e.chart = some script) ∧
    ∀ script x, Script.start? e.chart = some script → x = (e.entered s script).configuration →
      (∀ t ∈ e.chart.defaultEntry root, e.chart.isHistory t = false → t ∈ x) ∧
      (x.validate e.chart = .ok () ↔ e.chart.Exclusive x) ∧
      (e.chart.Separate → (e.chart.node root).isParallel = true → x.validate e.chart = .ok ()) ∧
      ∀ t ts, e.chart.Separate → e.chart.defaultEntry root = t :: ts →
        ∃ p, EntryPlan.entryOf? e.chart [t] = some p ∧
          ((e.chart.node root).isParallel = false →
            (x.validate e.chart = .ok () ↔ x = p.states)) := by
  have wf := ChartDecl.wellFormed_of_build hb
  refine ⟨Script.exists_start? wf, fun script x h hx => ?_⟩
  rw [configuration_entered] at hx
  obtain ⟨i, hi⟩ := Script.exists_result_of_start? wf h
  rw [Configuration.validate_eq_ok_iff_of_mem wf (hx ▸ hi : i ∈ x), hx]
  exact ⟨fun t ht hh => Script.mem_of_start? wf h ht hh, Script.start?_valid_iff wf h,
    fun sep hpar => Script.valid_of_start? wf sep (.inl hpar) h,
    fun t ts sep ht => Script.start?_valid_iff_first wf sep ht h⟩

/-- A parallel state of two regions, both of them named by the initial targets. -/
def crossed : ChartDecl where
  name := "Crossed"
  initial := ["x2", "y2"]
  states := [((StateDecl.parallel "p").withChild
      (((StateDecl.plain "x").withChild (.plain "x1")).withChild (.plain "x2"))).withChild
      (((StateDecl.plain "y").withChild (.plain "y1")).withChild (.plain "y2"))]

theorem crossed_first_entry : crossed.build = .ok crossed.chart ∧
    ∃ script, Script.start? crossed.chart = some script ∧
      ((bare crossed.chart).entered { host := () } script).configuration.validate crossed.chart ≠
        .ok () := by
  have hb : crossed.build = .ok crossed.chart := ChartDecl.build_eq_chart (by decide +kernel)
  have free : crossed.chart.HistoryFree := by decide +kernel
  obtain ⟨hexists, hentry⟩ :=
    first_entry_safety (e := bare crossed.chart) hb ({ host := () } : Session Unit)
  obtain ⟨script, h⟩ := hexists free.grounded
  obtain ⟨hactive, -, -, hfirst⟩ := hentry script _ h rfl
  obtain ⟨p, hp, hiff⟩ := hfirst 4 [7] free.separate (by decide +kernel)
  refine ⟨hb, script, h, fun hvalid => ?_⟩
  -- The second region is entered by default along with the first target.
  have hmem := hactive 7 (by decide +kernel) (by decide +kernel)
  have hstates : (EntryPlan.entryOf? (bare crossed.chart).chart [4]).map (·.states.toList) =
      some [1, 2, 4, 5, 6] := by decide +kernel
  rw [hp, Option.map_some, Option.some.injEq] at hstates
  rw [(hiff (by decide +kernel)).mp hvalid, ← StateSet.mem_toList, hstates] at hmem
  simp at hmem

/-- A microstep that takes the transitions selected in a valid configuration, with a memory written
on leaving valid configurations. It exists if no chain of history defaults leads back to itself, and
ends in a valid configuration exactly when nothing is missing above what is active, nothing is
entered outside the domains, and no compound state is entered twice. The first can only fail when
the exits move a domain, the last only when several transitions are taken or targets entered
together are not separate; and with history states entered from outside their parents nothing
fails. -/
theorem history_safety {d : ChartDecl} (hb : d.build = .ok e.chart) (g : e.chart.Grounded)
    (hx : s.configuration.validate e.chart = .ok ()) (hne : s.configuration.isEmpty = false)
    (faithful : s.memory.Faithful e.chart) (event : Option Event) :
    ∃ ranks ts s₁ script s', e.select? s event = some (ranks, s₁) ∧
      ts = ranks.map e.chart.transition ∧
      Script.take? e.chart s₁.configuration s₁.memory ts = some script ∧
      s' = e.follow s₁ script event ∧ s'.memory.Faithful e.chart ∧
      (s'.configuration.validate e.chart = .ok () ↔
        s'.configuration.Rooted e.chart ∧ script.Confined e.chart s.memory ts ∧
          e.chart.Exclusive (StateSet.ofList script.entered)) ∧
      (e.chart.Steady s.memory s'.memory ts → s'.configuration.Rooted e.chart) ∧
      (e.chart.Separate → ranks.length ≤ 1 →
        e.chart.Exclusive (StateSet.ofList script.entered)) ∧
      (e.chart.Separate → (∀ t ∈ ts, e.chart.EntersFromOutside t) →
        s'.configuration.validate e.chart = .ok ()) := by
  have wf := ChartDecl.wellFormed_of_build hb
  obtain ⟨i, hi⟩ := Configuration.exists_mem hne
  have hv := (Configuration.validate_eq_ok_iff_of_mem wf hi).mp hx
  have sound := faithful.sound wf
  obtain ⟨ranks, s₁, hsel⟩ := exists_select? wf g event
  obtain ⟨hsame, -, -⟩ := e.select?_spec hsel
  have hoff := offers_of_select? hsel
  rw [hsame.configuration, hsame.memory] at hoff
  have ready := ready_of_offers wf hv hoff
  obtain ⟨script, hscript⟩ := Script.exists_take? wf g hv.real sound.proper ready.declared
  obtain ⟨exits, outside, plan, made⟩ := Script.made_of_take? hscript
  have hfollow := e.followed_follow event s₁ script
  obtain ⟨j, hj⟩ := Script.Made.exists_result wf hv sound ready made hi
  have hlone (sep : e.chart.Separate) :
      ∀ t ∈ ranks.map e.chart.transition, e.chart.Lone t.targets := by
    intro t ht
    obtain ⟨r, hr, rfl⟩ := List.mem_map.mp ht
    exact sep.targets r (lt_size_of_offers wf hoff r hr)
  refine ⟨ranks, _, s₁, script, _, hsel, rfl, ?_, rfl, ?_, ?_⟩
  · rwa [hsame.configuration, hsame.memory]
  · rw [hfollow.memory]
    exact Script.Made.memory_faithful wf hv made faithful
  · rw [hfollow.configuration, hfollow.memory, hsame.configuration,
      Configuration.validate_eq_ok_iff_of_mem wf hj]
    exact ⟨Script.Made.valid_iff_confined wf hv sound ready made,
      Script.Made.rooted_of_steady wf hv sound ready made,
      fun sep hone => Script.Made.exclusive_entered wf hv sound ready made sep (hlone sep)
        (by simpa using hone),
      fun sep out => Script.Made.valid_of_entersFromOutside wf hv sound ready made sep (hlone sep)
        out⟩

/-- A history state entered from below its parent. -/
def returning : ChartDecl where
  name := "Returning"
  states := [
    ((StateDecl.parallel "p").withChild
      (((StateDecl.plain "x").withChild ((StateDecl.plain "x1").withTransition
        (.simple "back" "h"))).withChild (.plain "x2"))).withChild
      (((StateDecl.plain "y").withChild (.plain "y1")).withChild (.plain "y2")),
    (StateDecl.history "h" .shallow).withInitial "x2"]

theorem returning_grounded : returning.chart.Grounded :=
  Chart.grounded_of_leads (by decide +kernel)

/-- The history state takes effect inside one region, and the other is entered all the same. -/
theorem returning_not_valid : returning.build = .ok returning.chart ∧ returning.chart.Grounded ∧
    ∃ (s s₁ : Session Unit) (ranks : List Nat) (script : Script),
      s.configuration.validate returning.chart = .ok () ∧ s.configuration.isEmpty = false ∧
      s.memory.Faithful returning.chart ∧
      (bare returning.chart).select? s (some (.external "back")) = some (ranks, s₁) ∧
      Script.take? returning.chart s₁.configuration s₁.memory
        (ranks.map returning.chart.transition) = some script ∧
      ((bare returning.chart).follow s₁ script (some (.external "back"))).configuration.validate
        returning.chart ≠ .ok () := by
  have hb : returning.build = .ok returning.chart := ChartDecl.build_eq_chart (by decide +kernel)
  let s : Session Unit := { host := (), status := .awaitingExternal,
                            configuration := StateSet.ofList [1, 2, 3, 5, 7] }
  have hx : s.configuration.validate (bare returning.chart).chart = .ok () := by decide +kernel
  have hempty : s.configuration.isEmpty = false := by decide
  have hfaithful : s.memory.Faithful (bare returning.chart).chart := Memory.faithful_empty _
  obtain ⟨ranks, ts, s₁, script, s', hsel, rfl, htake, rfl, -, hiff, -⟩ :=
    history_safety (e := bare returning.chart) hb returning_grounded hx hempty hfaithful
      (some (.external "back"))
  refine ⟨hb, returning_grounded, s, s₁, ranks, script, hx, hempty, hfaithful, hsel, htake,
    fun hvalid => ?_⟩
  obtain ⟨-, hconf, -⟩ := hiff.mp hvalid
  have hranks : ((bare returning.chart).select? s (some (.external "back"))).map (·.1) =
      some [0] := by decide +kernel
  rw [hsel, Option.map_some, Option.some.injEq] at hranks
  simp only at hranks
  subst hranks
  obtain ⟨hsame, -, -⟩ := (bare returning.chart).select?_spec hsel
  rw [hsame.configuration, hsame.memory] at htake
  have hentered : (Script.take? (bare returning.chart).chart s.configuration s.memory
      (List.map (bare returning.chart).chart.transition [0])).map (·.entered) = some [4, 6] := by
    decide +kernel
  rw [htake, Option.map_some, Option.some.injEq] at hentered
  obtain ⟨t, ht, d, hd, hbelow⟩ := hconf 6 (by simp [hentered])
  obtain rfl : t = returning.chart.transition 0 := List.mem_singleton.mp ht
  have hdomain : returning.chart.domain? s.memory (returning.chart.transition 0) =
      some (some 2) := by decide +kernel
  obtain rfl : 2 = d := Option.some.inj (Option.some.inj (hdomain.symm.trans hd))
  exact absurd (Ancestry.isDescendant_iff.mpr hbelow) (by decide +kernel)

end Statechart.Engine
