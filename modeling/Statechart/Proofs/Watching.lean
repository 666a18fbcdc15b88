import Statechart.Proofs.Replay

/-!
Watching a state. Observers come and go while requests are served, and each hears of what is told
while it is there. As every change fits what is active, who watches a state hears that it is active
and that it is not by turns, and what was heard last is how things are.
-/
namespace Statechart

/-! ### What one change tells of a state -/

namespace Chart.Fits

variable {c : Chart} {active : Finset String} {change : Change}

/-- A change tells nothing of a state and leaves it as it was, or tells that it is otherwise now, or
that it was left and entered again. -/
theorem activity (h : c.Fits active change) (state : String) :
    Observer.activity state change = [] ∧ (state ∈ Change.apply active change ↔ state ∈ active) ∨
    Observer.activity state change = [false] ∧ state ∈ active ∧ state ∉ Change.apply active change ∨
    Observer.activity state change = [true] ∧ state ∉ active ∧ state ∈ Change.apply active change ∨
    Observer.activity state change = [false, true] ∧ state ∈ active ∧
      state ∈ Change.apply active change := by
  by_cases hexited : state ∈ change.exited <;> by_cases hentered : state ∈ change.entered
  · simp [Observer.activity, Change.apply, hexited, hentered, h.exited_active state hexited]
  · simp [Observer.activity, Change.apply, hexited, hentered, h.exited_active state hexited]
  · have hinactive : state ∉ active := fun hactive => h.entered_inactive state hentered
      (Finset.mem_sdiff.mpr ⟨hactive, mt List.mem_toFinset.mp hexited⟩)
    simp [Observer.activity, Change.apply, hexited, hentered, hinactive]
  · simp [Observer.activity, Change.apply, hexited, hentered]

/-- What some changes tell of a state changes with every report, and ends with how it is. -/
theorem alternates {state : String} {changes : List Change}
    (hfits : ∀ earlier change later, changes = earlier ++ change :: later →
      c.Fits (earlier.foldl Change.apply active) change) :
    (decide (state ∈ active) :: changes.flatMap (Observer.activity state)).IsChain (· ≠ ·) ∧
      (changes.flatMap (Observer.activity state)).getLastD (decide (state ∈ active)) =
        decide (state ∈ changes.foldl Change.apply active) := by
  induction changes generalizing active with
  | nil => exact ⟨.singleton _, rfl⟩
  | cons change changes ih =>
    obtain ⟨hchain, hlast⟩ := @ih (Change.apply active change)
      fun earlier change' later heq =>
        hfits (change :: earlier) change' later (congrArg (change :: ·) heq)
    have hfirst : c.Fits active change := hfits [] change changes rfl
    rw [List.flatMap_cons, List.foldl_cons, ← hlast]
    rcases hfirst.activity state with
      ⟨htold, hsame⟩ | ⟨htold, hold, hnew⟩ | ⟨htold, hold, hnew⟩ | ⟨htold, hold, hnew⟩ <;>
      rw [htold]
    · simp only [hsame] at hchain ⊢
      exact ⟨hchain, rfl⟩
    all_goals
      simp only [hnew, decide_true, decide_false] at hchain
      simp [-List.getLastD_eq_getLast?, List.getLastD_cons, hold, hnew, hchain]

end Chart.Fits

/-! ### Observers -/

namespace Observers

variable {α : Type} {os : Observers α} {o : Observer α} {id : Nat}

/-- No subscription has a number that is still to be given. -/
def Numbered (os : Observers α) : Prop := ∀ entry ∈ os.entries, entry.1 < os.next

theorem numbered_empty : ({} : Observers α).Numbered := by simp [Numbered]

theorem Numbered.subscribe (h : os.Numbered) (o : Observer α) : (os.subscribe o).2.Numbered := by
  intro entry hentry
  rcases List.mem_append.mp hentry with hentry | hentry
  · exact Nat.lt_succ_of_lt (h entry hentry)
  · obtain rfl := List.mem_singleton.mp hentry
    exact Nat.lt_succ_self os.next

theorem Numbered.unsubscribe (h : os.Numbered) (id : Nat) : (os.unsubscribe id).2.Numbered :=
  fun entry hentry => h entry (List.mem_of_mem_filter hentry)

/-- The observer subscribed under a number. -/
def under (os : Observers α) (id : Nat) : List (Observer α) :=
  (os.entries.filter (·.1 == id)).map (·.2)

/-- What is reported under a number on some notifications. -/
def heard (os : Observers α) (id : Nat) (told : List Notification) : List α :=
  told.flatMap fun n => (os.under id).flatMap (· n)

theorem under_subscribe (h : os.Numbered) : (os.subscribe o).2.under os.next = [o] := by
  have hfresh : os.entries.filter (·.1 == os.next) = [] :=
    List.filter_eq_nil_iff.mpr fun entry hentry => by simp [Nat.ne_of_lt (h entry hentry)]
  simp [under, subscribe, hfresh]

theorem under_subscribe_other (h : id ≠ os.next) : (os.subscribe o).2.under id = os.under id := by
  simp [under, subscribe, h.symm]

theorem under_unsubscribe {other : Nat} (h : other ≠ id) :
    (os.unsubscribe other).2.under id = os.under id := by
  have hkept : ∀ entry : Nat × Observer α,
      (entry.1 == id && entry.1 != other) = (entry.1 == id) := by
    intro entry
    by_cases heq : entry.1 = id <;> simp [heq, h.symm]
  simp only [under, unsubscribe, List.filter_filter, hkept]

end Observers

namespace Engine

variable {σ α : Type} {e : Engine σ} {d : ChartDecl} {s s' : Session σ} {a : Answer σ}
  {os os' : Observers α} {id : Nat} {heard : List α} {state : String}

/-- Requests are served while observers other than the numbered one come and go, and this is what
the numbered one hears. -/
inductive Attends (e : Engine σ) (id : Nat) (s : Session σ) (os : Observers α) :
    Session σ → Observers α → List α → Prop
  | nothing : Attends e id s os s os []
  | served {s' : Session σ} {os' : Observers α} {heard : List α} {a : Answer σ}
      {told : List Notification} (bound : Nat) (r : Request) : Attends e id s os s' os' heard →
      e.serve? bound s' r = some a → a.session.notifications = s'.notifications ++ told →
      Attends e id s os a.session os' (heard ++ os'.heard id told)
  | subscribed {s' : Session σ} {os' : Observers α} {heard : List α} (o : Observer α) :
      Attends e id s os s' os' heard → Attends e id s os s' (os'.subscribe o).2 heard
  | unsubscribed {s' : Session σ} {os' : Observers α} {heard : List α} {other : Nat} :
      Attends e id s os s' os' heard → other ≠ id →
      Attends e id s os s' (os'.unsubscribe other).2 heard

/-- What has been told stays, and more is told behind it. -/
theorem notifications_serve? {bound : Nat} {r : Request} (h : e.serve? bound s r = some a) :
    s.notifications <+: a.session.notifications := by
  have halone := (Alike.refl e).serve? s.trace { s with trace := #[] } rfl bound r
  have hs : ({ s with trace := #[] } : Session σ).after s.trace = s := by simp [Session.after]
  rw [hs, h] at halone
  obtain ⟨b, -, rfl⟩ := Option.map_eq_some_iff.mp halone.symm
  exact ⟨b.session.notifications, by
    simp [Answer.after, Session.after, Session.notifications]⟩

namespace Attends

theorem reachable (h : Attends e id s os s' os' heard) (hs : Reachable e s) : Reachable e s' := by
  induction h with
  | nothing => exact hs
  | served bound r _ ha _ ih => exact .served bound r ih ha
  | subscribed o _ ih => exact ih
  | unsubscribed _ _ ih => exact ih

/-- It is what its observer makes of all that is told, whoever else observes. -/
theorem heard_told (h : Attends e id s os s' os' heard) (numbered : os.Numbered) (hid : id < os.next) :
    os'.Numbered ∧ id < os'.next ∧ os'.under id = os.under id ∧
      ∃ told, s'.notifications = s.notifications ++ told ∧ heard = os.heard id told := by
  induction h with
  | nothing => exact ⟨numbered, hid, rfl, [], (List.append_nil _).symm, rfl⟩
  | @served s₁ os₁ heard a told bound r _ ha htold ih =>
    obtain ⟨hnumbered, hlt, hunder, before, hbefore, rfl⟩ := ih
    refine ⟨hnumbered, hlt, hunder, before ++ told, ?_, ?_⟩
    · rw [htold, hbefore, List.append_assoc]
    · simp only [Observers.heard, hunder, List.flatMap_append]
  | subscribed o _ ih =>
    obtain ⟨hnumbered, hlt, hunder, htold⟩ := ih
    exact ⟨hnumbered.subscribe o, Nat.lt_succ_of_lt hlt,
      (Observers.under_subscribe_other (Nat.ne_of_lt hlt)).trans hunder, htold⟩
  | unsubscribed _ hne ih =>
    obtain ⟨hnumbered, hlt, hunder, htold⟩ := ih
    exact ⟨hnumbered.unsubscribe _, hlt, (Observers.under_unsubscribe hne).trans hunder, htold⟩

/-- Requests that are all served are heard of. -/
theorem served_all (os : Observers α) (id : Nat) {bound : Nat} {rs : List Request}
    (h : rs.foldlM (fun s r => (e.serve? bound s r).map (·.session)) s = some s') :
    ∃ told, s'.notifications = s.notifications ++ told ∧
      Attends e id s os s' os (os.heard id told) := by
  induction rs using List.reverseRecOn generalizing s' with
  | nil =>
    obtain rfl := Option.some.inj h
    exact ⟨[], (List.append_nil _).symm, .nothing⟩
  | append_singleton rs r ih =>
    rw [List.foldlM_append] at h
    obtain ⟨s₁, hs₁, hlast⟩ := Option.bind_eq_some_iff.mp h
    obtain ⟨s₂, hs₂, hnil⟩ := Option.bind_eq_some_iff.mp hlast
    obtain rfl := Option.some.inj hnil
    obtain ⟨a, ha, rfl⟩ := Option.map_eq_some_iff.mp hs₂
    obtain ⟨before, hbefore, hattends⟩ := ih hs₁
    obtain ⟨told, htold⟩ := notifications_serve? ha
    refine ⟨before ++ told, ?_, ?_⟩
    · rw [← htold, hbefore, List.append_assoc]
    · have hheard := hattends.served bound r ha htold.symm
      rwa [Observers.heard, Observers.heard, ← List.flatMap_append] at hheard

end Attends

/-- Who watches a state is told of its activity in every change. -/
theorem heard_of_watch {os os' : Observers Bool} (numbered : os.Numbered)
    (h : e.watch os state (fun active => active) = .ok (id, os')) (told : List Notification) :
    os'.Numbered ∧ id < os'.next ∧ os'.heard id told =
      (told.filterMap Notification.change?).flatMap (Observer.activity state) := by
  unfold watch at h
  split at h
  · obtain ⟨rfl, rfl⟩ := Prod.mk.inj (Except.ok.inj h)
    refine ⟨numbered.subscribe _, Nat.lt_succ_self os.next, ?_⟩
    have hunder := Observers.under_subscribe
      (o := Observer.onStateActive state fun active => active) numbered
    simp only [Observers.subscribe] at hunder
    simp only [Observers.heard, hunder]
    induction told with
    | nil => rfl
    | cons n told ih =>
      rw [List.flatMap_cons, ih, List.filterMap_cons]
      cases n <;> simp [Observer.onStateActive, Notification.change?]
  · cases h

/-- Whoever has heard of every change knows what is active, and nothing is told twice, out of order
or of states that it cannot be true of. So who begins to watch a state that is not active hears of
it by turns, whatever is requested and whoever else observes, and heard last how it is. -/
theorem changes_replay (hb : d.build = .ok e.chart) :
    (∀ s, Reachable e s → replay s.changes = (s.configuration.names e.chart).toFinset ∧
      ∀ earlier change later, s.changes = earlier ++ change :: later →
        e.chart.Fits (replay earlier) change) ∧
    (∀ s bound r a, e.serve? bound s r = some a → s.notifications <+: a.session.notifications) ∧
    ∀ (s : Session σ) (os os' : Observers Bool) (state : String) (id : Nat), Reachable e s →
      os.Numbered → e.watch os state (fun active => active) = .ok (id, os') →
      s.configuration.isActive e.chart state = false →
      ∀ s' os'' heard, Attends e id s os' s' os'' heard →
        (false :: heard).IsChain (· ≠ ·) ∧
          heard.getLastD false = s'.configuration.isActive e.chart state := by
  have wf := ChartDecl.wellFormed_of_build hb
  have named := ChartDecl.named_of_build hb
  have accounted {s : Session σ} (hs : Reachable e s) : Accounted e.chart s :=
    (upholds_accounted wf named).reachable hs
  have isActive {s : Session σ} (hs : Reachable e s) (state : String) :
      s.configuration.isActive e.chart state = decide (state ∈ replay s.changes) := by
    rw [(accounted hs).replay, Bool.eq_iff_iff, decide_eq_true_iff]
    exact named.isActive_iff fun i hi =>
      wf.lt_size_of_below (((invariant_below_root wf).reachable hs).1 i hi)
  refine ⟨fun s hs => ⟨(accounted hs).replay, (accounted hs).fits⟩,
    fun s bound r a h => notifications_serve? h, ?_⟩
  intro s os os' state id hs numbered hwatch hinactive s' os'' heard hattends
  have hs' := hattends.reachable hs
  obtain ⟨numbered', hid, -⟩ := heard_of_watch numbered hwatch []
  obtain ⟨-, -, -, told, htold, rfl⟩ := hattends.heard_told numbered' hid
  have hchanges : s'.changes = s.changes ++ told.filterMap Notification.change? := by
    rw [Session.changes, htold, List.filterMap_append, Session.changes]
  rw [(heard_of_watch numbered hwatch told).2.2, isActive hs' state]
  rw [isActive hs state] at hinactive
  rw [← hinactive, hchanges, replay, replay, List.foldl_append]
  refine Chart.Fits.alternates (c := e.chart) fun earlier change later heq => ?_
  have hfits := (accounted hs').fits (s.changes ++ earlier) change later
    (by rw [hchanges, heq, List.append_assoc])
  rwa [replay, List.foldl_append] at hfits

/-- Who watches the green light while the lights change twice hears that it is on, and that it is
off. -/
theorem crossing_watched : crossing.build = .ok crossing.chart ∧
    ∃ (os : Observers Bool) (s : Session Unit),
      (bare crossing.chart).watch ({} : Observers Bool) "Green" (fun active => active) =
        .ok (0, os) ∧
      Attends (bare crossing.chart) 0 { host := () } os s os [true, false] ∧
      [false, true, false].IsChain (· ≠ ·) ∧ s.configuration.isActive crossing.chart "Green" = false ∧
      replay s.changes = ["Lights", "Cars", "Red", "People", "Walk"].toFinset := by
  let e := bare crossing.chart
  let fresh : Session Unit := { host := () }
  let os : Observers Bool := ⟨1, [(0, Observer.onStateActive "Green" fun active => active)]⟩
  have hwatch : e.watch ({} : Observers Bool) "Green" (fun active => active) = .ok (0, os) := by
    have hfind : e.chart.find? "Green" = some 4 := by decide +kernel
    rw [watch, hfind]
    rfl
  have hrun : ([.start, .submit (.external "change"), .submit (.external "change")].foldlM
      (fun s r => (e.serve? 9 s r).map (·.session)) fresh).map (fun s =>
        (os.heard 0 s.notifications, s.configuration.names e.chart)) =
      some ([true, false], ["Lights", "Cars", "Red", "People", "Walk"]) := by
    decide +kernel
  obtain ⟨s, hs, hresult⟩ := Option.map_eq_some_iff.mp hrun
  obtain ⟨hheard, hnames⟩ := Prod.mk.inj hresult
  obtain ⟨told, htold, hattends⟩ := Attends.served_all os 0 hs
  obtain rfl : s.notifications = told := htold
  rw [hheard] at hattends
  obtain ⟨hreplay, -, hwatched⟩ := changes_replay (e := e) crossing_builds
  obtain ⟨hchain, hlast⟩ := hwatched fresh {} os "Green" 0 (.fresh ()) Observers.numbered_empty
    hwatch (by decide +kernel) s os [true, false] hattends
  refine ⟨crossing_builds, os, s, hwatch, hattends, hchain, hlast.symm, ?_⟩
  rw [← hnames]
  exact (hreplay s (hattends.reachable (.fresh ()))).1

end Engine

end Statechart
