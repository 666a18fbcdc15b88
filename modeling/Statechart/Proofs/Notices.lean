import Statechart.Proofs.Delivery

/-!
What the trace tells. Only a microstep or a stop tells of a change, and tells of it once. The
actions run are those of the script, in its order, each in the configuration that the commands
before it have led to.
-/
namespace Statechart

open Command (applyAll)

namespace Occurrence

def notification? : Occurrence → Option Notification
  | .noticed n => some n
  | _ => none

/-- The action run, and the configuration in which it was. -/
def deed? : Occurrence → Option (Call × Configuration)
  | .acted call _ x _ => some (call, x)
  | _ => none

end Occurrence

def Notification.change? : Notification → Option Change
  | .changed change => some change
  | _ => none

variable {σ : Type}

namespace Session

def notifications (s : Session σ) : List Notification :=
  s.trace.toList.filterMap Occurrence.notification?

def changes (s : Session σ) : List Change := s.notifications.filterMap Notification.change?

def deeds (s : Session σ) : List (Call × Configuration) := s.trace.toList.filterMap Occurrence.deed?

variable {s s' : Session σ}

theorem changes_eq_news (s : Session σ) : s.changes = s.news.filterMap Notification.change? := by
  rw [changes, notifications, news, List.filterMap_filterMap, List.filterMap_filterMap]
  congr 1
  funext o
  rcases o with - | - | - | (- | - | - | - | -) <;> rfl

theorem changes_of_news (h : s'.news = s.news) : s'.changes = s.changes := by
  rw [changes_eq_news, h, changes_eq_news]

theorem changes_record (s : Session σ) (o : Occurrence) : (s.record o).changes =
    s.changes ++ (o.notification?.bind Notification.change?).toList := by
  cases h : o.notification? with
  | none => simp [changes, notifications, record, h]
  | some n => cases hn : n.change? <;> simp [changes, notifications, record, h, hn]

theorem deeds_record (s : Session σ) (o : Occurrence) :
    (s.record o).deeds = s.deeds ++ o.deed?.toList := by
  cases h : o.deed? <;> simp [deeds, record, h]

end Session

namespace Command

/-- The actions that commands run, each with the configuration in which it is run. -/
def deeds : Configuration → List Command → List (Call × Configuration)
  | _, [] => []
  | x, .call c :: cmds => (c, x) :: deeds x cmds
  | x, cmd :: cmds => deeds (cmd.apply x) cmds

theorem deeds_append (x : Configuration) (cs ds : List Command) :
    deeds x (cs ++ ds) = deeds x cs ++ deeds (applyAll x cs) ds := by
  induction cs generalizing x with
  | nil => rfl
  | cons cmd cs ih =>
    cases cmd with
    | call c => exact congrArg ((c, x) :: ·) (ih x)
    | leave s => exact ih _
    | occupy s => exact ih _
    | announce s => exact ih _

theorem deeds_calls (x : Configuration) (phase : Phase) (s : Nat) (as : List ActionId) :
    deeds x (calls phase s as) = as.map fun a => (⟨a, phase, s⟩, x) := by
  induction as with
  | nil => rfl
  | cons a as ih => exact congrArg ((⟨a, phase, s⟩, x) :: ·) ih

end Command

namespace Engine

variable {e : Engine σ} {m m₀ : Macrostep σ} {s : Session σ} {t : Turn σ} {event : Option Event}
  {new : List Passage}

/-! ### Reporting and performing -/

theorem news_reportAll (e : Engine σ) (raise : Bool) (s : Session σ) (fs : List Fault) :
    (e.reportAll raise s fs).news = s.news := by
  induction fs generalizing s with
  | nil => rfl
  | cons f fs ih =>
    refine (ih _).trans ?_
    simp only [report]
    split <;> exact (Session.news_record _ _).trans (List.append_nil _)

theorem deeds_reportAll (e : Engine σ) (raise : Bool) (s : Session σ) (fs : List Fault) :
    (e.reportAll raise s fs).deeds = s.deeds := by
  induction fs generalizing s with
  | nil => rfl
  | cons f fs ih =>
    refine (ih _).trans ?_
    simp only [report]
    split <;> exact (Session.deeds_record _ _).trans (List.append_nil _)

theorem news_performAll (e : Engine σ) (event : Option Event) (cmds : List Command)
    (w : Session σ × List Fault) : (cmds.foldl (e.perform event) w).1.news = w.1.news := by
  induction cmds generalizing w with
  | nil => rfl
  | cons cmd cmds ih =>
    refine (ih _).trans ?_
    cases cmd with
    | call call => exact (Session.news_record _ _).trans (List.append_nil _)
    | leave q => rfl
    | occupy q => rfl
    | announce q => rfl

theorem deeds_performAll (e : Engine σ) (event : Option Event) (cmds : List Command)
    (w : Session σ × List Fault) : (cmds.foldl (e.perform event) w).1.deeds =
      w.1.deeds ++ Command.deeds w.1.configuration cmds := by
  induction cmds generalizing w with
  | nil => exact (List.append_nil _).symm
  | cons cmd cmds ih =>
    refine (ih _).trans ?_
    cases cmd with
    | call call =>
      have hone : (e.perform event w (.call call)).1.deeds =
          w.1.deeds ++ [(call, w.1.configuration)] := Session.deeds_record _ _
      rw [hone, List.append_assoc]
      rfl
    | leave q => rfl
    | occupy q => rfl
    | announce q => rfl

/-! ### Microsteps -/

/-- What is told of a script, if it changes anything. -/
def change? (e : Engine σ) (script : Script) (event : Option Event) : Option Change :=
  if script.exited.isEmpty && script.entered.isEmpty then none
  else some ⟨e.chart.namesOf script.exited, e.chart.namesOf script.entered, event.map (·.name)⟩

theorem changes_noticeChange (s : Session σ) (script : Script) (event : Option Event) :
    (e.noticeChange s script.exited script.entered event).changes =
      s.changes ++ (e.change? script event).toList := by
  unfold noticeChange change?
  split
  · exact (List.append_nil _).symm
  · exact s.changes_record _

theorem deeds_noticeChange (s : Session σ) (exited entered : List Nat) (event : Option Event) :
    (e.noticeChange s exited entered event).deeds = s.deeds := by
  unfold noticeChange
  split
  · rfl
  · exact (s.deeds_record _).trans (List.append_nil _)

theorem changes_follow (s : Session σ) (script : Script) (event : Option Event) :
    (e.follow s script event).changes = s.changes ++ (e.change? script event).toList := by
  have hperform :=
    e.news_performAll event script.commands ({ s with memory := script.memory }, [])
  rcases hf : script.commands.foldl (e.perform event) ({ s with memory := script.memory }, []) with
    ⟨s₁, faults⟩
  rw [hf] at hperform
  have hreport : (e.reportAll true s₁ faults).changes = s.changes :=
    Session.changes_of_news ((e.news_reportAll true s₁ faults).trans hperform)
  have hnotice := e.changes_noticeChange (e.reportAll true s₁ faults) script event
  rw [hreport] at hnotice
  simp only [follow, hf]
  split
  · exact (Session.changes_record _ _).trans ((List.append_nil _).trans hnotice)
  · exact hnotice

/-- A session that is stopped tells of all that it leaves, if there is anything, and runs the actions
of the script. -/
theorem told_stop (hs : s.status ≠ .idle) :
    (e.stop s).session.changes =
        s.changes ++ (e.change? (Script.stop e.chart s.configuration s.memory) none).toList ∧
      (e.stop s).session.deeds = s.deeds ++ Command.deeds s.configuration
        (Script.stop e.chart s.configuration s.memory).commands := by
  have hnews :=
    e.news_performAll none (Script.stop e.chart s.configuration s.memory).commands (s, [])
  have hdeeds :=
    e.deeds_performAll none (Script.stop e.chart s.configuration s.memory).commands (s, [])
  rcases hf : (Script.stop e.chart s.configuration s.memory).commands.foldl (e.perform none)
    (s, []) with ⟨s₁, faults⟩
  rw [hf] at hnews hdeeds
  have hreport : (e.reportAll false s₁ faults).changes = s.changes :=
    Session.changes_of_news ((e.news_reportAll false s₁ faults).trans hnews)
  have hnotice := e.changes_noticeChange (e.reportAll false s₁ faults)
    (Script.stop e.chart s.configuration s.memory) none
  rw [hreport] at hnotice
  simp only [stop_eq e hs, hf]
  refine ⟨hnotice, ?_⟩
  exact (e.deeds_noticeChange _ _ _ none).trans ((e.deeds_reportAll false s₁ faults).trans hdeeds)

/-! ### Turns -/

theorem changes_select? {ranks : List Nat} {s' : Session σ}
    (h : e.select? s event = some (ranks, s')) : s'.changes = s.changes :=
  Session.changes_of_news (news_select? h)

theorem changes_awaiting (m : Macrostep σ) (s : Session σ) :
    (awaiting m s).changes = s.changes := by
  unfold awaiting
  simp only
  split
  · exact (Session.changes_record _ _).trans (List.append_nil _)
  · rfl

/-- Nothing changes before the transitions are asked. -/
theorem Asks.changes (h : Asks e m m₀ event) : m₀.session.changes = m.session.changes := by
  cases h with
  | eventless => rfl
  | @internal s ev queues hsel _ =>
    refine (Session.changes_record _ _).trans ((List.append_nil _).trans ?_)
    exact (changes_select? hsel : s.changes = m.session.changes)
  | @external s ev queues hsel _ _ =>
    refine (Session.changes_record _ _).trans ((List.append_nil _).trans ?_)
    exact (changes_awaiting m s).trans (changes_select? hsel)

/-- A turn tells of the microstep made in it, and of no other change. -/
theorem Makes.changes (hm : Makes e m t new) : ∃ event, t.session.changes =
    m.session.changes ++ new.flatMap (fun p => (e.change? p.script event).toList) := by
  cases hm with
  | @step m₀ event ranks s script _ hasks hsel _ _ _ =>
    refine ⟨event, ?_⟩
    have hfollow := e.changes_follow s script event
    rw [changes_select? hsel, hasks.changes] at hfollow
    simpa [Turn.session] using hfollow
  | @exceeded m₀ event ranks s limit _ hasks hsel _ _ =>
    have hgive : (giveUp s limit).session.changes = s.changes :=
      (Session.changes_record _ _).trans (List.append_nil _)
    exact ⟨none, by simpa [Turn.session, changes_select? hsel, hasks.changes] using hgive⟩
  | final _ => exact ⟨none, by simp [Turn.session]⟩
  | @drop m₀ ev s _ hasks hsel =>
    have hdrop : (e.drop s ev).changes = s.changes := by
      unfold Engine.drop
      split
      · exact (Session.changes_record _ _).trans (List.append_nil _)
      · rfl
    exact ⟨none, by simpa [Turn.session, changes_select? hsel, hasks.changes] using hdrop⟩
  | @stable s _ hsel _ _ =>
    have hwait : ({ awaiting m s with queues := s.queues.drain } : Session σ).changes = s.changes :=
      changes_awaiting m s
    exact ⟨none, by simpa [Turn.session, changes_select? hsel] using hwait⟩

end Engine

end Statechart
