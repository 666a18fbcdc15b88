import Statechart.Engine
import Statechart.Text.Quoted

/-!
A session on one line, for people.
-/
namespace Statechart

/-- The identifier of the session is passed as it is to be shown. -/
def Engine.summary {σ : Type} (e : Engine σ) (s : Session σ) (id : String) (observers : Nat) :
    String :=
  let fields := [
    "chart: " ++ Text.quoted e.chart.name,
    "status: " ++ s.status.name,
    "configuration: " ++ Text.quotedList (s.configuration.names e.chart),
    "session_id: " ++ id,
    "observers: " ++ toString observers]
  "StateChart " ++ String.ofList (Text.braced (' ' :: ((", ".intercalate fields).toList ++ [' '])))

end Statechart
