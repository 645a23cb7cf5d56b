import Flowgraph.Error

/-! Operations on a state that may fail. A failing operation hands back the state it had reached, so
what it leaves behind is part of its meaning. -/

namespace Flowgraph

abbrev Action (σ α : Type) : Type :=
  EStateM Failure σ α

namespace Action

variable {σ α β : Type}

/-- The state that an action leaves behind, whether it fails or not. -/
def after (action : Action σ α) (s : σ) : σ :=
  match action s with
  | .ok _ s' => s'
  | .error _ s' => s'

/-- What an action answers. -/
def answer (action : Action σ α) (s : σ) : Except Failure α :=
  match action s with
  | .ok a _ => .ok a
  | .error e _ => .error e

/-- The answers of actions performed one after another. A failure does not end the series: the next
action starts from the state that the failing one left. -/
def series : List (Action σ α) → σ → List (Except Failure α)
  | [], _ => []
  | action :: rest, s => action.answer s :: series rest (action.after s)

/-- The state behind a series of actions. -/
def afterSeries : List (Action σ α) → σ → σ
  | [], s => s
  | action :: rest, s => afterSeries rest (action.after s)

/-- Ends with an error and leaves the state alone. -/
@[inline] def fail (error : Error) : Action σ α :=
  fun s => .error (.error error) s

/-- Looks at the state and leaves it alone. -/
@[inline] def consult (look : σ → Except Failure α) : Action σ α := fun s =>
  match look s with
  | .ok a => .ok a s
  | .error e => .error e s

theorem after_of_ok {action : Action σ α} {s s' : σ} {a : α} (h : action s = .ok a s') :
    action.after s = s' := by
  simp [after, h]

theorem after_of_error {action : Action σ α} {s s' : σ} {e : Failure}
    (h : action s = .error e s') : action.after s = s' := by
  simp [after, h]

theorem answer_of_ok {action : Action σ α} {s s' : σ} {a : α} (h : action s = .ok a s') :
    action.answer s = .ok a := by
  simp [answer, h]

theorem answer_of_error {action : Action σ α} {s s' : σ} {e : Failure}
    (h : action s = .error e s') : action.answer s = .error e := by
  simp [answer, h]

theorem bind_run {action : Action σ α} {next : α → Action σ β} {s s' : σ} {a : α}
    (h : action s = .ok a s') : (action >>= next) s = next a s' := by
  change EStateM.bind action next s = _
  simp [EStateM.bind, h]

theorem bind_failure {action : Action σ α} {next : α → Action σ β} {s s' : σ} {e : Failure}
    (h : action s = .error e s') : (action >>= next) s = .error e s' := by
  change EStateM.bind action next s = _
  simp [EStateM.bind, h]

theorem consult_run {look : σ → Except Failure α} {s : σ} {a : α} (h : look s = .ok a) :
    consult look s = .ok a s := by
  simp [consult, h]

theorem consult_failure {look : σ → Except Failure α} {s : σ} {e : Failure}
    (h : look s = .error e) : consult look s = .error e s := by
  simp [consult, h]

theorem after_bind {action : Action σ α} {next : α → Action σ β} {s s' : σ} {a : α}
    (h : action s = .ok a s') : (action >>= next).after s = (next a).after s' := by
  simp only [after, bind_run h]

theorem afterSeries_append (actions more : List (Action σ α)) (s : σ) :
    afterSeries (actions ++ more) s = afterSeries more (afterSeries actions s) := by
  induction actions generalizing s with
  | nil => rfl
  | cons action rest ih => exact ih (action.after s)

end Action

end Flowgraph
